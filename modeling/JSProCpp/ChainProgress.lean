import JSProCpp.ChainOutcomes

/- Nothing that a chain still has to do is forgotten: whatever the shared state owes, a waiting
   instruction pays, and the threads come to rest. -/
namespace ChainLinks
open Transitions Interleaving PromiseCells
variable {K V E : Type}

abbrev Untouched (s : State V E) (p : Pid) : Prop := (s.cells p).untouched

inductive Debt where
  | store (p : Pid)
  | claim (p : Pid)
  | clear (p : Pid)
  | awaiter (a : Awaiter)
  | refused (i : Nat)
  | wrapped (i : Nat)
  | answered (p : Pid)

/-- The promise is settled with what its coroutine returns or throws. -/
def Returns (c : Chain K V E) (s : State V E) (p : Pid) : Prop :=
  (p = .promise 0 ∧ c.kind = .coroutine) ∨
    ∃ i r l, s.asked i = some (p, r) ∧ c.links[i]? = some l ∧ l.mode = .coroutine

def Waits (c : Chain K V E) (s : State V E) : Awaiter → Prop
  | .link i =>
      i < s.begun ∧ s.asked i = none ∧ s.kept i = none ∧ Untouched s (.promise (i + 1))
  | .resume i => c.wraps i = true ∧ s.kept i ≠ none ∧ s.running (.wrapper i) = true
  | .resolves i => s.kept i ≠ none ∧ Untouched s (.resolves i)
  | .rejects i => s.kept i ≠ none ∧ Untouched s (.rejects i)

def Owed (c : Chain K V E) (s : State V E) : Debt → Prop
  | .store p => (s.cells p).storing
  | .claim p => (s.cells p).rejecting
  | .clear p => (s.cells p).handle = true ∧ s.running p = false
  | .awaiter a => Waits c s a ∧ a ∉ (s.cells (c.source a)).awaiters
  | .refused i => s.kept i ≠ none ∧ s.asked i = none ∧ Untouched s (.reply i)
  | .wrapped i =>
      c.wraps i = true ∧ s.kept i ≠ none ∧ s.running (.wrapper i) = false ∧
        Untouched s (.wrapper i)
  | .answered p => Returns c s p ∧ s.running p = false ∧ Untouched s p

def Drives (a : Awaiter) (x : Instr V E) : Prop :=
  x = .attach a ∨ (∃ done, x = .run a done) ∨ ∃ i, a = .resume i ∧ x = .ready i

def Awaiter.target : Awaiter → Pid
  | .link i => .promise (i + 1)
  | .resume i => .wrapper i
  | .resolves i => .resolves i
  | .rejects i => .rejects i

def Pays : Debt → Instr V E → Prop
  | .store p, x => ∃ o, x = .settling (.store p o)
  | .claim p, x => ∃ o, x = .settling (.claim p o)
  | .clear p, x => x = .settling (.clear p)
  | .awaiter a, x => Drives a x ∨ ((∀ i, a ≠ .resume i) ∧ Enters Instr.settling a.target x)
  | .refused i, x => Enters Instr.settling (.reply i) x
  | .wrapped i, x => Enters Instr.settling (.wrapper i) x
  | .answered p, x => Enters Instr.settling p x

section Debts
variable {c : Chain K V E} {s t : State V E} {d : Debt} {i : Nat} {p : Pid} {a : Awaiter}

theorem pays_awaiter {x : Instr V E} (quiet : ∀ k, x ≠ .settling k) (pays : Pays d x) :
    ∃ a, d = .awaiter a ∧ Drives a x := by
  have enters : ∀ q, ¬Enters Instr.settling q x := by
    rintro q ⟨o, same | same⟩
    · exact quiet _ same
    · exact quiet _ same
  cases d with
  | store p =>
    obtain ⟨o, same⟩ := pays
    exact absurd same (quiet _)
  | claim p =>
    obtain ⟨o, same⟩ := pays
    exact absurd same (quiet _)
  | clear p => exact absurd pays (quiet _)
  | awaiter a =>
    rcases pays with drives | ⟨_, same⟩
    · exact ⟨a, rfl, drives⟩
    · exact absurd same (enters _)
  | refused i => exact absurd pays (enters _)
  | wrapped i => exact absurd pays (enters _)
  | answered p => exact absurd pays (enters _)

theorem pays_run {done : Bool} (pays : Pays d (.run a done : Instr V E)) : d = .awaiter a := by
  obtain ⟨b, rfl, attach | ⟨_, run⟩ | ⟨_, _, ready⟩⟩ := pays_awaiter (by simp) pays
  · simp at attach
  · rw [Instr.run.injEq] at run
    rw [run.1]
  · simp at ready

theorem pays_attach (pays : Pays d (.attach a : Instr V E)) : d = .awaiter a := by
  obtain ⟨b, rfl, attach | ⟨_, run⟩ | ⟨_, _, ready⟩⟩ := pays_awaiter (by simp) pays
  · rw [Instr.attach.injEq] at attach
    rw [attach]
  · simp at run
  · simp at ready

theorem pays_ready (pays : Pays d (.ready i : Instr V E)) : d = .awaiter (.resume i) := by
  obtain ⟨b, rfl, attach | ⟨_, run⟩ | ⟨_, rfl, ready⟩⟩ := pays_awaiter (by simp) pays
  · simp at attach
  · simp at run
  · rw [Instr.ready.injEq] at ready
    rw [ready]

theorem pays_returned (pays : Pays d (.returned : Instr V E)) : False := by
  obtain ⟨b, rfl, attach | ⟨_, run⟩ | ⟨_, _, ready⟩⟩ := pays_awaiter (by simp) pays
  · simp at attach
  · simp at run
  · simp at ready

theorem called_owed (l : Link K V E) (o : Result V E) :
    Owed c (s.called i l c.exceptions o) d ↔ Owed c s d := by
  unfold State.called
  split
  · cases d with
    | awaiter a => cases a <;> exact Iff.rfl
    | _ => exact Iff.rfl
  · exact Iff.rfl

theorem start_untouched (q : Pid) : Untouched (s.start p) q ↔ Untouched s q := by
  obtain ⟨_, _, resolved, rejected, _⟩ := start_cell (s := s) p q
  simp only [Cell.untouched, resolved, rejected]

theorem start_away {q : Pid} (other : q ≠ p) :
    (s.start p).cells q = s.cells q ∧ (s.start p).running q = s.running q :=
  ⟨Family.put_away other, Function.update_of_ne other _ _⟩

theorem start_waits (waits : Waits c (s.start p) a) :
    Waits c s a ∨ ∃ i, p = .wrapper i ∧ a = .resume i := by
  cases a with
  | link i => exact .inl ⟨waits.1, waits.2.1, waits.2.2.1, (start_untouched _).mp waits.2.2.2⟩
  | resume i =>
    by_cases here : p = .wrapper i
    · exact .inr ⟨i, here, rfl⟩
    · have still := (start_away (s := s) (Ne.symm here)).2
      exact .inl ⟨waits.1, waits.2.1, still ▸ waits.2.2⟩
  | resolves i => exact .inl ⟨waits.1, (start_untouched _).mp waits.2⟩
  | rejects i => exact .inl ⟨waits.1, (start_untouched _).mp waits.2⟩

/-- A coroutine that starts owes nothing before it ends; the one of `exception_wrapper` waits
    for the handler's promise. -/
theorem start_owed (owed : Owed c (s.start p) d) :
    (Owed c s d ∧ ∀ i, p = .wrapper i → d ≠ .wrapped i) ∨
      ∃ i, p = .wrapper i ∧ d = .awaiter (.resume i) := by
  cases d with
  | store q =>
    obtain ⟨outcome, _, resolved, _⟩ := start_cell (s := s) p q
    simp only [Owed, Cell.storing, outcome, resolved] at owed
    exact .inl ⟨owed, by simp⟩
  | claim q =>
    obtain ⟨_, _, resolved, rejected, _⟩ := start_cell (s := s) p q
    simp only [Owed, Cell.rejecting, resolved, rejected] at owed
    exact .inl ⟨owed, by simp⟩
  | clear q =>
    obtain ⟨held, ended⟩ := owed
    by_cases here : q = p
    · subst here
      simp [State.start] at ended
    · obtain ⟨cell, still⟩ := start_away (s := s) here
      exact .inl ⟨⟨cell ▸ held, still ▸ ended⟩, by simp⟩
  | awaiter a =>
    obtain ⟨waits, absent⟩ := owed
    rw [(start_cell p _).2.1] at absent
    rcases start_waits waits with old | ⟨i, here, rfl⟩
    · exact .inl ⟨⟨old, absent⟩, by simp⟩
    · exact .inr ⟨i, here, rfl⟩
  | refused i => exact .inl ⟨⟨owed.1, owed.2.1, (start_untouched _).mp owed.2.2⟩, by simp⟩
  | wrapped i =>
    obtain ⟨wraps, kept, ended, untouched⟩ := owed
    left
    by_cases here : p = .wrapper i
    · subst here
      simp [State.start] at ended
    · have still := (start_away (s := s) (Ne.symm here)).2
      refine ⟨⟨wraps, kept, still ▸ ended, (start_untouched _).mp untouched⟩, fun j same => ?_⟩
      rintro ⟨⟩
      exact here same
  | answered q =>
    obtain ⟨returns, ended, untouched⟩ := owed
    have other : q ≠ p := by
      rintro rfl
      simp [State.start] at ended
    have still := (start_away (s := s) other).2
    exact .inl ⟨⟨returns, still ▸ ended, (start_untouched _).mp untouched⟩, by simp⟩

theorem ask_owed {r : Result V E} (plain : ∀ j, p ≠ .wrapper j) (owed : Owed c (s.ask i p r) d) :
    Owed c s d ∧ d ≠ .awaiter (.link i) ∧ d ≠ .refused i := by
  have here : (s.ask i p r).asked i = some (p, r) := Function.update_self _ _ _
  have asked : ∀ j, (s.ask i p r).asked j = none → s.asked j = none := by
    intro j free
    by_cases same : j = i
    · subst same
      simp [here] at free
    · have still : (s.ask i p r).asked j = s.asked j := Function.update_of_ne same _ _
      exact still ▸ free
  have before : Owed c (s.start p) d ∧ d ≠ .awaiter (.link i) ∧ d ≠ .refused i := by
    cases d with
    | store q => exact ⟨owed, by simp, by simp⟩
    | claim q => exact ⟨owed, by simp, by simp⟩
    | clear q => exact ⟨owed, by simp, by simp⟩
    | wrapped j => exact ⟨owed, by simp, by simp⟩
    | answered q =>
      obtain ⟨returns, ended, untouched⟩ := owed
      refine ⟨⟨returns.imp id ?_, ended, untouched⟩, by simp, by simp⟩
      rintro ⟨j, r', l, there, link⟩
      have other : j ≠ i := by
        rintro rfl
        rw [here, Option.some.injEq, Prod.mk.injEq] at there
        rw [← there.1] at ended
        simp [State.ask, State.start] at ended
      have still : (s.ask i p r).asked j = s.asked j := Function.update_of_ne other _ _
      exact ⟨j, r', l, still ▸ there, link⟩
    | refused j =>
      obtain ⟨kept, free, untouched⟩ := owed
      refine ⟨⟨kept, asked j free, untouched⟩, by simp, ?_⟩
      rintro ⟨⟩
      simp [here] at free
    | awaiter a =>
      cases a with
      | link j =>
        obtain ⟨⟨begun, free, kept, untouched⟩, absent⟩ := owed
        refine ⟨⟨⟨begun, asked j free, kept, untouched⟩, absent⟩, ?_, by simp⟩
        rintro ⟨⟩
        simp [here] at free
      | resume j => exact ⟨owed, by simp, by simp⟩
      | resolves j => exact ⟨owed, by simp, by simp⟩
      | rejects j => exact ⟨owed, by simp, by simp⟩
  rcases start_owed before.1 with ⟨old, _⟩ | ⟨j, wrapper, _⟩
  · exact ⟨old, before.2⟩
  · exact absurd wrapper (plain j)

/-- The debts that come with the inner `Then` and `Catch` of link `i`. -/
def Chains (c : Chain K V E) (i : Nat) : Debt → Prop
  | .awaiter (.resume j) => j = i ∧ c.wraps i = true
  | .awaiter (.resolves j) => j = i
  | .awaiter (.rejects j) => j = i
  | .refused j => j = i
  | .wrapped j => j = i ∧ c.wraps i = true
  | _ => False

theorem keep_owed {o : Result V E} (owed : Owed c (s.keep i o) d) :
    (Owed c s d ∧ d ≠ .awaiter (.link i)) ∨ Chains c i d := by
  have kept : ∀ j, (s.keep i o).kept j ≠ none → s.kept j ≠ none ∨ j = i := by
    intro j there
    by_cases same : j = i
    · exact .inr same
    · have still : (s.keep i o).kept j = s.kept j := Function.update_of_ne same _ _
      exact .inl (still ▸ there)
  cases d with
  | store q => exact .inl ⟨owed, by simp⟩
  | claim q => exact .inl ⟨owed, by simp⟩
  | clear q => exact .inl ⟨owed, by simp⟩
  | answered q => exact .inl ⟨owed, by simp⟩
  | refused j => exact (kept j owed.1).imp (fun old => ⟨⟨old, owed.2⟩, by simp⟩) id
  | wrapped j =>
    rcases kept j owed.2.1 with old | rfl
    · exact .inl ⟨⟨owed.1, old, owed.2.2⟩, by simp⟩
    · exact .inr ⟨rfl, owed.1⟩
  | awaiter a =>
    obtain ⟨waits, absent⟩ := owed
    cases a with
    | link j =>
      obtain ⟨begun, free, unkept, untouched⟩ := waits
      have other : j ≠ i := by
        rintro rfl
        simp [State.keep] at unkept
      have still : (s.keep i o).kept j = s.kept j := Function.update_of_ne other _ _
      exact .inl ⟨⟨⟨begun, free, still ▸ unkept, untouched⟩, absent⟩, by simpa using other⟩
    | resume j =>
      rcases kept j waits.2.1 with old | rfl
      · exact .inl ⟨⟨⟨waits.1, old, waits.2.2⟩, absent⟩, by simp⟩
      · exact .inr ⟨rfl, waits.1⟩
    | resolves j =>
      exact (kept j waits.1).imp (fun old => ⟨⟨⟨old, waits.2⟩, absent⟩, by simp⟩) id
    | rejects j =>
      exact (kept j waits.1).imp (fun old => ⟨⟨⟨old, waits.2⟩, absent⟩, by simp⟩) id

theorem ended_owed (owed : Owed c (s.ended p) d) :
    (Owed c s d ∧ ∀ i, p = .wrapper i → d ≠ .awaiter (.resume i)) ∨ d = .clear p ∨
      (∃ i, p = .wrapper i ∧ d = .wrapped i) ∨ (d = .answered p ∧ Returns c s p) := by
  have still : ∀ q, q ≠ p → (s.ended p).running q = s.running q :=
    fun q other => Function.update_of_ne other _ _
  have past : (s.ended p).running p = false := Function.update_self _ _ _
  cases d with
  | store q => exact .inl ⟨owed, by simp⟩
  | claim q => exact .inl ⟨owed, by simp⟩
  | refused j => exact .inl ⟨owed, by simp⟩
  | clear q =>
    by_cases here : q = p
    · exact .inr (.inl (by rw [here]))
    · exact .inl ⟨⟨owed.1, still q here ▸ owed.2⟩, by simp⟩
  | wrapped j =>
    by_cases here : p = .wrapper j
    · exact .inr (.inr (.inl ⟨j, here, rfl⟩))
    · left
      have same := still (.wrapper j) (Ne.symm here)
      exact ⟨⟨owed.1, owed.2.1, same ▸ owed.2.2.1, owed.2.2.2⟩, by simp⟩
  | answered q =>
    by_cases here : q = p
    · subst here
      exact .inr (.inr (.inr ⟨rfl, owed.1⟩))
    · exact .inl ⟨⟨owed.1, still q here ▸ owed.2.1, owed.2.2⟩, by simp⟩
  | awaiter a =>
    obtain ⟨waits, absent⟩ := owed
    left
    cases a with
    | link j => exact ⟨⟨waits, absent⟩, by simp⟩
    | resolves j => exact ⟨⟨waits, absent⟩, by simp⟩
    | rejects j => exact ⟨⟨waits, absent⟩, by simp⟩
    | resume j =>
      have other : Pid.wrapper j ≠ p := by
        rintro rfl
        exact absurd waits.2.2 (by simp [past])
      refine ⟨⟨⟨waits.1, waits.2.1, still _ other ▸ waits.2.2⟩, absent⟩, fun i same => ?_⟩
      rintro ⟨⟩
      exact other same.symm

theorem register_owed (owed : Owed c (s.register (c.source a) a) d) :
    Owed c s d ∧ d ≠ .awaiter a := by
  have flags : ∀ q, ((s.register (c.source a) a).cells q).resolved = (s.cells q).resolved ∧
      ((s.register (c.source a) a).cells q).rejected = (s.cells q).rejected :=
    fun q => Family.register_flags q
  have outcome : ∀ q, ((s.register (c.source a) a).cells q).outcome = (s.cells q).outcome :=
    fun q => Family.register_outcome q
  have untouched : ∀ q, Untouched (s.register (c.source a) a) q → Untouched s q :=
    fun q still => ⟨(flags q).1 ▸ still.1, (flags q).2 ▸ still.2⟩
  cases d with
  | store q => exact ⟨⟨(flags q).1 ▸ owed.1, outcome q ▸ owed.2⟩, by simp⟩
  | claim q => exact ⟨⟨(flags q).2 ▸ owed.1, (flags q).1 ▸ owed.2⟩, by simp⟩
  | clear q =>
    have held : ((s.register (c.source a) a).cells q).handle = (s.cells q).handle :=
      Family.register_handle q
    exact ⟨⟨held ▸ owed.1, owed.2⟩, by simp⟩
  | refused j => exact ⟨⟨owed.1, owed.2.1, untouched _ owed.2.2⟩, by simp⟩
  | wrapped j => exact ⟨⟨owed.1, owed.2.1, owed.2.2.1, untouched _ owed.2.2.2⟩, by simp⟩
  | answered q => exact ⟨⟨owed.1, owed.2.1, untouched _ owed.2.2⟩, by simp⟩
  | awaiter b =>
    obtain ⟨waits, absent⟩ := owed
    refine ⟨⟨?_, fun there => absent (Family.register_keeps there)⟩, ?_⟩
    · cases b with
      | link j => exact ⟨waits.1, waits.2.1, waits.2.2.1, untouched _ waits.2.2.2⟩
      | resume j => exact waits
      | resolves j => exact ⟨waits.1, untouched _ waits.2⟩
      | rejects j => exact ⟨waits.1, untouched _ waits.2⟩
    · rintro ⟨⟩
      exact absent Family.register_new

end Debts

section Payments
variable {c : Chain K V E} {s t : State V E} {is : List (Instr V E)} {d : Debt}

theorem asked_plain (inv : Inv c s) {i : Nat} {p : Pid} {r : Result V E}
    (asked : s.asked i = some (p, r)) (j : Nat) : p ≠ .wrapper j := by
  rcases (inv.asked i p r asked).place with rfl | ⟨rfl, _⟩
  · simp
  · simp

theorem wrapper_returns (inv : Inv c s) (i : Nat) : ¬Returns c s (.wrapper i) := by
  rintro (⟨source, _⟩ | ⟨j, r, l, asked, _⟩)
  · simp at source
  · exact asked_plain inv asked i rfl

theorem asked_once (inv : Inv c s) {i j : Nat} {p : Pid} {r r' : Result V E}
    (asked : s.asked i = some (p, r)) (again : s.asked j = some (p, r')) : i = j := by
  rcases (inv.asked i p r asked).place with rfl | ⟨rfl, _⟩
  · rcases (inv.asked j _ r' again).place with same | ⟨same, _⟩
    · simpa using same
    · simp at same
  · rcases (inv.asked j _ r' again).place with same | ⟨same, _⟩
    · simp at same
    · simpa using same

theorem asked_source (inv : Inv c s) {i : Nat} {r : Result V E} :
    s.asked i ≠ some (.promise 0, r) := by
  intro asked
  rcases (inv.asked i _ r asked).place with same | ⟨same, _⟩
  · simp at same
  · simp at same

theorem source_returns (inv : Inv c s) {o : Option (Result V E)} (ends : c.kind.ends o = true)
    (returns : Returns c s (.promise 0)) : o ≠ none := by
  rcases returns with ⟨_, coroutine⟩ | ⟨i, r, l, asked, _⟩
  · rw [coroutine] at ends
    exact Option.isSome_iff_ne_none.mp ends
  · exact absurd asked (asked_source inv)

theorem asked_returns (inv : Inv c s) {i : Nat} {p : Pid} {r : Result V E} {l : Link K V E}
    {threw : Bool} {o : Option (Result V E)} (asked : s.asked i = some (p, r))
    (here : c.links[i]? = some l) (ends : l.mode.ends threw r = some o)
    (returns : Returns c s p) : o ≠ none := by
  rcases returns with ⟨rfl, _⟩ | ⟨j, r', l', asked', here', coroutine⟩
  · exact absurd asked (asked_source inv)
  · obtain rfl := asked_once inv asked asked'
    rw [here, Option.some.injEq] at here'
    rw [here', coroutine] at ends
    simp only [Mode.ends, Option.some.injEq] at ends
    simp [← ends]

theorem settling_injective : Function.Injective (.settling : _ → Instr V E) :=
  fun _ _ => Instr.settling.inj

theorem settling_pays {k : Settling Pid (Val V) E} (fresh : Fresh (s.cells k.cell) k)
    (owed : Owed c { s with cells := s.cells.settle k } d) :
    (∃ x ∈ ((settle (s.cells k.cell) k).next.map .settling ++
        (settle (s.cells k.cell) k).flushed.map fun a => .run a false : List (Instr V E)),
      Pays d x) ∨ (Owed c s d ∧ ¬Pays d (.settling k : Instr V E)) := by
  have grows : ∀ p, Grows (s.cells p) (s.cells.settle k p) := Family.grows_settle fresh
  have next : ∀ j ∈ (settle (s.cells k.cell) k).next,
      (.settling j : Instr V E) ∈ (settle (s.cells k.cell) k).next.map .settling ++
        (settle (s.cells k.cell) k).flushed.map fun a => .run a false :=
    fun j there => List.mem_append_left _ (List.mem_map_of_mem there)
  have untouched : ∀ p, Untouched { s with cells := s.cells.settle k } p → Untouched s p :=
    fun p after => untouched_before (grows p) after
  have entered : ∀ p, Untouched { s with cells := s.cells.settle k } p →
      ¬Enters Instr.settling p (.settling k : Instr V E) :=
    fun p after => Family.entered_touched settling_injective after
  cases d with
  | store p =>
    rcases Family.store_owed settling_injective owed with ⟨j, new, o, same⟩ | kept
    · exact .inl ⟨_, next j new, o, same⟩
    · exact .inr kept
  | claim p =>
    rcases Family.claim_owed settling_injective owed with ⟨j, new, o, same⟩ | kept
    · exact .inl ⟨_, next j new, o, same⟩
    · exact .inr kept
  | clear p =>
    obtain ⟨held, ended⟩ := owed
    obtain ⟨before, other⟩ := Family.handle_settle held
    refine .inr ⟨⟨before, ended⟩, fun clears => ?_⟩
    rw [Pays, Instr.settling.injEq] at clears
    exact other clears
  | refused i =>
    obtain ⟨kept, free, after⟩ := owed
    exact .inr ⟨⟨kept, free, untouched _ after⟩, entered _ after⟩
  | wrapped i =>
    obtain ⟨wraps, kept, ended, after⟩ := owed
    exact .inr ⟨⟨wraps, kept, ended, untouched _ after⟩, entered _ after⟩
  | answered p =>
    obtain ⟨returns, ended, after⟩ := owed
    exact .inr ⟨⟨returns, ended, untouched _ after⟩, entered _ after⟩
  | awaiter a =>
    obtain ⟨waits, absent⟩ := owed
    -- the awaiter was in the list before, and then the flush runs it, or it was not
    by_cases there : a ∈ (s.cells (c.source a)).awaiters
    · obtain ⟨_, moved⟩ := Family.settle_gone there absent
      exact .inl ⟨.run a false, List.mem_append_right _ (List.mem_map.mpr ⟨a, moved, rfl⟩),
        .inl (.inr (.inl ⟨false, rfl⟩))⟩
    · have still : Waits c s a ∧
          ((∀ i, a ≠ .resume i) → ¬Enters Instr.settling a.target (.settling k : Instr V E)) := by
        cases a with
        | link i =>
          obtain ⟨begun, free, unkept, after⟩ := waits
          exact ⟨⟨begun, free, unkept, untouched _ after⟩, fun _ => entered _ after⟩
        | resume i => exact ⟨waits, fun other => absurd rfl (other i)⟩
        | resolves i => exact ⟨⟨waits.1, untouched _ waits.2⟩, fun _ => entered _ waits.2⟩
        | rejects i => exact ⟨⟨waits.1, untouched _ waits.2⟩, fun _ => entered _ waits.2⟩
      refine .inr ⟨⟨still.1, there⟩, ?_⟩
      rintro (drives | ⟨other, enters⟩)
      · rcases drives with attach | ⟨_, run⟩ | ⟨_, _, ready⟩
        · simp at attach
        · simp at run
        · simp at ready
      · exact still.2 other enters

theorem inner_pays {i : Nat} (chains : Chains c i d) :
    (∃ x ∈ (inner i : List (Instr V E)), Pays d x) ∨ d = .refused i ∨
      (c.wraps i = true ∧ (d = .awaiter (.resume i) ∨ d = .wrapped i)) := by
  cases d with
  | store p => exact absurd chains id
  | claim p => exact absurd chains id
  | clear p => exact absurd chains id
  | refused j => exact .inr (.inl (by rw [show j = i from chains]))
  | wrapped j =>
    obtain ⟨rfl, wraps⟩ := chains
    exact .inr (.inr ⟨wraps, .inr rfl⟩)
  | answered p => exact absurd chains id
  | awaiter a =>
    cases a with
    | link j => exact absurd chains id
    | resume j =>
      obtain ⟨rfl, wraps⟩ := chains
      exact .inr (.inr ⟨wraps, .inl rfl⟩)
    | resolves j =>
      obtain rfl : j = i := chains
      exact .inl ⟨.attach (.resolves j), by simp [inner], .inl (.inl rfl)⟩
    | rejects j =>
      obtain rfl : j = i := chains
      exact .inl ⟨.attach (.rejects j), by simp [inner], .inl (.inl rfl)⟩

theorem run_unpaid {a : Awaiter} {done : Bool} (owed : Owed c s d) (other : d ≠ .awaiter a) :
    (∃ x ∈ is, Pays d x) ∨ (Owed c s d ∧ ¬Pays d (.run a done : Instr V E)) :=
  .inr ⟨owed, fun pays => other (pays_run pays)⟩

theorem follow_pays {i : Nat} {o r : Result V E} {l : Link K V E}
    (owed : Owed c (((s.called i l c.exceptions o).keep i o).ask i (.reply i) r) d) :
    (∃ x ∈ (inner i : List (Instr V E)), Pays d x) ∨
      (c.wraps i = true ∧ (d = .awaiter (.resume i) ∨ d = .wrapped i)) ∨
      (Owed c s d ∧ d ≠ .awaiter (.link i)) := by
  obtain ⟨kept, notLink, answered⟩ := ask_owed (by simp) owed
  rcases keep_owed kept with ⟨old, _⟩ | chains
  · exact .inr (.inr ⟨(called_owed l o).mp old, notLink⟩)
  · rcases inner_pays (V := V) (E := E) chains with pays | refused | wraps
    · exact .inl pays
    · exact absurd refused answered
    · exact .inr (.inl wraps)

theorem did_pays {x : Instr V E} (inv : Inv c s) (fit : Fit c s x) (known : Known s x)
    (did : c.Did s x t is) (owed : Owed c t d) :
    (∃ y ∈ is, Pays d y) ∨ (Owed c s d ∧ ¬Pays d x) := by
  cases did with
  | settling k => exact settling_pays known owed
  | through a done =>
    by_cases pays : Pays d (.attach a : Instr V E)
    · obtain rfl := pays_attach pays
      exact .inl ⟨.run a true, List.mem_cons_self, .inl (.inr (.inl ⟨true, rfl⟩))⟩
    · exact .inr ⟨owed, pays⟩
  | register a pending =>
    obtain ⟨old, other⟩ := register_owed owed
    exact .inr ⟨old, fun pays => other (pays_attach pays)⟩
  | missing a done lacks => exact absurd (fit_ready inv fit) lacks
  | settle i done l o r here before body =>
    have old := (called_owed l o).mp owed
    by_cases link : d = .awaiter (.link i)
    · subst link
      exact .inl ⟨_, List.mem_cons_self, .inr ⟨by simp, enters_settling _ _ r⟩⟩
    · exact run_unpaid old link
  | become i done l o r here before body =>
    obtain ⟨old, notLink, _⟩ := ask_owed (by simp) owed
    exact run_unpaid ((called_owed l o).mp old) notLink
  | follow i done l o r here before body plain =>
    rcases follow_pays owed with pays | ⟨wraps, _⟩ | ⟨old, notLink⟩
    · exact .inl pays
    · simp [plain] at wraps
    · exact run_unpaid old notLink
  | wrap i done l o r here before body wraps =>
    have resumed : ∃ y ∈ (.ready i :: inner i : List (Instr V E)), Pays (.awaiter (.resume i)) y :=
      ⟨.ready i, List.mem_cons_self, .inl (.inr (.inr ⟨i, rfl, rfl⟩))⟩
    rcases start_owed owed with ⟨before, running⟩ | ⟨j, same, rfl⟩
    · rcases follow_pays before with ⟨y, there, pays⟩ | ⟨_, rfl | rfl⟩ | ⟨old, notLink⟩
      · exact .inl ⟨y, List.mem_cons_of_mem _ there, pays⟩
      · exact .inl resumed
      · exact absurd rfl (running i rfl)
      · exact run_unpaid old notLink
    · rw [Pid.wrapper.injEq] at same
      exact .inl (same ▸ resumed)
  | refuse i done l o e here before body =>
    rcases keep_owed owed with ⟨old, notLink⟩ | chains
    · exact run_unpaid ((called_owed l o).mp old) notLink
    · rcases inner_pays (V := V) (E := E) chains with ⟨y, there, pays⟩ | rfl | ⟨wraps, _⟩
      · exact .inl ⟨y, List.mem_cons_of_mem _ there, pays⟩
      · exact .inl ⟨_, List.mem_cons_self, enters_settling _ _ _⟩
      · have right := l.body_right (x := c.exceptions) (t := c.typeAt i) (o := o) done
        rw [body] at right
        rw [wraps_link here, right.2.2.2] at wraps
        simp at wraps
  | resume i done r answer =>
    rcases ended_owed owed with ⟨old, other⟩ | rfl | ⟨j, same, rfl⟩ | ⟨_, returns⟩
    · exact run_unpaid old (other i rfl)
    · exact .inl ⟨.settling (.clear (.wrapper i)), by simp [ending], rfl⟩
    · rw [Pid.wrapper.injEq] at same
      subst same
      exact .inl ⟨.settling (.claim (.wrapper i) r), by simp [ending], r, .inr rfl⟩
    · exact absurd returns (wrapper_returns inv i)
  | resolves i done l o w here kept answer =>
    by_cases mine : d = .awaiter (.resolves i)
    · subst mine
      exact .inl ⟨_, List.mem_cons_of_mem _ List.mem_cons_self,
        .inr ⟨by simp, enters_settling _ _ _⟩⟩
    · exact run_unpaid owed mine
  | refuses i done e answer =>
    by_cases mine : d = .awaiter (.resolves i)
    · subst mine
      exact .inl ⟨_, List.mem_cons_self, .inr ⟨by simp, enters_settling _ _ _⟩⟩
    · exact run_unpaid owed mine
  | passes i done v answer =>
    by_cases mine : d = .awaiter (.rejects i)
    · subst mine
      exact .inl ⟨_, List.mem_cons_self, .inr ⟨by simp, enters_settling _ _ _⟩⟩
    · exact run_unpaid owed mine
  | rejects i done e answer =>
    by_cases mine : d = .awaiter (.rejects i)
    · subst mine
      exact .inl ⟨_, List.mem_cons_of_mem _ List.mem_cons_self,
        .inr ⟨by simp, enters_settling _ _ _⟩⟩
    · exact run_unpaid owed mine
  | ready i done =>
    by_cases pays : Pays d (.ready i : Instr V E)
    · obtain rfl := pays_ready pays
      exact .inl ⟨_, List.mem_cons_self, .inl (.inr (.inl ⟨true, rfl⟩))⟩
    · exact .inr ⟨owed, pays⟩
  | unready i =>
    by_cases pays : Pays d (.ready i : Instr V E)
    · obtain rfl := pays_ready pays
      exact .inl ⟨_, List.mem_cons_self, .inl (.inl rfl)⟩
    · exact .inr ⟨owed, pays⟩
  | returned =>
    have old : Owed c s d := by
      cases d with
      | awaiter a => cases a <;> exact owed
      | _ => exact owed
    exact .inr ⟨old, pays_returned⟩

theorem spawn_pays {e : Event V E} (inv : Inv c s) (spawned : c.spawn e s = some (t, is))
    (owed : Owed c t d) : (∃ y ∈ is, Pays d y) ∨ Owed c s d := by
  have ends : ∀ p (o : Option (Result V E)), (∀ j, p ≠ .wrapper j) →
      (Returns c s p → o ≠ none) → Owed c (s.ended p) d →
      (∃ y ∈ ending p o, Pays d y) ∨ Owed c s d := by
    intro p o other gives owed
    rcases ended_owed owed with ⟨old, _⟩ | rfl | ⟨j, same, _⟩ | ⟨rfl, returns⟩
    · exact .inr old
    · refine .inl ⟨.settling (.clear p), ?_, rfl⟩
      cases o <;> simp [ending]
    · exact absurd same (other j)
    · obtain ⟨r, rfl⟩ := Option.ne_none_iff_exists'.mp (gives returns)
      exact .inl ⟨.settling (.claim p r), by simp [ending], r, .inr rfl⟩
  cases spawn_spawned spawned with
  | settle o handle => exact .inr owed
  | complete o running ended => exact ends _ o (by simp) (source_returns inv ended) owed
  | attach turn inside =>
    cases d with
    | awaiter a =>
      cases a with
      | link i =>
        obtain ⟨⟨begun, rest⟩, absent⟩ := owed
        by_cases last : i = s.begun
        · subst last
          exact .inl ⟨_, List.mem_cons_self, .inl (.inl rfl)⟩
        · have before : i < s.begun + 1 := begun
          exact .inr ⟨⟨by omega, rest⟩, absent⟩
      | resume i => exact .inr owed
      | resolves i => exact .inr owed
      | rejects i => exact .inr owed
    | _ => exact .inr owed
  | answer i p r l asked here handle => exact .inr owed
  | finish i threw p r o l asked here running ended => 
    exact ends p o (asked_plain inv asked) (asked_returns inv asked here ended) owed

end Payments

section Order
variable {c : Chain K V E} {s t : State V E} {is : List (Instr V E)} {x : Instr V E}

/-- The inner promises that are settled only after the promise of link `i`. -/
def Follows (p : Pid) (o : Result V E) (i : Nat) : Prop :=
  p = .rejects i ∨ (p = .resolves i ∧ ∃ v, o = .value v)

def Needs : Instr V E → Nat → Prop
  | .settling (.reject p o), i => Follows p o i
  | .settling (.claim p o), i => Follows p o i
  | .settling (.store p o), i => Follows p o i
  | _, _ => False

def Gives (x : Instr V E) (i : Nat) : Prop := Enters Instr.settling (.promise (i + 1)) x

/-- A call has tried to settle the promise of link `i`. -/
def Tried (s : State V E) (i : Nat) : Prop := ¬Untouched s (.promise (i + 1))

def Ordered (s : State V E) : Prop :=
  ∀ p r i, s.outcome p = some r → Follows p r i → Tried s i

theorem did_untouched (known : Known s x) (did : c.Did s x t is) (p : Pid)
    (after : Untouched t p) : Untouched s p := by
  have called : ∀ i (l : Link K V E) o, Untouched (s.called i l c.exceptions o) p →
      Untouched s p := by
    intro i l o after
    simpa only [Untouched, called_cells] using after
  cases did with
  | settling k => exact untouched_before (Family.grows_settle known p) after
  | register a pending =>
    exact ⟨(Family.register_flags p).1 ▸ after.1, (Family.register_flags p).2 ▸ after.2⟩
  | settle i done l o r here before body => exact called i l o after
  | become i done l o r here before body => exact called i l o ((start_untouched p).mp after)
  | follow i done l o r here before body plain =>
    exact called i l o ((start_untouched p).mp after)
  | wrap i done l o r here before body wraps =>
    exact called i l o ((start_untouched p).mp ((start_untouched p).mp after))
  | refuse i done l o e here before body => exact called i l o after
  | _ => exact after

theorem did_outcome (did : c.Did s x t is) {p : Pid} {r : Result V E}
    (done : t.outcome p = some r) : s.outcome p = some r ∨ x = .settling (.store p r) := by
  have called : ∀ i (l : Link K V E) o, (s.called i l c.exceptions o).outcome p = s.outcome p := by
    intro i l o
    rw [State.outcome, called_cells, State.outcome]
  cases did with
  | settling k =>
    rcases Family.outcome_settle done with old | store
    · exact .inl old
    · exact .inr (by rw [store])
  | register a pending =>
    left
    rwa [State.outcome, State.register, Family.register_outcome] at done
  | settle i fast l o r' here before body => exact .inl (called i l o ▸ done)
  | become i fast l o r' here before body =>
    left
    rw [State.outcome, State.ask, (start_cell _ p).1] at done
    exact called i l o ▸ done
  | follow i fast l o r' here before body plain =>
    left
    rw [State.outcome, State.ask, (start_cell _ p).1] at done
    exact called i l o ▸ done
  | wrap i fast l o r' here before body wraps =>
    left
    rw [State.outcome, (start_cell _ p).1, State.ask, (start_cell _ p).1] at done
    exact called i l o ▸ done
  | refuse i fast l o e here before body => exact .inl (called i l o ▸ done)
  | _ => exact .inl done

theorem needs_settling {p : Pid} {r : Result V E} {i : Nat} :
    Needs (.settling (settling p r) : Instr V E) i ↔ Follows p r i := by
  cases r with
  | value v => exact Iff.rfl
  | exception e => exact Iff.rfl

theorem backed_pair {given : Nat → Prop} {i : Nat} {p : Pid} {r r' : Result V E}
    (mine : ∀ j, Follows p r' j → j = i) :
    Backed Needs Gives given [.settling (settling (.promise (i + 1)) r),
      .settling (settling p r')] := by
  refine ⟨fun j needs => ?_, fun j needs => ?_, trivial⟩
  · rcases needs_settling.mp needs with same | ⟨same, _⟩
    · simp at same
    · simp at same
  · obtain rfl := mine j (needs_settling.mp needs)
    exact .inr (enters_settling _ _ _)

theorem ending_needs {p : Pid} {o : Option (Result V E)}
    (plain : ∀ (r : Result V E) i, ¬Follows p r i) :
    ∀ y ∈ (ending p o : List (Instr V E)), ∀ i, ¬Needs y i := by
  intro y there i needs
  cases o with
  | none =>
    rw [List.mem_singleton.mp there] at needs
    exact needs
  | some r =>
    simp only [ending, List.mem_cons, List.not_mem_nil, or_false] at there
    rcases there with rfl | rfl
    · exact plain r i needs
    · exact needs

theorem inner_needs {i : Nat} : ∀ y ∈ (inner i : List (Instr V E)), ∀ j, ¬Needs y j := by
  intro y there j needs
  simp only [inner, List.mem_cons, List.not_mem_nil, or_false] at there
  rcases there with rfl | rfl
  · exact needs
  · exact needs

theorem did_backed (ordered : Ordered s) (known : Known s x)
    (needs : ∀ i, Needs x i → Tried s i) (did : c.Did s x t is) :
    Backed Needs Gives (Tried t) is := by
  have free : (∀ y ∈ is, ∀ i, ¬Needs y i) → Backed Needs Gives (Tried t) is :=
    fun none => backed_given fun y there i needs => absurd needs (none y there i)
  have plain : ∀ (p : Pid) (r : Result V E), (∀ r i, ¬Follows p r i) →
      ∀ i, ¬Needs (.settling (settling p r) : Instr V E) i :=
    fun p r none i needs => none r i (needs_settling.mp needs)
  cases did with
  | settling k =>
    refine backed_given fun y there i need => ?_
    have tried : Tried s i := by
      rcases List.mem_append.mp there with next | flushed
      · obtain ⟨j, inside, rfl⟩ := List.mem_map.mp next
        rw [settle_next] at inside
        cases k with
        | reject p o =>
          dsimp only at inside
          split at inside
          · simp at inside
          · rw [List.mem_singleton.mp inside] at need
            exact needs i need
        | claim p o =>
          dsimp only at inside
          split at inside
          · simp at inside
          · rw [List.mem_singleton.mp inside] at need
            exact needs i need
        | store p o => simp at inside
        | clear p => simp at inside
      · obtain ⟨a, _, rfl⟩ := List.mem_map.mp flushed
        exact absurd need id
    exact fun after => tried (did_untouched (c := c) known (.settling k) _ after)
  | through a done => exact free (by simp [Needs])
  | register a pending => trivial
  | missing a done lacks => trivial
  | settle i done l o r here before body =>
    refine free fun y there j => ?_
    rw [List.mem_singleton.mp there]
    exact plain _ r (by simp [Follows]) j
  | become i done l o r here before body => trivial
  | follow i done l o r here before body wraps => exact free inner_needs
  | wrap i done l o r here before body wraps =>
    refine free fun y there j needs => ?_
    rcases List.mem_cons.mp there with rfl | later
    · exact needs
    · exact inner_needs y later j needs
  | refuse i done l o e here before body =>
    refine free fun y there j needs => ?_
    rcases List.mem_cons.mp there with rfl | later
    · exact plain _ _ (by simp [Follows]) j needs
    · exact inner_needs y later j needs
  | resume i done r answer => exact free (ending_needs (by simp [Follows]))
  | resolves i done l o w here kept answer => exact backed_pair (by simp [Follows, eq_comm])
  | refuses i done e answer =>
    refine free fun y there j => ?_
    rw [List.mem_singleton.mp there]
    intro needs
    rcases needs_settling.mp needs with same | ⟨_, v, value⟩
    · simp at same
    · simp at value
  | passes i done v answer =>
    refine backed_given fun y there j need => ?_
    rw [List.mem_singleton.mp there, needs_settling] at need
    obtain rfl : j = i := by simpa [Follows, eq_comm] using need
    exact ordered _ _ _ answer (.inr ⟨rfl, v, rfl⟩)
  | rejects i done e answer => exact backed_pair (by simp [Follows, eq_comm])
  | ready i done => exact free (by simp [Needs])
  | unready i => exact free (by simp [Needs])
  | returned => trivial

theorem did_enters {p : Pid} (did : c.Did s x t is) (enters : Enters Instr.settling p x) :
    ¬Untouched t p := by
  obtain ⟨o, rfl | rfl⟩ := enters
  · cases did with
    | settling k =>
      intro after
      exact absurd (Family.settle_entered s.cells _ o) (Bool.eq_false_iff.mp after.2)
  · cases did with
    | settling k =>
      intro after
      exact absurd (Family.settle_claimed s.cells _ o) (Bool.eq_false_iff.mp after.1)

theorem did_gives (known : Known s x) (did : c.Did s x t is) (i : Nat)
    (before : Tried s i ∨ Gives x i) : Tried t i := by
  rcases before with tried | gives
  · exact fun after => tried (did_untouched known did _ after)
  · exact did_enters did gives

theorem spawn_order {e : Event V E} (inv : Inv c s) (spawned : c.spawn e s = some (t, is)) :
    Backed Needs Gives (Tried t) is ∧ (∀ p, t.outcome p = s.outcome p) ∧
      ∀ i, Tried s i → Tried t i := by
  have free : (∀ y ∈ is, ∀ i, ¬Needs y i) → Backed Needs Gives (Tried t) is :=
    fun none => backed_given fun y there i needs => absurd needs (none y there i)
  have places : ∀ i p r, s.asked i = some (p, r) → ∀ r' j, ¬Follows (E := E) (V := V) p r' j := by
    intro i p r asked r' j
    rcases (inv.asked i p r asked).place with rfl | ⟨rfl, _⟩
    · simp [Follows]
    · simp [Follows]
  cases spawn_spawned spawned with
  | settle o handle =>
    refine ⟨free fun y there j needs => ?_, fun _ => rfl, fun _ tried => tried⟩
    rw [List.mem_singleton.mp there, needs_settling] at needs
    simp [Follows] at needs
  | complete o running ends =>
    exact ⟨free (ending_needs (by simp [Follows])), fun _ => rfl, fun _ tried => tried⟩
  | attach turn inside =>
    exact ⟨free (by simp [Needs]), fun _ => rfl, fun _ tried => tried⟩
  | answer i p r l asked here handle =>
    refine ⟨free fun y there j needs => ?_, fun _ => rfl, fun _ tried => tried⟩
    rw [List.mem_singleton.mp there, needs_settling] at needs
    exact places i p r asked r j needs
  | finish i threw p r o l asked here running ends =>
    exact ⟨free (ending_needs (places i p r asked)), fun _ => rfl, fun _ tried => tried⟩

variable {m : Machine (State V E) (Instr V E)}

theorem reached_known (reached : c.Reached m) {x : Instr V E} (has : Has m x) :
    Known m.shared x :=
  known_of reached (reached_both reached).2 has

theorem reached_ordered (reached : c.Reached m) :
    (∀ t ∈ m.threads, Backed Needs Gives (Tried m.shared) t) ∧ Ordered m.shared := by
  induction reached with
  | start first =>
    subst first
    refine ⟨by simp [Chain.initial], fun p r i done => ?_⟩
    simp [State.outcome, Chain.initial, created] at done
  | @next m n l reached taken ih =>
    obtain ⟨backed, ordered⟩ := ih
    have inv := (reached_sound reached).inv
    have known : ∀ x, Has m x → Known m.shared x := fun x has => reached_known reached has
    constructor
    · exact backed_step_within (Inv c)
        (fun s x (known : Ordered s ∧ Known s x) needs =>
          ⟨did_backed known.1 known.2 needs (exec_did x),
          fun i before => .inl (did_gives known.2 (exec_did x) i before)⟩)
        (fun s x known i tried => did_gives known.2 (exec_did x) i (.inl tried))
        (fun _ e s t is inv spawned =>
          ⟨(spawn_order inv spawned).1, (spawn_order inv spawned).2.2⟩)
        inv (fun x has => ⟨ordered, known x has⟩) backed taken
    · intro p r i done follows
      cases step_change taken with
      | fork => exact ordered p r i done follows
      | start t e s is idle spawned =>
        obtain ⟨_, outcome, tried⟩ := spawn_order inv spawned
        rw [outcome] at done
        exact tried i (ordered p r i done follows)
      | run t x rest here =>
        have did := exec_did (c := c) (s := m.shared) x
        have waiting := known x (has_here here List.mem_cons_self)
        apply did_gives waiting did i
        left
        rcases did_outcome did done with old | rfl
        · exact ordered p r i old follows
        · exact backed_head backed here i follows

end Order

section Covered
variable {c : Chain K V E} {m : Machine (State V E) (Instr V E)}

theorem initial_owed (d : Debt) : ¬Owed c c.initial.shared d := by
  cases d with
  | store p => simp [Owed, Cell.storing, Chain.initial, created]
  | claim p => simp [Owed, Cell.rejecting, Chain.initial, created]
  | clear p =>
    rintro ⟨held, ended⟩
    have live : c.live p = true := held
    have past : c.live p = false := ended
    simp [live] at past
  | refused i => simp [Owed, Chain.initial]
  | wrapped i => simp [Owed, Chain.initial]
  | answered p =>
    rintro ⟨⟨rfl, coroutine⟩ | ⟨i, r, l, asked, _⟩, ended, _⟩
    · have past : c.live (.promise 0) = false := ended
      simp [Chain.live, coroutine] at past
    · simp [Chain.initial] at asked
  | awaiter a => cases a <;> simp [Owed, Waits, Chain.initial]

theorem reached_covered (reached : c.Reached m) : Covered (Owed c) Pays m := by
  induction reached with
  | start first =>
    subst first
    intro d owed
    exact absurd owed (initial_owed d)
  | next reached taken ih =>
    exact covered_step
      (fun s x d inv fit known owed => did_pays inv fit known (exec_did x) owed)
      (fun _ e s t is d inv spawned owed =>
        spawn_pays inv spawned owed)
      (fun x has => reached_known reached has) (reached_sound reached) ih taken

/-- Only the source, the promises that continuations have returned and the coroutines of
    `exception_wrapper` can still be running. -/
def Coroutines (s : State V E) : Prop :=
  ∀ p, s.running p = true →
    p = .promise 0 ∨ (∃ i, p = .wrapper i) ∨ ∃ i r, s.asked i = some (p, r)

variable {s t : State V E} {is : List (Instr V E)}

theorem ended_coroutines (p : Pid) (old : Coroutines s) : Coroutines (s.ended p) := by
  intro q runs
  by_cases here : q = p
  · subst here
    simp [State.ended] at runs
  · rw [show (s.ended p).running q = s.running q from Function.update_of_ne here _ _] at runs
    exact old q runs

theorem ask_coroutines {i : Nat} {p : Pid} {r : Result V E} (free : s.asked i = none)
    (old : Coroutines s) : Coroutines (s.ask i p r) := by
  have mine : (s.ask i p r).asked i = some (p, r) := Function.update_self _ _ _
  intro q runs
  by_cases here : q = p
  · exact .inr (.inr ⟨i, r, here ▸ mine⟩)
  · rw [show (s.ask i p r).running q = s.running q from Function.update_of_ne here _ _] at runs
    rcases old q runs with source | wrapper | ⟨j, r', asked⟩
    · exact .inl source
    · exact .inr (.inl wrapper)
    · have other : j ≠ i := by
        rintro rfl
        simp [free] at asked
      have still : (s.ask i p r).asked j = s.asked j := Function.update_of_ne other _ _
      exact .inr (.inr ⟨j, r', still ▸ asked⟩)

theorem wrapper_coroutines (i : Nat) (old : Coroutines s) : Coroutines (s.start (.wrapper i)) := by
  intro q runs
  by_cases here : q = .wrapper i
  · exact .inr (.inl ⟨i, here⟩)
  · rw [show (s.start (.wrapper i)).running q = s.running q from Function.update_of_ne here _ _]
      at runs
    exact old q runs

theorem called_coroutines (i : Nat) (l : Link K V E) (o : Result V E) (old : Coroutines s) :
    Coroutines (s.called i l c.exceptions o) := by
  unfold State.called
  split
  · exact old
  · exact old

theorem did_coroutines {x : Instr V E} (inv : Inv c s) (known : Known s x) (did : c.Did s x t is)
    (old : Coroutines s) : Coroutines t := by
  cases did with
  | settle i done l o r here before body => exact called_coroutines i l o old
  | become i done l o r here before body =>
    have right := l.body_right (x := c.exceptions) (t := c.typeAt i) (o := o) done
    rw [body] at right
    have free := (asks inv here before known right.2.1).1
    exact ask_coroutines free (called_coroutines i l o old)
  | follow i done l o r here before body plain =>
    have right := l.body_right (x := c.exceptions) (t := c.typeAt i) (o := o) done
    rw [body] at right
    have free := (asks inv here before known right.2.2.1).1
    have kept : Coroutines ((s.called i l c.exceptions o).keep i o) := called_coroutines i l o old
    exact ask_coroutines free kept
  | wrap i done l o r here before body wraps =>
    have right := l.body_right (x := c.exceptions) (t := c.typeAt i) (o := o) done
    rw [body] at right
    have free := (asks inv here before known right.2.2.1).1
    have kept : Coroutines ((s.called i l c.exceptions o).keep i o) := called_coroutines i l o old
    exact wrapper_coroutines i (ask_coroutines free kept)
  | refuse i done l o e here before body => exact called_coroutines i l o old
  | resume i done r answer => exact ended_coroutines _ old
  | _ => exact old

theorem spawn_coroutines {e : Event V E} (spawned : c.spawn e s = some (t, is))
    (old : Coroutines s) : Coroutines t := by
  cases spawn_spawned spawned with
  | settle o handle => exact old
  | complete o running ends => exact ended_coroutines _ old
  | attach turn inside => exact old
  | answer i p r l asked here handle => exact old
  | finish i threw p r o l asked here running ends => exact ended_coroutines _ old

theorem reached_coroutines (reached : c.Reached m) : Coroutines m.shared := by
  induction reached with
  | start first =>
    subst first
    intro p runs
    have live : c.live p = true := runs
    simp only [Chain.live, Bool.and_eq_true, beq_iff_eq] at live
    exact .inl live.1
  | next reached taken ih =>
    cases step_change taken with
    | fork => exact ih
    | start t e s is idle spawned => exact spawn_coroutines spawned ih
    | run t x rest here =>
      exact did_coroutines (reached_sound reached).inv
        (reached_known reached (has_here here List.mem_cons_self)) (exec_did x) ih

end Covered

section Settled
variable {c : Chain K V E} {m : Machine (State V E) (Instr V E)}

def Given (s : State V E) (p : Pid) : Prop := s.outcome p ≠ none ∧ s.running p = false

structure Supplied (s : State V E) : Prop where
  source : Given s (.promise 0)
  replies : ∀ i p r, s.asked i = some (p, r) → Given s p

/-- What holds between the calls, when the source and the continuations have done their part. -/
structure Rested (c : Chain K V E) (s : State V E) : Prop where
  inv : Inv c s
  coroutines : Coroutines s
  ordered : Ordered s
  paid : ∀ d, ¬Owed c s d
  supplied : Supplied s

variable {s : State V E} {i : Nat} {p : Pid}

theorem rested_of (reached : c.Reached m) (idle : Idle m) (supplied : Supplied m.shared) :
    Rested c m.shared :=
  ⟨(reached_sound reached).inv, reached_coroutines reached, (reached_ordered reached).2,
    fun d => nothing_owed (reached_covered reached) idle d, supplied⟩

/-- A settlement that was entered has come to its end. -/
theorem paid_settled (paid : ∀ d, ¬Owed c s d) (touched : ¬Untouched s p) :
    s.outcome p ≠ none := by
  intro pending
  have unstored := paid (.store p)
  have unclaimed := paid (.claim p)
  cases resolved : (s.cells p).resolved with
  | true => exact unstored ⟨resolved, pending⟩
  | false =>
    cases rejected : (s.cells p).rejected with
    | true => exact unclaimed ⟨rejected, resolved⟩
    | false => exact touched ⟨resolved, rejected⟩

theorem rested_free (rested : Rested c s) (ended : s.running p = false) :
    (s.cells p).handle = false := by
  by_contra held
  exact rested.paid (.clear p) ⟨Bool.not_eq_false _ ▸ held, ended⟩

theorem rested_ended (rested : Rested c s) (plain : ∀ i, p ≠ .wrapper i) :
    s.running p = false := by
  by_contra runs
  rcases rested.coroutines p (Bool.not_eq_false _ ▸ runs) with rfl | ⟨i, wrapper⟩ | ⟨i, r, asked⟩
  · exact runs rested.supplied.source.2
  · exact plain i wrapper
  · exact runs (rested.supplied.replies i p r asked).2

theorem rested_run (rested : Rested c s) {a : Awaiter} (done : s.outcome (c.source a) ≠ none)
    (ended : s.running (c.source a) = false) : ¬Waits c s a := by
  intro waits
  have emptied := rested.inv.tidy.emptied _ (rested_free rested ended) done
  exact rested.paid (.awaiter a) ⟨waits, by simp [emptied]⟩

theorem rested_reply (rested : Rested c s) (kept : s.kept i ≠ none) :
    s.outcome (.reply i) ≠ none ∨ s.outcome (.promise (i + 1)) ≠ none := by
  cases asked : s.asked i with
  | none =>
    left
    apply paid_settled rested.paid
    intro untouched
    exact rested.paid (.refused i) ⟨kept, asked, untouched⟩
  | some x =>
    have done := (rested.supplied.replies i x.1 x.2 asked).1
    rcases (rested.inv.asked i x.1 x.2 asked).place with same | ⟨same, _⟩
    · exact .inr (same ▸ done)
    · exact .inl (same ▸ done)

theorem rested_wrapper (rested : Rested c s) (wraps : c.wraps i = true) (kept : s.kept i ≠ none)
    (answered : s.outcome (.reply i) ≠ none) :
    s.outcome (.wrapper i) ≠ none ∧ s.running (.wrapper i) = false := by
  have resumed := rested_run rested (a := .resume i) answered
    (rested_ended rested (by simp [Chain.source]))
  have ended : s.running (.wrapper i) = false := by
    by_contra runs
    exact resumed ⟨wraps, kept, Bool.not_eq_false _ ▸ runs⟩
  refine ⟨paid_settled rested.paid fun untouched => ?_, ended⟩
  exact rested.paid (.wrapped i) ⟨wraps, kept, ended, untouched⟩

theorem rested_replies (rested : Rested c s) (kept : s.kept i ≠ none)
    (answered : s.outcome (.reply i) ≠ none) :
    s.outcome (c.replies i) ≠ none ∧ s.running (c.replies i) = false := by
  unfold Chain.replies
  split
  · rename_i wraps
    exact rested_wrapper rested wraps kept answered
  · exact ⟨answered, rested_ended rested (by simp)⟩

theorem rested_joined (rested : Rested c s) (kept : s.kept i ≠ none)
    (answered : s.outcome (.reply i) ≠ none) : s.outcome (.promise (i + 1)) ≠ none := by
  obtain ⟨done, ended⟩ := rested_replies rested kept answered
  have resolves : s.outcome (.resolves i) ≠ none := by
    apply paid_settled rested.paid
    intro untouched
    exact rested_run rested (a := .resolves i) done ended ⟨kept, untouched⟩
  have rejects : s.outcome (.rejects i) ≠ none := by
    apply paid_settled rested.paid
    intro untouched
    exact rested_run rested (a := .rejects i) resolves
      (rested_ended rested (by simp [Chain.source])) ⟨kept, untouched⟩
  obtain ⟨r, past⟩ := Option.ne_none_iff_exists'.mp rejects
  exact paid_settled rested.paid (rested.ordered _ r i past (.inl rfl))

/-- Every link whose operator has been called has settled its promise. -/
theorem rested_outcome (rested : Rested c s) (inside : i ≤ s.begun) :
    s.outcome (.promise i) ≠ none := by
  induction i with
  | zero => exact rested.supplied.source.1
  | succ i ih =>
    have before := ih (Nat.le_of_succ_le inside)
    have ran := rested_run rested (a := .link i) before
      (rested_ended rested (by simp [Chain.source]))
    by_cases kept : s.kept i = none
    · cases asked : s.asked i with
      | none =>
        apply paid_settled rested.paid
        intro untouched
        exact ran ⟨inside, asked, kept, untouched⟩
      | some x =>
        have done := (rested.supplied.replies i x.1 x.2 asked).1
        rcases (rested.inv.asked i x.1 x.2 asked).place with same | ⟨_, there⟩
        · exact same ▸ done
        · exact absurd kept there
    · rcases rested_reply rested kept with answered | done
      · exact rested_joined rested kept answered
      · exact done

end Settled

section Rest
variable {c : Chain K V E} {s t : State V E} {is : List (Instr V E)}

def Awaiter.weight : Awaiter → Nat
  | .link _ => 28
  | .resume _ => 5
  | .resolves _ | .rejects _ => 9

def Instr.weight : Instr V E → Nat
  | .settling k => k.weight
  | .attach a => a.weight + 1
  | .run a _ => a.weight
  | .ready _ => 7
  | .returned => 1

def cost (c : Chain K V E) (s : State V E) : Nat := Family.waiting Awaiter.weight c.places s.cells

theorem ending_weight_le (p : Pid) (o : Option (Result V E)) :
    ((ending p o).map Instr.weight).sum ≤ 3 := by
  cases o <;> simp [ending, Instr.weight, Settling.weight]

theorem inner_weight_sum (i : Nat) : ((inner i : List (Instr V E)).map Instr.weight).sum = 20 := rfl

theorem start_rest (p : Pid) : cost c (s.start p) = cost c s := start_waiting _ _ p

theorem called_rest (i : Nat) (l : Link K V E) (o : Result V E) :
    cost c (s.called i l c.exceptions o) = cost c s := by
  simp [cost]

/-- An instruction that moves no awaiter and leads to less than it weighs. -/
theorem lowers {x : Instr V E} (same : cost c t = cost c s)
    (less : (is.map Instr.weight).sum < x.weight) :
    cost c t + (is.map Instr.weight).sum < cost c s + x.weight := by
  omega

theorem did_lowers {x : Instr V E} (inv : Inv c s) (fit : Fit c s x) (did : c.Did s x t is) :
    cost c t + (is.map Instr.weight).sum < cost c s + x.weight := by
  have settles : ∀ p (r : Result V E), (.settling (settling p r) : Instr V E).weight ≤ 3 :=
    settling_weight_le
  cases did with
  | settling k =>
    have change := Family.waiting_settle Awaiter.weight c.places s.cells k (settling_place fit)
    have next : ((settle (s.cells k.cell) k).next.map
        fun j => (.settling j : Instr V E).weight).sum < (.settling k : Instr V E).weight :=
      next_weight (s.cells k.cell) k
    have flushed : (Instr.weight ∘ fun a => (.run a false : Instr V E)) = Awaiter.weight := rfl
    simp only [List.map_append, List.map_map, List.sum_append, flushed, cost]
    simp only [Function.comp_def]
    omega
  | through a done => exact lowers rfl (by simp [Instr.weight])
  | register a pending =>
    have change : cost c (s.register (c.source a) a) = cost c s + a.weight :=
      Family.waiting_register _ _ _ _ (source_place inv fit)
    simp only [change, List.map_nil, List.sum_nil, Instr.weight]
    omega
  | missing a done lacks =>
    apply lowers rfl
    cases a <;> simp [Instr.weight, Awaiter.weight]
  | settle i done l o r here before body =>
    apply lowers (called_rest i l o)
    have bound := settles (.promise (i + 1)) r
    simp only [List.map_cons, List.map_nil, List.sum_cons, List.sum_nil]
    simp only [Instr.weight, Awaiter.weight] at bound ⊢
    omega
  | become i done l o r here before body =>
    exact lowers ((start_rest _).trans (called_rest i l o)) (by simp [Instr.weight, Awaiter.weight])
  | follow i done l o r here before body plain =>
    apply lowers ((start_rest _).trans (called_rest i l o))
    rw [inner_weight_sum]
    simp [Instr.weight, Awaiter.weight]
  | wrap i done l o r here before body wraps =>
    apply lowers ((start_rest _).trans ((start_rest _).trans (called_rest i l o)))
    rw [List.map_cons, List.sum_cons, inner_weight_sum]
    simp [Instr.weight, Awaiter.weight]
  | refuse i done l o e here before body =>
    apply lowers (called_rest i l o)
    rw [List.map_cons, List.sum_cons, inner_weight_sum]
    simp [settling, Instr.weight, Settling.weight, Awaiter.weight]
  | resume i done r answer =>
    apply lowers rfl
    have bound := ending_weight_le (.wrapper i) (some r)
    simp only [Instr.weight, Awaiter.weight]
    omega
  | resolves i done l o w here kept answer =>
    apply lowers rfl
    have first := settles (.promise (i + 1)) (l.forwarded (c.typeAt i) o w)
    have second := settles (.resolves i) (.value .void)
    simp only [List.map_cons, List.map_nil, List.sum_cons, List.sum_nil]
    simp only [Instr.weight, Awaiter.weight] at first second ⊢
    omega
  | refuses i done e answer =>
    exact lowers rfl (by simp [settling, Instr.weight, Settling.weight, Awaiter.weight])
  | passes i done v answer =>
    exact lowers rfl (by simp [settling, Instr.weight, Settling.weight, Awaiter.weight])
  | rejects i done e answer =>
    exact lowers rfl (by simp [settling, Instr.weight, Settling.weight, Awaiter.weight])
  | ready i done => exact lowers rfl (by simp [Instr.weight, Awaiter.weight])
  | unready i => exact lowers rfl (by simp [Instr.weight, Awaiter.weight])
  | returned => exact lowers rfl (by simp [Instr.weight])

variable {m n : Machine (State V E) (Instr V E)}

theorem rests (reached : c.Reached m) :
    ∃ (ts : List Nat) (n : Machine (State V E) (Instr V E)),
      run (step c.program) m (ts.map .run) = some n ∧ Idle n :=
  comes_to_rest Instr.weight (cost c) (fun _ _ _ known taken => .next known taken)
    (fun _ known => reached_sound known) (fun _ x inv fit => did_lowers inv fit (exec_did x))
    reached

theorem rests_within (reached : c.Reached m) {ts : List Nat}
    (ran : run (step c.program) m (ts.map .run) = some n) :
    ts.length + load Instr.weight (cost c) n ≤ load Instr.weight (cost c) m :=
  rest_bound Instr.weight (cost c) (fun _ _ _ known taken => .next known taken)
    (fun _ known => reached_sound known) (fun _ x inv fit => did_lowers inv fit (exec_did x))
    reached ran

end Rest

end ChainLinks
