import JSProCpp.AllOutcome

/- Nothing that `All` still has to do is forgotten: whatever the shared state owes, a waiting
   instruction pays. -/
namespace AllSettlement
open Transitions Interleaving PromiseCells
variable {V E : Type}

inductive Debt where
  | store (c : Pid)
  | claim (c : Pid)
  | clear (c : Pid)
  | link (j : Nat)
  | run

def Target.isFrame : Target V → Bool
  | .frame _ => true
  | _ => false

abbrev Untouched (s : State V E) (c : Pid) : Prop := (s.cells c).untouched

/-- No awaiter of any promise has the property. -/
def Free (s : State V E) (held : Target V → Prop) : Prop :=
  ∀ c, ∀ x ∈ (s.cells c).awaiters, ¬held x.target

def Owed (s : State V E) : Debt → Prop
  | .store c => (s.cells c).storing
  | .claim c => (s.cells c).rejecting
  | .clear c => (s.cells c).handle = true ∧ s.running c = false
  | .link j => s.made j = true ∧ Untouched s (.chain j) ∧ Free s (· = .link j)
  | .run => s.called = true ∧ (s.cells .all).resolved = false ∧ Free s (·.isFrame = true)

/-- The instruction is the coroutine's, which has not answered yet. -/
def Instr.drives : Instr V E → Bool
  | .settling (.claim .all _) => true
  | .callback _ t => t.isFrame
  | .next _ | .attach _ _ _ | .ready _ _ | .suspend _ _ | .resume _ _ => true
  | _ => false

def Pays : Debt → Instr V E → Prop
  | .store c, i => ∃ o, i = .settling (.store c o)
  | .claim c, i => ∃ o, i = .settling (.claim c o)
  | .clear c, i => i = .settling (.clear c)
  | .link j, i => Enters Instr.settling (.chain j) i ∨ ∃ c, i = .callback c (.link j)
  | .run, i => i.drives = true

section Payments
variable {a : All} {s t : State V E} {d : Debt}

theorem settling_injective : Function.Injective (.settling : _ → Instr V E) :=
  fun _ _ => Instr.settling.inj

theorem settling_pays {i : Settling Pid (Data V) E} (fresh : Fresh (s.cells i.cell) i)
    (owed : Owed (exec a (.settling i) s).1 d) :
    (∃ x ∈ (exec a (.settling i) s).2, Pays d x) ∨ (Owed s d ∧ ¬Pays d (.settling i)) := by
  have grows : ∀ c, Grows (s.cells c) (s.cells.settle i c) := Family.grows_settle fresh
  have next : ∀ j ∈ (settle (s.cells i.cell) i).next,
      (.settling j : Instr V E) ∈ (exec a (.settling i) s).2 :=
    fun j there => List.mem_append_left _ (List.mem_map_of_mem there)
  have flushed : ∀ x ∈ (settle (s.cells i.cell) i).flushed,
      (.callback i.cell x.target : Instr V E) ∈ (exec a (.settling i) s).2 :=
    fun x there => List.mem_append_right _ (List.mem_map.mpr ⟨x, there, rfl⟩)
  -- an awaiter that is gone is a callback of the flush
  have gone : ∀ held : Target V → Prop, Free { s with cells := s.cells.settle i } held →
      Free s held ∨
        ∃ u, held u ∧ (.callback i.cell u : Instr V E) ∈ (exec a (.settling i) s).2 := by
    intro held free
    by_contra none
    simp only [not_or, not_exists, not_and] at none
    apply none.1
    intro c x there holds
    obtain ⟨_, moved⟩ := Family.settle_gone there fun still => free c x still holds
    exact none.2 x.target holds (flushed x moved)
  cases d with
  | store c =>
    rcases Family.store_owed settling_injective owed with ⟨j, new, o, same⟩ | kept
    · exact .inl ⟨_, next j new, o, same⟩
    · exact .inr kept
  | claim c =>
    rcases Family.claim_owed settling_injective owed with ⟨j, new, o, same⟩ | kept
    · exact .inl ⟨_, next j new, o, same⟩
    · exact .inr kept
  | clear c =>
    obtain ⟨held, ended⟩ := owed
    obtain ⟨before, other⟩ := Family.handle_settle held
    right
    refine ⟨⟨before, ended⟩, fun clears => ?_⟩
    rw [Pays, Instr.settling.injEq] at clears
    exact other clears
  | link j =>
    obtain ⟨made, untouched, free⟩ := owed
    rcases gone _ free with before | ⟨u, rfl, there⟩
    · right
      refine ⟨⟨made, untouched_before (grows _) untouched, before⟩, ?_⟩
      rintro (enters | ⟨c, callback⟩)
      · exact Family.entered_touched settling_injective untouched enters
      · simp at callback
    · exact .inl ⟨_, there, .inr ⟨_, rfl⟩⟩
  | run =>
    obtain ⟨called, unresolved, free⟩ := owed
    rcases gone _ free with before | ⟨u, frame, there⟩
    · right
      refine ⟨⟨called, ?_, before⟩, fun drives => ?_⟩
      · by_contra set
        have still := (grows .all).resolved (Bool.not_eq_false _ ▸ set)
        exact absurd still (Bool.eq_false_iff.mp unresolved)
      · simp only [Pays, Instr.drives] at drives
        split at drives
        · rename_i o claims
          rw [Instr.settling.injEq] at claims
          subst claims
          have set := Family.settle_claimed s.cells .all o
          exact absurd set (Bool.eq_false_iff.mp unresolved)
        all_goals simp_all
    · exact .inl ⟨_, there, frame⟩

theorem change_owed (owed : Owed t d)
    (flags : ∀ c, (t.cells c).resolved = (s.cells c).resolved ∧
      (t.cells c).rejected = (s.cells c).rejected ∧ (t.cells c).outcome = (s.cells c).outcome ∧
      (t.cells c).handle = (s.cells c).handle)
    (awaiters : ∀ c, ∀ x ∈ (s.cells c).awaiters, x ∈ (t.cells c).awaiters) :
    (Owed s d) ∨ (∃ c, d = .clear c ∧ s.running c ≠ t.running c) ∨
      (∃ j, d = .link j ∧ s.made j ≠ t.made j) ∨ (d = .run ∧ s.called ≠ t.called) := by
  have free : ∀ held : Target V → Prop, Free t held → Free s held :=
    fun held still c x there => still c x (awaiters c x there)
  cases d with
  | store c =>
    obtain ⟨resolved, pending⟩ := owed
    exact .inl ⟨(flags c).1 ▸ resolved, (flags c).2.2.1 ▸ pending⟩
  | claim c =>
    obtain ⟨rejected, unresolved⟩ := owed
    exact .inl ⟨(flags c).2.1 ▸ rejected, (flags c).1 ▸ unresolved⟩
  | clear c =>
    obtain ⟨held, ended⟩ := owed
    by_cases same : s.running c = t.running c
    · exact .inl ⟨(flags c).2.2.2 ▸ held, same.trans ended⟩
    · exact .inr (.inl ⟨c, rfl, same⟩)
  | link j =>
    obtain ⟨made, untouched, free_⟩ := owed
    by_cases same : s.made j = t.made j
    · left
      refine ⟨same.trans made, ⟨?_, ?_⟩, free _ free_⟩
      · exact (flags _).1 ▸ untouched.1
      · exact (flags _).2.1 ▸ untouched.2
    · exact .inr (.inr (.inl ⟨j, rfl, same⟩))
  | run =>
    obtain ⟨called, unresolved, free_⟩ := owed
    by_cases same : s.called = t.called
    · exact .inl ⟨same.trans called, (flags _).1 ▸ unresolved, free _ free_⟩
    · exact .inr (.inr (.inr ⟨rfl, same⟩))

theorem register_flags {c : Pid} {u : Target V} (d : Pid) :
    (s.cells.register c (⟨u, ·⟩) d).resolved = (s.cells d).resolved ∧
      (s.cells.register c (⟨u, ·⟩) d).rejected = (s.cells d).rejected ∧
      (s.cells.register c (⟨u, ·⟩) d).outcome = (s.cells d).outcome ∧
      (s.cells.register c (⟨u, ·⟩) d).handle = (s.cells d).handle :=
  ⟨(Family.register_flags d).1, (Family.register_flags d).2, Family.register_outcome d,
    Family.register_handle d⟩

theorem ended_owed {c : Pid} (owed : Owed (s.ended c) d) : Owed s d ∨ d = .clear c := by
  rcases change_owed (s := s) owed (fun _ => ⟨rfl, rfl, rfl, rfl⟩) (fun _ _ there => there) with
    old | ⟨e, rfl, changed⟩ | ⟨j, _, changed⟩ | ⟨_, changed⟩
  · exact .inl old
  · right
    by_contra other
    apply changed
    have away : e ≠ c := fun same => other (by rw [same])
    exact (Function.update_of_ne away _ _).symm
  · exact absurd rfl changed
  · exact absurd rfl changed

theorem answer_pays {i : Instr V E} {k : Nat} {o : Result V E} (owed : Owed (s.ended .all) d)
    (drives : Pays d i → d = .run) :
    (∃ x ∈ ending .all (a.captured k) (some o), Pays d x) ∨ (Owed s d ∧ ¬Pays d i) := by
  rcases ended_owed owed with old | rfl
  · by_cases pays : Pays d i
    · obtain rfl := drives pays
      exact .inl ⟨.settling (.claim .all o), List.mem_cons_self, rfl⟩
    · exact .inr ⟨old, pays⟩
  · exact .inl ⟨.settling (.clear .all), by simp [ending], rfl⟩

/-- The coroutine goes from one instruction to the next. -/
theorem drive_pays {i x : Instr V E} {is : List (Instr V E)} (owed : Owed s d)
    (drives : Pays d i → d = .run) (member : x ∈ is) (next : x.drives = true) :
    (∃ x ∈ is, Pays d x) ∨ (Owed s d ∧ ¬Pays d i) := by
  by_cases pays : Pays d i
  · obtain rfl := drives pays
    exact .inl ⟨x, member, next⟩
  · exact .inr ⟨owed, pays⟩

theorem callback_pays {c : Pid} {u : Target V} (fit : Fit a s (.callback c u : Instr V E))
    (owed : Owed s d) :
    (∃ x ∈ (callback s c u : List (Instr V E)), Pays d x) ∨
      (Owed s d ∧ ¬Pays d (.callback c u : Instr V E)) := by
  by_cases pays : Pays d (.callback c u : Instr V E)
  · left
    cases d with
    | store c => simp [Pays] at pays
    | claim c => simp [Pays] at pays
    | clear c => simp [Pays] at pays
    | run =>
      cases u with
      | frame ds => exact ⟨_, List.mem_singleton.mpr rfl, rfl⟩
      | link j => simp [Pays, Instr.drives, Target.isFrame] at pays
      | other n => simp [Pays, Instr.drives, Target.isFrame] at pays
    | link j =>
      rcases pays with ⟨_, enters | enters⟩ | ⟨_, same⟩
      · simp at enters
      · simp at enters
      · rw [Instr.callback.injEq] at same
        obtain ⟨rfl, rfl⟩ := same
        obtain ⟨o, done⟩ := Option.ne_none_iff_exists'.mp fit.1
        have here : (s.cells c).outcome = some o := done
        refine ⟨_, ?_, .inl (enters_settling Instr.settling (Pid.chain j) (tupled o))⟩
        simp only [callback, here, List.mem_singleton]
  · exact .inr ⟨owed, pays⟩

theorem only_run {i : Instr V E} (quiet : ∀ j, i ≠ .settling j) (away : ∀ c u, i ≠ .callback c u)
    (pays : Pays d i) : d = .run := by
  cases d with
  | run => rfl
  | store c =>
    obtain ⟨o, same⟩ := pays
    exact absurd same (quiet _)
  | claim c =>
    obtain ⟨o, same⟩ := pays
    exact absurd same (quiet _)
  | clear c => exact absurd pays (quiet _)
  | link j =>
    rcases pays with ⟨o, same | same⟩ | ⟨c, same⟩
    · exact absurd same (quiet _)
    · exact absurd same (quiet _)
    · exact absurd same (away _ _)

theorem attach_pays {j p : Nat} {ds : List (Data V)}
    (owed : Owed (exec a (.attach j p ds : Instr V E) s).1 d) :
    (∃ x ∈ (exec a (.attach j p ds : Instr V E) s).2, Pays d x) ∨
      (Owed s d ∧ ¬Pays d (.attach j p ds : Instr V E)) := by
  have drives : Pays d (.attach j p ds : Instr V E) → d = .run := only_run (by simp) (by simp)
  have marked : ∀ k, s.made k ≠ Function.update s.made j true k → k = j := by
    intro k changed
    by_contra other
    exact changed (Function.update_of_ne other _ _).symm
  simp only [exec] at owed ⊢
  split at owed
  · rename_i o done
    rcases change_owed (s := s) owed (fun _ => ⟨rfl, rfl, rfl, rfl⟩) (fun _ _ there => there) with
      old | ⟨c, _, changed⟩ | ⟨k, rfl, changed⟩ | ⟨_, changed⟩
    · exact drive_pays (x := .ready (.chain j) ds) old drives (by simp) rfl
    · exact absurd rfl changed
    · obtain rfl := marked k changed
      exact .inl ⟨_, List.mem_cons_self, .inl (enters_settling _ _ _)⟩
    · exact absurd rfl changed
  · rename_i pending
    rcases change_owed (s := s) owed register_flags (fun _ _ there => Family.register_keeps there)
      with old | ⟨c, _, changed⟩ | ⟨k, rfl, changed⟩ | ⟨_, changed⟩
    · exact drive_pays (x := .ready (.chain j) ds) old drives (by simp) rfl
    · exact absurd rfl changed
    · obtain rfl := marked k changed
      obtain ⟨_, _, free⟩ := owed
      exact absurd rfl (free (.input p) _ Family.register_new)
    · exact absurd rfl changed

theorem exec_pays {i : Instr V E} (fit : Fit a s i)
    (fresh : ∀ j, i = .settling j → Fresh (s.cells j.cell) j) (owed : Owed (exec a i s).1 d) :
    (∃ x ∈ (exec a i s).2, Pays d x) ∨ (Owed s d ∧ ¬Pays d i) := by
  cases i with
  | settling i => exact settling_pays (fresh i rfl) owed
  | callback c u => exact callback_pays fit owed
  | attach j p ds => exact attach_pays owed
  | next ds =>
    have drives : Pays d (.next ds : Instr V E) → d = .run := only_run (by simp) (by simp)
    simp only [exec] at owed ⊢
    split at owed
    · rename_i j p turn
      split at owed
      · exact drive_pays (x := .attach j p ds) owed drives (by simp_all) rfl
      · exact drive_pays (x := .ready (.input p) ds) owed drives (by simp_all) rfl
    · exact answer_pays owed drives
  | ready c ds =>
    have drives : Pays d (.ready c ds : Instr V E) → d = .run := only_run (by simp) (by simp)
    simp only [exec] at owed ⊢
    split at owed
    · exact drive_pays (x := .resume c ds) owed drives (by simp_all) rfl
    · exact drive_pays (x := .suspend c ds) owed drives (by simp_all) rfl
  | suspend c ds =>
    have drives : Pays d (.suspend c ds : Instr V E) → d = .run := only_run (by simp) (by simp)
    simp only [exec] at owed ⊢
    split at owed
    · exact drive_pays (x := .resume c ds) owed drives (by simp_all) rfl
    · right
      rcases change_owed (s := s) owed register_flags (fun _ _ there => Family.register_keeps there)
        with old | ⟨c, _, changed⟩ | ⟨k, _, changed⟩ | ⟨_, changed⟩
      · refine ⟨old, fun pays => ?_⟩
        obtain rfl := drives pays
        exact absurd rfl (owed.2.2 c _ Family.register_new)
      · exact absurd rfl changed
      · exact absurd rfl changed
      · exact absurd rfl changed
  | resume c ds =>
    have drives : Pays d (.resume c ds : Instr V E) → d = .run := only_run (by simp) (by simp)
    obtain ⟨o, done⟩ := Option.ne_none_iff_exists'.mp fit.1
    have here : (s.cells c).outcome = some o := done
    simp only [exec, here] at owed ⊢
    cases o with
    | value v => exact drive_pays (x := .next (ds ++ [v])) owed drives (by simp) rfl
    | exception e => exact answer_pays owed drives
  | drop ps =>
    right
    constructor
    · cases ps with
      | nil => exact owed
      | cons p ps =>
        simp only [exec] at owed
        split at owed <;> exact owed
    · cases d <;> simp [Pays, Enters, Instr.drives]
  | waitDone p ps =>
    right
    constructor
    · simp only [exec] at owed
      split at owed <;> exact owed
    · cases d <;> simp [Pays, Enters, Instr.drives]

theorem spawn_pays {e : Event V E} {s' : State V E} {is : List (Instr V E)}
    (spawned : spawn a e s = some (s', is)) (owed : Owed s' d) :
    (∃ x ∈ is, Pays d x) ∨ Owed s d := by
  cases e with
  | call =>
    simp only [spawn, Option.ite_none_left_eq_some, Option.some.injEq, Prod.mk.injEq] at spawned
    obtain ⟨_, rfl, rfl⟩ := spawned
    cases d with
    | run => exact .inl ⟨.next [], List.mem_singleton.mpr rfl, rfl⟩
    | store c => exact .inr owed
    | claim c => exact .inr owed
    | clear c => exact .inr owed
    | link j => exact .inr owed
  | settle p o =>
    simp only [spawn, Option.ite_none_right_eq_some, Option.some.injEq, Prod.mk.injEq] at spawned
    obtain ⟨_, rfl, rfl⟩ := spawned
    exact .inr owed
  | complete p o =>
    simp only [spawn, Option.ite_none_right_eq_some, Option.some.injEq, Prod.mk.injEq] at spawned
    obtain ⟨_, rfl, rfl⟩ := spawned
    rcases ended_owed owed with old | rfl
    · exact .inr old
    · left
      refine ⟨.settling (.clear (.input p)), ?_, rfl⟩
      cases o <;> simp [ending]
  | await p n =>
    simp only [spawn, Option.ite_none_right_eq_some, Option.some.injEq, Prod.mk.injEq] at spawned
    obtain ⟨_, rfl, rfl⟩ := spawned
    rcases change_owed (s := s) owed register_flags (fun _ _ there => Family.register_keeps there)
      with old | ⟨c, _, changed⟩ | ⟨k, _, changed⟩ | ⟨_, changed⟩
    · exact .inr old
    · exact absurd rfl changed
    · exact absurd rfl changed
    · exact absurd rfl changed

theorem reached_covered {m : Machine (State V E) (Instr V E)} (reached : Reached a m) :
    Covered Owed Pays m := by
  induction reached with
  | start first =>
    subst first
    rintro d owed
    refine absurd owed ?_
    cases d with
    | store c => simp [Owed, Cell.storing, initial, created]
    | claim c => simp [Owed, Cell.rejecting, initial, created]
    | clear c =>
      rintro ⟨held, ended⟩
      have live : a.begun c = true := held
      have past : a.begun c = false := ended
      simp [live] at past
    | link j => simp [Owed, initial]
    | run => simp [Owed, initial]
  | next reached taken ih =>
    refine covered_step (fun s i d inv fit known owed => exec_pays fit known owed)
      (fun _ e s s' is d inv spawned owed => spawn_pays spawned owed) (fun i has j same => ?_)
      (reached_sound reached) ih taken
    subst same
    exact reached_fresh reached has

end Payments

end AllSettlement
