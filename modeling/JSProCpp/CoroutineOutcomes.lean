import JSProCpp.Coroutines

/- What coroutines settle their promises with, whatever the threads do. -/
namespace Coroutines
open Transitions Interleaving PromiseCells
variable {B V E : Type} {code : Code B V E}

section Names
/- A coroutine that has made no more than `j` promises may still make the one that is named by
   `j`. No two can, and none can once that promise is made. -/
variable (q : Pid) (j : Nat) (resolver : Bool) (places : Finset Pid) {s : State B V E}

def Awaiter.token (a : Awaiter B V E) : Nat := if a.coroutine = q ∧ a.count ≤ j then 1 else 0

def Instr.token : Instr B V E → Nat
  | .settling _ => 0
  | .go p i _ => if p = q ∧ i ≤ j then 1 else 0
  | .suspend _ a | .resume _ a | .waitDone _ a => a.token q j

def nameCost (s : State B V E) : Nat :=
  Family.waiting (Awaiter.token q j) places s.cells +
    (s.made (.child q j resolver)).isSome.toNat + (s.made q).isNone.toNat

theorem child_ne (p : Pid) (i : Nat) (r : Bool) : Pid.child p i r ≠ p := by
  intro same
  have size := congrArg sizeOf same
  simp only [Pid.child.sizeOf_spec] at size
  omega

theorem ending_token (p : Pid) (r : Outcome V E) :
    ((ending p r).map (Instr.token (B := B) q j)).sum = 0 := by
  cases r with
  | value v => cases handled : p.handled <;> simp [ending, handled, Instr.token]
  | exception e => rfl

theorem make_waiting (p : Pid) (b : B) :
    Family.waiting (Awaiter.token q j) places (s.make p b).cells =
      Family.waiting (Awaiter.token q j) places s.cells := by
  refine Finset.sum_congr rfl fun d _ => ?_
  by_cases here : d = p
  · subst here
    simp [State.make]
  · simp only [State.make]
    rw [Family.put_away here]

theorem make_made (p d : Pid) (b : B) :
    (s.make p b).made d = if d = p then some b else s.made d := Function.update_apply _ _ _ _

/-- A promise that nobody has made is made and its coroutine is started. -/
theorem make_names {p : Pid} (b : B) (fresh : s.made p = none)
    (other : Pid.child q j resolver ≠ p) :
    nameCost q j resolver places (s.make p b) + (if p = q then 1 else 0) =
      nameCost q j resolver places s := by
  unfold nameCost
  rw [make_waiting, make_made, if_neg other, make_made]
  by_cases same : p = q
  · subst same
    simp [fresh]
  · simp [same, Ne.symm same]

theorem did_names {i : Instr B V E} {t : State B V E} {is : List (Instr B V E)}
    (unmade : ∀ q n r b c k, i = .go q n b → code.head b = .make r c k →
      s.made (.child q n r) = none)
    (did : Did code s i t is) :
    ∃ places', nameCost q j resolver places t + (is.map (Instr.token q j)).sum ≤
      nameCost q j resolver places' s + i.token q j := by
  cases did with
  | settling i =>
    refine ⟨insert i.cell places, ?_⟩
    have change := Family.waiting_settle_le (Awaiter.token q j) places s.cells i
    have next : (((settle (s.cells i.cell) i).next.map .settling).map
        (Instr.token (B := B) q j)).sum = 0 := by
      simp [Function.comp_def, Instr.token]
    have flushed : (((settle (s.cells i.cell) i).flushed.map fun a => .resume i.cell a).map
        (Instr.token q j)).sum =
        ((settle (s.cells i.cell) i).flushed.map (Awaiter.token q j)).sum := by
      rw [List.map_map]
      rfl
    rw [List.map_append, List.sum_append, next, flushed]
    simp only [nameCost, Instr.token]
    omega
  | done p n b r =>
    refine ⟨places, ?_⟩
    rw [ending_token]
    exact Nat.le_add_right _ _
  | make p n r b c k makes =>
    refine ⟨places, ?_⟩
    have fresh := unmade p n r b c k rfl makes
    simp only [List.map_cons, List.map_nil, List.sum_cons, List.sum_nil, Instr.token]
    by_cases same : Pid.child q j resolver = .child p n r
    · injection same with owner count kind
      subst owner count kind
      unfold nameCost
      rw [make_waiting, make_made, if_pos rfl, make_made, if_neg (child_ne q j resolver).symm,
        fresh]
      rw [if_neg fun both => child_ne q j resolver both.1,
        if_neg fun both => Nat.not_succ_le_self j both.2, if_pos ⟨rfl, Nat.le_refl j⟩,
        Option.isSome_some, Option.isSome_none, Bool.toNat_true, Bool.toNat_false]
      omega
    · have change := make_names q j resolver places (c (.child p n r)) fresh same
      have before :
          (if p = q ∧ n + 1 ≤ j then 1 else 0) ≤ if p = q ∧ n ≤ j then 1 else 0 := by
        split
        · rename_i later
          rw [if_pos ⟨later.1, Nat.le_of_succ_le later.2⟩]
        · exact Nat.zero_le _
      simp only [Nat.zero_le, and_true]
      omega
  | register p a pending =>
    refine ⟨insert p places, ?_⟩
    have change := Family.waiting_register_le (Awaiter.token q j) places s.cells p fun _ => a
    simp only [nameCost, State.register, Instr.token, List.map_nil, List.sum_nil]
    omega
  | call p n b h o k =>
    refine ⟨places, ?_⟩
    simp [Instr.token]
  | ready | unready | dropped | undropped | through | resume | waited | blocked =>
    exact ⟨places, Nat.le_refl _⟩
  | missing p a pending => exact ⟨places, Nat.le_add_right _ _⟩

theorem spawn_names {e : Event V E} {t : State B V E} {is : List (Instr B V E)}
    (spawned : spawn code e s = some (t, is)) :
    nameCost q j resolver places t + (is.map (Instr.token q j)).sum ≤
      nameCost q j resolver places s := by
  cases spawn_spawned spawned with
  | make n r fresh =>
    have change := make_names q j resolver places (code.main n r) fresh (by simp)
    simp only [List.map_cons, List.map_nil, List.sum_cons, List.sum_nil, Instr.token, Nat.zero_le,
      and_true]
    omega
  | call h o => exact Nat.le_refl _

/-- A name that a waiting instruction is about to give is free. -/
theorem unmade_of_load {m : Machine (State B V E) (Instr B V E)} {n : Nat} {r : Bool}
    {b : B} (bound : load (Instr.token q n) (nameCost q n r ∅) m ≤ 1)
    (has : Has m (.go q n b)) : m.shared.made (.child q n r) = none := by
  have heavy := weight_le_load (Instr.token q n) (nameCost q n r ∅) has
  cases made : m.shared.made (.child q n r) with
  | none => rfl
  | some b' =>
    simp only [Instr.token, nameCost, made, Nat.le_refl, and_self, if_true, Option.isSome_some,
      Bool.toNat_true] at heavy bound
    omega

theorem reached_names {m : Machine (State B V E) (Instr B V E)} (reached : Reached code m) :
    ∀ q j r places, load (Instr.token q j) (nameCost q j r places) m ≤ 1 := by
  induction reached with
  | start first =>
    subst first
    intro q j r places
    simp [load, initial, nameCost, Family.waiting, created]
  | @next m n l _ taken ih =>
    intro q j r places
    cases step_change taken with
    | fork => exact (load_fork _ _).trans_le (ih q j r places)
    | start t e s is idle spawned =>
      have bound := spawn_names q j r places spawned
      have change := load_start (Instr.token q j) (nameCost q j r places) s is idle
      have before := ih q j r places
      omega
    | run t i rest here =>
      have has : Has m i := has_here here List.mem_cons_self
      have did : Did code m.shared i _ _ := exec_did i
      obtain ⟨places', bound⟩ := did_names q j r places
        (fun p n r b c k same _ => unmade_of_load p (ih p n r ∅) (same ▸ has)) did
      have change := load_run (Instr.token q j) (nameCost q j r places) (exec code i m.shared).1
        (exec code i m.shared).2 here
      have before := ih q j r places'
      simp only [load, program] at change before ⊢
      omega

theorem reached_unmade {m : Machine (State B V E) (Instr B V E)} (reached : Reached code m)
    {n : Nat} {r : Bool} {b : B} (has : Has m (.go q n b)) :
    m.shared.made (.child q n r) = none :=
  unmade_of_load q (reached_names reached q n r ∅) has

end Names

/-- The coroutine has come to `b`, by the promises it has made and the outcomes it was given. -/
inductive Came (code : Code B V E) (s : State B V E) (q : Pid) : Nat → B → Prop where
  | start (b : B) (made : s.made q = some b) : Came code s q 0 b
  | made (i : Nat) (resolver : Bool) (b : B) (c k : Pid → B) (here : Came code s q i b)
      (makes : code.head b = .make resolver c k)
      (child : s.made (.child q i resolver) = some (c (.child q i resolver))) :
      Came code s q (i + 1) (k (.child q i resolver))
  | resumed (p : Pid) (i : Nat) (b : B) (k : Outcome V E → B) (o : Outcome V E)
      (here : Came code s q i b) (needs : (code.head b).needs = some (p, k))
      (done : s.outcome p = some o) : Came code s q i (k o)
  | called (i : Nat) (b : B) (h : Handle) (o : Outcome V E) (k : B) (here : Came code s q i b)
      (calls : code.head b = .call h o k) : Came code s q i k

/-- The coroutine has come to where it needs an outcome of `p`. -/
def Needs (code : Code B V E) (s : State B V E) (p : Pid) (a : Awaiter B V E) : Prop :=
  ∃ b, (code.head b).needs = some (p, a.resume) ∧ Came code s a.coroutine a.count b

/-- It is a `co_await` that the coroutine stands at. -/
def Awaits (code : Code B V E) (s : State B V E) (p : Pid) (a : Awaiter B V E) : Prop :=
  ∃ b, code.head b = .await p a.resume ∧ Came code s a.coroutine a.count b

def Ends (code : Code B V E) (s : State B V E) (q : Pid) (o : Outcome V E) : Prop :=
  ∃ i b, code.head b = .done o ∧ Came code s q i b

def started (s : State B V E) (n : Nat) (r : Bool) : Prop := s.made (.root n r) ≠ none

abbrev Reads (code : Code B V E) (s : State B V E) : Pid → Nat → B → Prop :=
  Arrives code (started s) s.outcome

structure Finished (code : Code B V E) (s : State B V E) (q : Pid) (o : Outcome V E) : Prop where
  came : Ends code s q o
  made : s.made q ≠ none
  ended : s.running q = false

def Makes (code : Code B V E) (s : State B V E) : Pid → B → Prop
  | .root n r, b => b = code.main n r
  | .child q i r, b =>
      ∃ b' c k, Came code s q i b' ∧ code.head b' = .make r c k ∧ b = c (.child q i r)
  | .created _, _ => False

structure Inv (code : Code B V E) (s : State B V E) : Prop where
  tidy : s.cells.Tidy
  made : ∀ q b, s.made q = some b → Makes code s q b
  running : ∀ q, s.running q = true → s.made q ≠ none
  handle : ∀ q, (s.cells q).handle = true → s.made q ≠ none
  ended : ∀ q, s.made q ≠ none → s.running q = false → ∃ r, Ends code s q r
  resolved : ∀ q, q.handled = false → (s.cells q).resolved = true →
    s.made q ≠ none ∧ s.running q = false
  came : ∀ q o, q.handled = false → s.outcome q = some o → Ends code s q o
  reads : ∀ q o, q.handled = false → s.outcome q = some o →
    ∃ i b, code.head b = .done o ∧ Reads code s q i b
  awaiters : ∀ p, ∀ a ∈ (s.cells p).awaiters, Awaits code s p a

def Fit (code : Code B V E) (s : State B V E) : Instr B V E → Prop
  | .settling (.reject q _) => q.handled = true
  | .settling (.claim q o) => q.handled = true ∨ Finished code s q o
  | .settling (.store q o) =>
      (s.cells q).resolved = true ∧ (q.handled = true ∨ Finished code s q o)
  | .settling (.clear q) => s.made q ≠ none ∧ s.running q = false
  | .go q i b => Came code s q i b
  | .suspend p a => Awaits code s p a
  | .resume p a => s.outcome p ≠ none ∧ Awaits code s p a
  | .waitDone p a => Needs code s p a

def Known (code : Code B V E) (s : State B V E) : Instr B V E → Prop
  | .settling i => Fresh (s.cells i.cell) i
  | .go q i b => ∀ r c k, code.head b = .make r c k → s.made (.child q i r) = none
  | _ => True

structure Later (s t : State B V E) : Prop where
  made : ∀ q b, s.made q = some b → t.made q = some b
  outcome : ∀ p o, s.outcome p = some o → t.outcome p = some o
  resolved : ∀ p, (s.cells p).resolved = true → (t.cells p).resolved = true
  ended : ∀ q, s.made q ≠ none → s.running q = false → t.running q = false

section Later
variable {s t : State B V E} {q : Pid} {i : Nat} {b : B} {o : Outcome V E}

theorem later_made (later : Later s t) (made : s.made q ≠ none) : t.made q ≠ none := by
  obtain ⟨b, here⟩ := Option.ne_none_iff_exists'.mp made
  simp [later.made q b here]

theorem later_came (later : Later s t) (came : Came code s q i b) : Came code t q i b := by
  induction came with
  | start b made => exact .start b (later.made q b made)
  | made i r b c k _ makes child ih => exact .made i r b c k ih makes (later.made _ _ child)
  | resumed p i b k o _ needs done ih => exact .resumed p i b k o ih needs (later.outcome p o done)
  | called i b h o k _ calls ih => exact .called i b h o k ih calls

theorem later_needs {p : Pid} {a : Awaiter B V E} (later : Later s t) (needs : Needs code s p a) :
    Needs code t p a := by
  obtain ⟨b, head, came⟩ := needs
  exact ⟨b, head, later_came later came⟩

theorem later_awaits {p : Pid} {a : Awaiter B V E} (later : Later s t)
    (awaits : Awaits code s p a) : Awaits code t p a := by
  obtain ⟨b, head, came⟩ := awaits
  exact ⟨b, head, later_came later came⟩

theorem later_ends (later : Later s t) (ends : Ends code s q o) : Ends code t q o := by
  obtain ⟨i, b, head, came⟩ := ends
  exact ⟨i, b, head, later_came later came⟩

theorem later_reads (later : Later s t) (reads : Reads code s q i b) : Reads code t q i b := by
  induction reads with
  | root n r starts => exact .root n r (later_made later starts)
  | child q i r b c k _ makes ih => exact .child q i r b c k ih makes
  | made q i r b c k _ makes ih => exact .made q i r b c k ih makes
  | returned q p i j b d k o _ needs plain _ ends here end_ =>
    exact .returned q p i j b d k o here needs plain end_ ends
  | settled q p i b k o _ needs handled given ih =>
    exact .settled q p i b k o ih needs handled (later.outcome p o given)
  | called q i b h o k _ calls ih => exact .called q i b h o k ih calls

theorem later_finished (later : Later s t) (finished : Finished code s q o) :
    Finished code t q o := by
  obtain ⟨ends, made, ended⟩ := finished
  exact ⟨later_ends later ends, later_made later made, later.ended q made ended⟩

theorem later_fit (later : Later s t) (i : Instr B V E) (fit : Fit code s i) : Fit code t i := by
  cases i with
  | settling i =>
    cases i with
    | reject q o => exact fit
    | claim q o => exact fit.imp_right (later_finished later)
    | store q o => exact ⟨later.resolved q fit.1, fit.2.imp_right (later_finished later)⟩
    | clear q => exact ⟨later_made later fit.1, later.ended q fit.1 fit.2⟩
  | go q i b => exact later_came later fit
  | suspend p a => exact later_awaits later fit
  | resume p a =>
    obtain ⟨done, awaits⟩ := fit
    obtain ⟨o, done⟩ := Option.ne_none_iff_exists'.mp done
    exact ⟨by simp [later.outcome p o done], later_awaits later awaits⟩
  | waitDone p a => exact later_needs later fit

theorem came_reads_from (start : ∀ b, s.made q = some b → Reads code s q 0 b)
    (reads : ∀ p o, p.handled = false → s.outcome p = some o →
      ∃ i b, code.head b = .done o ∧ Reads code s p i b)
    (came : Came code s q i b) : Reads code s q i b := by
  induction came with
  | start b made => exact start b made
  | made i r b c k _ makes _ ih => exact .made q i r b c k ih makes
  | resumed p i b k o _ needs done ih =>
    cases handled : p.handled with
    | true => exact .settled q p i b k o ih needs handled done
    | false =>
      obtain ⟨j, d, ends, end_⟩ := reads p o handled done
      exact .returned q p i j b d k o ih needs handled end_ ends
  | called i b h o k _ calls ih => exact .called q i b h o k ih calls

/-- What a coroutine has come to is what the reading of the bodies gives. -/
theorem came_reads (inv : Inv code s) (came : Came code s q i b) : Reads code s q i b := by
  induction q generalizing i b with
  | root n r =>
    refine came_reads_from (fun b made => ?_) inv.reads came
    obtain rfl := inv.made _ b made
    exact .root n r (by simp [started, made])
  | child q n r above =>
    refine came_reads_from (fun b made => ?_) inv.reads came
    obtain ⟨b', c, k, came, makes, rfl⟩ := inv.made _ b made
    exact .child q n r b' c k (above came) makes
  | created n => exact came_reads_from (fun b made => (inv.made _ b made).elim) inv.reads came

theorem later_makes (later : Later s t) (makes : Makes code s q b) : Makes code t q b := by
  cases q with
  | root n r => exact makes
  | child q i r =>
    obtain ⟨b', c, k, came, head, same⟩ := makes
    exact ⟨b', c, k, later_came later came, head, same⟩
  | created n => exact makes

end Later

section Steps
variable {s t : State B V E} {i : Instr B V E} {is : List (Instr B V E)}

theorem settle_later (s : State B V E) {i : Settling Pid V E} (fresh : Fresh (s.cells i.cell) i) :
    Later s { s with cells := s.cells.settle i } where
  made := fun _ _ => id
  outcome := fun p => (Family.grows_settle fresh p).outcome
  resolved := fun p => (Family.grows_settle fresh p).resolved
  ended := fun _ _ => id

theorem register_later (s : State B V E) (p : Pid) (a : Awaiter B V E) :
    Later s (s.register p a) where
  made := fun _ _ => id
  outcome := fun q => (Family.grows_register q).outcome
  resolved := fun q => (Family.grows_register q).resolved
  ended := fun _ _ => id

theorem ended_later (s : State B V E) (q : Pid) : Later s (s.ended q) where
  made := fun _ _ => id
  outcome := fun _ _ => id
  resolved := fun _ => id
  ended := fun p _ ended => by
    by_cases here : p = q
    · subst here
      exact Function.update_self _ _ _
    · exact (Function.update_of_ne here _ _).trans ended

theorem make_cell (s : State B V E) (p : Pid) (b : B) (c : Pid) :
    (s.make p b).cells c = if c = p then { s.cells c with handle := true } else s.cells c := by
  by_cases here : c = p
  · subst here
    simp [State.make]
  · rw [if_neg here]
    exact Family.put_away here

theorem make_outcome (s : State B V E) (p : Pid) (b : B) :
    (s.make p b).outcome = s.outcome := by
  funext c
  simp only [State.outcome, make_cell]
  split <;> rfl

theorem make_running (s : State B V E) (p q : Pid) (b : B) :
    (s.make p b).running q = if q = p then true else s.running q := Function.update_apply _ _ _ _

theorem make_later {p : Pid} (b : B) (fresh : s.made p = none) : Later s (s.make p b) where
  made := by
    intro q b' made
    rw [make_made, if_neg, made]
    rintro rfl
    simp [fresh] at made
  outcome := by
    intro q o done
    rw [make_outcome]
    exact done
  resolved := by
    intro q resolved
    rw [make_cell]
    split <;> exact resolved
  ended := by
    intro q made ended
    rw [make_running, if_neg, ended]
    rintro rfl
    exact made fresh

structure Moved (code : Code B V E) (s t : State B V E) : Prop where
  later : Later s t
  tidy : t.cells.Tidy
  made : ∀ q b, t.made q = some b → s.made q = some b ∨ Makes code s q b
  running : ∀ q, t.running q = true → s.running q = true ∨ t.made q ≠ none
  handle : ∀ q, (t.cells q).handle = true → (s.cells q).handle = true ∨ t.made q ≠ none
  ended : ∀ q, t.made q ≠ none → t.running q = false →
    (s.made q ≠ none ∧ s.running q = false) ∨ ∃ r, Ends code s q r
  resolved : ∀ q, q.handled = false → (t.cells q).resolved = true →
    (s.cells q).resolved = true ∨ (s.made q ≠ none ∧ s.running q = false)
  outcome : ∀ q o, q.handled = false → t.outcome q = some o →
    s.outcome q = some o ∨ Finished code s q o
  awaiters : ∀ p, ∀ a ∈ (t.cells p).awaiters,
    a ∈ (s.cells p).awaiters ∨ Awaits code s p a

theorem moved_inv (inv : Inv code s) (moved : Moved code s t) : Inv code t := by
  have later := moved.later
  constructor
  · exact moved.tidy
  · intro q b made
    rcases moved.made q b made with old | makes
    · exact later_makes later (inv.made q b old)
    · exact later_makes later makes
  · intro q running
    rcases moved.running q running with old | made
    · exact later_made later (inv.running q old)
    · exact made
  · intro q held
    rcases moved.handle q held with old | made
    · exact later_made later (inv.handle q old)
    · exact made
  · intro q made ended
    rcases moved.ended q made ended with ⟨old, over_⟩ | ⟨r, ends⟩
    · obtain ⟨r, ends⟩ := inv.ended q old over_
      exact ⟨r, later_ends later ends⟩
    · exact ⟨r, later_ends later ends⟩
  · intro q plain resolved
    rcases moved.resolved q plain resolved with old | ⟨made, ended⟩
    · obtain ⟨made, ended⟩ := inv.resolved q plain old
      exact ⟨later_made later made, later.ended q made ended⟩
    · exact ⟨later_made later made, later.ended q made ended⟩
  · intro q o plain done
    rcases moved.outcome q o plain done with old | finished
    · exact later_ends later (inv.came q o plain old)
    · exact later_ends later finished.came
  · intro q o plain done
    rcases moved.outcome q o plain done with old | finished
    · obtain ⟨i, b, head, reads⟩ := inv.reads q o plain old
      exact ⟨i, b, head, later_reads later reads⟩
    · obtain ⟨i, b, head, came⟩ := finished.came
      exact ⟨i, b, head, later_reads later (came_reads inv came)⟩
  · intro p a there
    rcases moved.awaiters p a there with old | awaits
    · exact later_awaits later (inv.awaiters p a old)
    · exact later_awaits later awaits

theorem settle_moved (inv : Inv code s) {i : Settling Pid V E} (fit : Fit code s (.settling i))
    (fresh : Fresh (s.cells i.cell) i) : Moved code s { s with cells := s.cells.settle i } where
  later := settle_later s fresh
  tidy := by
    refine Family.tidy_settle inv.tidy fun c o stores => ?_
    subst stores
    exact fit.1
  made := fun _ _ => .inl
  running := fun _ => .inl
  handle := fun _ held => .inl (Family.handle_settle held).1
  ended := fun _ made ended => .inl ⟨made, ended⟩
  resolved := by
    intro q plain resolved
    simp only [Family.settle_at] at resolved
    split at resolved
    · rename_i here
      subst here
      rw [settle_resolved] at resolved
      cases i with
      | claim p o =>
        have plain : p.handled = false := plain
        have finished := fit.resolve_left (by simp [plain])
        exact .inr ⟨finished.made, finished.ended⟩
      | reject p o => exact .inl resolved
      | store p o => exact .inl resolved
      | clear p => exact .inl resolved
    · exact .inl resolved
  outcome := by
    intro q o plain done
    rcases Family.outcome_settle done with old | rfl
    · exact .inl old
    · exact .inr (fit.2.resolve_left (by simp [plain]))
  awaiters := fun _ _ there => .inl (Family.settle_sub there)

theorem register_moved (inv : Inv code s) {p : Pid} {a : Awaiter B V E}
    (pending : s.outcome p = none) (awaits : Awaits code s p a) :
    Moved code s (s.register p a) where
  later := register_later s p a
  tidy := Family.tidy_register inv.tidy pending
  made := fun _ _ => .inl
  running := fun _ => .inl
  handle := fun q held => .inl ((Family.register_handle q).symm.trans held)
  ended := fun _ made ended => .inl ⟨made, ended⟩
  resolved := fun q _ resolved => .inl ((Family.register_flags q).1.symm.trans resolved)
  outcome := fun q _ _ done => .inl ((Family.register_outcome q).symm.trans done)
  awaiters := by
    intro q a' there
    rcases Family.register_awaiters there with old | ⟨rfl, rfl⟩
    · exact .inl old
    · exact .inr awaits

theorem ended_moved (inv : Inv code s) {q : Pid} {r : Outcome V E} (ends : Ends code s q r) :
    Moved code s (s.ended q) where
  later := ended_later s q
  tidy := inv.tidy
  made := fun _ _ => .inl
  running := by
    intro p running
    by_cases here : p = q
    · subst here
      simp [State.ended] at running
    · exact .inl ((Function.update_of_ne here _ _).symm.trans running)
  handle := fun _ => .inl
  ended := by
    intro p made ended
    by_cases here : p = q
    · subst here
      exact .inr ⟨r, ends⟩
    · exact .inl ⟨made, (Function.update_of_ne here _ _).symm.trans ended⟩
  resolved := fun _ _ => .inl
  outcome := fun _ _ _ => .inl
  awaiters := fun _ _ => .inl

theorem make_moved (inv : Inv code s) {p : Pid} {b : B} (fresh : s.made p = none)
    (makes : Makes code s p b) : Moved code s (s.make p b) where
  later := make_later b fresh
  tidy := by
    constructor
    · intro c done
      rw [make_cell] at done ⊢
      split at done
      · rename_i here
        rw [if_pos here]
        exact inv.tidy.resolved c done
      · rename_i other
        rw [if_neg other]
        exact inv.tidy.resolved c done
    · intro c free done
      rw [make_cell] at free done ⊢
      split at free
      · simp at free
      · rename_i other
        rw [if_neg other] at done ⊢
        exact inv.tidy.emptied c free done
  made := by
    intro q b' made
    rw [make_made] at made
    split at made
    · rename_i here
      rw [Option.some.injEq] at made
      subst here made
      exact .inr makes
    · exact .inl made
  running := by
    intro q running
    rw [make_running] at running
    rw [make_made]
    split at running
    · rename_i here
      simp [here]
    · exact .inl running
  handle := by
    intro q held
    rw [make_cell] at held
    rw [make_made]
    split at held
    · rename_i here
      simp [here]
    · exact .inl held
  ended := by
    intro q made ended
    rw [make_running] at ended
    rw [make_made] at made
    split at ended
    · simp at ended
    · rename_i other
      rw [if_neg other] at made
      exact .inl ⟨made, ended⟩
  resolved := by
    intro q _ resolved
    rw [make_cell] at resolved
    split at resolved <;> exact .inl resolved
  outcome := by
    intro q o _ done
    rw [make_outcome] at done
    exact .inl done
  awaiters := by
    intro q a there
    rw [make_cell] at there
    split at there <;> exact .inl there

theorem settling_fit (q : Pid) (o : Outcome V E) (handled : q.handled = true) :
    Fit code s (.settling (settling q o)) := by
  cases o with
  | value v => exact .inl handled
  | exception e => exact handled

theorem ending_fit {q : Pid} {r : Outcome V E} (finished : Finished code s q r) :
    ∀ x ∈ ending q r, Fit code s x := by
  have clears : Fit code s (.settling (.clear q)) := ⟨finished.made, finished.ended⟩
  intro x member
  cases r with
  | value v =>
    simp only [ending] at member
    split at member
    · obtain rfl := List.mem_singleton.mp member
      exact clears
    · rcases List.mem_pair.mp member with rfl | rfl
      · exact .inr finished
      · exact clears
  | exception e =>
    rcases List.mem_pair.mp member with rfl | rfl
    · exact .inr finished
    · exact clears

theorem came_made {q : Pid} {n : Nat} {b : B} (came : Came code s q n b) : s.made q ≠ none := by
  induction came with
  | start b made => simp [made]
  | made _ _ _ _ _ _ _ _ ih => exact ih
  | resumed _ _ _ _ _ _ _ _ ih => exact ih
  | called _ _ _ _ _ _ _ ih => exact ih

theorem settle_fit {i : Settling Pid V E} (inv : Inv code s) (fit : Fit code s (.settling i))
    (fresh : Fresh (s.cells i.cell) i) :
    ∀ x ∈ (settle (s.cells i.cell) i).next.map Instr.settling ++
      (settle (s.cells i.cell) i).flushed.map fun a => .resume i.cell a,
      Fit code { s with cells := s.cells.settle i } x := by
  have later := settle_later s fresh
  intro x member
  rcases List.mem_append.mp member with next | flushed
  · obtain ⟨j, inside, rfl⟩ := List.mem_map.mp next
    rw [settle_next] at inside
    cases i with
    | reject p o =>
      dsimp only at inside
      split at inside
      · simp at inside
      · obtain rfl := List.mem_singleton.mp inside
        exact .inl fit
    | claim p o =>
      dsimp only at inside
      split at inside
      · simp at inside
      · obtain rfl := List.mem_singleton.mp inside
        exact ⟨Family.settle_claimed s.cells p o, fit.imp_right (later_finished later)⟩
    | store p o => simp at inside
    | clear p => simp at inside
  · obtain ⟨a, inside, rfl⟩ := List.mem_map.mp flushed
    exact ⟨Family.flushed_done inside,
      later_awaits later (inv.awaiters _ a (flushed_sub inside))⟩

theorem did_kept (inv : Inv code s) (fit : Fit code s i) (known : Known code s i)
    (did : Did code s i t is) :
    Kept (Inv code) (Fit code) s t is := by
  cases did with
  | settling i =>
    have moved := settle_moved inv fit known
    exact ⟨moved_inv inv moved, later_fit moved.later, settle_fit inv fit known⟩
  | done q n b r head =>
    have ends : Ends code s q r := ⟨n, b, head, fit⟩
    have moved := ended_moved inv ends
    refine ⟨moved_inv inv moved, later_fit moved.later, ending_fit ⟨?_, ?_, ?_⟩⟩
    · exact later_ends moved.later ends
    · exact later_made moved.later (came_made fit)
    · exact Function.update_self _ _ _
  | make q n r b c k makes =>
    have moved := make_moved inv (p := .child q n r) (b := c (.child q n r)) (known r c k makes)
      ⟨b, c, k, fit, makes, rfl⟩
    refine ⟨moved_inv inv moved, later_fit moved.later, fun x member => ?_⟩
    have child : (s.make (.child q n r) (c (.child q n r))).made (.child q n r) =
        some (c (.child q n r)) := Function.update_self _ _ _
    rcases List.mem_pair.mp member with rfl | rfl
    · exact .start _ child
    · exact .made n r b c k (later_came moved.later fit) makes child
  | call q n b h o k calls =>
    refine ⟨inv, fun _ => id, fun x member => ?_⟩
    rcases List.mem_pair.mp member with rfl | rfl
    · exact settling_fit _ o h.handled
    · exact .called n b h o k fit calls
  | register p a pending =>
    have moved := register_moved inv pending fit
    exact ⟨moved_inv inv moved, later_fit moved.later, by simp⟩
  | ready q p n b k awaits done =>
    exact kept_one (Instr.resume p ⟨q, n, k⟩) inv ⟨done, b, awaits, fit⟩
  | unready q p n b k awaits => exact kept_one (Instr.suspend p ⟨q, n, k⟩) inv ⟨b, awaits, fit⟩
  | dropped q p n b k drops o done =>
    have came : Came code s q n k := .resumed p n b (fun _ => k) o fit (by rw [drops]; rfl) done
    exact kept_one (Instr.go q n k) inv came
  | undropped q p n b k drops =>
    exact kept_one (Instr.waitDone p ⟨q, n, fun _ => k⟩) inv ⟨b, by rw [drops]; rfl, fit⟩
  | through p a done => exact kept_one (Instr.resume p a) inv ⟨done, fit⟩
  | resume p a o done =>
    obtain ⟨b, awaits, came⟩ := fit.2
    have came : Came code s a.coroutine a.count (a.resume o) :=
      .resumed p _ b _ o came (by rw [awaits]; rfl) done
    exact kept_one (Instr.go a.coroutine a.count (a.resume o)) inv came
  | missing p a pending => exact absurd pending fit.1
  | waited p a o done =>
    obtain ⟨b, needs, came⟩ := fit
    have came : Came code s a.coroutine a.count (a.resume o) := .resumed p _ b _ o came needs done
    exact kept_one (Instr.go a.coroutine a.count (a.resume o)) inv came
  | blocked p a => exact kept_one (Instr.waitDone p a) inv fit

theorem spawn_kept {e : Event V E} (inv : Inv code s) (spawned : spawn code e s = some (t, is)) :
    Kept (Inv code) (Fit code) s t is := by
  cases spawn_spawned spawned with
  | make n r fresh =>
    have moved := make_moved inv (p := .root n r) fresh rfl
    refine ⟨moved_inv inv moved, later_fit moved.later, fun x member => ?_⟩
    obtain rfl := List.mem_singleton.mp member
    exact .start _ (Function.update_self _ _ _)
  | call h o => exact kept_one _ inv (settling_fit _ o h.handled)

end Steps

section Runs
variable {m : Machine (State B V E) (Instr B V E)}

theorem reached_known (reached : Reached code m) (i : Instr B V E) (has : Has m i) :
    Known code m.shared i := by
  cases i with
  | settling i => exact reached_fresh reached has
  | go q n b => exact fun _ _ _ _ => reached_unmade q reached has
  | suspend p a => trivial
  | resume p a => trivial
  | waitDone p a => trivial

theorem reached_sound (reached : Reached code m) : Sound (Inv code) (Fit code) m := by
  induction reached with
  | start first =>
    subst first
    refine ⟨?_, fun i has => absurd has (has_idle (by simp [Idle, initial]) i)⟩
    constructor <;> simp [initial, created, State.outcome]
    constructor <;> simp
  | next reached taken ih =>
    exact sound_step (fun s i inv fit known => did_kept inv fit known (exec_did i))
      (fun _ e s t is inv spawned => spawn_kept inv spawned) (reached_known reached) ih taken

end Runs

inductive Body (V E : Type) where
  | done (r : Outcome V E)
  | await (p : Pid) (k : Outcome V E → Body V E)
  | make (resolver : Bool) (b k : Pid → Body V E)
  | call (h : Handle) (o : Outcome V E) (k : Body V E)
  | drop (p : Pid) (k : Body V E)

def Body.head : Body V E → Head (Body V E) V E
  | .done r => .done r
  | .await p k => .await p k
  | .make resolver b k => .make resolver b k
  | .call h o k => .call h o k
  | .drop p k => .drop p k

/-- The handle of the promise of `Create()` that the coroutines wait for. -/
def source : Handle := ⟨.created 0, rfl⟩

end Coroutines
