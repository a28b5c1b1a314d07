import JSProCpp.CVPromise

/- Which signal settles which waiters of a `CVPromise`. -/
namespace CVPromise
open Transitions Interleaving PromiseCells
variable {E : Type}

structure Later (s t : State E) : Prop where
  cells : ∀ n, Grows (s.cells n) (t.cells n)
  promise : s.promise ≤ t.promise
  destroyed : t.destroyed = s.destroyed
  due : ∀ n o, due s n = some o → due t n = some o

section Steps
variable {c : Clients E} {s t : State E}

theorem later_running (later : Later s t) {inside : List Nat} (running : Running s inside) :
    Running t inside := by
  constructor
  · exact later.destroyed.trans running.1
  · intro n member
    exact Nat.lt_of_lt_of_le (running.2 n member) later.promise

theorem later_fit (later : Later s t) {i : Instr E} (fit : Fit s i) : Fit t i := by
  cases i with
  | call inside x => exact later_running later fit
  | attach inside n k => exact later_running later fit
  | assertDone n => trivial
  | resume inside n k =>
    obtain ⟨o, done, past⟩ := fit
    exact ⟨o, (later.cells n).outcome o done, past.imp_right (later_running later)⟩
  | settling inside i =>
    obtain ⟨o, phase, owed, past⟩ := fit
    refine ⟨o, ?_, later.due _ o owed, past.imp_right (later_running later)⟩
    rcases phase with reject | claim | ⟨store, resolved⟩
    · exact .inl reject
    · exact .inr (.inl claim)
    · exact .inr (.inr ⟨store, (later.cells _).resolved resolved⟩)

theorem signal_kept {inside : List Nat} (o : Signal E) (inv : Inv s) (running : Running s inside) :
    Kept Inv Fit s (signal inside o s).1 (signal inside o s).2 := by
  have alive := running.1
  have append : ∀ n o', due s n = some o' → due (signal inside o s).1 n = some o' :=
    fun n o' owed => due_append ⟨_, rfl⟩ alive owed
  have later : Later s (signal inside o s).1 :=
    ⟨fun _ => grows_refl _, Nat.le_succ _, rfl, append⟩
  have after : Inv (signal inside o s).1 := by
    constructor
    · exact inv.tidy
    · exact inv.made
    · intro n o' done
      exact append n o' (inv.settled n o' done)
    · simp [signal, inv.swapped]
    · intro i n o' here
      rcases append_lookup here with ⟨rfl, same⟩ | old
      · rw [Prod.mk.injEq] at same
        rw [same.1, inv.swapped]
      · exact inv.swaps i n o' old
    · intro w member
      obtain ⟨same, bound, apart⟩ := inv.waits w member
      exact ⟨same, Nat.le_succ_of_le bound, apart⟩
    · exact inv.asserted
  refine ⟨after, fun x fit => later_fit later fit, fun x new => ?_⟩
  have cell : (settling s.promise o.outcome).cell = s.promise := by
    cases o <;> rfl
  simp only [signal, List.mem_cons, List.not_mem_nil, or_false] at new
  rcases new with rfl | rfl
  · refine ⟨o.outcome, ?_, ?_, .inr ⟨alive, ?_⟩⟩
    · cases o with
      | notify => exact .inr (.inl rfl)
      | reject e => exact .inl rfl
    · have taken : s.promise < (signal inside o s).1.promise := Nat.lt_succ_self _
      obtain ⟨o', here, owed⟩ := due_taken after taken
      rw [cell, owed]
      have last : (signal inside o s).1.swaps[s.promise]? = some (s.promise, o) := by
        simp [signal, inv.swapped]
      rw [last, Option.some.injEq, Prod.mk.injEq] at here
      rw [here.2]
    · intro n member
      rw [cell] at member
      rcases List.mem_cons.mp member with rfl | outer
      · exact Nat.lt_succ_self _
      · exact Nat.lt_succ_of_lt (running.2 n outer)
  · trivial

theorem known_fresh {inside : List Nat} {i : Settling Nat Unit (Cause E)}
    (known : Known s (.settling inside i)) : Fresh (s.cells i.cell) i := by
  cases i with
  | store n o =>
    have quiet := known .stored rfl
    exact Option.isNone_iff_eq_none.mp (Option.isSome_eq_false_iff.mp quiet)
  | _ => trivial

theorem settling_kept {inside : List Nat} {i : Settling Nat Unit (Cause E)} (inv : Inv s)
    (fit : Fit s (.settling inside i)) (fresh : Fresh (s.cells i.cell) i) :
    Kept Inv Fit s (exec c (.settling inside i) s).1 (exec c (.settling inside i) s).2 := by
  have later : Later s { s with cells := s.cells.settle i } :=
    ⟨fun n => Family.grows_settle fresh n, Nat.le_refl _, rfl, fun _ _ owed => owed⟩
  obtain ⟨o, phase, owed, past⟩ := fit
  have after : Inv { s with cells := s.cells.settle i } := by
    constructor
    · apply Family.tidy_settle inv.tidy
      intro n o' store
      subst store
      rcases phase with reject | claim | ⟨_, resolved⟩
      · simp at reject
      · simp at claim
      · exact resolved
    · intro n
      by_contra held
      rw [Bool.not_eq_false] at held
      have before := (Family.handle_settle held).1
      simp [inv.made n] at before
    · intro n o' done
      rcases Family.outcome_settle done with old | store
      · exact inv.settled n o' old
      · subst store
        rcases phase with reject | claim | ⟨same, _⟩
        · simp at reject
        · simp at claim
        · simp only [Settling.cell, Settling.store.injEq, true_and] at same
          exact same ▸ owed
    · exact inv.swapped
    · exact inv.swaps
    · exact inv.waits
    · exact inv.asserted
  refine ⟨after, fun x fit => later_fit later fit, fun x new => ?_⟩
  rcases List.mem_append.mp new with next | flushed
  · obtain ⟨j, there, rfl⟩ := List.mem_map.mp next
    rw [settle_next] at there
    rcases phase with reject | claim | ⟨store, _⟩
    · rw [reject] at there
      simp only at there
      split at there
      · simp at there
      · rw [List.mem_singleton.mp there]
        exact ⟨o, .inr (.inl rfl), owed, past⟩
    · rw [claim] at there
      simp only at there
      split at there
      · simp at there
      · rw [List.mem_singleton.mp there]
        refine ⟨o, .inr (.inr ⟨rfl, ?_⟩), owed, past⟩
        have set := Family.settle_claimed s.cells i.cell o
        rw [← claim] at set
        exact set
    · rw [store] at there
      simp at there
  · obtain ⟨a, there, rfl⟩ := List.mem_map.mp flushed
    obtain ⟨o', done⟩ := Option.ne_none_iff_exists'.mp (Family.flushed_done there)
    have same := (after.settled _ o' done).symm.trans owed
    rw [Option.some.injEq] at same
    subst same
    exact ⟨o', done, past⟩

theorem exec_kept {i : Instr E} (inv : Inv s) (fit : Fit s i) (known : Known s i) :
    Kept Inv Fit s (exec c i s).1 (exec c i s).2 := by
  cases i with
  | settling inside i => exact settling_kept inv fit (known_fresh known)
  | call inside x =>
    cases x with
    | notify => exact signal_kept .notify inv fit
    | reject e => exact signal_kept (.reject e) inv fit
    | wait k =>
      have later : Later s (wait inside k s).1 :=
        ⟨fun _ => grows_refl _, Nat.le_refl _, rfl, fun _ _ owed => owed⟩
      refine ⟨⟨inv.tidy, inv.made, inv.settled, inv.swapped, inv.swaps, fun w member => ?_,
        inv.asserted⟩, fun x fit => later_fit later fit, fun x new => ?_⟩
      · rcases List.mem_append.mp member with old | new
        · exact inv.waits w old
        · rw [List.mem_singleton.mp new]
          exact ⟨inv.swapped, Nat.le_refl _, fit.2⟩
      · rw [List.mem_singleton.mp new]
        exact fit
    | attach n k =>
      simp only [exec, call]
      split
      · refine ⟨inv, fun _ fit => fit, fun x new => ?_⟩
        rw [List.mem_singleton.mp new]
        exact fit
      · exact ⟨inv, fun _ fit => fit, by simp⟩
  | attach inside n k =>
    simp only [exec]
    split
    · rename_i o done
      refine ⟨inv, fun _ fit => fit, fun x new => ?_⟩
      rw [List.mem_singleton.mp new]
      exact ⟨o, done, .inr fit⟩
    · rename_i pending
      have later : Later s { s with cells := s.cells.register n (⟨k, ·⟩) } :=
        ⟨fun _ => Family.grows_register _, Nat.le_refl _, rfl, fun _ _ owed => owed⟩
      refine ⟨⟨Family.tidy_register inv.tidy pending, fun n' => ?_, fun n' o done => ?_,
        inv.swapped,
        inv.swaps, inv.waits, inv.asserted⟩, fun x fit => later_fit later fit, by simp⟩
      · rw [Family.register_handle]
        exact inv.made n'
      · rw [State.outcome, Family.register_outcome] at done
        exact inv.settled n' o done
  | resume inside n k =>
    obtain ⟨o, done, past⟩ := fit
    have here : (s.cells n).outcome = some o := done
    simp only [exec, here]
    refine ⟨inv, fun _ fit => fit, fun x new => ?_⟩
    obtain ⟨y, there, rfl⟩ := List.mem_map.mp new
    rcases past with rfl | running
    · simp [c.ended k] at there
    · exact running
  | assertDone n =>
    have later : Later s { s with failed := s.failed || (s.cells n).outcome.isNone } :=
      ⟨fun _ => grows_refl _, Nat.le_refl _, rfl, fun _ _ owed => owed⟩
    refine ⟨⟨inv.tidy, inv.made, inv.settled, inv.swapped, inv.swaps, inv.waits, ?_⟩,
      fun x fit => later_fit later fit, by simp [exec]⟩
    obtain ⟨o, done⟩ := Option.ne_none_iff_exists'.mp known
    have here : (s.cells n).outcome = some o := done
    simp [exec, inv.asserted, here]

theorem spawn_kept {u : Nat} {x : Call E} {s' : State E} {is : List (Instr E)} (inv : Inv s)
    (spawned : (program c).spawn u x s = some (s', is)) : Kept Inv Fit s s' is := by
  simp only [program, Option.ite_none_left_eq_some, Option.some.injEq, Prod.mk.injEq] at spawned
  obtain ⟨alive, rfl, rfl⟩ := spawned
  refine ⟨inv, fun _ fit => fit, fun y new => ?_⟩
  rw [List.mem_singleton.mp new]
  exact ⟨Bool.eq_false_iff.mpr alive, by simp⟩

end Steps

def Needs : Instr E → Nat → Prop
  | .assertDone n, d => n = d
  | _, _ => False

def Gives : Instr E → Nat → Prop
  | .settling _ i, d => i.cell = d ∧ sets .stored i = true
  | _, _ => False

def Done (s : State E) (n : Nat) : Prop := s.outcome n ≠ none

def Marks (s : State E) : Instr E → Prop
  | .settling _ i => ∀ k, sets k i = true → (s.cells i.cell).marked k = false
  | _ => True

section Order
variable {c : Clients E} {s : State E}

theorem settle_gives {inside : List Nat} {i : Settling Nat Unit (Cause E)}
    (marks : Marks s (.settling inside i)) (gives : sets .stored i = true) :
    Done { s with cells := s.cells.settle i } i.cell ∨
      ∃ j ∈ (settle (s.cells i.cell) i).next, j.cell = i.cell ∧ sets .stored j = true := by
  cases i with
  | reject n o =>
    right
    have free : (s.cells n).rejected = false := marks .rejected rfl
    exact ⟨.claim n o, by simp [settle_next, Settling.cell, free], rfl, rfl⟩
  | claim n o =>
    right
    have free : (s.cells n).resolved = false := marks .resolved rfl
    exact ⟨.store n o, by simp [settle_next, Settling.cell, free], rfl, rfl⟩
  | store n o =>
    left
    intro pending
    have done := Family.settle_stored s.cells n o
    rw [show (s.cells.settle (.store n o) n).outcome = none from pending] at done
    simp at done
  | clear n => simp [sets] at gives

theorem exec_outcome {i : Instr E} (marks : Marks s i) {d : Nat} {o : Result E}
    (done : s.outcome d = some o) : (exec c i s).1.outcome d = some o := by
  cases i with
  | settling inside i =>
    have fresh : Fresh (s.cells i.cell) i :=
      known_fresh (show Known s (.settling inside i) from marks)
    exact (Family.grows_settle fresh d).outcome o done
  | call inside x =>
    cases x with
    | attach n k =>
      simp only [exec, call]
      split <;> exact done
    | _ => exact done
  | attach inside n k =>
    simp only [exec]
    split
    · exact done
    · rw [State.outcome, Family.register_outcome]
      exact done
  | resume inside n k =>
    simp only [exec]
    split <;> exact done
  | assertDone n => exact done

theorem exec_done {i : Instr E} (marks : Marks s i) {d : Nat} (done : Done s d) :
    Done (exec c i s).1 d := by
  obtain ⟨o, done⟩ := Option.ne_none_iff_exists'.mp done
  have still := exec_outcome (c := c) marks done
  simp [Done, still]

theorem signal_backed (inside : List Nat) (o : Signal E) :
    Backed Needs Gives (Done (signal inside o s).1) (signal inside o s).2 := by
  refine ⟨fun d needs => absurd needs id, ?_, trivial⟩
  intro d needs
  have same : s.promise = d := needs
  subst same
  right
  cases o with
  | notify => exact ⟨rfl, rfl⟩
  | reject e => exact ⟨rfl, rfl⟩

theorem exec_backed {i : Instr E} (marks : Marks s i) :
    Backed Needs Gives (Done (exec c i s).1) (exec c i s).2 ∧
      ∀ d, Done s d ∨ Gives i d → Done (exec c i s).1 d ∨ ∃ j ∈ (exec c i s).2, Gives j d := by
  constructor
  · cases i with
    | call inside x =>
      cases x with
      | notify => exact signal_backed inside .notify
      | reject e => exact signal_backed inside (.reject e)
      | wait k => exact ⟨fun d needs => absurd needs id, trivial⟩
      | attach n k =>
        apply backed_free
        intro j member d
        simp only [exec, call] at member
        split at member
        · rw [List.mem_singleton.mp member]
          exact id
        · simp at member
    | settling inside i =>
      apply backed_free
      intro j member d
      rcases List.mem_append.mp member with next | flushed
      · obtain ⟨x, _, rfl⟩ := List.mem_map.mp next
        exact id
      · obtain ⟨x, _, rfl⟩ := List.mem_map.mp flushed
        exact id
    | attach inside n k =>
      apply backed_free
      intro j member d
      simp only [exec] at member
      split at member
      · rw [List.mem_singleton.mp member]
        exact id
      · simp at member
    | resume inside n k =>
      apply backed_free
      intro j member d
      simp only [exec] at member
      split at member
      · obtain ⟨x, _, rfl⟩ := List.mem_map.mp member
        exact id
      · simp at member
    | assertDone n => trivial
  · rintro d (done | gives)
    · exact .inl (exec_done marks done)
    · cases i with
      | settling inside i =>
        obtain ⟨rfl, settles⟩ := gives
        rcases settle_gives marks settles with done | ⟨j, there, gives⟩
        · exact .inl done
        · refine .inr ⟨.settling inside j, ?_, gives⟩
          exact List.mem_append_left _ (List.mem_map_of_mem there)
      | _ => exact absurd gives id

end Order

structure Healthy (m : Machine (State E) (Instr E)) : Prop where
  sound : Interleaving.Sound Inv Fit m
  single : Single m
  backed : ∀ t ∈ m.threads, Backed Needs Gives (Done m.shared) t

section Runs
variable {c : Clients E} {m n : Machine (State E) (Instr E)}

theorem marks_of_single (single : Single m) {i : Instr E} (has : Has m i) : Marks m.shared i := by
  cases i with
  | settling inside i =>
    intro k will
    have bound := weight_le_load (instrWeight k i.cell) (takenCost k i.cell) has
    have one := single k i.cell
    have weight : instrWeight k i.cell (.settling inside i : Instr E) = 1 := by
      simp [instrWeight, markWeight, will]
    have part : markCost k (m.shared.cells i.cell) ≤ takenCost k i.cell m.shared :=
      Nat.le_add_left _ _
    have free : markCost k (m.shared.cells i.cell) = 0 := by omega
    unfold markCost at free
    cases marked : (m.shared.cells i.cell).marked k with
    | false => rfl
    | true => simp [marked] at free
  | _ => trivial

theorem healthy_known (healthy : Healthy m) {u : Nat} {i : Instr E} {rest : List (Instr E)}
    (here : m.threads[u]? = some (i :: rest)) : Known m.shared i := by
  have marks := marks_of_single healthy.single (has_here here List.mem_cons_self)
  cases i with
  | settling inside i => exact marks
  | assertDone d => exact backed_head healthy.backed here d rfl
  | _ => trivial

theorem thread_healthy {l : Label (Call E)} (healthy : Healthy m)
    (taken : step (program c) m l = some n) : Healthy n := by
  constructor
  · exact sound_step_head (fun s i inv fit known => exec_kept inv fit known)
      (fun u x s s' is inv spawned => spawn_kept inv spawned)
      (fun u i rest here => healthy_known healthy here) healthy.sound taken
  · intro k d
    have execs : ∀ s i, Inv s → Fit s i →
        takenCost k d ((program c).exec i s).1 +
          (((program c).exec i s).2.map (instrWeight k d)).sum ≤
          takenCost k d s + instrWeight k d i :=
      fun s i _ fit => exec_once (c := c) k d i fit
    have spawns : ∀ u x s s' is, Inv s → (program c).spawn u x s = some (s', is) →
        takenCost k d s' + (is.map (instrWeight k d)).sum ≤ takenCost k d s :=
      fun u x s s' is _ spawned => spawn_once k d u x spawned
    have bound := load_step (instrWeight k d) (takenCost k d) execs spawns healthy.sound taken
    exact Nat.le_trans bound (healthy.single k d)
  · have execs : ∀ s i, Marks s i → (∀ d, Needs i d → Done s d) →
        Backed Needs Gives (Done ((program c).exec i s).1) ((program c).exec i s).2 ∧
        ∀ d, Done s d ∨ Gives i d →
          Done ((program c).exec i s).1 d ∨ ∃ j ∈ ((program c).exec i s).2, Gives j d :=
      fun s i marks _ => exec_backed marks
    have grows : ∀ s i, Marks s i → ∀ d, Done s d → Done ((program c).exec i s).1 d :=
      fun s i marks d done => exec_done marks done
    refine backed_step execs grows (fun u x s s' is spawned => ?_)
      (fun i has => marks_of_single healthy.single has) healthy.backed taken
    simp only [program, Option.ite_none_left_eq_some, Option.some.injEq, Prod.mk.injEq] at spawned
    obtain ⟨_, rfl, rfl⟩ := spawned
    exact ⟨⟨fun d needs => absurd needs id, trivial⟩, fun d done => done⟩

theorem all_idle (idle : (m.threads.all fun t => t.isEmpty) = true) : Idle m := by
  intro t member
  exact List.isEmpty_iff.mp (List.all_eq_true.mp idle t member)

theorem untaken_destroy (s : State E) (n : Nat) (alive : s.destroyed = false) :
    ((destroy s).1.untaken n).toNat + (if n = s.promise then 1 else 0) = (s.untaken n).toNat := by
  simp only [destroy, State.untaken, alive]
  by_cases here : n = s.promise
  · subst here
    simp
  · have away : (n == s.promise) = false := beq_eq_false_iff_ne.mpr here
    simp only [away, if_neg here]
    rfl

/-- `~CVPromise` is called when all threads are at rest. -/
theorem destroy_healthy {u : Nat} (healthy : Healthy m) (idle : Idle m)
    (thread : u < m.threads.length) (alive : m.shared.destroyed = false) :
    Healthy ⟨(destroy m.shared).1, m.threads.set u (destroy m.shared).2⟩ := by
  have inv := healthy.sound.inv
  have here : m.threads[u]? = some [] := by
    rw [List.getElem?_eq_getElem thread, idle _ (List.getElem_mem thread)]
  have owed : ∀ n o, due m.shared n = some o → due (destroy m.shared).1 n = some o := by
    intro n o owed
    unfold due at owed ⊢
    cases there : m.shared.swaps[n]? with
    | none => simp [there, alive] at owed
    | some x => simpa [destroy, there] using owed
  have after : Inv (destroy m.shared).1 := by
    constructor
    · exact inv.tidy
    · exact inv.made
    · intro n o done
      exact owed n o (inv.settled n o done)
    · exact inv.swapped
    · exact inv.swaps
    · exact inv.waits
    · exact inv.asserted
  constructor
  · refine ⟨after, fun i has => ?_⟩
    rcases has_of_set has with old | new
    · exact absurd old (has_idle idle i)
    · rw [List.mem_singleton.mp new]
      refine ⟨.exception .ended, .inl rfl, ?_, .inl rfl⟩
      have last := due_last after
      simpa [destroy, Settling.cell] using last
  · intro k n
    have change := load_start (instrWeight k n) (takenCost k n) (destroy m.shared).1
      (destroy m.shared).2 here
    have bound := healthy.single k n
    have taken := untaken_destroy m.shared n alive
    have weight : ((destroy m.shared).2.map (instrWeight k n)).sum ≤
        if n = m.shared.promise then 1 else 0 :=
      markWeight_settling k n m.shared.promise (Outcome.exception Cause.ended)
    have cells : (destroy m.shared).1.cells = m.shared.cells := rfl
    simp only [takenCost, cells] at change bound ⊢
    omega
  · intro t member
    rcases List.mem_or_eq_of_mem_set member with old | rfl
    · rw [idle t old]
      trivial
    · exact ⟨fun d needs => absurd needs id, trivial⟩

theorem initial_healthy : Healthy (initial : Machine (State E) (Instr E)) := by
  constructor
  · constructor
    · constructor
      · constructor <;> simp [initial, created]
      · simp [initial, created]
      · simp [initial, created, State.outcome]
      · rfl
      · simp [initial]
      · simp [initial]
      · rfl
    · rintro i ⟨t, member, _⟩
      simp [initial] at member
  · intro k n
    have unmarked : markCost k (created false : Cell Awaiter Unit (Cause E)) = 0 := by
      cases k <;> rfl
    have untaken := Bool.toNat_le ((initial : Machine (State E) (Instr E)).shared.untaken n)
    simp only [load, takenCost, initial, List.map_nil, List.sum_nil] at untaken ⊢
    omega
  · simp [initial]

theorem act_healthy {a : Action E} (healthy : Healthy m) (taken : act c m a = some n) :
    Healthy n := by
  cases a with
  | thread l => exact thread_healthy healthy taken
  | destroy u =>
    simp only [act, Option.ite_none_right_eq_some, Option.some.injEq] at taken
    obtain ⟨⟨idle, thread, alive⟩, rfl⟩ := taken
    exact destroy_healthy healthy (all_idle idle) thread alive

theorem reached_healthy (reached : Reached c m) : Healthy m := by
  induction reached with
  | start first => exact first ▸ initial_healthy
  | next _ taken ih => exact act_healthy ih taken

end Runs

/-- The promise has been taken, and its settlement has not stored an outcome yet. -/
def Owed (s : State E) (n : Nat) : Prop := s.untaken n = false ∧ s.outcome n = none

section Progress
variable {c : Clients E} {s : State E} {m n : Machine (State E) (Instr E)}

theorem signal_owed (inside : List Nat) (o : Signal E) {d : Nat} (alive : s.destroyed = false)
    (owed : Owed (signal inside o s).1 d) : d = s.promise ∨ Owed s d := by
  obtain ⟨taken, pending⟩ := owed
  by_cases here : d = s.promise
  · exact .inl here
  · right
    refine ⟨?_, pending⟩
    simp only [signal, State.untaken, alive, Bool.not_false, Bool.and_true, Bool.or_eq_false_iff,
      decide_eq_false_iff_not, beq_eq_false_iff_ne] at taken ⊢
    omega

theorem signal_pays (inside : List Nat) (o : Signal E) :
    ∃ x ∈ (signal inside o s).2, Gives x s.promise := by
  refine ⟨_, List.mem_cons_self, ?_⟩
  cases o with
  | notify => exact ⟨rfl, rfl⟩
  | reject e => exact ⟨rfl, rfl⟩

theorem exec_pays {i : Instr E} {d : Nat} (fit : Fit s i) (marks : Marks s i)
    (owed : Owed (exec c i s).1 d) :
    (∃ x ∈ (exec c i s).2, Gives x d) ∨ (Owed s d ∧ ¬Gives i d) := by
  have before : s.outcome d = none := by
    by_contra done
    exact exec_done marks done owed.2
  cases i with
  | call inside x =>
    cases x with
    | wait k => exact .inr ⟨owed, id⟩
    | attach n k =>
      right
      refine ⟨⟨?_, before⟩, id⟩
      have taken := owed.1
      simp only [exec, call] at taken
      split at taken <;> exact taken
    | notify =>
      rcases signal_owed inside .notify fit.1 owed with rfl | old
      · exact .inl (signal_pays inside .notify)
      · exact .inr ⟨old, id⟩
    | reject e =>
      rcases signal_owed inside (.reject e) fit.1 owed with rfl | old
      · exact .inl (signal_pays inside (.reject e))
      · exact .inr ⟨old, id⟩
  | settling inside i =>
    by_cases gives : Gives (.settling inside i : Instr E) d
    · obtain ⟨rfl, settles⟩ := gives
      rcases settle_gives marks settles with done | ⟨j, there, gives⟩
      · exact absurd owed.2 done
      · left
        refine ⟨.settling inside j, ?_, gives⟩
        exact List.mem_append_left _ (List.mem_map_of_mem there)
    · exact .inr ⟨⟨owed.1, before⟩, gives⟩
  | attach inside n k =>
    right
    refine ⟨⟨?_, before⟩, id⟩
    have taken := owed.1
    simp only [exec] at taken
    split at taken <;> exact taken
  | resume inside n k =>
    right
    refine ⟨⟨?_, before⟩, id⟩
    have taken := owed.1
    simp only [exec] at taken
    split at taken <;> exact taken
  | assertDone n => exact .inr ⟨owed, id⟩

theorem destroy_owed {d : Nat} (owed : Owed (destroy s).1 d) : d = s.promise ∨ Owed s d := by
  obtain ⟨taken, pending⟩ := owed
  by_cases here : d = s.promise
  · exact .inl here
  · right
    refine ⟨?_, pending⟩
    have away : (d == s.promise) = false := beq_eq_false_iff_ne.mpr here
    simp only [destroy, State.untaken, away, Bool.false_and, Bool.or_false] at taken ⊢
    exact taken

theorem reached_covered (reached : Reached c m) : Covered Owed (fun d i => Gives i d) m := by
  induction reached with
  | start first =>
    subst first
    rintro d ⟨taken, _⟩
    cases d with
    | zero => simp [initial, State.untaken] at taken
    | succ d => simp [initial, State.untaken] at taken
  | next reached taken ih =>
    rename_i m n a
    have healthy := reached_healthy reached
    cases a with
    | thread l =>
      have execs : ∀ s i d, Inv s → Fit s i → Marks s i → Owed ((program c).exec i s).1 d →
          (∃ x ∈ ((program c).exec i s).2, Gives x d) ∨ (Owed s d ∧ ¬Gives i d) :=
        fun s i d _ fit marks owed => exec_pays fit marks owed
      refine covered_step execs (fun u x s s' is d _ spawned owed => ?_)
        (fun i has => marks_of_single healthy.single has) healthy.sound ih taken
      simp only [program, Option.ite_none_left_eq_some, Option.some.injEq, Prod.mk.injEq]
        at spawned
      obtain ⟨_, rfl, rfl⟩ := spawned
      exact .inr owed
    | destroy u =>
      simp only [act, Option.ite_none_right_eq_some, Option.some.injEq] at taken
      obtain ⟨⟨idle, thread, _⟩, rfl⟩ := taken
      have here : m.threads[u]? = some [] := by
        rw [List.getElem?_eq_getElem thread, all_idle idle _ (List.getElem_mem thread)]
      intro d owed
      rcases destroy_owed owed with rfl | old
      · exact ⟨_, has_new here (List.mem_singleton.mpr rfl), rfl, rfl⟩
      · exact absurd old (nothing_owed ih (all_idle idle) d)

/-- The promise's outcome, and who waits for it, from the calls alone: the first signal whose
    swap comes after the copy, or `End` when the object was destroyed before there was one. -/
def fate (s : State E) (w : Wait) : Option (Result E) :=
  match s.swaps[w.swapped]? with
  | some (_, o) => some o.outcome
  | none => if s.destroyed then some (.exception .ended) else none

theorem fate_due (inv : Inv s) {w : Wait} (member : w ∈ s.waits) : fate s w = due s w.promise := by
  obtain ⟨same, bound, _⟩ := inv.waits w member
  unfold fate
  rw [← same]
  rcases Nat.lt_or_eq_of_le bound with taken | last
  · obtain ⟨o, here, owed⟩ := due_taken inv taken
    rw [here, owed]
  · have outside : s.swaps[w.promise]? = none := by
      rw [List.getElem?_eq_none_iff, last, inv.swapped]
    rw [outside, last, due_last inv]

theorem act_later {a : Action E} (reached : Reached c m) (taken : act c m a = some n) :
    (∀ w ∈ m.shared.waits, w ∈ n.shared.waits) ∧
      ∀ d o, m.shared.outcome d = some o → n.shared.outcome d = some o := by
  have healthy := reached_healthy reached
  have after := (reached_healthy (.next reached taken)).sound.inv
  cases a with
  | destroy u =>
    simp only [act, Option.ite_none_right_eq_some, Option.some.injEq] at taken
    obtain ⟨_, rfl⟩ := taken
    exact ⟨fun w member => member, fun d o done => done⟩
  | thread l =>
    cases step_change taken with
    | fork => exact ⟨fun w member => member, fun d o done => done⟩
    | start u x s is idle spawned =>
      simp only [program, Option.ite_none_left_eq_some, Option.some.injEq, Prod.mk.injEq]
        at spawned
      obtain ⟨_, rfl, rfl⟩ := spawned
      exact ⟨fun w member => member, fun d o done => done⟩
    | run u i rest here =>
      have marks := marks_of_single healthy.single (has_here here List.mem_cons_self)
      constructor
      · intro w member
        cases i with
        | call inside x =>
          cases x with
          | wait k => exact List.mem_append_left _ member
          | attach n k =>
            simp only [program, exec, call]
            split <;> exact member
          | _ => exact member
        | attach inside n k =>
          simp only [program, exec]
          split <;> exact member
        | resume inside n k =>
          simp only [program, exec]
          split <;> exact member
        | _ => exact member
      · intro d o done
        exact exec_outcome marks done

theorem run_later {as : List (Action E)} (reached : Reached c m)
    (ran : run (act c) m as = some n) :
    (∀ w ∈ m.shared.waits, w ∈ n.shared.waits) ∧
      ∀ d o, m.shared.outcome d = some o → n.shared.outcome d = some o := by
  induction as generalizing m with
  | nil =>
    simp only [run, Option.some.injEq] at ran
    subst ran
    exact ⟨fun w member => member, fun d o done => done⟩
  | cons a as ih =>
    obtain ⟨u, taken, rest⟩ := Option.bind_eq_some_iff.mp ran
    obtain ⟨waits, outcomes⟩ := act_later reached taken
    obtain ⟨waits', outcomes'⟩ := ih (.next reached taken) rest
    exact ⟨fun w member => waits' w (waits w member),
      fun d o done => outcomes' d o (outcomes d o done)⟩

theorem stored_pending (inv : Inv s) (alive : s.destroyed = false) :
    s.outcome s.promise = none := by
  by_contra done
  obtain ⟨o, done⟩ := Option.ne_none_iff_exists'.mp done
  have owed := inv.settled _ o done
  simp [due_last inv, alive] at owed

/-- Every `Wait` gives a promise that is settled once: by the first signal whose swap comes after
    its copy, which is the only one to take it, or with `End` when the object is destroyed before
    there is one. It is never the promise of a signal that its thread is inside of. -/
theorem wait_epochs (reached : Reached c m) :
    m.shared.failed = false ∧
    (m.shared.destroyed = false → m.shared.outcome m.shared.promise = none) ∧
    (∀ w ∈ m.shared.waits,
      (∀ (i p : Nat) (o : Signal E), m.shared.swaps[i]? = some (p, o) →
        (p = w.promise ↔ i = w.swapped)) ∧
      (∀ p ∈ w.inside, p ≠ w.promise ∧ ∃ i < w.swapped, ∃ o, m.shared.swaps[i]? = some (p, o)) ∧
      (∀ o, m.shared.outcome w.promise = some o → fate m.shared w = some o) ∧
      (∀ o, fate m.shared w = some o → m.shared.outcome w.promise = some o ∨
        ∃ i, Has m i ∧ Gives i w.promise) ∧
      (Idle m → m.shared.outcome w.promise = fate m.shared w)) ∧
    (∀ p, m.shared.outcome p ≠ none → (m.shared.cells p).awaiters = []) ∧
    ∀ as n, run (act c) m as = some n → ∀ w ∈ m.shared.waits, w ∈ n.shared.waits ∧
      ∀ o, m.shared.outcome w.promise = some o → n.shared.outcome w.promise = some o := by
  have inv := (reached_healthy reached).sound.inv
  have covered := reached_covered reached
  have settles : ∀ w ∈ m.shared.waits, ∀ o, fate m.shared w = some o →
      m.shared.outcome w.promise = some o ∨ ∃ i, Has m i ∧ Gives i w.promise := by
    intro w member o fate_
    rw [fate_due inv member] at fate_
    cases done : m.shared.outcome w.promise with
    | some o' =>
      have owed := inv.settled _ o' done
      rw [fate_] at owed
      exact .inl owed.symm
    | none =>
      right
      apply covered w.promise
      refine ⟨?_, done⟩
      by_contra untaken
      rw [Bool.not_eq_false, due_iff inv, fate_] at untaken
      simp at untaken
  refine ⟨inv.asserted, stored_pending inv, fun w member => ?_, ?_, ?_⟩
  · obtain ⟨same, bound, apart⟩ := inv.waits w member
    refine ⟨fun i p o here => ?_, fun p inner => ?_, fun o done => ?_, settles w member,
      fun idle => ?_⟩
    · rw [inv.swaps i p o here, same]
    · have early := apart p inner
      obtain ⟨o, here, _⟩ := due_taken inv (Nat.lt_of_lt_of_le early bound)
      exact ⟨Nat.ne_of_lt early, p, same ▸ early, o, here⟩
    · rw [fate_due inv member]
      exact inv.settled _ o done
    · cases fate_ : fate m.shared w with
      | some o =>
        rcases settles w member o fate_ with done | ⟨i, has, _⟩
        · exact done
        · exact absurd has (has_idle idle i)
      | none =>
        by_contra done
        obtain ⟨o, done⟩ := Option.ne_none_iff_exists'.mp done
        have owed := inv.settled _ o done
        rw [← fate_due inv member, fate_] at owed
        simp at owed
  · exact fun p done => inv.tidy.emptied p (inv.made p) done
  · intro as n ran w member
    obtain ⟨waits, outcomes⟩ := run_later reached ran
    exact ⟨waits w member, outcomes w.promise⟩

end Progress

/-- The first waiter waits again and notifies inside the `Notify` that resumes it; the second
    one waits again inside of both. -/
def waiters : Clients String where
  code
    | 0, .value _ => [.wait 1, .notify]
    | 1, .value _ => [.wait 2]
    | _, _ => []
  ended := by
    intro k
    split <;> simp_all

def reentrant : List (Action String) :=
  [.thread .fork, .thread (.start 0 (.wait 0)), .thread (.run 0), .thread (.run 0),
    .thread (.start 0 .notify)] ++ List.replicate 14 (.thread (.run 0)) ++
    [.destroy 0] ++ List.replicate 4 (.thread (.run 0))

theorem wait_epochs_reentrant : ∃ m, run (act waiters) initial reentrant = some m ∧
    m.shared.waits = [⟨0, 0, []⟩, ⟨1, 1, [0]⟩, ⟨2, 2, [1, 0]⟩] ∧
    m.shared.waits.map (fun w => m.shared.outcome w.promise) =
      [some (.value ()), some (.value ()), some (.exception .ended)] := by
  have facts : (run (act waiters) initial reentrant).map (fun m =>
      (m.threads, m.shared.waits, m.shared.swaps, m.shared.destroyed)) =
      some ([[]], [⟨0, 0, []⟩, ⟨1, 1, [0]⟩, ⟨2, 2, [1, 0]⟩], [(0, .notify), (1, .notify)],
        true) := rfl
  obtain ⟨m, ran, facts⟩ := Option.map_eq_some_iff.mp facts
  simp only [Prod.mk.injEq] at facts
  obtain ⟨threads, waits, swaps, destroyed⟩ := facts
  have idle : Idle m := by simp [Idle, threads]
  obtain ⟨_, _, each, _⟩ := wait_epochs (run_reachable (.start rfl) ran)
  have settled : ∀ w ∈ m.shared.waits, m.shared.outcome w.promise = fate m.shared w :=
    fun w member => (each w member).2.2.2.2 idle
  refine ⟨m, ran, waits, ?_⟩
  rw [List.map_congr_left settled, waits]
  simp [fate, swaps, destroyed, Signal.outcome]

end CVPromise
