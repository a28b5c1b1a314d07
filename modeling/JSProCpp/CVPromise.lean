import JSProCpp.PromiseFamily

/-
`CVPromise`: a promise with its two handles, stored under `mutex_`. `Notify` and `Reject` put a
new triple in its place and settle the old promise after that. A new promise is seen by nobody
before it is stored, and is numbered then. The continuations of the waiters are the clients'
code and may call `Wait`, `Notify` and `Reject` again.
-/
namespace CVPromise
open Transitions Interleaving PromiseCells
variable {E : Type}

/-- What a promise is rejected with: `CVPromise::End`, or the exception of a `Reject`. -/
inductive Cause (E : Type) where
  | ended
  | user (e : E)
  deriving DecidableEq

abbrev Result (E : Type) := Outcome Unit (Cause E)

inductive Signal (E : Type) where
  | notify
  | reject (e : E)
  deriving DecidableEq

def Signal.outcome : Signal E → Result E
  | .notify => .value ()
  | .reject e => .exception (.user e)

inductive Call (E : Type) where
  | wait (k : Nat)
  | attach (n k : Nat)
  | notify
  | reject (e : E)
  deriving DecidableEq

/-- Destruction comes after all calls: what it runs makes no further ones. -/
structure Clients (E : Type) where
  code : Nat → Result E → List (Call E)
  ended : ∀ k, code k (.exception .ended) = []

/-- A call of `Wait`: the promise it returned, the number of swaps before it, and the promises
    whose settlement was running on its thread. -/
structure Wait where
  promise : Nat
  swapped : Nat
  inside : List Nat
  deriving DecidableEq

structure Awaiter where
  continuation : Nat
  id : Nat
  deriving DecidableEq

inductive Instr (E : Type) where
  | call (inside : List Nat) (c : Call E)
  | settling (inside : List Nat) (i : Settling Nat Unit (Cause E))
  | attach (inside : List Nat) (n k : Nat)
  | resume (inside : List Nat) (n k : Nat)
  | assertDone (n : Nat)
  deriving DecidableEq

structure State (E : Type) where
  cells : Family Nat Awaiter Unit (Cause E)
  -- `promise_`, `resolve_` and `reject_`.
  promise : Nat
  destroyed : Bool
  failed : Bool
  swaps : List (Nat × Signal E)
  waits : List Wait

def signal (inside : List Nat) (o : Signal E) (s : State E) : State E × List (Instr E) :=
  ({ s with promise := s.promise + 1, swaps := s.swaps ++ [(s.promise, o)] },
    [.settling inside (settling s.promise o.outcome), .assertDone s.promise])

def notify (inside : List Nat) (s : State E) : State E × List (Instr E) := signal inside .notify s

def reject (inside : List Nat) (e : E) (s : State E) : State E × List (Instr E) :=
  signal inside (.reject e) s

def wait (inside : List Nat) (k : Nat) (s : State E) : State E × List (Instr E) :=
  ({ s with waits := s.waits ++ [⟨s.promise, s.swaps.length, inside⟩] },
    [.attach inside s.promise k])

/-- `~CVPromise`. -/
def destroy (s : State E) : State E × List (Instr E) :=
  ({ s with destroyed := true }, [.settling [] (.reject s.promise (.exception .ended))])

def call (inside : List Nat) : Call E → State E → State E × List (Instr E)
  | .wait k, s => wait inside k s
  | .attach n k, s =>
      match s.waits[n]? with
      | some w => (s, [.attach inside w.promise k])
      | none => (s, [])
  | .notify, s => notify inside s
  | .reject e, s => reject inside e s

def exec (c : Clients E) : Instr E → State E → State E × List (Instr E)
  | .call inside x, s => call inside x s
  | .settling inside i, s =>
      ({ s with cells := s.cells.settle i },
        (settle (s.cells i.cell) i).next.map (.settling inside) ++
          (settle (s.cells i.cell) i).flushed.map fun a =>
            .resume (i.cell :: inside) i.cell a.continuation)
  | .attach inside n k, s =>
      match (s.cells n).outcome with
      | some _ => (s, [.resume inside n k])
      | none => ({ s with cells := s.cells.register n (⟨k, ·⟩) }, [])
  | .resume inside n k, s =>
      match (s.cells n).outcome with
      | some o => (s, (c.code k o).map (.call inside))
      | none => (s, [])
  | .assertDone n, s => ({ s with failed := s.failed || (s.cells n).outcome.isNone }, [])

def program (c : Clients E) : Program (State E) (Instr E) (Call E) where
  exec := exec c
  spawn := fun _ x s => if s.destroyed then none else some (s, [.call [] x])

inductive Action (E : Type) where
  | thread (l : Label (Call E))
  | destroy (t : Nat)
  deriving DecidableEq

def act (c : Clients E) (m : Machine (State E) (Instr E)) :
    Action E → Option (Machine (State E) (Instr E))
  | .thread l => step (program c) m l
  | .destroy t =>
      if (m.threads.all fun t => t.isEmpty) ∧ t < m.threads.length ∧ m.shared.destroyed = false then
        some ⟨(destroy m.shared).1, m.threads.set t (destroy m.shared).2⟩
      else none

def initial : Machine (State E) (Instr E) where
  shared :=
    { cells := fun _ => created false
      promise := 0
      destroyed := false
      failed := false
      swaps := []
      waits := [] }
  threads := []

abbrev Reached (c : Clients E) (m : Machine (State E) (Instr E)) : Prop :=
  Reachable (act c) (· = initial) m

def State.outcome (s : State E) (n : Nat) : Option (Result E) := (s.cells n).outcome

/-- What the promise is or will be settled with: the signal that took it, or `End`. -/
def due (s : State E) (n : Nat) : Option (Result E) :=
  match s.swaps[n]? with
  | some (_, o) => some o.outcome
  | none => if s.destroyed && n == s.promise then some (.exception .ended) else none

def State.untaken (s : State E) (n : Nat) : Bool :=
  decide (s.promise < n) || (n == s.promise && !s.destroyed)

structure Inv (s : State E) : Prop where
  tidy : s.cells.Tidy
  made : ∀ n, (s.cells n).handle = false
  settled : ∀ n o, s.outcome n = some o → due s n = some o
  swapped : s.promise = s.swaps.length
  swaps : ∀ (i n : Nat) (o : Signal E), s.swaps[i]? = some (n, o) → n = i
  waits : ∀ w ∈ s.waits,
    w.promise = w.swapped ∧ w.promise ≤ s.promise ∧ ∀ n ∈ w.inside, n < w.promise
  asserted : s.failed = false

/-- The object is alive, and the settlements running on the thread are of promises taken. -/
def Running (s : State E) (inside : List Nat) : Prop :=
  s.destroyed = false ∧ ∀ n ∈ inside, n < s.promise

def Fit (s : State E) : Instr E → Prop
  | .call inside _ => Running s inside
  | .attach inside _ _ => Running s inside
  | .resume inside n _ => ∃ o, s.outcome n = some o ∧ (o = .exception .ended ∨ Running s inside)
  | .settling inside i =>
      (∃ o, (i = .reject i.cell o ∨ i = .claim i.cell o ∨
          (i = .store i.cell o ∧ (s.cells i.cell).resolved = true)) ∧
        due s i.cell = some o ∧ (o = .exception .ended ∨ Running s (i.cell :: inside)))
  | .assertDone _ => True

/-- What the load and the order of the instructions say of the next one. -/
def Known (s : State E) : Instr E → Prop
  | .settling _ i => ∀ k, sets k i = true → (s.cells i.cell).marked k = false
  | .assertDone n => s.outcome n ≠ none
  | _ => True

section Due
variable {s : State E} {n : Nat}

theorem due_taken (inv : Inv s) (taken : n < s.promise) :
    ∃ o, s.swaps[n]? = some (n, o) ∧ due s n = some o.outcome := by
  rw [inv.swapped] at taken
  obtain ⟨⟨q, o⟩, here⟩ : ∃ x, s.swaps[n]? = some x := ⟨_, List.getElem?_eq_getElem taken⟩
  have same := inv.swaps n q o here
  subst same
  refine ⟨o, here, ?_⟩
  simp [due, here]

theorem due_last (inv : Inv s) :
    due s s.promise = if s.destroyed then some (.exception .ended) else none := by
  have outside : s.swaps[s.promise]? = none := by
    rw [List.getElem?_eq_none_iff, inv.swapped]
  cases gone : s.destroyed <;> simp [due, outside, gone]

theorem due_later (inv : Inv s) (later : s.promise < n) : due s n = none := by
  have outside : s.swaps[n]? = none := by
    rw [List.getElem?_eq_none_iff, ← inv.swapped]
    omega
  have other : n ≠ s.promise := by omega
  simp [due, outside, other]

theorem due_iff (inv : Inv s) : s.untaken n = true ↔ due s n = none := by
  unfold State.untaken
  rcases Nat.lt_trichotomy n s.promise with early | rfl | late
  · obtain ⟨o, _, due_⟩ := due_taken inv early
    have other : n ≠ s.promise := by omega
    simp [due_, other]
    omega
  · rw [due_last inv]
    cases s.destroyed <;> simp
  · simp [due_later inv late, late]

/-- What is due does not change as swaps are added. -/
theorem due_append {t : State E} (swaps : ∃ more, t.swaps = s.swaps ++ more)
    (alive : s.destroyed = false) {o : Result E} (owed : due s n = some o) : due t n = some o := by
  obtain ⟨more, swaps⟩ := swaps
  unfold due at owed ⊢
  cases here : s.swaps[n]? with
  | none => simp [here, alive] at owed
  | some x =>
    rw [swaps, lookup_append here]
    simpa [here] using owed

end Due

section Loads
variable {c : Clients E} {s : State E}

def instrWeight (k : Mark) (n : Nat) : Instr E → Nat
  | .settling _ i => markWeight k n i
  | _ => 0

def takenCost (k : Mark) (n : Nat) (s : State E) : Nat :=
  (s.untaken n).toNat + markCost k (s.cells n)

/-- Every promise is untaken, has the mark or is about to get it, and only one of these. -/
def Single (m : Machine (State E) (Instr E)) : Prop :=
  ∀ k n, load (instrWeight k n) (takenCost k n) m ≤ 1

theorem untaken_signal (alive : s.destroyed = false) (o : Signal E) (n : Nat)
    (inside : List Nat) :
    ((signal inside o s).1.untaken n).toNat + (if n = s.promise then 1 else 0) ≤
      (s.untaken n).toNat := by
  simp only [signal, State.untaken, alive, Bool.not_false, Bool.and_true]
  rcases Nat.lt_trichotomy n s.promise with early | rfl | late
  · have away : (n == s.promise + 1) = false := beq_eq_false_iff_ne.mpr (by omega)
    have other : n ≠ s.promise := by omega
    have low : ¬s.promise + 1 < n := by omega
    rw [away, if_neg other, decide_eq_false low]
    exact Nat.zero_le _
  · simp
  · have other : n ≠ s.promise := by omega
    simp [other, late]
    exact Bool.toNat_le _

theorem signal_once (alive : s.destroyed = false) (k : Mark) (n : Nat)
    (inside : List Nat) (o : Signal E) :
    takenCost k n (signal inside o s).1 + ((signal inside o s).2.map (instrWeight k n)).sum ≤
      takenCost k n s := by
  have taken := untaken_signal alive o n inside
  have weight := markWeight_settling k n s.promise o.outcome
  have cells : (signal inside o s).1.cells = s.cells := rfl
  simp only [takenCost, cells]
  simp only [signal, List.map_cons, List.map_nil, List.sum_cons, List.sum_nil,
    instrWeight] at taken ⊢
  omega

theorem exec_once (k : Mark) (n : Nat) (i : Instr E) (fit : Fit s i) :
    takenCost k n (exec c i s).1 + ((exec c i s).2.map (instrWeight k n)).sum ≤
      takenCost k n s + instrWeight k n i := by
  cases i with
  | call inside x =>
    cases x with
    | wait k' => exact Nat.le_refl _
    | attach n' k' =>
      simp only [exec, call]
      split <;> simp [instrWeight]
    | notify => exact Nat.le_add_right_of_le (signal_once fit.1 k n inside .notify)
    | reject e => exact Nat.le_add_right_of_le (signal_once fit.1 k n inside (.reject e))
  | settling inside i =>
    have change := Family.markCost_settle s.cells k i n
    have callbacks : ((settle (s.cells i.cell) i).flushed.map (instrWeight k n ∘ fun a =>
        (.resume (i.cell :: inside) i.cell a.continuation : Instr E))).sum = 0 := by
      simp [Function.comp_def, instrWeight]
    have next : (instrWeight k n ∘ (.settling inside : _ → Instr E)) = markWeight k n := rfl
    simp only [exec, List.map_append, List.map_map, List.sum_append, callbacks, next]
    simp only [takenCost, State.untaken, instrWeight]
    omega
  | attach inside n' k' =>
    simp only [exec]
    split
    · simp [instrWeight]
    · have same := Family.markCost_register s.cells k n' (⟨k', ·⟩) n
      simp only [takenCost, State.untaken, same, List.map_nil, List.sum_nil]
      omega
  | resume inside n' k' =>
    simp only [exec]
    split
    · simp [Function.comp_def, instrWeight]
    · simp [instrWeight]
  | assertDone n' => exact Nat.le_refl _

theorem spawn_once (k : Mark) (n u : Nat) (x : Call E) {s' : State E} {is : List (Instr E)}
    (spawned : (program c).spawn u x s = some (s', is)) :
    takenCost k n s' + (is.map (instrWeight k n)).sum ≤ takenCost k n s := by
  simp only [program, Option.ite_none_left_eq_some, Option.some.injEq, Prod.mk.injEq] at spawned
  obtain ⟨_, rfl, rfl⟩ := spawned
  simp [instrWeight]

end Loads

end CVPromise
