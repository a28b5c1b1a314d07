import JSProCpp.PromiseFamily

/-
`promise::Race`. Each input runs `handle` on its settlement, which settles the first race
promise; every further registration wraps the race promise in a `Finally` that takes the
registration back. `race 0` is the promise made by `Create`, `race (j + 1)` the promise of
the `Finally` on `race j`.
-/
namespace RaceSettlement
open Transitions Interleaving PromiseCells
variable {V E : Type}

/-- A call of `Race`. An input may be given more than once. -/
structure Race where
  inputs : List Nat
  isVoid : Nat → Bool
  coroutine : Nat → Bool

inductive Pid where
  | input (p : Nat)
  | race (j : Nat)
  deriving DecidableEq

inductive Target where
  | handle
  | finally_ (p id : Nat)
  | other (coroutine : Bool) (a : Nat)
  deriving DecidableEq

structure Awaiter where
  target : Target
  id : Nat
  deriving DecidableEq

def Awaiter.isFunction (a : Awaiter) : Bool :=
  match a.target with
  | .other coroutine _ => !coroutine
  | _ => true

def Awaiter.isOther (a : Awaiter) : Bool :=
  match a.target with
  | .other _ _ => true
  | _ => false

/-- The search of `UnAwait(id)` finds this awaiter. -/
def Awaiter.found (id : Nat) (a : Awaiter) : Bool := a.isFunction && a.id == id

/-- Values are `none` for void and `nullopt`. -/
abbrev Result (V E : Type) := Outcome (Option V) E

inductive Instr (V E : Type) where
  | settling (i : Settling Pid (Option V) E)
  | callback (c : Pid) (t : Target)
  -- `Promise::Race` on the input, from its test of `race_promise.Done()` on.
  | race (p : Nat)
  | skip (p : Nat)
  | attach (p : Nat)
  | wrap (p id : Nat)
  -- The callable of the `Finally` on `race j`, then the settlement of its promise.
  | func (j p id : Nat) (o : Result V E)
  deriving DecidableEq

structure State (V E : Type) where
  cells : Family Pid Awaiter (Option V) E
  -- The `Finally` wrappers, each with its input and id; `race_promise` is the last one's.
  stack : List (Nat × Nat)
  pos : Nat
  caller : Option Nat
  running : Nat → Bool
  others : Nat → List Awaiter

inductive Event (V E : Type) where
  | call
  | next
  | settle (p : Nat) (o : Result V E)
  | complete (p : Nat) (o : Result V E)
  | await (p : Nat) (coroutine : Bool) (a : Nat)
  | unAwait (p id : Nat)

def State.put (s : State V E) (c : Pid) (x : Cell Awaiter (Option V) E) : State V E :=
  { s with cells := s.cells.put c x }

def State.wrapped (s : State V E) (p id : Nat) : State V E :=
  { s with stack := s.stack ++ [(p, id)] }

def unAwait (x : Cell Awaiter (Option V) E) (id : Nat) : Cell Awaiter (Option V) E :=
  { x with awaiters := x.awaiters.eraseP (Awaiter.found id) }

/-- What `handle` passes on: nothing to a void race, `nullopt` for a void input. -/
def Race.handled (r : Race) (p : Nat) : Result V E → Result V E
  | .value v => .value (if r.inputs.all r.isVoid then none else if r.isVoid p then none else v)
  | .exception e => .exception e

def Race.fits (r : Race) (p : Nat) : Result V E → Bool
  | .value v => v.isSome != r.isVoid p
  | .exception _ => true

def callback (r : Race) (s : State V E) : Pid → Target → List (Instr V E)
  | .input p, .handle =>
      match (s.cells (.input p)).outcome with
      | some o => [.settling (settling (.race 0) (r.handled p o))]
      | none => []
  | .race j, .finally_ p id =>
      match (s.cells (.race j)).outcome with
      | some o => [.func j p id o]
      | none => []
  | _, _ => []

def exec (r : Race) : Instr V E → State V E → State V E × List (Instr V E)
  | .settling i, s =>
      let e := settle (s.cells i.cell) i
      (s.put i.cell e.cell,
        e.next.map .settling ++ e.flushed.map fun a => .callback i.cell a.target)
  | .callback c t, s => (s, callback r s c t)
  | .race p, s =>
      if (s.cells (.race s.stack.length)).outcome.isSome then (s, [.skip p])
      else (s, [.attach p])
  | .skip p, s =>
      let x := s.cells (.input p)
      (s.put (.input p) { x with useCount := x.useCount + 1 }, [])
  | .attach p, s =>
      let x := s.cells (.input p)
      match x.outcome with
      | some o => (s, [.settling (settling (.race 0) (r.handled p o))])
      | none => (s.put (.input p) (x.register (⟨.handle, ·⟩)), [.wrap p (x.useCount + 1)])
  | .wrap p id, s =>
      let x := s.cells (.race s.stack.length)
      let t := s.wrapped p id
      match x.outcome with
      | some o => (t, [.func s.stack.length p id o])
      | none => (t.put (.race s.stack.length) (x.register (⟨.finally_ p id, ·⟩)), [])
  | .func j p id o, s =>
      (s.put (.input p) (unAwait (s.cells (.input p)) id),
        [.settling (settling (.race (j + 1)) o)])

/-- The thread is not inside `Race`. -/
def State.free (r : Race) (s : State V E) (t : Nat) : Bool :=
  s.caller != some t || decide (r.inputs.length ≤ s.pos)

/-- The calls a thread can start. `complete` is the end of a coroutine: `final_suspend`. -/
def spawn (r : Race) (t : Nat) : Event V E → State V E → Option (State V E × List (Instr V E))
  | .call, s => if s.caller = none then some ({ s with caller := some t }, []) else none
  | .next, s =>
      if s.caller = some t then
        (r.inputs[s.pos]?).map fun p => ({ s with pos := s.pos + 1 }, [.race p])
      else none
  | .settle p o, s =>
      if s.free r t ∧ p ∈ r.inputs ∧ r.coroutine p = false ∧ r.fits p o then
        some (s, [.settling (settling (.input p) o)])
      else none
  | .complete p o, s =>
      if s.free r t ∧ p ∈ r.inputs ∧ s.running p ∧ r.fits p o then
        some ({ s with running := Function.update s.running p false },
          [.settling (.claim (.input p) o), .settling (.clear (.input p))])
      else none
  | .await p coroutine a, s =>
      let x := s.cells (.input p)
      if s.free r t ∧ p ∈ r.inputs ∧ x.outcome = none then
        let y : Cell Awaiter (Option V) E := x.register (⟨.other coroutine a, ·⟩)
        let others := s.others p ++ [⟨.other coroutine a, x.useCount + 1⟩]
        some ({ s.put (.input p) y with others := Function.update s.others p others }, [])
      else none
  | .unAwait p id, s =>
      let x := s.cells (.input p)
      if s.free r t ∧ p ∈ r.inputs ∧
          x.awaiters.any (fun a => a.isOther && a.found id) then
        let others := (s.others p).eraseP (Awaiter.found id)
        some ({ s.put (.input p) (unAwait x id) with
          others := Function.update s.others p others }, [])
      else none

def program (r : Race) : Program (State V E) (Instr V E) (Event V E) where
  exec := exec r
  spawn := spawn r

def initial (r : Race) : Machine (State V E) (Instr V E) where
  shared :=
    { cells := fun c =>
        match c with
        | .input p => created (r.coroutine p)
        | .race _ => created false
      stack := []
      pos := 0
      caller := none
      running := r.coroutine
      others := fun _ => [] }
  threads := []

abbrev Reached (r : Race) (m : Machine (State V E) (Instr V E)) : Prop :=
  Reachable (step (program r)) (· = initial r) m

section Once
variable {r : Race}

def instrWeight (c : Pid) : Instr V E → Nat
  | .settling i => storeWeight c i
  | _ => 0

def cellCost (c : Pid) (s : State V E) : Nat := (s.cells c).storeCost

@[simp] theorem put_cells (s : State V E) (c : Pid) (x : Cell Awaiter (Option V) E) :
    (s.put c x).cells = s.cells.put c x := rfl

theorem put_cost {s : State V E} {c : Pid} {x : Cell Awaiter (Option V) E} (d : Pid)
    (same : x.storeCost = (s.cells c).storeCost) : cellCost d (s.put c x) = cellCost d s :=
  Family.storeCost_put d same

theorem callback_weight (s : State V E) (c d : Pid) (t : Target) :
    ((callback r s d t).map (instrWeight c)).sum = 0 := by
  unfold callback
  split
  · split
    · simp [instrWeight]
    · rfl
  · split
    · rfl
    · rfl
  · rfl

theorem exec_once (c : Pid) (s : State V E) (i : Instr V E) :
    cellCost c (exec r i s).1 + ((exec r i s).2.map (instrWeight c)).sum ≤
      cellCost c s + instrWeight c i := by
  cases i with
  | settling i =>
    simp only [exec, List.map_append, List.map_map, List.sum_append]
    have callbacks : ((settle (s.cells i.cell) i).flushed.map
        (instrWeight c ∘ fun a => (.callback i.cell a.target : Instr V E))).sum = 0 := by
      simp [Function.comp_def, instrWeight]
    have next : (instrWeight c ∘ (.settling : _ → Instr V E)) = storeWeight c := rfl
    rw [callbacks, next]
    exact Family.storeCost_settle i c
  | callback d t =>
    simp only [exec, callback_weight]
    omega
  | race p =>
    simp only [exec]
    split <;> simp [instrWeight]
  | skip p =>
    simp only [exec]
    rw [put_cost c]
    · simp
    · rfl
  | attach p =>
    simp only [exec]
    split
    · simp [instrWeight]
    · simp only
      rw [put_cost c]
      · simp [instrWeight]
      · rfl
  | wrap p id =>
    simp only [exec]
    split
    · simp [instrWeight, cellCost, State.wrapped]
    · have same : cellCost c (s.wrapped p id) = cellCost c s := rfl
      simp only
      rw [put_cost c, same]
      · simp
      · rfl
  | func j p id o =>
    simp only [exec]
    rw [put_cost c]
    · simp [instrWeight]
    · rfl

theorem spawn_once (c : Pid) (t : Nat) (e : Event V E) (s s' : State V E) (is : List (Instr V E))
    (spawned : spawn r t e s = some (s', is)) :
    cellCost c s' + (is.map (instrWeight c)).sum ≤ cellCost c s := by
  cases e with
  | call =>
    simp only [spawn, Option.ite_none_right_eq_some, Option.some.injEq, Prod.mk.injEq] at spawned
    obtain ⟨_, rfl, rfl⟩ := spawned
    simp [cellCost]
  | next =>
    simp only [spawn, Option.ite_none_right_eq_some, Option.map_eq_some_iff, Prod.mk.injEq]
      at spawned
    obtain ⟨_, p, _, rfl, rfl⟩ := spawned
    simp [cellCost, instrWeight]
  | settle p o =>
    simp only [spawn, Option.ite_none_right_eq_some, Option.some.injEq, Prod.mk.injEq] at spawned
    obtain ⟨_, rfl, rfl⟩ := spawned
    simp [instrWeight]
  | complete p o =>
    simp only [spawn, Option.ite_none_right_eq_some, Option.some.injEq, Prod.mk.injEq] at spawned
    obtain ⟨_, rfl, rfl⟩ := spawned
    simp [instrWeight, storeWeight, cellCost]
  | await p coroutine a =>
    simp only [spawn, Option.ite_none_right_eq_some, Option.some.injEq, Prod.mk.injEq] at spawned
    obtain ⟨_, rfl, rfl⟩ := spawned
    exact Nat.le_of_eq (put_cost (s := s) (c := .input p) c rfl)
  | unAwait p id =>
    simp only [spawn, Option.ite_none_right_eq_some, Option.some.injEq, Prod.mk.injEq] at spawned
    obtain ⟨_, rfl, rfl⟩ := spawned
    exact Nat.le_of_eq (put_cost (s := s) (c := .input p) c rfl)

theorem reached_once {m : Machine (State V E) (Instr V E)} (reached : Reached r m) (c : Pid) :
    load (instrWeight c) (cellCost c) m ≤ 1 := by
  induction reached with
  | start first =>
    subst first
    simp only [load, initial, cellCost]
    cases c <;> simp [created, Cell.storeCost]
  | next _ taken ih =>
    exact Nat.le_trans (load_step_free _ _ (fun s i => exec_once c s i)
      (fun t e s s' is spawned => spawn_once c t e s s' is spawned) taken) ih

/-- Nobody is about to store into a promise that has its outcome. -/
theorem reached_fresh {m : Machine (State V E) (Instr V E)} (reached : Reached r m)
    {i : Settling Pid (Option V) E} (has : Has m (.settling i)) :
    Fresh (m.shared.cells i.cell) i := by
  have bound := weight_le_load (instrWeight i.cell) (cellCost i.cell) has
  exact fresh_of_cost (Nat.le_trans bound (reached_once reached i.cell))

end Once

end RaceSettlement
