import JSProCpp.PromiseFamily

/-
`promise::All`: a coroutine that awaits the promises it was given one after the other. Over a
container it awaits the elements; the variadic form awaits, for each argument, the promise of a
`Then` that makes a tuple of the value.
-/
namespace AllSettlement
open Transitions Interleaving PromiseCells
variable {V E : Type}

inductive Form where
  | container (isVoid : Bool)
  -- The arguments of `tuple_cat` are evaluated one after the other, in some order. The `Then`
  -- takes the handle unless the argument at the position is an lvalue.
  | variadic (isVoid lvalue : Nat → Bool) (order : List Nat)

def Form.order (n : Nat) : Form → List Nat
  | .container _ => List.range n
  | .variadic _ _ order => order

/-- A call of `All`. A promise may be given more than once. -/
structure All where
  elements : List Nat
  coroutine : Nat → Bool
  form : Form
  once : (form.order elements.length).Perm (List.range elements.length)

def All.isVoid (a : All) (p : Nat) : Bool :=
  match a.form with
  | .container void => void
  | .variadic void _ _ => void p

def All.chained (a : All) : Bool :=
  match a.form with
  | .container _ => false
  | .variadic _ _ _ => true

/-- The handles that the stored callable has when the coroutine ends, after it has come to `k`
    positions. -/
def All.captured (a : All) (k : Nat) : List Nat :=
  match a.form with
  | .container _ => a.elements
  | .variadic _ lvalue order =>
      (List.range a.elements.length).reverse.filterMap fun j =>
        if lvalue j ∨ j ∉ order.take k then a.elements[j]? else none

theorem All.captured_sub {a : All} {k p : Nat} (member : p ∈ a.captured k) : p ∈ a.elements := by
  unfold All.captured at member
  split at member
  · exact member
  · obtain ⟨j, _, here⟩ := List.mem_filterMap.mp member
    split at here
    · exact List.mem_of_getElem? here
    · simp at here

theorem All.captured_length (a : All) (k : Nat) : (a.captured k).length ≤ a.elements.length := by
  unfold All.captured
  split
  · exact Nat.le_refl _
  · refine (List.length_filterMap_le _ _).trans ?_
    rw [List.length_reverse, List.length_range]

inductive Data (V : Type) where
  | void
  | value (v : V)
  | list (vs : List V)
  deriving DecidableEq

def Data.items : Data V → List V
  | .void => []
  | .value v => [v]
  | .list vs => vs

inductive Pid where
  | input (p : Nat)
  | chain (j : Nat)
  | all
  deriving DecidableEq

/-- What an awaiter runs; the frame of the coroutine holds the results it has so far. -/
inductive Target (V : Type) where
  | link (j : Nat)
  | frame (ds : List (Data V))
  | other (a : Nat)
  deriving DecidableEq

structure Awaiter (V : Type) where
  target : Target V
  id : Nat
  deriving DecidableEq

abbrev Result (V E : Type) := Outcome (Data V) E

def All.fits (a : All) (p : Nat) : Result V E → Bool
  | .value .void => a.isVoid p
  | .value (.value _) => !a.isVoid p
  | .value (.list _) => false
  | .exception _ => true

inductive Instr (V E : Type) where
  | settling (i : Settling Pid (Data V) E)
  | callback (c : Pid) (t : Target V)
  | next (ds : List (Data V))
  | attach (j p : Nat) (ds : List (Data V))
  | ready (c : Pid) (ds : List (Data V))
  | suspend (c : Pid) (ds : List (Data V))
  | resume (c : Pid) (ds : List (Data V))
  | drop (ps : List Nat)
  | waitDone (p : Nat) (ps : List Nat)
  deriving DecidableEq

structure State (V E : Type) where
  cells : Family Pid (Awaiter V) (Data V) E
  called : Bool
  running : Pid → Bool
  made : Nat → Bool

inductive Event (V E : Type) where
  | call
  | settle (p : Nat) (o : Result V E)
  | complete (p : Nat) (o : Option (Result V E))
  | await (p a : Nat)

/-- The position that comes after `k` others, and the promise there. -/
def All.turn (a : All) (k : Nat) : Option (Nat × Nat) :=
  ((a.form.order a.elements.length)[k]?).bind fun j => (a.elements[j]?).map fun p => (j, p)

def All.source (a : All) (j p : Nat) : Pid := if a.chained then .chain j else .input p

/-- The continuation of the `Then`. -/
def tupled : Result V E → Result V E
  | .value d => .value (.list d.items)
  | .exception e => .exception e

/-- What the coroutine returns: `results`, or the `tuple_cat` of what it has, by position. -/
def All.finish (a : All) (ds : List (Data V)) : Data V :=
  match a.form with
  | .container true => .void
  | .container false => .list (ds.flatMap Data.items)
  | .variadic _ _ order =>
      .list ((List.range a.elements.length).flatMap fun j =>
        ((ds[order.idxOf j]?).map Data.items).getD [])

/-- `final_suspend` settles with the delayed return; its `ScopeExit` destroys `function_`. -/
def ending (c : Pid) (captured : List Nat) : Option (Result V E) → List (Instr V E)
  | some o => [.settling (.claim c o), .drop captured, .settling (.clear c)]
  | none => [.drop captured, .settling (.clear c)]

def State.ended (s : State V E) (c : Pid) : State V E :=
  { s with running := Function.update s.running c false }

def callback (s : State V E) (c : Pid) : Target V → List (Instr V E)
  | .link j =>
      match (s.cells c).outcome with
      | some o => [.settling (settling (.chain j) (tupled o))]
      | none => []
  | .frame ds => [.resume c ds]
  | .other _ => []

def exec (a : All) : Instr V E → State V E → State V E × List (Instr V E)
  | .settling i, s =>
      ({ s with cells := s.cells.settle i },
        (settle (s.cells i.cell) i).next.map .settling ++
          (settle (s.cells i.cell) i).flushed.map fun x => .callback i.cell x.target)
  | .callback c t, s => (s, callback s c t)
  | .next ds, s =>
      match a.turn ds.length with
      | some (j, p) =>
          if a.chained then (s, [.attach j p ds]) else (s, [.ready (.input p) ds])
      | none => (s.ended .all, ending .all (a.captured ds.length) (some (.value (a.finish ds))))
  | .attach j p ds, s =>
      let made := Function.update s.made j true
      match (s.cells (.input p)).outcome with
      | some o =>
          ({ s with made }, [.settling (settling (.chain j) (tupled o)), .ready (.chain j) ds])
      | none =>
          ({ s with made, cells := s.cells.register (.input p) (⟨.link j, ·⟩) },
            [.ready (.chain j) ds])
  | .ready c ds, s =>
      if (s.cells c).outcome.isSome then (s, [.resume c ds]) else (s, [.suspend c ds])
  | .suspend c ds, s =>
      if (s.cells c).outcome.isSome then (s, [.resume c ds])
      else ({ s with cells := s.cells.register c (⟨.frame ds, ·⟩) }, [])
  | .resume c ds, s =>
      match (s.cells c).outcome with
      | some (.value d) => (s, [.next (ds ++ [d])])
      | some (.exception e) =>
          (s.ended .all, ending .all (a.captured (ds.length + 1)) (some (.exception e)))
      | none => (s, [])
  | .drop [], s => (s, [])
  | .drop (p :: ps), s =>
      if (s.cells (.input p)).outcome.isSome then (s, [.drop ps]) else (s, [.waitDone p ps])
  | .waitDone p ps, s =>
      if (s.cells (.input p)).outcome.isSome && !(s.cells (.input p)).handle then (s, [.drop ps])
      else (s, [.waitDone p ps])

/-- The calls a thread can start. A resolver may settle the promise of a coroutine early. -/
def spawn (a : All) : Event V E → State V E → Option (State V E × List (Instr V E))
  | .call, s => if s.called then none else some ({ s with called := true }, [.next []])
  | .settle p o, s =>
      if p ∈ a.elements ∧ a.fits p o then some (s, [.settling (settling (.input p) o)]) else none
  | .complete p o, s =>
      if p ∈ a.elements ∧ s.running (.input p) ∧ o.all (a.fits p) then
        some (s.ended (.input p), ending (.input p) [] o)
      else none
  | .await p n, s =>
      if p ∈ a.elements ∧ (s.cells (.input p)).outcome = none then
        some ({ s with cells := s.cells.register (.input p) (⟨.other n, ·⟩) }, [])
      else none

def program (a : All) : Program (State V E) (Instr V E) (Event V E) where
  exec := exec a
  spawn := fun _ => spawn a

def All.begun (a : All) : Pid → Bool
  | .input p => a.coroutine p
  | .chain _ => false
  | .all => true

def initial (a : All) : Machine (State V E) (Instr V E) where
  shared :=
    { cells := fun c => created (a.begun c)
      called := false
      running := a.begun
      made := fun _ => false }
  threads := []

abbrev Reached (a : All) (m : Machine (State V E) (Instr V E)) : Prop :=
  Reachable (step (program a)) (· = initial a) m

def State.outcome (s : State V E) (c : Pid) : Option (Result V E) := (s.cells c).outcome

section Once
variable {a : All}

def instrWeight (c : Pid) : Instr V E → Nat
  | .settling i => storeWeight c i
  | _ => 0

def cellCost (c : Pid) (s : State V E) : Nat := (s.cells c).storeCost

theorem ending_weight (c d : Pid) (ps : List Nat) (o : Option (Result V E)) :
    ((ending d ps o).map (instrWeight c)).sum = 0 := by
  cases o <;> rfl

theorem callback_weight (s : State V E) (c d : Pid) (t : Target V) :
    ((callback s d t).map (instrWeight c)).sum = 0 := by
  cases t with
  | link j =>
    simp only [callback]
    split
    · simp [instrWeight]
    · rfl
  | frame ds => rfl
  | other n => rfl

/-- An instruction that stores nothing and leads to no store. -/
theorem harmless {c : Pid} {s s' : State V E} {i : Instr V E} {is : List (Instr V E)}
    (cost : cellCost c s' = cellCost c s) (free : (is.map (instrWeight c)).sum = 0) :
    cellCost c s' + (is.map (instrWeight c)).sum ≤ cellCost c s + instrWeight c i := by
  omega

theorem exec_once (c : Pid) (s : State V E) (i : Instr V E) :
    cellCost c (exec a i s).1 + ((exec a i s).2.map (instrWeight c)).sum ≤
      cellCost c s + instrWeight c i := by
  cases i with
  | settling i =>
    simp only [exec, List.map_append, List.map_map, List.sum_append]
    have callbacks : ((settle (s.cells i.cell) i).flushed.map
        (instrWeight c ∘ fun x => (.callback i.cell x.target : Instr V E))).sum = 0 := by
      simp [Function.comp_def, instrWeight]
    have next : (instrWeight c ∘ (.settling : _ → Instr V E)) = storeWeight c := rfl
    rw [callbacks, next]
    exact Family.storeCost_settle i c
  | callback d t => exact harmless rfl (callback_weight s c d t)
  | next ds =>
    simp only [exec]
    split
    · split
      · exact harmless rfl rfl
      · exact harmless rfl rfl
    · apply harmless rfl
      exact ending_weight c .all _ (some _)
  | attach j p ds =>
    simp only [exec]
    split
    · apply harmless rfl
      simp [instrWeight]
    · apply harmless
      · exact Family.storeCost_register c
      · rfl
  | ready d ds =>
    simp only [exec]
    split
    · exact harmless rfl rfl
    · exact harmless rfl rfl
  | suspend d ds =>
    simp only [exec]
    split
    · exact harmless rfl rfl
    · apply harmless
      · exact Family.storeCost_register c
      · rfl
  | resume d ds =>
    simp only [exec]
    split
    · exact harmless rfl rfl
    · apply harmless rfl
      exact ending_weight c .all _ (some _)
    · exact harmless rfl rfl
  | drop ps =>
    cases ps with
    | nil => exact harmless rfl rfl
    | cons p ps =>
      simp only [exec]
      split
      · exact harmless rfl rfl
      · exact harmless rfl rfl
  | waitDone p ps =>
    simp only [exec]
    split
    · exact harmless rfl rfl
    · exact harmless rfl rfl

theorem spawn_once (c : Pid) (e : Event V E) (s s' : State V E) (is : List (Instr V E))
    (spawned : spawn a e s = some (s', is)) :
    cellCost c s' + (is.map (instrWeight c)).sum ≤ cellCost c s := by
  cases e with
  | call =>
    simp only [spawn, Option.ite_none_left_eq_some, Option.some.injEq, Prod.mk.injEq] at spawned
    obtain ⟨_, rfl, rfl⟩ := spawned
    exact Nat.le_refl _
  | settle p o =>
    simp only [spawn, Option.ite_none_right_eq_some, Option.some.injEq, Prod.mk.injEq] at spawned
    obtain ⟨_, rfl, rfl⟩ := spawned
    simp [instrWeight]
  | complete p o =>
    simp only [spawn, Option.ite_none_right_eq_some, Option.some.injEq, Prod.mk.injEq] at spawned
    obtain ⟨_, rfl, rfl⟩ := spawned
    rw [ending_weight]
    exact Nat.le_refl _
  | await p n =>
    simp only [spawn, Option.ite_none_right_eq_some, Option.some.injEq, Prod.mk.injEq] at spawned
    obtain ⟨_, rfl, rfl⟩ := spawned
    exact Nat.le_of_eq (Family.storeCost_register c)

theorem reached_once {m : Machine (State V E) (Instr V E)} (reached : Reached a m) (c : Pid) :
    load (instrWeight c) (cellCost c) m ≤ 1 := by
  induction reached with
  | start first =>
    subst first
    simp [load, initial, cellCost, created, Cell.storeCost]
  | next _ taken ih =>
    exact Nat.le_trans (load_step_free _ _ (fun s i => exec_once c s i)
      (fun _ e s s' is spawned => spawn_once c e s s' is spawned) taken) ih

theorem reached_fresh {m : Machine (State V E) (Instr V E)} (reached : Reached a m)
    {i : Settling Pid (Data V) E} (has : Has m (.settling i)) :
    Fresh (m.shared.cells i.cell) i := by
  have bound := weight_le_load (instrWeight i.cell) (cellCost i.cell) has
  apply fresh_of_cost
  exact Nat.le_trans bound (reached_once reached i.cell)

end Once

end AllSettlement
