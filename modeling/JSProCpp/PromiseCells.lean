import Mathlib.Algebra.BigOperators.Group.Finset.Basic
import JSProCpp.Interleaving

/-
Many promises at once. A promise is a cell and a critical section of its `mutex_` is one
instruction; `C` names the cells and `A` is what a registered awaiter will run.
-/
namespace PromiseCells
variable {C A V E : Type}

inductive Outcome (V E : Type) where
  | value (v : V)
  | exception (e : E)
  deriving DecidableEq

structure Cell (A V E : Type) where
  resolved : Bool
  rejected : Bool
  outcome : Option (Outcome V E)
  handle : Bool
  awaiters : List A
  useCount : Nat

def created (coroutine : Bool) : Cell A V E where
  resolved := false
  rejected := false
  outcome := none
  handle := coroutine
  awaiters := []
  useCount := 0

/-- The instructions that settle a promise; `clear` is the `ScopeExit` of `final_suspend`. -/
inductive Settling (C V E : Type) where
  | reject (c : C) (o : Outcome V E)
  | claim (c : C) (o : Outcome V E)
  | store (c : C) (o : Outcome V E)
  | clear (c : C)
  deriving DecidableEq

def Settling.cell : Settling C V E → C
  | .reject c _ => c
  | .claim c _ => c
  | .store c _ => c
  | .clear c => c

/-- A call of `Resolve::operator()` or of `Reject::operator()`. -/
def settling (c : C) : Outcome V E → Settling C V E
  | .value v => .claim c (.value v)
  | .exception e => .reject c (.exception e)

structure Effect (C A V E : Type) where
  cell : Cell A V E
  next : List (Settling C V E)
  flushed : List A

/-- `Reject::operator()`, then `Resolver::Resolve` or `Resolver::Reject`, then `OnResolved`,
    which runs the awaiters only once `handle_` is null. -/
def settle (x : Cell A V E) : Settling C V E → Effect C A V E
  | .reject c o =>
      if x.rejected then ⟨x, [], []⟩ else ⟨{ x with rejected := true }, [.claim c o], []⟩
  | .claim c o =>
      if x.resolved then ⟨x, [], []⟩ else ⟨{ x with resolved := true }, [.store c o], []⟩
  | .store _ o =>
      if x.handle then ⟨{ x with outcome := some o }, [], []⟩
      else ⟨{ x with outcome := some o, awaiters := [] }, [], x.awaiters⟩
  | .clear _ =>
      if x.outcome.isSome then ⟨{ x with handle := false, awaiters := [] }, [], x.awaiters⟩
      else ⟨{ x with handle := false }, [], []⟩

/-- `Await` under the lock of a promise that is not done. -/
def Cell.register (x : Cell A V E) (a : Nat → A) : Cell A V E :=
  { x with awaiters := x.awaiters ++ [a (x.useCount + 1)], useCount := x.useCount + 1 }

section Settle
variable (x : Cell A V E) (i : Settling C V E)

def flushes : Settling C V E → Bool
  | .store _ _ => !x.handle
  | .clear _ => x.outcome.isSome
  | _ => false

theorem settle_useCount : (settle x i).cell.useCount = x.useCount := by
  cases i <;> simp only [settle] <;> split <;> rfl

theorem settle_awaiters :
    (settle x i).cell.awaiters = if flushes x i then [] else x.awaiters := by
  cases i <;> simp only [settle, flushes] <;> split <;> simp_all

theorem settle_flushed : (settle x i).flushed = if flushes x i then x.awaiters else [] := by
  cases i <;> simp only [settle, flushes] <;> split <;> simp_all

theorem settle_handle :
    (settle x i).cell.handle = match i with | .clear _ => false | _ => x.handle := by
  cases i <;> simp only [settle] <;> split <;> simp_all

theorem settle_outcome :
    (settle x i).cell.outcome = match i with | .store _ o => some o | _ => x.outcome := by
  cases i <;> simp only [settle] <;> split <;> rfl

theorem settle_resolved :
    (settle x i).cell.resolved = match i with | .claim _ _ => true | _ => x.resolved := by
  cases i <;> simp only [settle] <;> split <;> simp_all

theorem settle_rejected :
    (settle x i).cell.rejected = match i with | .reject _ _ => true | _ => x.rejected := by
  cases i <;> simp only [settle] <;> split <;> simp_all

theorem settle_next : (settle x i).next =
    match i with
    | .reject c o => if x.rejected then [] else [.claim c o]
    | .claim c o => if x.resolved then [] else [.store c o]
    | _ => [] := by
  cases i <;> simp only [settle] <;> split <;> simp_all

theorem settle_quiet (pending : (settle x i).cell.outcome = none) :
    flushes x i = false ∧ x.outcome = none := by
  rw [settle_outcome] at pending
  cases i with
  | store c o => simp at pending
  | clear c => exact ⟨by simpa [flushes] using pending, pending⟩
  | reject c o => exact ⟨rfl, pending⟩
  | claim c o => exact ⟨rfl, pending⟩

variable {x i}

theorem settle_sub {a : A} (there : a ∈ (settle x i).cell.awaiters) : a ∈ x.awaiters := by
  rw [settle_awaiters] at there
  split at there
  · simp at there
  · exact there

theorem flushed_sub {a : A} (there : a ∈ (settle x i).flushed) : a ∈ x.awaiters := by
  rw [settle_flushed] at there
  split at there
  · exact there
  · simp at there

theorem flushed_gone {a : A} (before : a ∈ x.awaiters) (after : a ∉ (settle x i).cell.awaiters) :
    a ∈ (settle x i).flushed := by
  rw [settle_awaiters] at after
  rw [settle_flushed]
  split
  · exact before
  · rename_i quiet
    rw [if_neg quiet] at after
    exact absurd before after

/-- Only a promise that is done is flushed. -/
theorem flushed_done {a : A} (there : a ∈ (settle x i).flushed) :
    (settle x i).cell.outcome ≠ none := by
  intro pending
  rw [settle_flushed, (settle_quiet x i pending).1] at there
  simp at there

variable (x i)

structure Grows (x y : Cell A V E) : Prop where
  resolved : x.resolved = true → y.resolved = true
  rejected : x.rejected = true → y.rejected = true
  outcome : ∀ o, x.outcome = some o → y.outcome = some o
  useCount : x.useCount ≤ y.useCount

theorem grows_refl : Grows x x := ⟨id, id, fun _ => id, Nat.le_refl _⟩

theorem grows_trans {x y z : Cell A V E} (first : Grows x y) (second : Grows y z) : Grows x z :=
  ⟨fun set => second.resolved (first.resolved set), fun set => second.rejected (first.rejected set),
    fun o done => second.outcome o (first.outcome o done),
    Nat.le_trans first.useCount second.useCount⟩

def Fresh : Settling C V E → Prop
  | .store _ _ => x.outcome = none
  | _ => True

theorem settle_grows (fresh : Fresh x i) : Grows x (settle x i).cell := by
  refine ⟨fun set => ?_, fun set => ?_, fun o done => ?_, Nat.le_of_eq (settle_useCount x i).symm⟩
  · rw [settle_resolved]
    split <;> first | rfl | exact set
  · rw [settle_rejected]
    split <;> first | rfl | exact set
  · rw [settle_outcome]
    split
    · simp only [Fresh] at fresh
      simp [fresh] at done
    · exact done

theorem register_grows (a : Nat → A) : Grows x (x.register a) :=
  ⟨id, id, fun _ => id, Nat.le_succ _⟩

theorem settle_resolves (done : x.outcome ≠ none → x.resolved = true)
    (claimed : ∀ c o, i = .store c o → x.resolved = true)
    (after : (settle x i).cell.outcome ≠ none) : (settle x i).cell.resolved = true := by
  rw [settle_outcome] at after
  rw [settle_resolved]
  cases i with
  | claim c o => rfl
  | store c o => exact claimed c o rfl
  | reject c o => exact done after
  | clear c => exact done after

def Cell.untouched (x : Cell A V E) : Prop := x.resolved = false ∧ x.rejected = false

theorem untouched_before {x y : Cell A V E} (grows : Grows x y) (after : y.untouched) :
    x.untouched := by
  constructor
  · by_contra set
    have still := grows.resolved (Bool.not_eq_false _ ▸ set)
    simp [after.1] at still
  · by_contra set
    have still := grows.rejected (Bool.not_eq_false _ ▸ set)
    simp [after.2] at still

def Cell.storing (x : Cell A V E) : Prop := x.resolved = true ∧ x.outcome = none

/-- A call has taken the `Reject` handle and not tried the promise yet. -/
def Cell.rejecting (x : Cell A V E) : Prop := x.rejected = true ∧ x.resolved = false

theorem settle_storing (after : (settle x i).cell.storing) :
    (∃ o, .store i.cell o ∈ (settle x i).next) ∨ (x.storing ∧ ∀ c o, i ≠ .store c o) := by
  obtain ⟨resolved, pending⟩ := after
  rw [settle_resolved] at resolved
  rw [settle_outcome] at pending
  cases i with
  | reject c o => exact .inr ⟨⟨resolved, pending⟩, by simp⟩
  | claim c o =>
    cases set : x.resolved with
    | true => exact .inr ⟨⟨set, pending⟩, by simp⟩
    | false => exact .inl ⟨o, by simp [settle, set, Settling.cell]⟩
  | store c o => simp at pending
  | clear c => exact .inr ⟨⟨resolved, pending⟩, by simp⟩

theorem settle_rejecting (after : (settle x i).cell.rejecting) :
    (∃ o, .claim i.cell o ∈ (settle x i).next) ∨ (x.rejecting ∧ ∀ c o, i ≠ .claim c o) := by
  obtain ⟨rejected, unresolved⟩ := after
  rw [settle_rejected] at rejected
  rw [settle_resolved] at unresolved
  cases i with
  | reject c o =>
    cases set : x.rejected with
    | true => exact .inr ⟨⟨set, unresolved⟩, by simp⟩
    | false => exact .inl ⟨o, by simp [settle, set, Settling.cell]⟩
  | claim c o => simp at unresolved
  | store c o => exact .inr ⟨⟨rejected, unresolved⟩, by simp⟩
  | clear c => exact .inr ⟨⟨rejected, unresolved⟩, by simp⟩

end Settle

/-- Among the instructions `I` of a program: the one that enters the settlement of the promise. -/
def Enters {I : Type} (f : Settling C V E → I) (c : C) (i : I) : Prop :=
  ∃ o, i = f (.reject c o) ∨ i = f (.claim c o)

theorem enters_settling {I : Type} (f : Settling C V E → I) (c : C) (o : Outcome V E) :
    Enters f c (f (settling c o)) := by
  cases o with
  | value v => exact ⟨_, .inr rfl⟩
  | exception e => exact ⟨_, .inl rfl⟩

def Settling.weight : Settling C V E → Nat
  | .reject _ _ => 3
  | .claim _ _ => 2
  | .store _ _ => 1
  | .clear _ => 1

theorem settling_weight_le (c : C) (o : Outcome V E) : (settling c o).weight ≤ 3 := by
  cases o <;> simp [settling, Settling.weight]

theorem next_weight (x : Cell A V E) (i : Settling C V E) :
    ((settle x i).next.map Settling.weight).sum < i.weight := by
  rw [settle_next]
  cases i with
  | reject c o =>
    dsimp only
    split <;> simp [Settling.weight]
  | claim c o =>
    dsimp only
    split <;> simp [Settling.weight]
  | store c o => simp [Settling.weight]
  | clear c => simp [Settling.weight]

inductive Mark where
  | rejected
  | resolved
  | stored
  deriving DecidableEq

def Cell.marked (x : Cell A V E) : Mark → Bool
  | .rejected => x.rejected
  | .resolved => x.resolved
  | .stored => x.outcome.isSome

def sets : Mark → Settling C V E → Bool
  | _, .reject _ _ => true
  | .resolved, .claim _ _ => true
  | .stored, .claim _ _ => true
  | .stored, .store _ _ => true
  | _, _ => false

section Once
variable [DecidableEq C]

def markCost (k : Mark) (x : Cell A V E) : Nat := (x.marked k).toNat

def markWeight (k : Mark) (c : C) (i : Settling C V E) : Nat :=
  if i.cell = c then (sets k i).toNat else 0

theorem settle_marks (k : Mark) (x : Cell A V E) (i : Settling C V E) :
    markCost k (settle x i).cell + ((settle x i).next.map (markWeight k i.cell)).sum ≤
      markCost k x + markWeight k i.cell i := by
  unfold markCost
  cases i with
  | reject c o =>
    cases rejected : x.rejected <;> cases k <;>
      simp [settle, rejected, Cell.marked, markWeight, sets, Settling.cell]
  | claim c o =>
    cases resolved : x.resolved <;> cases k <;>
      simp [settle, resolved, Cell.marked, markWeight, sets, Settling.cell]
  | store c o =>
    cases handle : x.handle <;> cases k <;>
      simp [settle, handle, Cell.marked, markWeight, sets, Settling.cell]
  | clear c =>
    cases done : x.outcome.isSome <;> cases k <;>
      simp [settle, done, Cell.marked, markWeight, sets, Settling.cell]

theorem marks_elsewhere (k : Mark) (x : Cell A V E) (i : Settling C V E) {c : C}
    (other : c ≠ i.cell) : ((settle x i).next.map (markWeight k c)).sum = 0 := by
  have away : i.cell ≠ c := Ne.symm other
  rw [settle_next]
  cases i with
  | reject d o =>
    dsimp only
    split
    · rfl
    · simp [markWeight, show (Settling.claim d o).cell ≠ c from away]
  | claim d o =>
    dsimp only
    split
    · rfl
    · simp [markWeight, show (Settling.store d o).cell ≠ c from away]
  | store d o => rfl
  | clear d => rfl

def Cell.storeCost (x : Cell A V E) : Nat :=
  (if x.resolved then 0 else 1) + if x.outcome.isSome then 1 else 0

def storeWeight (c : C) : Settling C V E → Nat
  | .store d _ => if d = c then 1 else 0
  | _ => 0

@[simp] theorem storeWeight_settling (c d : C) (o : Outcome V E) :
    storeWeight c (settling d o) = 0 := by
  cases o <;> rfl

theorem markWeight_settling (k : Mark) (c d : C) (o : Outcome V E) :
    markWeight k c (settling d o) ≤ if c = d then 1 else 0 := by
  unfold markWeight
  have cell : (settling d o).cell = d := by cases o <;> rfl
  rw [cell]
  by_cases here : c = d
  · rw [if_pos here.symm, if_pos here]
    exact Bool.toNat_le _
  · rw [if_neg (Ne.symm here), if_neg here]

theorem settle_cost (x : Cell A V E) (i : Settling C V E) :
    (settle x i).cell.storeCost + ((settle x i).next.map (storeWeight i.cell)).sum ≤
      x.storeCost + storeWeight i.cell i := by
  unfold Cell.storeCost
  rw [settle_outcome, settle_resolved, settle_next]
  cases i with
  | reject c o => cases x.rejected <;> simp [storeWeight]
  | claim c o =>
    cases x.resolved with
    | true => simp [storeWeight]
    | false =>
      simp only [Bool.false_eq_true, if_false, if_true, List.map_cons, List.map_nil, List.sum_cons,
        List.sum_nil, storeWeight, Settling.cell]
      omega
  | store c o =>
    simp only [Settling.cell, storeWeight, if_true, Option.isSome_some, List.map_nil, List.sum_nil]
    omega
  | clear c => simp [storeWeight]

theorem settle_elsewhere (x : Cell A V E) (i : Settling C V E) {c : C} (other : c ≠ i.cell) :
    ((settle x i).next.map (storeWeight c)).sum = 0 := by
  rw [settle_next]
  cases i with
  | reject d o =>
    dsimp only
    split <;> simp [storeWeight]
  | claim d o =>
    have away : d ≠ c := Ne.symm other
    dsimp only
    split <;> simp [storeWeight, away]
  | store d o => rfl
  | clear d => rfl

/-- Whoever is about to store finds no outcome, when the load of the cell is at most one. -/
theorem fresh_of_cost {x : Cell A V E} {i : Settling C V E}
    (bound : storeWeight i.cell i + x.storeCost ≤ 1) : Fresh x i := by
  cases i with
  | store c o =>
    simp only [storeWeight, Settling.cell, if_true, Cell.storeCost] at bound
    cases done : x.outcome with
    | none => exact done
    | some o => simp [done] at bound
  | _ => trivial

end Once

end PromiseCells
