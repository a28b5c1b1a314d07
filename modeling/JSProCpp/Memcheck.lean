import Mathlib.Data.Finset.Card
import Mathlib.Order.Interval.Finset.Nat
import JSProCpp.Transitions

/-
The leak check of `PROMISE_MEMCHECK`. Every promise state carries a `Refcount`, whose constructor
and destructor change an atomic counter and then, under a mutex, the set of addresses; threads
construct and destroy promise states at any time, and addresses are used again. `Check` reports
when it is destroyed.
-/
namespace Memcheck
open Transitions

/-- How far the constructor or the destructor of a promise state has got. -/
inductive Stage where
  | allocated
  | counted
  | tracked
  | destroying
  | uncounted
  | untracked
  | freed
  deriving DecidableEq

structure Object where
  addr : Nat
  stage : Stage
  deriving DecidableEq

structure State where
  counter : Nat
  ptrs : List Nat
  objects : List Object

inductive Label where
  | construct (a : Nat)
  | destroy (i : Nat)
  | advance (i : Nat)

/-- The object has been added to the counter and not been taken off it. -/
def Stage.isCounted : Stage → Bool
  | .counted | .tracked | .destroying => true
  | _ => false

def Stage.isTracked : Stage → Bool
  | .tracked | .destroying | .uncounted => true
  | _ => false

def Stage.isHeld : Stage → Bool
  | .freed => false
  | _ => true

def addresses (q : Stage → Bool) (objects : List Object) : List Nat :=
  (objects.filter fun o => q o.stage).map Object.addr

section Model
/- Values of `std::size_t` are smaller than `size`. -/
variable (size : Nat)

def State.put (s : State) (i : Nat) (o : Object) (stage : Stage) : State :=
  { s with objects := s.objects.set i ⟨o.addr, stage⟩ }

/-- `Refcount::Refcount`, `Refcount::~Refcount` and the end of the object. -/
def advance (s : State) (i : Nat) (o : Object) : Option State :=
  match o.stage with
  | .allocated => some { s.put i o .counted with counter := (s.counter + 1) % size }
  | .counted =>
      some { s.put i o .tracked with
        ptrs := if o.addr ∈ s.ptrs then s.ptrs else o.addr :: s.ptrs }
  | .destroying =>
      some { s.put i o .uncounted with counter := (s.counter + (size - 1)) % size }
  | .uncounted => some { s.put i o .untracked with ptrs := s.ptrs.erase o.addr }
  | .untracked => some (s.put i o .freed)
  | .tracked | .freed => none

def step (s : State) : Label → Option State
  | .construct a =>
      if 0 < a ∧ a < size ∧ a ∉ addresses Stage.isHeld s.objects then
        some { s with objects := s.objects ++ [⟨a, .allocated⟩] }
      else none
  | .destroy i =>
      match s.objects[i]? with
      | some o => if o.stage = .tracked then some (s.put i o .destroying) else none
      | none => none
  | .advance i =>
      match s.objects[i]? with
      | some o => advance size s i o
      | none => none

def initial : State := ⟨0, [], []⟩

abbrev Reached (s : State) : Prop := Reachable (step size) (· = initial) s

/-- `Check::~Check`: the count and the addresses, if the counter is not zero. -/
def report (s : State) : Option (Nat × List Nat) :=
  if s.counter = 0 then none else some (s.counter, s.ptrs)

structure Exact (s : State) : Prop where
  counter : s.counter = s.objects.countP fun o => o.stage.isCounted
  ptrs : s.ptrs.Perm (addresses Stage.isTracked s.objects)
  apart : (addresses Stage.isHeld s.objects).Nodup
  bound : ∀ a ∈ addresses Stage.isHeld s.objects, 0 < a ∧ a < size

end Model

section Steps
variable {size : Nat} {s t : State} {i : Nat} {o : Object} {l : Label}

theorem addresses_sublist (q : Stage → Bool) (held : ∀ g, q g = true → g.isHeld = true)
    (objects : List Object) :
    (addresses q objects).Sublist (addresses Stage.isHeld objects) := by
  induction objects with
  | nil => exact .slnil
  | cons o objects ih =>
    cases here : q o.stage with
    | true => simpa [addresses, here, held _ here] using ih
    | false =>
      cases kept : o.stage.isHeld with
      | true => simpa [addresses, here, kept] using ih.cons o.addr
      | false => simpa [addresses, here, kept] using ih

theorem counted_held (g : Stage) (counted : g.isCounted = true) : g.isHeld = true := by
  cases g <;> simp_all [Stage.isCounted, Stage.isHeld]

theorem tracked_held (g : Stage) (tracked : g.isTracked = true) : g.isHeld = true := by
  cases g <;> simp_all [Stage.isTracked, Stage.isHeld]

theorem addresses_length (q : Stage → Bool) (objects : List Object) :
    (addresses q objects).length = objects.countP fun o => q o.stage := by
  rw [addresses, List.length_map, List.countP_eq_length_filter]

theorem held_bound {as : List Nat} (apart : as.Nodup) (bound : ∀ a ∈ as, 0 < a ∧ a < size) :
    as.length < size ∨ as = [] := by
  cases as with
  | nil => exact .inr rfl
  | cons a as =>
    left
    have inside : (a :: as).toFinset ⊆ Finset.Ico 1 size := by
      intro b member
      have range := bound b (List.mem_toFinset.mp member)
      exact Finset.mem_Ico.mpr ⟨range.1, range.2⟩
    have card := Finset.card_le_card inside
    rw [List.toFinset_card_of_nodup apart, Nat.card_Ico] at card
    have range := bound a List.mem_cons_self
    omega

/-- The objects around one that changes its stage. -/
theorem put_split (here : s.objects[i]? = some o) (stage : Stage) :
    ∃ before after, s.objects = before ++ o :: after ∧
      s.objects.set i ⟨o.addr, stage⟩ = before ++ ⟨o.addr, stage⟩ :: after := by
  obtain ⟨inside, rfl⟩ := List.getElem?_eq_some_iff.mp here
  obtain ⟨before, after, whole, _, changed⟩ := List.exists_of_set inside
  exact ⟨before, after, whole, changed⟩

theorem addresses_around (q : Stage → Bool) (before after : List Object) (a : Nat) (g : Stage) :
    addresses q (before ++ ⟨a, g⟩ :: after) =
      addresses q before ++ (if q g then a :: addresses q after else addresses q after) := by
  cases here : q g <;> simp [addresses, here]

theorem countP_around (q : Stage → Bool) (before after : List Object) (a : Nat) (g : Stage) :
    (before ++ ⟨a, g⟩ :: after).countP (fun o => q o.stage) =
      before.countP (fun o => q o.stage) + after.countP (fun o => q o.stage) + (q g).toNat := by
  cases here : q g
  · simp [here]
  · simp only [List.countP_append, List.countP_cons, here, if_true, Bool.toNat_true]
    omega

theorem tracked_elsewhere {before after : List Object}
    (apart : (addresses Stage.isHeld (before ++ o :: after)).Nodup) (held : o.stage.isHeld = true) :
    o.addr ∉ addresses Stage.isTracked before ∧ o.addr ∉ addresses Stage.isTracked after := by
  rw [addresses_around, if_pos held, List.nodup_append] at apart
  obtain ⟨_, rest, other⟩ := apart
  constructor
  · intro member
    have there := (addresses_sublist Stage.isTracked tracked_held before).subset member
    exact other _ there _ List.mem_cons_self rfl
  · intro member
    have there := (addresses_sublist Stage.isTracked tracked_held after).subset member
    exact (List.nodup_cons.mp rest).1 there

theorem put_held (exact_ : Exact size s) (here : s.objects[i]? = some o) (stage : Stage)
    (held : o.stage.isHeld = true) :
    (addresses Stage.isHeld (s.objects.set i ⟨o.addr, stage⟩)).Nodup ∧
      ∀ a ∈ addresses Stage.isHeld (s.objects.set i ⟨o.addr, stage⟩), 0 < a ∧ a < size := by
  obtain ⟨before, after, whole, changed⟩ := put_split here stage
  have sub : (addresses Stage.isHeld (s.objects.set i ⟨o.addr, stage⟩)).Sublist
      (addresses Stage.isHeld s.objects) := by
    rw [changed, whole, addresses_around, addresses_around]
    refine List.Sublist.append_left ?_ _
    rw [if_pos held]
    split
    · exact List.Sublist.refl _
    · exact List.sublist_cons_self _ _
  exact ⟨exact_.apart.sublist sub, fun a member => exact_.bound a (sub.subset member)⟩

theorem counter_below (apart : (addresses Stage.isHeld s.objects).Nodup)
    (bound : ∀ a ∈ addresses Stage.isHeld s.objects, 0 < a ∧ a < size)
    (here : s.objects[i]? = some o) (held : o.stage.isHeld = true) :
    s.objects.countP (fun o => o.stage.isCounted) < size := by
  have sub := (addresses_sublist Stage.isCounted counted_held s.objects).length_le
  rw [addresses_length] at sub
  have there : o.addr ∈ addresses Stage.isHeld s.objects :=
    List.mem_map_of_mem (List.mem_filter.mpr ⟨List.mem_of_getElem? here, held⟩)
  rcases held_bound apart bound with below | none_
  · omega
  · simp [none_] at there

theorem quiet_exact (exact_ : Exact size s) (here : s.objects[i]? = some o) (stage : Stage)
    (held : o.stage.isHeld = true) (counted : stage.isCounted = o.stage.isCounted)
    (tracked : stage.isTracked = o.stage.isTracked) : Exact size (s.put i o stage) := by
  obtain ⟨before, after, whole, changed⟩ := put_split here stage
  obtain ⟨apart, bound⟩ := put_held exact_ here stage held
  refine ⟨?_, ?_, apart, bound⟩
  · have before_ := exact_.counter
    rw [whole, countP_around] at before_
    rw [State.put, changed, countP_around, counted]
    exact before_
  · have before_ := exact_.ptrs
    rw [whole, addresses_around] at before_
    rw [State.put, changed, addresses_around, tracked]
    exact before_

theorem advance_exact (exact_ : Exact size s) (here : s.objects[i]? = some o)
    (done : advance size s i o = some t) : Exact size t := by
  have count := exact_.counter
  have ptrs := exact_.ptrs
  have alone := exact_.apart
  unfold advance at done
  split at done
  · rename_i stage
    rw [Option.some.injEq] at done
    subst done
    have held : o.stage.isHeld = true := by rw [stage]; rfl
    obtain ⟨before, after, whole, changed⟩ := put_split here .counted
    obtain ⟨apart, bound⟩ := put_held exact_ here .counted held
    have below := counter_below (s := s.put i o .counted) apart bound (lookup_set here) rfl
    rw [whole, countP_around, stage] at count
    rw [whole, addresses_around, stage] at ptrs
    refine ⟨?_, ?_, apart, bound⟩
    · have off : Stage.allocated.isCounted.toNat = 0 := rfl
      have on : Stage.counted.isCounted.toNat = 1 := rfl
      simp only [State.put, changed, countP_around] at below ⊢
      rw [Nat.mod_eq_of_lt] <;> omega
    · simp only [State.put, changed, addresses_around]
      exact ptrs
  · rename_i stage
    rw [Option.some.injEq] at done
    subst done
    have held : o.stage.isHeld = true := by rw [stage]; rfl
    obtain ⟨before, after, whole, changed⟩ := put_split here .tracked
    obtain ⟨apart, bound⟩ := put_held exact_ here .tracked held
    rw [whole] at alone
    obtain ⟨notBefore, notAfter⟩ := tracked_elsewhere alone held
    rw [whole, countP_around, stage] at count
    rw [whole, addresses_around, stage] at ptrs
    have fresh : o.addr ∉ s.ptrs := by
      intro member
      exact (List.mem_append.mp (ptrs.subset member)).elim notBefore notAfter
    refine ⟨?_, ?_, apart, bound⟩
    · simp only [State.put, changed, countP_around]
      exact count
    · simp only [State.put, changed, addresses_around, if_neg fresh]
      exact (List.Perm.cons _ ptrs).trans List.perm_middle.symm
  · rename_i stage
    rw [Option.some.injEq] at done
    subst done
    have held : o.stage.isHeld = true := by rw [stage]; rfl
    obtain ⟨before, after, whole, changed⟩ := put_split here .uncounted
    obtain ⟨apart, bound⟩ := put_held exact_ here .uncounted held
    have below := counter_below alone exact_.bound here held
    rw [whole, countP_around, stage] at count
    rw [whole, addresses_around, stage] at ptrs
    rw [whole, countP_around, stage] at below
    refine ⟨?_, ?_, apart, bound⟩
    · have on : Stage.destroying.isCounted.toNat = 1 := rfl
      have off : Stage.uncounted.isCounted.toNat = 0 := rfl
      simp only [State.put, changed, countP_around]
      -- Adding the largest value of the counter takes one off it.
      have wraps : s.counter + (size - 1) = (s.counter - 1) + size := by omega
      rw [wraps, Nat.add_mod_right, Nat.mod_eq_of_lt] <;> omega
    · simp only [State.put, changed, addresses_around]
      exact ptrs
  · rename_i stage
    rw [Option.some.injEq] at done
    subst done
    have held : o.stage.isHeld = true := by rw [stage]; rfl
    obtain ⟨before, after, whole, changed⟩ := put_split here .untracked
    obtain ⟨apart, bound⟩ := put_held exact_ here .untracked held
    rw [whole] at alone
    obtain ⟨notBefore, _⟩ := tracked_elsewhere alone held
    rw [whole, countP_around, stage] at count
    rw [whole, addresses_around, stage] at ptrs
    refine ⟨?_, ?_, apart, bound⟩
    · simp only [State.put, changed, countP_around]
      exact count
    · simp only [State.put, changed, addresses_around]
      have erased := ptrs.erase o.addr
      rw [List.erase_append_right _ notBefore] at erased
      simpa [Stage.isTracked] using erased
  · rename_i stage
    rw [Option.some.injEq] at done
    subst done
    have held : o.stage.isHeld = true := by rw [stage]; rfl
    exact quiet_exact exact_ here .freed held (by rw [stage]; rfl) (by rw [stage]; rfl)
  · simp at done
  · simp at done

theorem step_exact (exact_ : Exact size s) (taken : step size s l = some t) : Exact size t := by
  cases l with
  | construct a =>
    simp only [step, Option.ite_none_right_eq_some, Option.some.injEq] at taken
    obtain ⟨⟨positive, below, fresh⟩, rfl⟩ := taken
    have held : addresses Stage.isHeld (s.objects ++ [⟨a, .allocated⟩]) =
        addresses Stage.isHeld s.objects ++ [a] := by simp [addresses, Stage.isHeld]
    refine ⟨?_, ?_, ?_, ?_⟩
    · simpa [Stage.isCounted] using exact_.counter
    · simpa [addresses, Stage.isTracked] using exact_.ptrs
    · rw [held]
      exact exact_.apart.append (List.nodup_singleton a) (by simpa using fresh)
    · intro b member
      rw [held] at member
      rcases List.mem_append.mp member with old | new
      · exact exact_.bound b old
      · rw [List.mem_singleton.mp new]
        exact ⟨positive, below⟩
  | destroy i =>
    simp only [step] at taken
    split at taken
    · rename_i o here
      simp only [Option.ite_none_right_eq_some, Option.some.injEq] at taken
      obtain ⟨stage, rfl⟩ := taken
      exact quiet_exact exact_ here .destroying (by rw [stage]; rfl) (by rw [stage]; rfl)
        (by rw [stage]; rfl)
    · simp at taken
  | advance i =>
    simp only [step] at taken
    split at taken
    · exact advance_exact exact_ ‹_› taken
    · simp at taken

theorem reached_exact (reached : Reached size s) : Exact size s := by
  refine reachable_invariant ?_ (fun _ _ _ exact_ taken => step_exact exact_ taken) reached
  rintro s rfl
  constructor <;> simp [initial, addresses]

end Steps

def Quiet (s : State) : Prop := ∀ o ∈ s.objects, o.stage = .tracked ∨ o.stage = .freed

/-- Whatever the threads do, the counter is the number of promise states that have been counted and
    not been uncounted, and the set holds the addresses of those that have been tracked. A check
    that runs while no promise is being made or destroyed is silent exactly when none is left, and
    otherwise gives their number and their addresses. -/
theorem memcheck_exact {size : Nat} {s : State} (reached : Reached size s) :
    (s.counter = s.objects.countP fun o => o.stage.isCounted) ∧ s.ptrs.Nodup ∧
    (∀ a, a ∈ s.ptrs ↔ ∃ o ∈ s.objects, o.addr = a ∧ o.stage.isTracked = true) ∧
    (Quiet s →
      (report s = none ↔ ∀ o ∈ s.objects, o.stage = .freed) ∧
      ∀ n as, report s = some (n, as) → n = as.length ∧
        as.Perm (addresses Stage.isHeld s.objects)) := by
  obtain ⟨counter, ptrs, apart, bound⟩ := reached_exact reached
  have tracked := addresses_sublist Stage.isTracked tracked_held s.objects
  refine ⟨counter, ptrs.nodup_iff.mpr (apart.sublist tracked), fun a => ?_, fun quiet => ?_⟩
  · rw [ptrs.mem_iff]
    simp only [addresses, List.mem_map, List.mem_filter]
    constructor
    · rintro ⟨o, ⟨member, here⟩, rfl⟩
      exact ⟨o, member, rfl, here⟩
    · rintro ⟨o, member, rfl, here⟩
      exact ⟨o, ⟨member, here⟩, rfl⟩
  · have same : ∀ o ∈ s.objects, o.stage.isCounted = o.stage.isHeld ∧
        o.stage.isTracked = o.stage.isHeld := by
      intro o member
      rcases quiet o member with tracked | freed
      · rw [tracked]
        decide
      · rw [freed]
        decide
    have counted : s.counter = s.objects.countP fun o => o.stage.isHeld := by
      rw [counter]
      exact List.countP_congr fun o member => by rw [(same o member).1]
    have listed : addresses Stage.isTracked s.objects = addresses Stage.isHeld s.objects := by
      unfold addresses
      rw [List.filter_congr fun o member => (same o member).2]
    rw [listed] at ptrs
    unfold report
    constructor
    · constructor
      · intro silent o member
        have zero : s.counter = 0 := by
          by_contra more
          simp [more] at silent
        rw [counted, List.countP_eq_zero] at zero
        rcases quiet o member with tracked | freed
        · have held := zero o member
          simp [tracked, Stage.isHeld] at held
        · exact freed
      · intro freed
        have zero : s.counter = 0 := by
          rw [counted, List.countP_eq_zero]
          intro o member
          simp [freed o member, Stage.isHeld]
        rw [if_pos zero]
    · intro n as reports
      simp only [Option.ite_none_left_eq_some, Option.some.injEq, Prod.mk.injEq] at reports
      obtain ⟨_, rfl, rfl⟩ := reports
      refine ⟨?_, ptrs⟩
      rw [ptrs.length_eq, addresses_length, counted]

/-- Two promises at once, the first of which goes away and leaves its address to a third. -/
def reused : List Label :=
  [.construct 5, .construct 7, .advance 0, .advance 1, .advance 1, .advance 0, .destroy 0,
    .advance 0, .advance 0, .advance 0, .construct 5, .advance 2, .advance 2]

theorem memcheck_exact_reused : ∃ s, run (step (2 ^ 64)) initial reused = some s ∧
    s.counter = 2 ∧ report s = some (2, [5, 7]) ∧
    [5, 7].Perm (addresses Stage.isHeld s.objects) := by
  have ran : run (step (2 ^ 64)) initial reused =
      some ⟨2, [5, 7], [⟨5, .freed⟩, ⟨7, .tracked⟩, ⟨5, .tracked⟩]⟩ := rfl
  obtain ⟨_, _, _, quiet⟩ := memcheck_exact (run_reachable (.start rfl) ran)
  refine ⟨_, ran, rfl, rfl, ?_⟩
  exact ((quiet (by simp [Quiet])).2 2 [5, 7] rfl).2

end Memcheck
