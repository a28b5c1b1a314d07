import JSProCpp.ChainLinks
import JSProCpp.ReferencedOutcome

/-
What a typed `Catch` handler is given. `std::rethrow_exception` and `catch (E const&)` bind it to
the stored exception; for a coroutine that takes `E` by reference the code first copies the
exception as an `E`, so that the coroutine does not outlive its argument.
-/
namespace TypedCatch
open Transitions SharedPromise SettleOnce Completion ChainLinks ReferencedOutcome
variable {K D V H : Type}

structure Hierarchy (K : Type) where
  derives : K → K → Bool
  visible : K → K → Bool
  itself : ∀ k, derives k k = true ∧ visible k k = true
  through : ∀ j k l, derives j k = true → derives k l = true → derives j l = true

@[ext] structure Object (x : Hierarchy K) (D : Type) where
  type : K
  members : K → Option D
  whole : ∀ k, (members k).isSome = x.derives type k

def catches (x : Hierarchy K) (k : K) (o : Object x D) : Bool :=
  x.derives o.type k && x.visible o.type k

/-- The copy constructor of `k` on an exception that is a `k`. -/
def slice (x : Hierarchy K) (k : K) (o : Object x D) : Object x D :=
  if sub : x.derives o.type k = true then
    { type := k
      members := fun j => if x.derives k j then o.members j else none
      whole := by
        intro j
        by_cases base : x.derives k j = true
        · simp [base, o.whole, x.through _ _ _ sub base]
        · simp [base] }
  else o

theorem slice_type (x : Hierarchy K) {k : K} {o : Object x D}
    (sub : x.derives o.type k = true) : (slice x k o).type = k := by
  simp [slice, sub]

/-- A copy of an object as what it is has all of its members. -/
theorem slice_own (x : Hierarchy K) (o : Object x D) : slice x o.type o = o := by
  unfold slice
  rw [dif_pos (x.itself o.type).1]
  apply Object.ext
  · rfl
  · funext j
    by_cases base : x.derives o.type j = true
    · simp only [base, if_true]
    · have none_ : (o.members j).isSome = false := (o.whole j).trans (by simpa using base)
      simp only [base, Bool.false_eq_true, if_false]
      exact (Option.isSome_eq_false_iff.mp none_ |> Option.isNone_iff_eq_none.mp).symm

def exceptions (x : Hierarchy K) (D : Type) : Exceptions K (Object x D) where
  catches := catches x
  copy := slice x

/-- A `Catch` handler: its parameter, and whether it returns a promise. -/
structure Handler (K : Type) where
  argument : Argument K
  promise : Bool

variable {E : Type}

/-- The object that `exception_wrapper` calls the handler with, if it does. -/
def exceptionWrapper (x : Exceptions K E) (h : Handler K) (e : E) : Option E :=
  match h.argument with
  | .pointer => some e
  | .byValue k => if x.catches k e then some e else none
  | .reference k =>
      if x.catches k e then if h.promise then some (x.copy k e) else some e else none

def parameter (x : Exceptions K E) : Argument K → E → E
  | .pointer, e => e
  | .byValue k, e => x.copy k e
  | .reference _, e => e

/-- The exception as the handler sees it, `none` if it is not called. -/
def applyException (x : Exceptions K E) (h : Handler K) (e : E) : Option E :=
  (exceptionWrapper x h e).map (parameter x h.argument)

def Handler.plain (h : Handler K) : Handler K := { h with promise := false }

/-- A promise with `Catch` handlers attached, and what each one that was called has seen. -/
structure Catching (K V E H : Type) where
  source : State V E H (Handler K)
  seen : List (Handler K × Option E)

def handed (x : Exceptions K E) (s : State V E H (Handler K)) (l : Label V E H (Handler K)) :
    Option (Handler K × Option E) :=
  (called s l).bind fun h => s.exception.map fun e => (h, applyException x h e)

def catchStep (x : Exceptions K E) (c : Catching K V E H) (l : Label V E H (Handler K)) :
    Option (Catching K V E H) :=
  (step c.source l).map fun t =>
    { source := t, seen := c.seen ++ (handed x c.source l).toList }

structure SeesStored (x : Exceptions K E) (c : Catching K V E H) : Prop where
  reached : Reached c.source
  stored : ∀ entry ∈ c.seen, ∃ e, c.source.exception = some e ∧
    entry.2 = applyException x entry.1 e

theorem sees_step {x : Exceptions K E} {c d : Catching K V E H} {l : Label V E H (Handler K)}
    (inv : SeesStored x c) (taken : catchStep x c l = some d) : SeesStored x d := by
  obtain ⟨t, moved, same⟩ := Option.map_eq_some_iff.mp taken
  subst same
  constructor
  · exact .next inv.reached moved
  · intro entry member
    rcases List.mem_append.mp member with old | new
    · obtain ⟨e, exception, saw⟩ := inv.stored entry old
      have done : c.source.isDone = true := by simp [State.isDone, exception]
      have kept := (outcome_step (reached_agreement inv.reached) done moved).2
      exact ⟨e, kept.trans exception, saw⟩
    · rw [Option.mem_toList] at new
      obtain ⟨h, calls, saw⟩ := Option.bind_eq_some_iff.mp new
      obtain ⟨e, exception, which⟩ := Option.map_eq_some_iff.mp saw
      subst which
      exact ⟨e, (called_step calls moved).2.1.trans exception, rfl⟩

theorem sees_run {x : Exceptions K E} {c d : Catching K V E H}
    {ls : List (Label V E H (Handler K))} (inv : SeesStored x c)
    (taken : run (catchStep x) c ls = some d) : SeesStored x d := by
  induction ls generalizing c with
  | nil =>
    simp only [run, Option.some.injEq] at taken
    exact taken ▸ inv
  | cons l ls ih =>
    obtain ⟨u, first, rest⟩ := Option.bind_eq_some_iff.mp taken
    exact ih (sees_step inv first) rest

def Exact (x : Hierarchy K) (h : Handler K) (o : Object x D) : Prop :=
  ∀ k, h.argument = .reference k → h.promise = true → catches x k o = true → o.type = k

theorem applyException_plain_iff (x : Hierarchy K) (h : Handler K) (o : Object x D) :
    applyException (exceptions x D) h o = applyException (exceptions x D) h.plain o ↔
      Exact x h o := by
  obtain ⟨argument, promise⟩ := h
  cases argument with
  | pointer => exact ⟨fun _ k which => (nomatch which), fun _ => rfl⟩
  | byValue k => exact ⟨fun _ j which => (nomatch which), fun _ => rfl⟩
  | reference k =>
    have taken : ∀ caught : catches x k o = true, promise = true →
        applyException (exceptions x D) ⟨.reference k, promise⟩ o = some (slice x k o) ∧
          applyException (exceptions x D) ⟨.reference k, false⟩ o = some o := by
      intro caught async
      simp [applyException, exceptionWrapper, exceptions, parameter, caught, async]
    constructor
    · intro same j which async caught
      cases which
      obtain ⟨copied, bound_⟩ := taken caught async
      rw [copied] at same
      have equal := Option.some.inj (same.trans bound_)
      rw [← equal]
      exact slice_type x (Bool.and_eq_true_iff.mp caught).1
    · intro exact_
      by_cases both : catches x k o = true ∧ promise = true
      · obtain ⟨copied, bound_⟩ := taken both.1 both.2
        have own := exact_ k rfl both.2 both.1
        rw [copied, Handler.plain, bound_, ← own, slice_own]
      · simp only [applyException, exceptionWrapper, exceptions, Handler.plain]
        by_cases caught : catches x k o = true
        · simp [show promise = false by simpa [caught] using both]
        · simp [caught]

/-- In every run, each handler that has been called, on the done path or from the flush, has seen
    what a plain function of its parameter sees exactly if it is no coroutine that has caught a
    derived exception by reference to a base. -/
theorem typed_catch_same_iff {x : Hierarchy K} {c d : Catching K V (Object x D) H}
    {ls : List (Label V (Object x D) H (Handler K))} (fresh : Initial c.source)
    (unattached : c.seen = []) (taken : run (catchStep (exceptions x D)) c ls = some d) :
    ∀ entry ∈ d.seen, ∃ o, d.source.exception = some o ∧
      (entry.2 = applyException (exceptions x D) entry.1.plain o ↔ Exact x entry.1 o) := by
  have start : SeesStored (exceptions x D) c := ⟨.start fresh, by simp [unattached]⟩
  intro entry member
  obtain ⟨o, exception, saw⟩ := (sees_run start taken).stored entry member
  refine ⟨o, exception, ?_⟩
  rw [saw]
  exact applyException_plain_iff x entry.1 o

def twoClasses : Hierarchy Nat where
  derives j k := decide (k ≤ j)
  visible _ _ := true
  itself k := ⟨decide_eq_true (Nat.le_refl k), rfl⟩
  through _ _ _ jk kl :=
    decide_eq_true (Nat.le_trans (of_decide_eq_true kl) (of_decide_eq_true jk))

def thrown : Object twoClasses String where
  type := 1
  members k := if k ≤ 1 then some "derived" else none
  whole k := by by_cases small : k ≤ 1 <;> simp [twoClasses, small]

def catching : Catching Nat Nat (Object twoClasses String) Nat :=
  ⟨initial false [] fun _ => .pending, []⟩

def rejectedBetween (k : Nat) : List (Label Nat (Object twoClasses String) Nat (Handler Nat)) :=
  [.call (.await ⟨.reference k, false⟩), .step 0, .step 0, .call (.await ⟨.reference k, true⟩),
    .step 1, .step 1, .call (.reject (some thrown)), .step 2, .step 2, .step 2, .step 2, .step 2,
    .step 2, .step 2, .step 2, .step 2, .call (.await ⟨.reference k, false⟩), .step 3, .step 3,
    .call (.await ⟨.reference k, true⟩), .step 4, .step 4]

theorem typed_catch_same_own : ∃ d, run (catchStep (exceptions twoClasses String)) catching
      (rejectedBetween 1) = some d ∧ ∃ saw, d.seen[1]? = some (⟨.reference 1, true⟩, saw) ∧
      saw = applyException (exceptions twoClasses String) ⟨.reference 1, false⟩ thrown := by
  refine ⟨_, rfl, _, rfl, ?_⟩
  obtain ⟨o, exception, same⟩ := typed_catch_same_iff ⟨false, [], fun _ => .pending, rfl⟩ rfl
    (show run (catchStep (exceptions twoClasses String)) catching (rejectedBetween 1) = some _
      from rfl) _ (List.mem_of_getElem? (i := 1) rfl)
  cases exception
  apply same.mpr
  intro k argument _ _
  cases argument
  rfl

/-- A handler of its base class. -/
theorem typed_catch_sliced : ∃ d, run (catchStep (exceptions twoClasses String)) catching
      (rejectedBetween 0) = some d ∧
      d.seen.map (fun entry => (entry.1.promise, entry.2.map Object.type)) =
        [(false, some 1), (true, some 0), (false, some 1), (true, some 0)] ∧
      ∃ entry ∈ d.seen,
        entry.2 ≠ applyException (exceptions twoClasses String) entry.1.plain thrown := by
  refine ⟨_, rfl, rfl, _, List.mem_of_getElem? (i := 1) rfl, fun same => ?_⟩
  exact absurd (congrArg (Option.map Object.type) same) (by decide)

end TypedCatch
