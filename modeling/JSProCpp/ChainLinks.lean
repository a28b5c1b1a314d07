import JSProCpp.PromiseCells

/-
Chains of `Then`, `Catch` and `Finally`: the outcome each link is there to give, and the one it
gives when its continuation is handed what the code hands it. Continuations do not block, a
continuation that gives a promise is a coroutine, and storing a value does not throw.
-/
namespace ChainLinks
open PromiseCells
variable {K V E : Type}

inductive Ty where
  | void
  | base (n : Nat)
  | optional (t : Ty)
  | variant (t2 t : Ty)
  deriving DecidableEq

inductive Val (V : Type) where
  | void
  | base (v : V)
  | nullopt
  | some_ (x : Val V)
  | first (x : Val V)
  | second (x : Val V)
  deriving DecidableEq

abbrev Result (V E : Type) := Outcome (Val V) E

/-- `CatchReturn2`. -/
def catchReturn (t t2 : Ty) : Ty :=
  if t2 = .void ∧ t = .void then .void
  else if t2 = .void then .optional t
  else if t = .void then .optional t2
  else if t = t2 then t2
  else .variant t2 t

/-- What `Catch` resolves with when there is nothing to catch. -/
def applyValue (t t2 : Ty) (v : Val V) : Val V :=
  if t = .void then if t2 = .void then .void else .nullopt
  else if t2 = .void then .some_ v
  else if t = t2 then v
  else .second v

def applyHandled (t t2 : Ty) (w : Val V) : Val V :=
  if t2 = .void then if t = .void then .void else .nullopt
  else if t = .void then .some_ w
  else if t = t2 then w
  else .first w

def handled (t t2 : Ty) : Result V E → Result V E
  | .value w => .value (applyHandled t t2 w)
  | .exception e => .exception e

structure Exceptions (K E : Type) where
  catches : K → E → Bool
  copy : K → E → E

/-- The parameter of a `Catch` handler: `std::exception_ptr`, a class or a reference to one. -/
inductive Argument (K : Type) where
  | pointer
  | byValue (k : K)
  | reference (k : K)

def Exceptions.caught (x : Exceptions K E) : Argument K → E → Bool
  | .pointer, _ => true
  | .byValue k, e => x.catches k e
  | .reference k, e => x.catches k e

inductive Mode where
  | sync
  | coroutine
  | resolver
  deriving DecidableEq

inductive Op (K V E : Type) where
  | then_ (f : Val V → Result V E)
  | catch_ (a : Argument K) (h : E → Result V E)
  -- `g` is what the callable throws or rejects with.
  | finally_ (g : Option E)

structure Link (K V E : Type) where
  op : Op K V E
  mode : Mode
  type : Ty

def Link.returned (l : Link K V E) : Result V E → Result V E
  | .value v => .value (if l.type = .void then .void else v)
  | .exception e => .exception e

def Link.resultType (t : Ty) (l : Link K V E) : Ty :=
  match l.op with
  | .then_ _ => l.type
  | .catch_ _ _ => catchReturn t l.type
  | .finally_ _ => t

/-- The outcome of the link's promise, when a handler is handed `seen a e` for the exception. -/
def Link.outcome (x : Exceptions K E) (seen : Argument K → E → E) (t : Ty) (l : Link K V E) :
    Result V E → Result V E :=
  fun o =>
    match l.op, o with
    | .then_ f, .value v => l.returned (f v)
    | .then_ _, .exception e => .exception e
    | .catch_ _ _, .value v => .value (applyValue t l.type v)
    | .catch_ a h, .exception e =>
        if x.caught a e then handled t l.type (l.returned (h (seen a e))) else .exception e
    | .finally_ none, o => o
    | .finally_ (some e), _ => .exception e

def Link.calls (x : Exceptions K E) (l : Link K V E) (o : Result V E) : Bool :=
  match l.op, o with
  | .then_ _, .value _ => true
  | .then_ _, .exception _ => false
  | .catch_ _ _, .value _ => false
  | .catch_ a _, .exception e => x.caught a e
  | .finally_ _, _ => true

def Link.passed (x : Exceptions K E) (l : Link K V E) : Argument K → E → E
  | .reference k, e => if l.mode = .sync then e else x.copy k e
  | _, e => e

/-- The promise a chain starts from: made by `Create`, a coroutine's, or the promise of a coroutine
    that is given the resolver. -/
inductive Kind where
  | created
  | coroutine
  | resolver
  deriving DecidableEq

/-- Link `i` is built on promise `i`; promise 0 is the source. -/
structure Chain (K V E : Type) where
  exceptions : Exceptions K E
  kind : Kind
  type : Ty
  links : List (Link K V E)

namespace Chain
variable (c : Chain K V E)

def typeAt (i : Nat) : Ty := (c.links.take i).foldl Link.resultType c.type

/-- The outcome of promise `i` when every link does what `apply` says. -/
def through (apply : Ty → Link K V E → Result V E → Result V E) (o : Result V E) :
    Nat → Result V E
  | 0 => o
  | i + 1 =>
      match c.links[i]? with
      | some l => apply (c.typeAt i) l (through apply o i)
      | none => through apply o i

def reference (o : Result V E) (i : Nat) : Result V E :=
  c.through (fun t l => l.outcome c.exceptions (fun _ e => e) t) o i

def coded (o : Result V E) (i : Nat) : Result V E :=
  c.through (fun t l => l.outcome c.exceptions (l.passed c.exceptions) t) o i

def CopiesAlike (o : Result V E) : Prop :=
  ∀ (i : Nat) (l : Link K V E) (k : K) (h : E → Result V E) (e : E), c.links[i]? = some l →
    l.op = .catch_ (.reference k) h → l.mode ≠ .sync → c.reference o i = .exception e →
    c.exceptions.catches k e = true →
    l.returned (h (c.exceptions.copy k e)) = l.returned (h e)

end Chain

section Reference
variable {c : Chain K V E} {o : Result V E}

theorem through_link (apply : Ty → Link K V E → Result V E → Result V E) {i : Nat}
    {l : Link K V E} (here : c.links[i]? = some l) :
    c.through apply o (i + 1) = apply (c.typeAt i) l (c.through apply o i) := by
  simp only [Chain.through, here]

/-- The conversion into the result type of `Catch` loses nothing a handler has returned. -/
theorem handled_injective (t : Ty) (l : Link K V E) {a b : Result V E}
    (same : handled t l.type (l.returned a) = handled t l.type (l.returned b)) :
    l.returned a = l.returned b := by
  cases a with
  | exception e =>
    cases b with
    | exception e' => simpa [handled, Link.returned] using same
    | value w => simp [handled, Link.returned] at same
  | value v =>
    cases b with
    | exception e => simp [handled, Link.returned] at same
    | value w =>
      simp only [handled, Link.returned, applyHandled, Outcome.value.injEq] at same ⊢
      by_cases void : l.type = .void
      · simp [void]
      · simp only [void, if_false] at same ⊢
        split at same
        · simpa using same
        · split at same
          · exact same
          · simpa using same

theorem link_alike {i : Nat} {l : Link K V E} (here : c.links[i]? = some l)
    (alike : c.CopiesAlike o) :
    l.outcome c.exceptions (l.passed c.exceptions) (c.typeAt i) (c.reference o i) =
      l.outcome c.exceptions (fun _ e => e) (c.typeAt i) (c.reference o i) := by
  unfold Link.outcome
  split
  · rfl
  · rfl
  · rfl
  · rename_i a h e op before
    split
    · rename_i caught
      cases a with
      | pointer => rfl
      | byValue k => rfl
      | reference k =>
        by_cases sync : l.mode = .sync
        · simp [Link.passed, sync]
        · have same := alike i l k h e here op sync before caught
          simp [Link.passed, sync, same]
    · rfl
  · rfl
  · rfl

theorem coded_step {i : Nat} {l : Link K V E} (here : c.links[i]? = some l) :
    c.coded o (i + 1) =
      l.outcome c.exceptions (l.passed c.exceptions) (c.typeAt i) (c.coded o i) :=
  through_link _ here

theorem reference_step {i : Nat} {l : Link K V E} (here : c.links[i]? = some l) :
    c.reference o (i + 1) =
      l.outcome c.exceptions (fun _ e => e) (c.typeAt i) (c.reference o i) :=
  through_link _ here

theorem coded_reference (alike : c.CopiesAlike o) {i : Nat} (inside : i ≤ c.links.length) :
    c.coded o i = c.reference o i := by
  induction i with
  | zero => rfl
  | succ i ih =>
    have here : c.links[i]? = some c.links[i] := List.getElem?_eq_getElem (by omega)
    rw [coded_step here, reference_step here, ih (by omega)]
    exact link_alike here alike

theorem coded_reference_iff :
    (∀ i, i ≤ c.links.length → c.coded o i = c.reference o i) ↔ c.CopiesAlike o := by
  constructor
  · intro same i l k h e here op sync before caught
    have inside : i < c.links.length := (List.getElem?_eq_some_iff.mp here).1
    have after := same (i + 1) (by omega)
    rw [coded_step here, reference_step here, same i (by omega), before] at after
    simp only [Link.outcome, op, Exceptions.caught, caught, if_true, Link.passed, sync, if_false]
      at after
    exact handled_injective _ l after
  · intro alike i inside
    exact coded_reference alike inside

end Reference

end ChainLinks
