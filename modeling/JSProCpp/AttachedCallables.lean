import JSProCpp.Transitions

/-
What `Then`, `Catch` and `Finally` do to a callable that the caller passes as an lvalue
`std::function`. Each branch forwards it (a copy, for an lvalue), moves it or calls it in place;
a moved-from `std::function` is empty. One function is attached to several promises in turn,
while others of them settle.
-/
namespace AttachedCallables
open Transitions
variable {F : Type}

inductive Op where
  | then_
  -- `caught`: the handler's parameter takes the exception.
  | catch_ (caught : Bool)
  | finally_
  deriving DecidableEq

inductive Status where
  | pending
  | resolved
  | rejected
  deriving DecidableEq

inductive Transfer where
  | copy
  | move
  deriving DecidableEq

/-- A chain of transfers: what is left in the first object, and what is in the last one, which is
    called. The empty chain calls the object itself. -/
def passOn : List Transfer → Option F → Option F × Option F
  | [], f => (f, f)
  | .copy :: rest, f => (f, (passOn rest f).2)
  | .move :: rest, f => (none, (passOn rest f).2)

def runs : Op → Status → Bool
  | .then_, .resolved => true
  | .catch_ caught, .rejected => caught
  | .finally_, .resolved | .finally_, .rejected => true
  | _, _ => false

section Branches
-- The function returns a promise.
variable (promise : Bool)

/-- `MakePromise` puts the callable into the holder of the new promise. -/
def intoHolder (t : Transfer) : List Transfer := if promise then [t] else []

/-- The branch of a promise that is done. `Catch` captures `func` in `apply_exception`, which
    captures it again for `exception_wrapper`; a handler that takes its exception by reference is
    moved on from there, into a coroutine. -/
def donePath : Op → List Transfer
  | .then_ => intoHolder promise .move
  | .catch_ _ => [.copy, .copy] ++ intoHolder promise .move
  | .finally_ => intoHolder promise .copy

/-- A branch of a done promise that does not run the continuation. -/
def skipPath : Op → List Transfer
  | .catch_ _ => [.copy]
  | _ => []

def capturePath : Op → List Transfer
  | .catch_ _ => [.copy, .move]
  | _ => [.copy]

def awaiterPath : Op → List Transfer
  | .then_ => if promise then .move :: intoHolder promise .move else []
  | .catch_ _ => .copy :: intoHolder promise .move
  | .finally_ => intoHolder promise .copy

end Branches

structure Waiter (F : Type) where
  op : Op
  func : Option F
  deriving DecidableEq

structure Cell (F : Type) where
  status : Status
  awaiters : List (Waiter F)
  deriving DecidableEq

/-- The caller's object, the promises, and the function that each call has run. -/
structure Scene (F : Type) where
  func : Option F
  promises : List (Cell F)
  called : List (Option F)
  deriving DecidableEq

inductive Label where
  | attach (i : Nat) (op : Op)
  | settle (i : Nat) (rejected : Bool)
  deriving DecidableEq

def attach (promise : Bool) (s : Scene F) (i : Nat) (op : Op) (c : Cell F) : Scene F :=
  if c.status = .pending then
    let x := passOn (capturePath op) s.func
    { s with
      func := x.1
      promises := s.promises.set i { c with awaiters := c.awaiters ++ [⟨op, x.2⟩] } }
  else if runs op c.status then
    let x := passOn (donePath promise op) s.func
    { s with func := x.1, called := s.called ++ [x.2] }
  else { s with func := (passOn (skipPath op) s.func).1 }

def settle (promise : Bool) (s : Scene F) (i : Nat) (status : Status) (c : Cell F) : Scene F :=
  { s with
    promises := s.promises.set i ⟨status, []⟩
    called := s.called ++ (c.awaiters.filter fun a => runs a.op status).map fun a =>
      (passOn (awaiterPath promise a.op) a.func).2 }

def step (promise : Bool) (s : Scene F) : Label → Option (Scene F)
  | .attach i op => (s.promises[i]?).map (attach promise s i op)
  | .settle i rejected =>
      match s.promises[i]? with
      | some c =>
          if c.status = .pending then
            some (settle promise s i (if rejected then .rejected else .resolved) c)
          else none
      | none => none

def Fresh (f : F) (s : Scene F) : Prop :=
  s.func = some f ∧ (∀ c ∈ s.promises, c.awaiters = []) ∧ s.called = []

def Captured (f : F) (s : Scene F) : Prop :=
  ∀ c ∈ s.promises, ∀ a ∈ c.awaiters, a.func = some f

end AttachedCallables
