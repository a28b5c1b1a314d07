import JSProCpp.PromiseCells

/-
What exceptions of continuations do inside `OnResolved`. Each awaiter that `Then`, `Catch`,
`Finally` or `Race` registers has a `try` of its own or none, and the loop over the awaiters has
none. A link is an awaiter with the awaiters of the promise that it settles.
-/
namespace FlushErrors
open PromiseCells
variable {A V E : Type}

/-- A failed `assert` ends the program. -/
inductive Thrown (E : Type) where
  | exception (e : E)
  | abort
  deriving DecidableEq

/-- `NDEBUG` is not defined, `NO_COVERAGE` is. -/
structure Build where
  asserts : Bool
  noCoverage : Bool

inductive Callable (A V E : Type) where
  | sync (f : A → Except E V)
  | promise (f : A → Except E (Option (Outcome V E)))

abbrev Act (V E : Type) := Option (Outcome V E) → Option (Outcome V E) × Option (Thrown E)

/-- What leaves `OnResolved` of the promise when it is settled. -/
abbrev Next (V E : Type) := Outcome V E → Option (Thrown E)

def returns : Act V E := fun p => (p, none)

def throws (e : E) : Act V E := fun p => (p, some (.exception e))

def aborts : Act V E := fun p => (p, some .abort)

/-- `(*resolve)(..)` or `(*reject)(..)`. -/
def settle (next : Next V E) (o : Outcome V E) : Act V E
  | some p => (some p, none)
  | none => (some o, next o)

def guarded (body : Act V E) (handler : E → Act V E) : Act V E := fun p =>
  match body p with
  | (q, some (.exception e)) => handler e q
  | r => r

/-- `.Then(resolve).Catch(reject).Detach()` on the promise of a continuation; a pending one calls
    them later. -/
def follow (next : Next V E) : Option (Outcome V E) → Act V E
  | none => returns
  | some (.value v) =>
      guarded (settle next (.value v)) fun e =>
        guarded (settle next (.exception e)) fun _ => returns
  | some (.exception e) => guarded (settle next (.exception e)) fun _ => returns

def thenPending (next : Next V E) : Callable V V E → Outcome V E → Act V E
  | .sync _, .exception e =>
      guarded (settle next (.exception e)) fun e => settle next (.exception e)
  | .sync f, .value v =>
      guarded
        (match f v with
        | .error e => throws e
        | .ok w => settle next (.value w))
        fun e => settle next (.exception e)
  | .promise _, .exception e => follow next (some (.exception e))
  | .promise f, .value v =>
      match f v with
      | .error e => throws e
      | .ok p => follow next p

/-- How a call on a promise that is done ends. It hangs where an exception unwinds its own pending
    promise, which nobody settles any more: `~WPromise` stays in `WaitDone()`. -/
inductive Attached (V E : Type) where
  | returns (p : Option (Outcome V E))
  | throws (t : Thrown E)
  | hangs
  deriving DecidableEq

/-- `Then` on a promise that is done has no promise of its own. -/
def thenDone : Callable V V E → Outcome V E → Attached V E
  | _, .exception e => .returns (some (.exception e))
  | .sync f, .value v =>
      match f v with
      | .error e => .returns (some (.exception e))
      | .ok w => .returns (some (.value w))
  | .promise f, .value v =>
      match f v with
      | .error e => .throws (.exception e)
      | .ok p => .returns p

structure Catching (V E : Type) where
  caught : E → Bool
  -- A coroutine that takes the exception by reference is given a copy, inside a coroutine that
  -- awaits it.
  copy : Option (E → E)
  value : V → V
  handled : V → V

def Catching.converted (c : Catching V E) : Outcome V E → Outcome V E
  | .value w => .value (c.handled w)
  | .exception e => .exception e

def applyException (next : Next V E) (c : Catching V E) (e : E) : Callable E V E → Act V E
  | .sync h =>
      match h e with
      | .error e => throws e
      | .ok w => settle next (.value (c.handled w))
  | .promise h =>
      match c.copy with
      | none =>
          match h e with
          | .error e => throws e
          | .ok p => follow next (p.map c.converted)
      | some copy =>
          match h (copy e) with
          | .error e => follow next (some (.exception e))
          | .ok p => follow next (p.map c.converted)

def catchBody (next : Next V E) (c : Catching V E) (h : Callable E V E) (o : Outcome V E) :
    Act V E :=
  guarded
    (match o with
    | .value v => settle next (.value (c.value v))
    | .exception e => if c.caught e then applyException next c e h else throws e)
    fun e => settle next (.exception e)

/-- The outcome of a `Finally` whose continuation gave `r`. -/
def kept (o : Outcome V E) : Outcome V E → Outcome V E
  | .value _ => o
  | .exception e => .exception e

/-- `apply_value` and `apply_exception` of `Finally`. -/
def finallyBody (next : Next V E) (o : Outcome V E) : Callable Unit V E → Act V E
  | .sync g =>
      guarded
        (match g () with
        | .error e => throws e
        | .ok _ => settle next o)
        fun e => settle next (.exception e)
  | .promise g =>
      match g () with
      | .error e => throws e
      | .ok p => follow next (p.map (kept o))

def finallyPending (b : Build) (next : Next V E) (g : Callable Unit V E) (o : Outcome V E) :
    Act V E :=
  if b.noCoverage then finallyBody next o g
  else guarded (finallyBody next o g) fun e =>
    if b.asserts then aborts else settle next (.exception e)

inductive Op (V E : Type) where
  | then_ (f : Callable V V E)
  | catch_ (c : Catching V E) (h : Callable E V E)
  | finally_ (g : Callable Unit V E)
  -- `held` is what another promise of the race has settled the race promise with.
  | race (held : Option (Outcome V E)) (value : V → V)

def raced (value : V → V) : Outcome V E → Outcome V E
  | .value v => .value (value v)
  | .exception e => .exception e

namespace Op

def before : Op V E → Option (Outcome V E)
  | .race held _ => held
  | _ => none

def pending (b : Build) (next : Next V E) : Op V E → Outcome V E → Act V E
  | .then_ f, o => thenPending next f o
  | .catch_ c h, o => catchBody next c h o
  | .finally_ g, o => finallyPending b next g o
  | .race _ value, o => settle next (raced value o)

def attached (p : Option (Outcome V E)) (a : Act V E) : Attached V E :=
  match a p with
  | (q, none) => .returns q
  | (none, some (.exception _)) => .hangs
  | (_, some t) => .throws t

def done : Op V E → Outcome V E → Attached V E
  | .then_ f, o => thenDone f o
  | .catch_ c h, o => attached none (catchBody (fun _ => none) c h o)
  | .finally_ g, o => attached none (finallyBody (fun _ => none) o g)
  | .race held value, o => attached held (settle (fun _ => none) (raced value o))

end Op

inductive Link (V E : Type) where
  | mk (op : Op V E) (chained : List (Link V E))

def Link.op : Link V E → Op V E
  | ⟨op, _⟩ => op

def Link.chained : Link V E → List (Link V E)
  | ⟨_, chained⟩ => chained

mutual

def Link.callback (b : Build) : Link V E → Outcome V E → Option (Outcome V E) × Option (Thrown E)
  | ⟨op, chained⟩, o => op.pending b (fun o' => (onResolved b chained o').2) o op.before

/-- The promise of each awaiter, `none` where the awaiter was not called, and what is thrown. -/
def onResolved (b : Build) : List (Link V E) → Outcome V E →
    List (Option (Option (Outcome V E))) × Option (Thrown E)
  | [], _ => ([], none)
  | l :: ls, o =>
      match l.callback b o with
      | (p, none) => (some p :: (onResolved b ls o).1, (onResolved b ls o).2)
      | (p, some t) => (some p :: ls.map fun _ => none, some t)

end

def Callable.result : Callable A V E → A → Option (Outcome V E)
  | .sync f, a =>
      match f a with
      | .error e => some (.exception e)
      | .ok w => some (.value w)
  | .promise f, a =>
      match f a with
      | .error e => some (.exception e)
      | .ok p => p

def Callable.yieldless : Callable A V E → A → Bool
  | .sync _, _ => false
  | .promise f, a => !(f a).isOk

def Catching.passed (c : Catching V E) : Callable E V E → E → E
  | .sync _, e => e
  | .promise _, e =>
      match c.copy with
      | none => e
      | some copy => copy e

namespace Op

def due : Op V E → Outcome V E → Option (Outcome V E)
  | .then_ f, .value v => f.result v
  | .then_ _, .exception e => some (.exception e)
  | .catch_ c _, .value v => some (.value (c.value v))
  | .catch_ c h, .exception e =>
      if c.caught e then (h.result (c.passed h e)).map c.converted else some (.exception e)
  | .finally_ g, o => (g.result ()).map (kept o)
  | .race held value, o => some (held.getD (raced value o))

/-- A `Then` or `Finally` calls a continuation that throws instead of returning a promise. -/
def unguarded : Op V E → Outcome V E → Bool
  | .then_ f, .value v => f.yieldless v
  | .finally_ g, _ => g.yieldless ()
  | _, _ => false

end Op

inductive Settles (ls : List (Link V E)) (o : Outcome V E) :
    List (Link V E) → Outcome V E → Prop where
  | here : Settles ls o ls o
  | chained {ms : List (Link V E)} {o' o'' : Outcome V E} {l : Link V E}
      (before : Settles ls o ms o') (member : l ∈ ms) (pending : l.op.before = none)
      (due : l.op.due o' = some o'') : Settles ls o l.chained o''

/-- Nothing leaves `OnResolved`, every awaiter is called, each settles its promise as due, and so
    does a call on the promise once it is done. -/
structure Delivers (b : Build) (ls : List (Link V E)) (o : Outcome V E) : Prop where
  returns : (onResolved b ls o).2 = none
  settles : (onResolved b ls o).1 = ls.map fun l => some (l.op.due o)
  late : ∀ l ∈ ls, l.op.done o = .returns (l.op.due o)

section Acts
variable {next : Next V E} {o : Outcome V E} {p : Option (Outcome V E)} {e : E}

theorem settle_due (quiet : next o = none) : settle next o none = (some o, none) := by
  simp [settle, quiet]

theorem guarded_returns {body : Act V E} {handler : E → Act V E} {q : Option (Outcome V E)}
    (returns : body p = (q, none)) : guarded body handler p = (q, none) := by
  simp [guarded, returns]

theorem guarded_throws {handler : E → Act V E} : guarded (throws e) handler p = handler e p := rfl

theorem follow_due (quiet : ∀ o, p = some o → next o = none) : follow next p none = (p, none) := by
  cases p with
  | none => rfl
  | some o =>
    have settles := settle_due (quiet o rfl)
    cases o with
    | value v => exact guarded_returns settles
    | exception e => exact guarded_returns settles

theorem then_due {f : Callable V V E} (clean : (Op.then_ f).unguarded o = false)
    (quiet : ∀ o', (Op.then_ f).due o = some o' → next o' = none) :
    thenPending next f o none = ((Op.then_ f).due o, none) := by
  cases o with
  | exception e =>
    have settles := settle_due (quiet (.exception e) rfl)
    cases f with
    | sync f => exact guarded_returns settles
    | promise f =>
      exact follow_due (p := some (.exception e)) fun o same => Option.some.inj same ▸ quiet _ rfl
  | value v =>
    cases f with
    | sync f =>
      simp only [Op.due, Callable.result] at quiet ⊢
      simp only [thenPending]
      cases called : f v with
      | error e =>
        rw [called] at quiet
        rw [guarded_throws]
        exact settle_due (quiet _ rfl)
      | ok w =>
        rw [called] at quiet
        exact guarded_returns (settle_due (quiet _ rfl))
    | promise f =>
      simp only [Op.due, Callable.result] at quiet ⊢
      simp only [thenPending]
      cases called : f v with
      | error e =>
        simp [Op.unguarded, Callable.yieldless, called, Except.isOk, Except.toBool] at clean
      | ok p =>
        rw [called] at quiet
        exact follow_due quiet

theorem catch_due {c : Catching V E} {h : Callable E V E}
    (quiet : ∀ o', (Op.catch_ c h).due o = some o' → next o' = none) :
    catchBody next c h o none = ((Op.catch_ c h).due o, none) := by
  unfold catchBody
  cases o with
  | value v => exact guarded_returns (settle_due (quiet _ rfl))
  | exception e =>
    simp only [Op.due] at quiet ⊢
    cases caught : c.caught e with
    | false =>
      simp only [caught, Bool.false_eq_true, if_false] at quiet ⊢
      rw [guarded_throws]
      exact settle_due (quiet _ rfl)
    | true =>
      simp only [caught, if_true] at quiet ⊢
      cases h with
      | sync h =>
        simp only [Callable.result, Catching.passed] at quiet ⊢
        simp only [applyException]
        cases called : h e with
        | error e' =>
          rw [called] at quiet
          rw [guarded_throws]
          exact settle_due (quiet _ rfl)
        | ok w =>
          rw [called] at quiet
          exact guarded_returns (settle_due (quiet _ rfl))
      | promise h =>
        simp only [Callable.result, Catching.passed] at quiet ⊢
        simp only [applyException]
        cases copied : c.copy with
        | none =>
          simp only [copied] at quiet ⊢
          cases called : h e with
          | error e' =>
            rw [called] at quiet
            rw [guarded_throws]
            exact settle_due (quiet _ rfl)
          | ok p =>
            rw [called] at quiet
            exact guarded_returns (follow_due quiet)
        | some copy =>
          simp only [copied] at quiet ⊢
          cases called : h (copy e) with
          | error e' =>
            rw [called] at quiet
            exact guarded_returns (follow_due quiet)
          | ok p =>
            rw [called] at quiet
            exact guarded_returns (follow_due quiet)

theorem finally_due {g : Callable Unit V E} (clean : (Op.finally_ g).unguarded o = false)
    (quiet : ∀ o', (Op.finally_ g).due o = some o' → next o' = none) :
    finallyBody next o g none = ((Op.finally_ g).due o, none) := by
  cases g with
  | sync g =>
    simp only [Op.due, Callable.result] at quiet ⊢
    simp only [finallyBody]
    cases called : g () with
    | error e =>
      rw [called] at quiet
      rw [guarded_throws]
      exact settle_due (quiet _ rfl)
    | ok w =>
      rw [called] at quiet
      exact guarded_returns (settle_due (quiet _ rfl))
  | promise g =>
    simp only [Op.due, Callable.result] at quiet ⊢
    simp only [finallyBody]
    cases called : g () with
    | error e =>
      simp [Op.unguarded, Callable.yieldless, called, Except.isOk, Except.toBool] at clean
    | ok p =>
      rw [called] at quiet
      exact follow_due quiet

theorem pending_due (b : Build) {op : Op V E} (clean : op.unguarded o = false)
    (quiet : ∀ o', op.before = none → op.due o = some o' → next o' = none) :
    op.pending b next o op.before = (op.due o, none) := by
  cases op with
  | then_ f => exact then_due clean fun o' due => quiet o' rfl due
  | catch_ c h => exact catch_due fun o' due => quiet o' rfl due
  | finally_ g =>
    have body := finally_due clean fun o' due => quiet o' rfl due
    simp only [Op.pending, Op.before, finallyPending]
    split
    · exact body
    · exact guarded_returns body
  | race held value =>
    cases held with
    | some o' => rfl
    | none => exact settle_due (quiet _ rfl rfl)

theorem done_due {op : Op V E} (clean : op.unguarded o = false) :
    op.done o = .returns (op.due o) := by
  cases op with
  | then_ f =>
    cases o with
    | exception e => cases f <;> rfl
    | value v =>
      cases f with
      | sync f =>
        simp only [Op.done, thenDone, Op.due, Callable.result]
        cases f v <;> rfl
      | promise f =>
        simp only [Op.done, thenDone, Op.due, Callable.result]
        cases called : f v with
        | error e =>
          simp [Op.unguarded, Callable.yieldless, called, Except.isOk, Except.toBool] at clean
        | ok p => rfl
  | catch_ c h =>
    have body : catchBody (fun _ => none) c h o none = ((Op.catch_ c h).due o, none) :=
      catch_due fun _ _ => rfl
    simp only [Op.done, Op.attached, body]
  | finally_ g =>
    have body : finallyBody (fun _ => none) o g none = ((Op.finally_ g).due o, none) :=
      finally_due clean fun _ _ => rfl
    simp only [Op.done, Op.attached, body]
  | race held value => cases held <;> rfl

theorem done_unguarded {op : Op V E} (throws : op.unguarded o = true) :
    (∃ f e, op = .then_ f ∧ op.done o = .throws (.exception e)) ∨
      ∃ g, op = .finally_ g ∧ op.done o = .hangs := by
  cases op with
  | catch_ c h => simp [Op.unguarded] at throws
  | race held value => simp [Op.unguarded] at throws
  | then_ f =>
    cases o with
    | exception e => simp [Op.unguarded] at throws
    | value v =>
      cases f with
      | sync f => simp [Op.unguarded, Callable.yieldless] at throws
      | promise f =>
        simp only [Op.unguarded, Callable.yieldless] at throws
        simp only [Op.done, thenDone]
        cases called : f v with
        | error e => exact .inl ⟨_, e, rfl, rfl⟩
        | ok p => simp [called, Except.isOk, Except.toBool] at throws
  | finally_ g =>
    cases g with
    | sync g => simp [Op.unguarded, Callable.yieldless] at throws
    | promise g =>
      simp only [Op.unguarded, Callable.yieldless] at throws
      simp only [Op.done, Op.attached, finallyBody]
      cases called : g () with
      | error e => exact .inr ⟨_, rfl, rfl⟩
      | ok p => simp [called, Except.isOk, Except.toBool] at throws

end Acts

section Flush
variable {b : Build} {ls ms : List (Link V E)} {o o' o'' : Outcome V E}

theorem settles_trans (first : Settles ls o ms o') {ns : List (Link V E)}
    (second : Settles ms o' ns o'') : Settles ls o ns o'' := by
  induction second with
  | here => exact first
  | chained _ member pending due ih => exact .chained ih member pending due

def Clean (ls : List (Link V E)) (o : Outcome V E) : Prop :=
  ∀ ms o', Settles ls o ms o' → ∀ l ∈ ms, l.op.unguarded o' = false

theorem clean_chained {l : Link V E} (clean : Clean ls o) (member : l ∈ ls)
    (pending : l.op.before = none) (due : l.op.due o = some o') : Clean l.chained o' :=
  fun ms o'' settles =>
    clean ms o'' (settles_trans (.chained .here member pending due) settles)

def CleanBelow (l : Link V E) (o : Outcome V E) : Prop :=
  l.op.unguarded o = false ∧ ∀ o', l.op.before = none → l.op.due o = some o' → Clean l.chained o'

theorem clean_below {l : Link V E} (clean : Clean ls o) (member : l ∈ ls) : CleanBelow l o :=
  ⟨clean ls o .here l member, fun _ pending due => clean_chained clean member pending due⟩

mutual

theorem callback_due (b : Build) : ∀ (l : Link V E) (o : Outcome V E), CleanBelow l o →
    l.callback b o = (l.op.due o, none)
  | ⟨op, chained⟩, o, below => by
    unfold Link.callback
    refine pending_due b below.1 fun o' pending due => ?_
    have clean := below.2 o' pending due
    rw [onResolved_due b chained o' fun l member => clean_below clean member]

theorem onResolved_due (b : Build) : ∀ (ls : List (Link V E)) (o : Outcome V E),
    (∀ l ∈ ls, CleanBelow l o) → onResolved b ls o = (ls.map fun l => some (l.op.due o), none)
  | [], _, _ => by simp [onResolved]
  | l :: ls, o, below => by
    have first := callback_due b l o (below l List.mem_cons_self)
    have rest := onResolved_due b ls o fun m member => below m (List.mem_cons_of_mem _ member)
    simp only [onResolved, first, rest, List.map_cons]

end

theorem clean_delivers (clean : Clean ls o) : Delivers b ls o := by
  have flushed := onResolved_due b ls o fun l member => clean_below clean member
  constructor
  · rw [flushed]
  · rw [flushed]
  · intro l member
    exact done_due (clean ls o .here l member)

/-- What such a call in a `Then` does to a pending promise: its exception leaves `OnResolved`, its
    own promise stays pending, and no later awaiter is called. -/
theorem then_drops {before after : List (Link V E)} {l : Link V E}
    {f : V → Except E (Option (Outcome V E))} {v : V} {e : E} (link : l.op = .then_ (.promise f))
    (throws : f v = .error e) (below : ∀ m ∈ before, CleanBelow m (.value v)) :
    onResolved b (before ++ l :: after) (.value v) =
      (before.map (fun m => some (m.op.due (.value v))) ++ some none :: after.map fun _ => none,
        some (.exception e)) := by
  induction before with
  | nil =>
    obtain ⟨op, chained⟩ := l
    simp only [Link.op] at link
    subst link
    have thrown : Link.callback b ⟨.then_ (.promise f), chained⟩ (.value v) =
        (none, some (.exception e)) := by
      simp only [Link.callback, Op.pending, thenPending, throws]
      rfl
    simp only [List.nil_append, onResolved, thrown, List.map_nil]
  | cons m before ih =>
    have first := callback_due b m (.value v) (below m List.mem_cons_self)
    have rest := ih fun m' member => below m' (List.mem_cons_of_mem _ member)
    simp only [List.cons_append, onResolved, first, rest, List.map_cons]

theorem delivers_guarded {l : Link V E} (delivers : Delivers b ls o) (member : l ∈ ls) :
    l.op.unguarded o = false := by
  by_contra throws
  rw [Bool.not_eq_false] at throws
  have late := delivers.late l member
  rcases done_unguarded throws with ⟨_, e, _, thrown⟩ | ⟨_, _, hangs⟩
  · simp [thrown] at late
  · simp [hangs] at late

end Flush

/-- Every settlement delivers exactly when none of them calls a promise-returning continuation of
    a `Then` or `Finally` that throws instead of returning a promise. -/
theorem every_settlement_delivers (b : Build) (ls : List (Link V E)) (o : Outcome V E) :
    (∀ ms o', Settles ls o ms o' → Delivers b ms o') ↔
      ∀ ms o', Settles ls o ms o' → ∀ l ∈ ms, l.op.unguarded o' = false := by
  constructor
  · intro delivers ms o' settles l member
    exact delivers_guarded (delivers ms o' settles) member
  · intro clean ms o' settles
    exact clean_delivers fun ns o'' below => clean ns o'' (settles_trans settles below)

/-- An empty `std::function` that would return a promise, before a plain `Then`. -/
def emptyFunction : List (Link Nat String) :=
  [⟨.then_ (.promise fun _ => .error "bad_function_call"), []⟩, ⟨.then_ (.sync fun v => .ok v), []⟩]

theorem empty_function_drops :
    onResolved ⟨true, false⟩ emptyFunction (.value 1) =
      ([some none, none], some (.exception "bad_function_call")) ∧
    ¬∀ ms o', Settles emptyFunction (.value 1) ms o' → Delivers ⟨true, false⟩ ms o' := by
  have flushed : onResolved ⟨true, false⟩ emptyFunction (.value 1) =
      ([some none, none], some (.exception "bad_function_call")) := rfl
  refine ⟨flushed, fun delivers => ?_⟩
  have returns := (delivers _ _ .here).returns
  simp [flushed] at returns

end FlushErrors
