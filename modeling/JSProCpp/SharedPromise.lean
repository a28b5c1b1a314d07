import JSProCpp.Transitions

/-
One promise state (`details::Promise` with its `Handle`, `Resolver` and `Reject` handle)
and every call that runs on it. A call is an activation with a program counter; threads,
nested calls and resumed coroutines are all activations, so that any interleaving of their
steps is a run. A step is one atomic access or one critical section of `mutex_`.
`V` is the value type (`Unit` for void), `E` a non-null exception, `H` a coroutine handle
and `F` the body of a function awaiter.
-/
namespace SharedPromise
open Transitions
variable {V E H F : Type}

/-- What a settling call stores: `value_`, or `exception_` (`none` is a null pointer). -/
inductive Payload (V E : Type) where
  | value (v : V)
  | exception (e : Option E)
  deriving DecidableEq

inductive Target (H F : Type) where
  | coroutine (h : H)
  | function (f : F)
  deriving DecidableEq

/-- An element of `awaiters_`. `id` is `use_count_` after its registration; the code keeps it
    in `AwaitFunction::id_` and drops it for a coroutine handle. -/
structure Awaiter (H F : Type) where
  target : Target H F
  id : Nat
  deriving DecidableEq

def Awaiter.isFunction (a : Awaiter H F) : Bool :=
  match a.target with
  | .coroutine _ => false
  | .function _ => true

inductive Completion (V E : Type) where
  | returned (v : V)
  | resolverReturned
  | threw (e : E)
  deriving DecidableEq

inductive Call (V E H F : Type) where
  -- `Resolve::operator()`; `throws` when building the stored value throws.
  | resolve (v : V) (throws : Bool)
  | reject (e : Option E)
  -- `Resolver::Reject` called directly.
  | resolverReject (e : Option E)
  | finalSuspend (c : Completion V E)
  | awaitSuspend (h : H)
  -- `Then`, `Catch`, `Finally` or `Race`: `Await` unless the promise is done.
  | await (f : F)
  | unAwait (id : Nat)
  -- `Race` with a race promise that is already done.
  | raceSkip
  | detach (h : Nat)
  | destroy (h : Nat)
  deriving DecidableEq

inductive Site where
  | settle
  | scopeExit (won : Bool)
  deriving DecidableEq

inductive Pc (H F : Type) where
  | rejected
  | exchange
  | weakLock
  | lock
  | store
  | onResolved (site : Site)
  | flush (site : Site) (saveSelf : Bool) (todo : List (Awaiter H F))
  | scopeLock (won : Bool)
  | scopeClear (won : Bool)
  | scopeDestroy (won : Bool) (captured : List Nat)
  | scopeWait (won : Bool) (j : Nat) (captured : List Nat)
  | acquire
  | locked
  | check
  | waitDone
  | returned (result : Bool)
  | threw
  | expired
  deriving DecidableEq

structure Activation (V E H F : Type) where
  call : Call V E H F
  pc : Pc H F
  deriving DecidableEq

/-- A `WPromise` variable: it refers to this state, is inside its destructor or inside
    `Detach`, or refers to nothing. -/
inductive HandleVar where
  | live
  | closing
  | empty
  deriving DecidableEq

inductive Captured where
  | pending
  | stored
  | finished
  deriving DecidableEq

structure State (V E H F : Type) where
  resolved : Bool
  rejected : Bool
  value : Option V
  exception : Option E
  handle : Bool
  function : List Nat
  selfOwned : Bool
  awaiters : List (Awaiter H F)
  useCount : Nat
  mutex : Option Nat
  running : Bool
  handles : List HandleVar
  others : Nat → Captured
  acts : List (Activation V E H F)
  registered : List (Awaiter H F)
  removed : List Nat
  invoked : List (Awaiter H F)

inductive Label (V E H F : Type) where
  | call (c : Call V E H F)
  | step (i : Nat)
  | copy (h : Nat)
  | move (h : Nat)
  -- Copy or move assignment over the variable `h`, which referred to this state, or the end of an
  -- awaitable's copy of it: the reference goes without the destructor's wait.
  | overwrite (h : Nat)
  | other (j : Nat) (c : Captured)
  deriving DecidableEq

/-- A promise with a coroutine (`coroutine = true`) or one made by `Create()`, whose stored
    callable captures the promises `captured`, held by one handle. -/
def initial (coroutine : Bool) (captured : List Nat) (others : Nat → Captured) :
    State V E H F where
  resolved := false
  rejected := false
  value := none
  exception := none
  handle := coroutine
  function := captured
  selfOwned := false
  awaiters := []
  useCount := 0
  mutex := none
  running := coroutine
  handles := [.live]
  others := others
  acts := []
  registered := []
  removed := []
  invoked := []

def Initial (s : State V E H F) : Prop :=
  ∃ coroutine captured others, s = initial coroutine captured others

def State.isDone (s : State V E H F) : Bool := s.value.isSome || s.exception.isSome

def State.owned (s : State V E H F) : Bool :=
  s.handles.any (· != .empty) || s.selfOwned

/-- The activation's frame holds a `shared_ptr` to the state: `promise` in `Resolve` and
    `Reject`, `save_self` in `OnResolved`. -/
def Activation.keeps (a : Activation V E H F) : Bool :=
  match a.pc with
  | .lock | .store | .onResolved .settle | .flush .settle _ _ => true
  | .flush (.scopeExit _) saveSelf _ => saveSelf
  | _ => false

def State.alive (s : State V E H F) : Bool := s.owned || s.acts.any Activation.keeps

def Completion.payload : Completion V E → Option (Payload V E)
  | .returned v => some (.value v)
  | .resolverReturned => none
  | .threw e => some (.exception (some e))

def Call.payload : Call V E H F → Option (Payload V E)
  | .resolve v _ => some (.value v)
  | .reject e => some (.exception e)
  | .resolverReject e => some (.exception e)
  | .finalSuspend c => c.payload
  | _ => none

def Call.throws : Call V E H F → Bool
  | .resolve _ throws => throws
  | _ => false

def Call.entry : Call V E H F → Pc H F
  | .resolve _ _ => .exchange
  | .reject _ => .rejected
  | .resolverReject _ => .exchange
  | .finalSuspend c => if c.payload.isSome then .exchange else .scopeLock false
  | .destroy _ => .check
  | _ => .acquire

/-- Where `Resolver::Resolve` and `Resolver::Reject` return to. -/
def Call.leave (c : Call V E H F) (won : Bool) : Pc H F :=
  match c with
  | .finalSuspend _ => .scopeLock won
  | _ => .returned won

def Call.after (c : Call V E H F) : Site → Pc H F
  | .settle => c.leave true
  | .scopeExit won => .returned won

def State.goto (s : State V E H F) (i : Nat) (c : Call V E H F) (pc : Pc H F) :
    State V E H F := { s with acts := s.acts.set i ⟨c, pc⟩ }

def State.put (s : State V E H F) : Payload V E → State V E H F
  | .value v => { s with value := some v }
  | .exception e => { s with exception := e }

def State.register (s : State V E H F) (t : Target H F) : State V E H F :=
  { s with
    useCount := s.useCount + 1
    awaiters := s.awaiters ++ [⟨t, s.useCount + 1⟩]
    registered := s.registered ++ [⟨t, s.useCount + 1⟩] }

def State.unlock (s : State V E H F) : State V E H F := { s with mutex := none }

def State.takeAwaiters (s : State V E H F) : State V E H F :=
  { s with awaiters := [], selfOwned := false, mutex := none }

/-- `Reject::operator()`, then `Resolver::Resolve` or `Resolver::Reject` up to `OnResolved`. -/
def settleStep (s : State V E H F) (i : Nat) (c : Call V E H F) (p : Payload V E) :
    Pc H F → Option (State V E H F)
  | .rejected =>
      if s.rejected then some (s.goto i c (.returned false))
      else some ({ s with rejected := true }.goto i c .exchange)
  | .exchange =>
      if s.resolved then some (s.goto i c (c.leave false))
      else some ({ s with resolved := true }.goto i c .weakLock)
  | .weakLock => some (s.goto i c (if s.alive then .lock else .expired))
  | .lock => if s.mutex = none then some ({ s with mutex := some i }.goto i c .store) else none
  | .store =>
      if c.throws then some (s.unlock.goto i c .threw)
      else some ((s.put p).goto i c (.onResolved .settle))
  | _ => none

/-- `Handle::OnResolved`: nothing unless `handle_` is null; the awaiters run unlocked. -/
def onResolvedStep (s : State V E H F) (i : Nat) (c : Call V E H F) :
    Pc H F → Option (State V E H F)
  | .onResolved site =>
      if s.handle then some (s.unlock.goto i c (c.after site))
      else some (s.takeAwaiters.goto i c (.flush site s.selfOwned s.awaiters))
  | .flush site saveSelf (a :: rest) =>
      some ({ s with invoked := s.invoked ++ [a] }.goto i c (.flush site saveSelf rest))
  | .flush site _ [] => some (s.goto i c (c.after site))
  | _ => none

/-- The `ScopeExit` of `final_suspend`. Clearing `function_` runs `~WPromise` on the captured
    handles while `mutex_` is held. -/
def scopeExitStep (s : State V E H F) (i : Nat) (c : Call V E H F) :
    Pc H F → Option (State V E H F)
  | .scopeLock won =>
      if s.mutex = none then some ({ s with mutex := some i }.goto i c (.scopeClear won))
      else none
  | .scopeClear won =>
      some ({ s with handle := false, function := [] }.goto i c (.scopeDestroy won s.function))
  | .scopeDestroy won (j :: rest) =>
      if s.others j = .pending then some (s.goto i c (.scopeWait won j rest))
      else some (s.goto i c (.scopeDestroy won rest))
  | .scopeWait won j rest =>
      if s.others j = .finished then some (s.goto i c (.scopeDestroy won rest)) else none
  | .scopeDestroy won [] =>
      if s.isDone then some (s.goto i c (.onResolved (.scopeExit won)))
      else some (s.unlock.goto i c (.returned won))
  | _ => none

def lockedBody (s : State V E H F) : Call V E H F → Option (State V E H F × Bool)
  | .awaitSuspend h =>
      if s.isDone then some (s, false) else some (s.register (.coroutine h), true)
  | .await f => if s.isDone then some (s, false) else some (s.register (.function f), true)
  | .unAwait id =>
      if s.awaiters.any (fun a => a.isFunction && a.id == id) then
        some ({ s with
          awaiters := s.awaiters.eraseP (fun a => a.isFunction && a.id == id)
          removed := id :: s.removed }, true)
      else some (s, false)
  | .raceSkip => some ({ s with useCount := s.useCount + 1 }, true)
  | .detach h =>
      if s.isDone then some ({ s with handles := s.handles.set h .live }, false)
      else some ({ s with handles := s.handles.set h .empty, selfOwned := true }, true)
  | _ => none

def lockedStep (s : State V E H F) (i : Nat) (c : Call V E H F) :
    Pc H F → Option (State V E H F)
  | .acquire =>
      if s.mutex = none then some ({ s with mutex := some i }.goto i c .locked) else none
  | .locked => (lockedBody s c).map fun r => r.1.unlock.goto i c (.returned r.2)
  | _ => none

/-- `~WPromise`: no wait when `IsDone()`, else `WaitDone()` until also `handle_` is null. -/
def destructorStep (s : State V E H F) (i : Nat) (c : Call V E H F) (h : Nat) :
    Pc H F → Option (State V E H F)
  | .check =>
      if s.mutex = none then
        if s.isDone then
          some ({ s with handles := s.handles.set h .empty }.goto i c (.returned true))
        else some (s.goto i c .waitDone)
      else none
  | .waitDone =>
      if s.mutex = none ∧ s.isDone = true ∧ s.handle = false then
        some ({ s with handles := s.handles.set h .empty }.goto i c (.returned true))
      else none
  | _ => none

def advance (s : State V E H F) (i : Nat) (a : Activation V E H F) :
    Option (State V E H F) :=
  match a.pc with
  | .rejected | .exchange | .weakLock | .lock | .store =>
      match a.call.payload with
      | some p => settleStep s i a.call p a.pc
      | none => none
  | .onResolved _ | .flush _ _ _ => onResolvedStep s i a.call a.pc
  | .scopeLock _ | .scopeClear _ | .scopeDestroy _ _ | .scopeWait _ _ _ =>
      scopeExitStep s i a.call a.pc
  | .acquire | .locked => lockedStep s i a.call a.pc
  | .check | .waitDone =>
      match a.call with
      | .destroy h => destructorStep s i a.call h a.pc
      | _ => none
  | .returned _ | .threw | .expired => none

def State.push (s : State V E H F) (c : Call V E H F) : State V E H F :=
  { s with acts := s.acts ++ [⟨c, c.entry⟩] }

/-- `final_suspend` runs once, at the end of the body; a destructor and `Detach` take a
    handle variable that refers to this state. -/
def start (s : State V E H F) (c : Call V E H F) : Option (State V E H F) :=
  match c with
  | .finalSuspend _ => if s.running then some ({ s with running := false }.push c) else none
  | .detach h | .destroy h =>
      if s.handles[h]? = some .live then
        some ({ s with handles := s.handles.set h .closing }.push c)
      else none
  | _ => some (s.push c)

def Captured.rank : Captured → Nat
  | .pending => 0
  | .stored => 1
  | .finished => 2

def step (s : State V E H F) : Label V E H F → Option (State V E H F)
  | .call c => start s c
  | .step i =>
      match s.acts[i]? with
      | some a => advance s i a
      | none => none
  | .copy h =>
      if s.handles[h]? = some .live then some { s with handles := s.handles ++ [.live] }
      else none
  | .move h =>
      if s.handles[h]? = some .live then
        some { s with handles := s.handles.set h .empty ++ [.live] }
      else none
  | .overwrite h =>
      if s.handles[h]? = some .live then some { s with handles := s.handles.set h .empty }
      else none
  | .other j c =>
      if (s.others j).rank < c.rank then some { s with others := Function.update s.others j c }
      else none

theorem step_act {s : State V E H F} {i : Nat} {a : Activation V E H F}
    (here : s.acts[i]? = some a) : step s (.step i) = advance s i a := by
  simp only [step, here]

abbrev Reached (s : State V E H F) : Prop := Reachable step Initial s

section Fields
variable (s : State V E H F) (i : Nat) (c : Call V E H F) (pc : Pc H F)

@[simp] theorem goto_acts : (s.goto i c pc).acts = s.acts.set i ⟨c, pc⟩ := rfl
@[simp] theorem goto_resolved : (s.goto i c pc).resolved = s.resolved := rfl
@[simp] theorem goto_value : (s.goto i c pc).value = s.value := rfl
@[simp] theorem goto_exception : (s.goto i c pc).exception = s.exception := rfl
@[simp] theorem goto_handle : (s.goto i c pc).handle = s.handle := rfl
@[simp] theorem goto_selfOwned : (s.goto i c pc).selfOwned = s.selfOwned := rfl
@[simp] theorem goto_awaiters : (s.goto i c pc).awaiters = s.awaiters := rfl
@[simp] theorem goto_useCount : (s.goto i c pc).useCount = s.useCount := rfl
@[simp] theorem goto_mutex : (s.goto i c pc).mutex = s.mutex := rfl
@[simp] theorem goto_running : (s.goto i c pc).running = s.running := rfl
@[simp] theorem goto_handles : (s.goto i c pc).handles = s.handles := rfl
@[simp] theorem goto_others : (s.goto i c pc).others = s.others := rfl
@[simp] theorem goto_registered : (s.goto i c pc).registered = s.registered := rfl
@[simp] theorem goto_removed : (s.goto i c pc).removed = s.removed := rfl
@[simp] theorem goto_invoked : (s.goto i c pc).invoked = s.invoked := rfl

end Fields

inductive Move (s : State V E H F) (i : Nat) (c : Call V E H F) :
    Pc H F → State V E H F → Prop where
  | rejectLost (set : s.rejected = true) : Move s i c .rejected (s.goto i c (.returned false))
  | rejectFirst (clear : s.rejected = false) :
      Move s i c .rejected ({ s with rejected := true }.goto i c .exchange)
  | lost (payload : c.payload.isSome) (set : s.resolved = true) :
      Move s i c .exchange (s.goto i c (c.leave false))
  | claim (payload : c.payload.isSome) (clear : s.resolved = false) :
      Move s i c .exchange ({ s with resolved := true }.goto i c .weakLock)
  | pin (alive : s.alive = true) : Move s i c .weakLock (s.goto i c .lock)
  | expire (dead : s.alive = false) : Move s i c .weakLock (s.goto i c .expired)
  | settleLock (free : s.mutex = none) :
      Move s i c .lock ({ s with mutex := some i }.goto i c .store)
  | throw (throws : c.throws = true) : Move s i c .store (s.unlock.goto i c .threw)
  | store (p : Payload V E) (payload : c.payload = some p) (total : c.throws = false) :
      Move s i c .store ((s.put p).goto i c (.onResolved .settle))
  | noFlush (site : Site) (live : s.handle = true) :
      Move s i c (.onResolved site) (s.unlock.goto i c (c.after site))
  | flush (site : Site) (clear : s.handle = false) :
      Move s i c (.onResolved site)
        (s.takeAwaiters.goto i c (.flush site s.selfOwned s.awaiters))
  | invoke (site : Site) (saveSelf : Bool) (a : Awaiter H F) (rest : List (Awaiter H F)) :
      Move s i c (.flush site saveSelf (a :: rest))
        ({ s with invoked := s.invoked ++ [a] }.goto i c (.flush site saveSelf rest))
  | flushed (site : Site) (saveSelf : Bool) :
      Move s i c (.flush site saveSelf []) (s.goto i c (c.after site))
  | scopeLock (won : Bool) (free : s.mutex = none) :
      Move s i c (.scopeLock won) ({ s with mutex := some i }.goto i c (.scopeClear won))
  | scopeClear (won : Bool) :
      Move s i c (.scopeClear won)
        ({ s with handle := false, function := [] }.goto i c (.scopeDestroy won s.function))
  | block (won : Bool) (j : Nat) (rest : List Nat) (pending : s.others j = .pending) :
      Move s i c (.scopeDestroy won (j :: rest)) (s.goto i c (.scopeWait won j rest))
  | release (won : Bool) (j : Nat) (rest : List Nat) (done : s.others j ≠ .pending) :
      Move s i c (.scopeDestroy won (j :: rest)) (s.goto i c (.scopeDestroy won rest))
  | wake (won : Bool) (j : Nat) (rest : List Nat) (done : s.others j = .finished) :
      Move s i c (.scopeWait won j rest) (s.goto i c (.scopeDestroy won rest))
  | scopeDone (won : Bool) (done : s.isDone = true) :
      Move s i c (.scopeDestroy won []) (s.goto i c (.onResolved (.scopeExit won)))
  | scopePending (won : Bool) (pending : s.isDone = false) :
      Move s i c (.scopeDestroy won []) (s.unlock.goto i c (.returned won))
  | acquire (free : s.mutex = none) :
      Move s i c .acquire ({ s with mutex := some i }.goto i c .locked)
  | body (t : State V E H F) (result : Bool) (run : lockedBody s c = some (t, result)) :
      Move s i c .locked (t.unlock.goto i c (.returned result))
  | destroyDone (h : Nat) (call : c = .destroy h) (free : s.mutex = none)
      (done : s.isDone = true) :
      Move s i c .check ({ s with handles := s.handles.set h .empty }.goto i c (.returned true))
  | destroyWait (h : Nat) (call : c = .destroy h) (free : s.mutex = none)
      (pending : s.isDone = false) : Move s i c .check (s.goto i c .waitDone)
  | destroyWoken (h : Nat) (call : c = .destroy h) (free : s.mutex = none)
      (done : s.isDone = true) (clear : s.handle = false) :
      Move s i c .waitDone
        ({ s with handles := s.handles.set h .empty }.goto i c (.returned true))

theorem settleStep_move {s t : State V E H F} {i : Nat} {c : Call V E H F} {p : Payload V E}
    {pc : Pc H F} (payload : c.payload = some p) (h : settleStep s i c p pc = some t) :
    Move s i c pc t := by
  have settles : c.payload.isSome := by simp [payload]
  cases pc <;> simp only [settleStep, reduceCtorEq] at h <;> (try split at h) <;>
    simp only [Option.some.injEq, reduceCtorEq] at h <;> subst h
  · exact .rejectLost ‹_›
  · exact .rejectFirst (by simp_all)
  · exact .lost settles ‹_›
  · exact .claim settles (by simp_all)
  · exact .pin ‹_›
  · exact .expire (by simp_all)
  · exact .settleLock ‹_›
  · exact .throw ‹_›
  · exact .store p payload (by simp_all)

theorem onResolvedStep_move {s t : State V E H F} {i : Nat} {c : Call V E H F} {pc : Pc H F}
    (h : onResolvedStep s i c pc = some t) : Move s i c pc t := by
  unfold onResolvedStep at h
  split at h
  · split at h <;> simp only [Option.some.injEq] at h <;> subst h
    · exact .noFlush _ ‹_›
    · exact .flush _ (by simp_all)
  · simp only [Option.some.injEq] at h
    exact h ▸ .invoke _ _ _ _
  · simp only [Option.some.injEq] at h
    exact h ▸ .flushed _ _
  · simp at h

theorem scopeExitStep_move {s t : State V E H F} {i : Nat} {c : Call V E H F} {pc : Pc H F}
    (h : scopeExitStep s i c pc = some t) : Move s i c pc t := by
  unfold scopeExitStep at h
  split at h
  · split at h <;> simp only [Option.some.injEq, reduceCtorEq] at h
    exact h ▸ .scopeLock _ ‹_›
  · simp only [Option.some.injEq] at h
    exact h ▸ .scopeClear _
  · split at h <;> simp only [Option.some.injEq] at h <;> subst h
    · exact .block _ _ _ ‹_›
    · exact .release _ _ _ ‹_›
  · split at h <;> simp only [Option.some.injEq, reduceCtorEq] at h
    exact h ▸ .wake _ _ _ ‹_›
  · split at h <;> simp only [Option.some.injEq] at h <;> subst h
    · exact .scopeDone _ ‹_›
    · exact .scopePending _ (by simp_all)
  · simp at h

theorem lockedStep_move {s t : State V E H F} {i : Nat} {c : Call V E H F} {pc : Pc H F}
    (h : lockedStep s i c pc = some t) : Move s i c pc t := by
  unfold lockedStep at h
  split at h
  · split at h <;> simp only [Option.some.injEq, reduceCtorEq] at h
    exact h ▸ .acquire ‹_›
  · obtain ⟨⟨u, result⟩, body, same⟩ := Option.map_eq_some_iff.mp h
    exact same ▸ .body u result body
  · simp at h

theorem destructorStep_move {s t : State V E H F} {i h : Nat} {c : Call V E H F} {pc : Pc H F}
    (call : c = .destroy h) (taken : destructorStep s i c h pc = some t) :
    Move s i c pc t := by
  unfold destructorStep at taken
  split at taken
  · split at taken
    · split at taken <;> simp only [Option.some.injEq] at taken <;> subst taken
      · exact .destroyDone h call ‹_› ‹_›
      · exact .destroyWait h call ‹_› (by simp_all)
    · simp at taken
  · split at taken <;> simp only [Option.some.injEq, reduceCtorEq] at taken
    rename_i woken
    exact taken ▸ .destroyWoken h call woken.1 woken.2.1 woken.2.2
  · simp at taken

theorem advance_move {s t : State V E H F} {i : Nat} {c : Call V E H F} {pc : Pc H F}
    (h : advance s i ⟨c, pc⟩ = some t) : Move s i c pc t := by
  unfold advance at h
  split at h
  case h_1 | h_2 | h_3 | h_4 | h_5 =>
    split at h
    · exact settleStep_move ‹_› h
    · simp at h
  case h_6 | h_7 => exact onResolvedStep_move h
  case h_8 | h_9 | h_10 | h_11 => exact scopeExitStep_move h
  case h_12 | h_13 => exact lockedStep_move h
  case h_14 | h_15 =>
    split at h
    · exact destructorStep_move ‹_› h
    · simp at h
  all_goals simp at h

/-- What starting a call does: it adds the activation, and uses up the body's end for
    `final_suspend` or the handle variable for a destructor and `Detach`. -/
inductive Started (s : State V E H F) : Call V E H F → State V E H F → Prop where
  | final (c : Completion V E) (running : s.running = true) :
      Started s (.finalSuspend c) ({ s with running := false }.push (.finalSuspend c))
  | close (c : Call V E H F) (h : Nat) (which : c = .detach h ∨ c = .destroy h)
      (live : s.handles[h]? = some .live) :
      Started s c ({ s with handles := s.handles.set h .closing }.push c)
  | plain (c : Call V E H F) (body : ∀ e, c ≠ .finalSuspend e) : Started s c (s.push c)

theorem start_started {s t : State V E H F} {c : Call V E H F} (h : start s c = some t) :
    Started s c t := by
  cases c <;> simp only [start] at h <;> (try split at h) <;>
    simp only [Option.some.injEq, reduceCtorEq] at h <;> subst h
  case finalSuspend.isTrue e running => exact .final e running
  case detach.isTrue h live => exact .close _ h (.inl rfl) live
  case destroy.isTrue h live => exact .close _ h (.inr rfl) live
  all_goals exact .plain _ (by simp)

inductive Change (s t : State V E H F) : Label V E H F → Prop where
  | call (c : Call V E H F) (started : Started s c t) : Change s t (.call c)
  | step (i : Nat) (c : Call V E H F) (pc : Pc H F) (here : s.acts[i]? = some ⟨c, pc⟩)
      (move : Move s i c pc t) : Change s t (.step i)
  | copy (h : Nat) (live : s.handles[h]? = some .live)
      (same : t = { s with handles := s.handles ++ [.live] }) : Change s t (.copy h)
  | move (h : Nat) (live : s.handles[h]? = some .live)
      (same : t = { s with handles := s.handles.set h .empty ++ [.live] }) :
      Change s t (.move h)
  | overwrite (h : Nat) (live : s.handles[h]? = some .live)
      (same : t = { s with handles := s.handles.set h .empty }) : Change s t (.overwrite h)
  | other (j : Nat) (c : Captured) (later : (s.others j).rank < c.rank)
      (same : t = { s with others := Function.update s.others j c }) :
      Change s t (.other j c)

theorem step_change {s t : State V E H F} {l : Label V E H F} (h : step s l = some t) :
    Change s t l := by
  cases l with
  | call c => exact .call c (start_started h)
  | step i =>
    simp only [step] at h
    split at h
    · exact .step i _ _ ‹_› (advance_move h)
    · simp at h
  | copy k =>
    simp only [step] at h
    split at h <;> simp only [Option.some.injEq, reduceCtorEq] at h
    exact .copy k ‹_› h.symm
  | move k =>
    simp only [step] at h
    split at h <;> simp only [Option.some.injEq, reduceCtorEq] at h
    exact .move k ‹_› h.symm
  | overwrite k =>
    simp only [step] at h
    split at h <;> simp only [Option.some.injEq, reduceCtorEq] at h
    exact .overwrite k ‹_› h.symm
  | other j c =>
    simp only [step] at h
    split at h <;> simp only [Option.some.injEq, reduceCtorEq] at h
    exact .other j c ‹_› h.symm

end SharedPromise
