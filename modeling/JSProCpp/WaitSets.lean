import JSProCpp.SharedPromise
import JSProCpp.Monitors

/-
`mutex_` and `cv_` of one promise state, statement by statement: `WaitDone` and `WaitAwaited`,
the settling calls, `final_suspend`, both `Await`s, `Race` with a finished race and `UnAwait`,
each call on a thread of its own. `cv_` is the set of the threads asleep in it. `O` is what a
settling call stores, a value or a non-null exception; whoever is inside a call keeps the
state alive. The stored callable may capture handles of other promises, which `final_suspend`
destroys, and so waits for, inside its critical section.
-/
namespace WaitSets
open Transitions Monitors
open SharedPromise (Awaiter Captured Target Site)
variable {O H F : Type}

inductive Wait where
  | done
  | awaited (lastCount : Nat)
  deriving DecidableEq

inductive Call (O H F : Type) where
  | waitDone
  | waitAwaited (currentCount : Option Nat)
  -- `Resolver::Resolve` and `Resolver::Reject`; `throws` when building the stored value does.
  | resolve (o : O) (throws : Bool)
  | reject (o : O)
  | finalSuspend (delayedReturn : Option O)
  | awaitSuspend (h : H)
  -- `Then`, `Catch`, `Finally` or `Race`: `Await` unless the promise is done.
  | await (f : F)
  -- `Race` with a race promise that is already done.
  | raceSkip
  | unAwait (id : Nat)
  deriving DecidableEq

inductive Pc (H F : Type) where
  | lockShared
  | lastCount (currentCount : Option Nat)
  | test (w : Wait)
  | sleep (w : Wait)
  -- Inside `cv_.wait`: asleep as long as `cv_` holds the thread, then on its way to the lock.
  | asleep (w : Wait)
  | rejected
  | exchange
  | lock
  | store
  | onResolved (site : Site)
  | notify (site : Site)
  | swap (site : Site)
  | flush (site : Site) (todo : List (Awaiter H F))
  | scopeLock (won : Bool)
  | scopeClear (won : Bool)
  | scopeDestroy (won : Bool) (captured : List Nat)
  | scopeWait (won : Bool) (k : Nat) (captured : List Nat)
  | scopeNotify (won : Bool)
  | scopeDone (won : Bool)
  | acquire
  | isDone
  | count
  | notifyAwaited
  | emplace
  | erase
  | returned (result : Bool)
  | threw
  deriving DecidableEq

structure Thread (O H F : Type) where
  call : Call O H F
  pc : Pc H F
  deriving DecidableEq

structure State (O H F : Type) where
  mutex : SharedMutex
  cv : List Nat
  resolved : Bool
  rejected : Bool
  outcome : Option O
  handle : Bool
  function : List Nat
  running : Bool
  useCount : Nat
  awaiters : List (Awaiter H F)
  others : Nat → Captured
  threads : List (Thread O H F)
  registered : List (Awaiter H F)
  removed : List Nat
  invoked : List (Awaiter H F)

inductive Label (O H F : Type) where
  | call (c : Call O H F)
  | step (i : Nat)
  | wake (i : Nat)
  | other (k : Nat) (c : Captured)
  deriving DecidableEq

/-- A promise with a coroutine, or one made by `Create()`, whose stored callable captures the
    promises `captured`. -/
def initial (coroutine : Bool) (captured : List Nat) (others : Nat → Captured) :
    State O H F where
  mutex := .free
  cv := []
  resolved := false
  rejected := false
  outcome := none
  handle := coroutine
  function := captured
  running := coroutine
  useCount := 0
  awaiters := []
  others := others
  threads := []
  registered := []
  removed := []
  invoked := []

def Initial (s : State O H F) : Prop :=
  ∃ coroutine captured others, s = initial coroutine captured others

def holds : Wait → State O H F → Bool
  | .done, s => s.outcome.isSome && !s.handle
  | .awaited lastCount, s => decide (lastCount < s.useCount)

def Call.payload : Call O H F → Option O
  | .resolve o _ => some o
  | .reject o => some o
  | .finalSuspend delayedReturn => delayedReturn
  | _ => none

def Call.throws : Call O H F → Bool
  | .resolve _ throws => throws
  | _ => false

def Call.target : Call O H F → Option (Target H F)
  | .awaitSuspend h => some (.coroutine h)
  | .await f => some (.function f)
  | _ => none

def Call.entry : Call O H F → Pc H F
  | .waitDone | .waitAwaited _ => .lockShared
  | .resolve _ _ => .exchange
  | .reject _ => .rejected
  | .finalSuspend (some _) => .exchange
  | .finalSuspend none => .scopeLock false
  | .awaitSuspend _ | .await _ | .raceSkip | .unAwait _ => .acquire

def Call.waits : Call O H F → Pc H F
  | .waitAwaited currentCount => .lastCount currentCount
  | _ => .test .done

def Call.body : Call O H F → Pc H F
  | .raceSkip => .count
  | .unAwait _ => .erase
  | _ => .isDone

/-- Where `Resolver::Resolve` and `Resolver::Reject` return to. -/
def Call.leave (c : Call O H F) (won : Bool) : Pc H F :=
  match c with
  | .finalSuspend _ => .scopeLock won
  | _ => .returned won

def Call.after (c : Call O H F) : Site → Pc H F
  | .settle => c.leave true
  | .scopeExit won => .returned won

def State.unlock (s : State O H F) : State O H F := { s with mutex := s.mutex.unlock }

def State.unlockShared (s : State O H F) (i : Nat) : State O H F :=
  { s with mutex := s.mutex.unlockShared i }

def State.register (s : State O H F) : Option (Target H F) → State O H F
  | some t =>
      { s with
        awaiters := s.awaiters ++ [⟨t, s.useCount⟩]
        registered := s.registered ++ [⟨t, s.useCount⟩] }
  | none => s

/-- `UnAwait`: only a function awaiter has an id. -/
def State.unAwait (s : State O H F) (id : Nat) : State O H F × Bool :=
  if s.awaiters.any fun a => a.isFunction && a.id == id then
    ({ s with
      awaiters := s.awaiters.eraseP fun a => a.isFunction && a.id == id
      removed := id :: s.removed }, true)
  else (s, false)

def waitStep (s : State O H F) (i : Nat) (c : Call O H F) :
    Pc H F → Option (State O H F × Pc H F)
  | .lockShared => (s.mutex.lockShared i).map fun m => ({ s with mutex := m }, c.waits)
  | .lastCount currentCount => some (s, .test (.awaited (currentCount.getD s.useCount)))
  | .test w =>
      if holds w s then some (s.unlockShared i, .returned true) else some (s, .sleep w)
  | .sleep w => some ({ s with cv := i :: s.cv }.unlockShared i, .asleep w)
  | .asleep w =>
      if i ∈ s.cv then none
      else (s.mutex.lockShared i).map fun m => ({ s with mutex := m }, .test w)
  | _ => none

def settleStep (s : State O H F) (i : Nat) (c : Call O H F) (o : O) :
    Pc H F → Option (State O H F × Pc H F)
  | .rejected =>
      if s.rejected then some (s, .returned false)
      else some ({ s with rejected := true }, .exchange)
  | .exchange =>
      if s.resolved then some (s, c.leave false) else some ({ s with resolved := true }, .lock)
  | .lock => (s.mutex.lock i).map fun m => ({ s with mutex := m }, .store)
  | .store =>
      if c.throws then some (s.unlock, .threw)
      else some ({ s with outcome := some o }, .onResolved .settle)
  | _ => none

/-- `Handle::OnResolved`; the awaiters run unlocked. -/
def onResolvedStep (s : State O H F) (c : Call O H F) : Pc H F → Option (State O H F × Pc H F)
  | .onResolved site => if s.handle then some (s.unlock, c.after site) else some (s, .notify site)
  | .notify site => some ({ s with cv := [] }, .swap site)
  | .swap site => some ({ s with awaiters := [] }.unlock, .flush site s.awaiters)
  | .flush site (a :: rest) => some ({ s with invoked := s.invoked ++ [a] }, .flush site rest)
  | .flush site [] => some (s, c.after site)
  | _ => none

/-- The `ScopeExit` of `final_suspend`. Clearing `function_` runs `~WPromise` on the captured
    handles while `mutex_` is held. -/
def scopeExitStep (s : State O H F) (i : Nat) : Pc H F → Option (State O H F × Pc H F)
  | .scopeLock won => (s.mutex.lock i).map fun m => ({ s with mutex := m }, .scopeClear won)
  | .scopeClear won =>
      some ({ s with handle := false, function := [] }, .scopeDestroy won s.function)
  | .scopeDestroy won (k :: rest) =>
      if s.others k = .pending then some (s, .scopeWait won k rest)
      else some (s, .scopeDestroy won rest)
  | .scopeWait won k rest =>
      if s.others k = .finished then some (s, .scopeDestroy won rest) else none
  | .scopeDestroy won [] => some (s, .scopeNotify won)
  | .scopeNotify won => some ({ s with cv := [] }, .scopeDone won)
  | .scopeDone won =>
      if s.outcome.isSome then some (s, .onResolved (.scopeExit won))
      else some (s.unlock, .returned won)
  | _ => none

/-- The critical sections of `await_suspend`, `Await`, `Race` and `UnAwait`. -/
def lockedStep (s : State O H F) (i : Nat) (c : Call O H F) :
    Pc H F → Option (State O H F × Pc H F)
  | .acquire => (s.mutex.lock i).map fun m => ({ s with mutex := m }, c.body)
  | .isDone => if s.outcome.isSome then some (s.unlock, .returned false) else some (s, .count)
  | .count => some ({ s with useCount := s.useCount + 1 }, .notifyAwaited)
  | .notifyAwaited => some ({ s with cv := [] }, .emplace)
  | .emplace => some ((s.register c.target).unlock, .returned true)
  | .erase =>
      match c with
      | .unAwait id => some ((s.unAwait id).1.unlock, .returned (s.unAwait id).2)
      | _ => none
  | _ => none

def advance (s : State O H F) (i : Nat) (c : Call O H F) (pc : Pc H F) :
    Option (State O H F × Pc H F) :=
  match pc with
  | .lockShared | .lastCount _ | .test _ | .sleep _ | .asleep _ => waitStep s i c pc
  | .rejected | .exchange | .lock | .store =>
      match c.payload with
      | some o => settleStep s i c o pc
      | none => none
  | .onResolved _ | .notify _ | .swap _ | .flush _ _ => onResolvedStep s c pc
  | .scopeLock _ | .scopeClear _ | .scopeDestroy _ _ | .scopeWait _ _ _ | .scopeNotify _
  | .scopeDone _ => scopeExitStep s i pc
  | .acquire | .isDone | .count | .notifyAwaited | .emplace | .erase => lockedStep s i c pc
  | .returned _ | .threw => none

def State.goto (s : State O H F) (i : Nat) (c : Call O H F) (pc : Pc H F) : State O H F :=
  { s with threads := s.threads.set i ⟨c, pc⟩ }

def State.push (s : State O H F) (c : Call O H F) : State O H F :=
  { s with threads := s.threads ++ [⟨c, c.entry⟩] }

def start (s : State O H F) (c : Call O H F) : Option (State O H F) :=
  match c with
  | .finalSuspend _ => if s.running then some ({ s with running := false }.push c) else none
  | _ => some (s.push c)

def step (s : State O H F) : Label O H F → Option (State O H F)
  | .call c => start s c
  | .step i =>
      match s.threads[i]? with
      | some x => (advance s i x.call x.pc).map fun r => r.1.goto i x.call r.2
      | none => none
  | .wake i => if i ∈ s.cv then some { s with cv := s.cv.filter (· != i) } else none
  | .other k c =>
      if (s.others k).rank < c.rank then some { s with others := Function.update s.others k c }
      else none

abbrev Reached (s : State O H F) : Prop := Reachable step Initial s

/-- Where a thread is inside `mutex_`. -/
def Pc.mode : Pc H F → Mode
  | .lastCount _ | .test _ | .sleep _ => .shared
  | .store | .onResolved _ | .notify _ | .swap _ | .scopeClear _ | .scopeDestroy _ _
  | .scopeWait _ _ _ | .scopeNotify _ | .scopeDone _ | .isDone | .count | .notifyAwaited
  | .emplace | .erase => .exclusive
  | _ => .out

/-- A `notify_all` comes before the end of the critical section. -/
def Pc.owes (handle : Bool) : Pc H F → Bool
  | .onResolved _ => !handle
  | .notify _ | .scopeDestroy _ _ | .scopeWait _ _ _ | .scopeNotify _ | .notifyAwaited => true
  | _ => false

def mode (s : State O H F) (i : Nat) : Mode :=
  match s.threads[i]? with
  | some x => x.pc.mode
  | none => .out

inductive Move (s : State O H F) (i : Nat) (c : Call O H F) :
    Pc H F → State O H F → Pc H F → Prop where
  | waitLock {m : SharedMutex} (taken : s.mutex.lockShared i = some m) :
      Move s i c .lockShared { s with mutex := m } c.waits
  | lastCount (currentCount : Option Nat) :
      Move s i c (.lastCount currentCount) s (.test (.awaited (currentCount.getD s.useCount)))
  | waited (w : Wait) (met : holds w s = true) :
      Move s i c (.test w) (s.unlockShared i) (.returned true)
  | refused (w : Wait) (unmet : holds w s = false) : Move s i c (.test w) s (.sleep w)
  | sleep (w : Wait) :
      Move s i c (.sleep w) ({ s with cv := i :: s.cv }.unlockShared i) (.asleep w)
  | woken (w : Wait) {m : SharedMutex} (awake : i ∉ s.cv)
      (taken : s.mutex.lockShared i = some m) :
      Move s i c (.asleep w) { s with mutex := m } (.test w)
  | rejectLost (set : s.rejected = true) : Move s i c .rejected s (.returned false)
  | rejectFirst (clear : s.rejected = false) :
      Move s i c .rejected { s with rejected := true } .exchange
  | lost (set : s.resolved = true) : Move s i c .exchange s (c.leave false)
  | claim (clear : s.resolved = false) : Move s i c .exchange { s with resolved := true } .lock
  | settleLock {m : SharedMutex} (taken : s.mutex.lock i = some m) :
      Move s i c .lock { s with mutex := m } .store
  | throw (throws : c.throws = true) : Move s i c .store s.unlock .threw
  | store (o : O) (payload : c.payload = some o) (total : c.throws = false) :
      Move s i c .store { s with outcome := some o } (.onResolved .settle)
  | noFlush (site : Site) (live : s.handle = true) :
      Move s i c (.onResolved site) s.unlock (c.after site)
  | done (site : Site) (clear : s.handle = false) : Move s i c (.onResolved site) s (.notify site)
  | notify (site : Site) : Move s i c (.notify site) { s with cv := [] } (.swap site)
  | swap (site : Site) :
      Move s i c (.swap site) { s with awaiters := [] }.unlock (.flush site s.awaiters)
  | invoke (site : Site) (a : Awaiter H F) (rest : List (Awaiter H F)) :
      Move s i c (.flush site (a :: rest)) { s with invoked := s.invoked ++ [a] }
        (.flush site rest)
  | flushed (site : Site) : Move s i c (.flush site []) s (c.after site)
  | scopeLock (won : Bool) {m : SharedMutex} (taken : s.mutex.lock i = some m) :
      Move s i c (.scopeLock won) { s with mutex := m } (.scopeClear won)
  | scopeClear (won : Bool) :
      Move s i c (.scopeClear won) { s with handle := false, function := [] }
        (.scopeDestroy won s.function)
  | destroyWait (won : Bool) (k : Nat) (rest : List Nat) (pending : s.others k = .pending) :
      Move s i c (.scopeDestroy won (k :: rest)) s (.scopeWait won k rest)
  | destroySkip (won : Bool) (k : Nat) (rest : List Nat) (settled : s.others k ≠ .pending) :
      Move s i c (.scopeDestroy won (k :: rest)) s (.scopeDestroy won rest)
  | destroyResume (won : Bool) (k : Nat) (rest : List Nat) (finished : s.others k = .finished) :
      Move s i c (.scopeWait won k rest) s (.scopeDestroy won rest)
  | destroyed (won : Bool) : Move s i c (.scopeDestroy won []) s (.scopeNotify won)
  | scopeNotify (won : Bool) :
      Move s i c (.scopeNotify won) { s with cv := [] } (.scopeDone won)
  | scopeDone (won : Bool) (done : s.outcome.isSome = true) :
      Move s i c (.scopeDone won) s (.onResolved (.scopeExit won))
  | scopePending (won : Bool) (pending : s.outcome.isSome = false) :
      Move s i c (.scopeDone won) s.unlock (.returned won)
  | acquire {m : SharedMutex} (taken : s.mutex.lock i = some m) :
      Move s i c .acquire { s with mutex := m } c.body
  | inline (done : s.outcome.isSome = true) : Move s i c .isDone s.unlock (.returned false)
  | pending (pending : s.outcome.isSome = false) : Move s i c .isDone s .count
  | count : Move s i c .count { s with useCount := s.useCount + 1 } .notifyAwaited
  | notifyAwaited : Move s i c .notifyAwaited { s with cv := [] } .emplace
  | emplace : Move s i c .emplace (s.register c.target).unlock (.returned true)
  | erase (id : Nat) (call : c = .unAwait id) :
      Move s i c .erase (s.unAwait id).1.unlock (.returned (s.unAwait id).2)

theorem waitStep_move {s u : State O H F} {i : Nat} {c : Call O H F} {pc pc' : Pc H F}
    (h : waitStep s i c pc = some (u, pc')) : Move s i c pc u pc' := by
  unfold waitStep at h
  split at h
  · obtain ⟨m, taken, same⟩ := Option.map_eq_some_iff.mp h
    cases same
    exact .waitLock taken
  · cases h
    exact .lastCount _
  · split at h <;> cases h
    · exact .waited _ ‹_›
    · exact .refused _ (by simp_all)
  · cases h
    exact .sleep _
  · split at h
    · cases h
    · obtain ⟨m, taken, same⟩ := Option.map_eq_some_iff.mp h
      cases same
      exact .woken _ ‹_› taken
  · cases h

theorem settleStep_move {s u : State O H F} {i : Nat} {c : Call O H F} {o : O} {pc pc' : Pc H F}
    (payload : c.payload = some o) (h : settleStep s i c o pc = some (u, pc')) :
    Move s i c pc u pc' := by
  unfold settleStep at h
  split at h
  · split at h <;> cases h
    · exact .rejectLost ‹_›
    · exact .rejectFirst (by simp_all)
  · split at h <;> cases h
    · exact .lost ‹_›
    · exact .claim (by simp_all)
  · obtain ⟨m, taken, same⟩ := Option.map_eq_some_iff.mp h
    cases same
    exact .settleLock taken
  · split at h <;> cases h
    · exact .throw ‹_›
    · exact .store o payload (by simp_all)
  · cases h

theorem onResolvedStep_move {s u : State O H F} {i : Nat} {c : Call O H F} {pc pc' : Pc H F}
    (h : onResolvedStep s c pc = some (u, pc')) : Move s i c pc u pc' := by
  unfold onResolvedStep at h
  split at h
  · split at h <;> cases h
    · exact .noFlush _ ‹_›
    · exact .done _ (by simp_all)
  · cases h
    exact .notify _
  · cases h
    exact .swap _
  · cases h
    exact .invoke _ _ _
  · cases h
    exact .flushed _
  · cases h

theorem scopeExitStep_move {s u : State O H F} {i : Nat} {c : Call O H F} {pc pc' : Pc H F}
    (h : scopeExitStep s i pc = some (u, pc')) : Move s i c pc u pc' := by
  unfold scopeExitStep at h
  split at h
  · obtain ⟨m, taken, same⟩ := Option.map_eq_some_iff.mp h
    cases same
    exact .scopeLock _ taken
  · cases h
    exact .scopeClear _
  · split at h <;> cases h
    · exact .destroyWait _ _ _ ‹_›
    · exact .destroySkip _ _ _ ‹_›
  · split at h <;> cases h
    exact .destroyResume _ _ _ ‹_›
  · cases h
    exact .destroyed _
  · cases h
    exact .scopeNotify _
  · split at h <;> cases h
    · exact .scopeDone _ ‹_›
    · exact .scopePending _ (by simp_all)
  · cases h

theorem lockedStep_move {s u : State O H F} {i : Nat} {c : Call O H F} {pc pc' : Pc H F}
    (h : lockedStep s i c pc = some (u, pc')) : Move s i c pc u pc' := by
  unfold lockedStep at h
  split at h
  · obtain ⟨m, taken, same⟩ := Option.map_eq_some_iff.mp h
    cases same
    exact .acquire taken
  · split at h <;> cases h
    · exact .inline ‹_›
    · exact .pending (by simp_all)
  · cases h
    exact .count
  · cases h
    exact .notifyAwaited
  · cases h
    exact .emplace
  · split at h <;> cases h
    exact .erase _ rfl
  · cases h

theorem advance_move {s u : State O H F} {i : Nat} {c : Call O H F} {pc pc' : Pc H F}
    (h : advance s i c pc = some (u, pc')) : Move s i c pc u pc' := by
  unfold advance at h
  split at h
  case h_1 | h_2 | h_3 | h_4 | h_5 => exact waitStep_move h
  case h_6 | h_7 | h_8 | h_9 =>
    split at h
    · exact settleStep_move ‹_› h
    · cases h
  case h_10 | h_11 | h_12 | h_13 => exact onResolvedStep_move h
  case h_14 | h_15 | h_16 | h_17 | h_18 | h_19 => exact scopeExitStep_move h
  case h_20 | h_21 | h_22 | h_23 | h_24 | h_25 => exact lockedStep_move h
  all_goals cases h

inductive Change (s t : State O H F) : Label O H F → Prop where
  | call (c : Call O H F) (u : State O H F)
      (same : u = s ∨ u = { s with running := false }) (after : t = u.push c) :
      Change s t (.call c)
  | step (i : Nat) (c : Call O H F) (pc pc' : Pc H F) (u : State O H F)
      (here : s.threads[i]? = some ⟨c, pc⟩) (move : Move s i c pc u pc')
      (after : t = u.goto i c pc') : Change s t (.step i)
  | wake (i : Nat) (asleep : i ∈ s.cv) (after : t = { s with cv := s.cv.filter (· != i) }) :
      Change s t (.wake i)
  | other (k : Nat) (x : Captured) (after : t = { s with others := Function.update s.others k x }) :
      Change s t (.other k x)

theorem step_change {s t : State O H F} {l : Label O H F} (h : step s l = some t) :
    Change s t l := by
  cases l with
  | call c =>
    simp only [step] at h
    unfold start at h
    split at h
    · split at h <;> cases h
      exact .call _ _ (.inr rfl) rfl
    · cases h
      exact .call _ _ (.inl rfl) rfl
  | step i =>
    simp only [step] at h
    split at h
    · obtain ⟨⟨u, pc'⟩, taken, same⟩ := Option.map_eq_some_iff.mp h
      exact .step i _ _ pc' u ‹_› (advance_move taken) same.symm
    · cases h
  | wake i =>
    simp only [step] at h
    split at h <;> cases h
    exact .wake i ‹_› rfl
  | other k x =>
    simp only [step] at h
    split at h <;> cases h
    exact .other k x rfl

section Fields
variable (s : State O H F) (i : Nat) (c : Call O H F) (pc : Pc H F)

@[simp] theorem register_mutex (x : Option (Target H F)) : (s.register x).mutex = s.mutex := by
  cases x <;> rfl

@[simp] theorem register_cv (x : Option (Target H F)) : (s.register x).cv = s.cv := by
  cases x <;> rfl

@[simp] theorem register_outcome (x : Option (Target H F)) :
    (s.register x).outcome = s.outcome := by
  cases x <;> rfl

@[simp] theorem register_handle (x : Option (Target H F)) : (s.register x).handle = s.handle := by
  cases x <;> rfl

@[simp] theorem register_useCount (x : Option (Target H F)) :
    (s.register x).useCount = s.useCount := by
  cases x <;> rfl

@[simp] theorem register_threads (x : Option (Target H F)) :
    (s.register x).threads = s.threads := by
  cases x <;> rfl

@[simp] theorem unAwait_mutex (id : Nat) : (s.unAwait id).1.mutex = s.mutex := by
  unfold State.unAwait
  split <;> rfl

@[simp] theorem unAwait_cv (id : Nat) : (s.unAwait id).1.cv = s.cv := by
  unfold State.unAwait
  split <;> rfl

@[simp] theorem unAwait_outcome (id : Nat) : (s.unAwait id).1.outcome = s.outcome := by
  unfold State.unAwait
  split <;> rfl

@[simp] theorem unAwait_handle (id : Nat) : (s.unAwait id).1.handle = s.handle := by
  unfold State.unAwait
  split <;> rfl

@[simp] theorem unAwait_useCount (id : Nat) : (s.unAwait id).1.useCount = s.useCount := by
  unfold State.unAwait
  split <;> rfl

@[simp] theorem unAwait_threads (id : Nat) : (s.unAwait id).1.threads = s.threads := by
  unfold State.unAwait
  split <;> rfl

@[simp] theorem leave_mode (won : Bool) : (c.leave won).mode = .out := by
  cases c <;> rfl

@[simp] theorem after_mode (site : Site) : (c.after site).mode = .out := by
  cases site
  · exact leave_mode c true
  · rfl

@[simp] theorem waits_mode : c.waits.mode = .shared := by
  cases c <;> rfl

@[simp] theorem body_mode : c.body.mode = .exclusive := by
  cases c <;> rfl

@[simp] theorem entry_mode : c.entry.mode = .out := by
  cases c with
  | finalSuspend delayedReturn => cases delayedReturn <;> rfl
  | _ => rfl

theorem entry_awake (w : Wait) : .sleep w ≠ c.entry ∧ .asleep w ≠ c.entry := by
  cases c with
  | finalSuspend delayedReturn => cases delayedReturn <;> simp [Call.entry]
  | _ => simp [Call.entry]

theorem owes_exclusive {handle : Bool} (owes : pc.owes handle = true) : pc.mode = .exclusive := by
  cases pc <;> simp_all [Pc.owes, Pc.mode]

end Fields

section Moves
variable {s u : State O H F} {i : Nat} {c : Call O H F} {pc pc' : Pc H F}

theorem move_threads (move : Move s i c pc u pc') : u.threads = s.threads := by
  cases move <;> simp [State.unlock, State.unlockShared]

theorem move_passes (move : Move s i c pc u pc') :
    Passes i s.mutex pc.mode pc'.mode u.mutex := by
  cases move with
  | waitLock taken => rw [waits_mode]; exact .lockShared taken
  | woken w awake taken => exact .lockShared taken
  | waited | sleep => exact .unlockShared
  | settleLock taken | scopeLock _ taken => exact .lock taken
  | acquire taken => rw [body_mode]; exact .lock taken
  | throw | swap | scopePending | inline => exact .unlock
  | noFlush => rw [after_mode]; exact .unlock
  | emplace =>
    have same : (s.register c.target).unlock.mutex = s.mutex.unlock :=
      congrArg SharedMutex.unlock (register_mutex s _)
    rw [same]
    exact .unlock
  | erase id call =>
    have same : (s.unAwait id).1.unlock.mutex = s.mutex.unlock :=
      congrArg SharedMutex.unlock (unAwait_mutex s id)
    rw [same]
    exact .unlock
  | lost => rw [leave_mode]; exact .stay _
  | flushed => rw [after_mode]; exact .stay _
  | _ => exact .stay _

theorem move_cv (move : Move s i c pc u pc') : u.cv = s.cv ∨ u.cv = [] ∨
    ∃ w, pc = .sleep w ∧ pc' = .asleep w ∧ u.cv = i :: s.cv := by
  cases move with
  | sleep w => exact .inr (.inr ⟨w, rfl, rfl, rfl⟩)
  | notify | scopeNotify | notifyAwaited => exact .inr (.inl rfl)
  | emplace => exact .inl (register_cv s _)
  | erase id call => exact .inl (unAwait_cv s id)
  | _ => exact .inl rfl

theorem move_handle (move : Move s i c pc u pc') : u.handle = s.handle ∨ pc.mode = .exclusive := by
  cases move with
  | scopeClear => exact .inr rfl
  | emplace => exact .inl (register_handle s _)
  | erase id call => exact .inl (unAwait_handle s id)
  | _ => exact .inl rfl

/-- A statement that makes a predicate true is in a critical section that notifies later. -/
theorem move_raises (move : Move s i c pc u pc') {w : Wait} (idle : holds w s = false)
    (now : holds w u = true) : pc.mode = .exclusive ∧ pc'.owes u.handle = true := by
  have unchanged : holds w u = holds w s → False := fun same => by
    rw [same, idle] at now
    cases now
  cases move with
  | store o payload total =>
    cases w with
    | done =>
      simp only [holds, Option.isSome_some, Bool.true_and] at now
      exact ⟨rfl, now⟩
    | awaited lastCount => exact (unchanged rfl).elim
  | scopeClear => exact ⟨rfl, rfl⟩
  | count => exact ⟨rfl, rfl⟩
  | emplace =>
    refine (unchanged ?_).elim
    cases w <;> simp [holds, State.unlock]
  | erase id call =>
    refine (unchanged ?_).elim
    cases w <;> simp [holds, State.unlock]
  | _ => exact (unchanged (by cases w <;> rfl)).elim

theorem move_pays (move : Move s i c pc u pc') (owed : pc.owes s.handle = true) :
    u.cv = [] ∨ pc'.owes u.handle = true := by
  cases move with
  | noFlush site live =>
    rw [live] at owed
    cases owed
  | done | destroyWait | destroySkip | destroyResume | destroyed => exact .inr rfl
  | notify | scopeNotify | notifyAwaited => exact .inl rfl
  | _ => cases owed

theorem move_refused {w : Wait} (move : Move s i c pc u (.sleep w)) : holds w u = false := by
  generalize target : (.sleep w : Pc H F) = pc' at move
  cases move with
  | refused w' unmet =>
    cases target
    exact unmet
  | waitLock => cases c <;> cases target
  | lost => cases c <;> cases target
  | noFlush site | flushed site => cases site <;> cases c <;> cases target
  | acquire => cases c <;> cases target
  | _ => cases target

theorem move_asleep {w : Wait} (move : Move s i c pc u (.asleep w)) : pc = .sleep w := by
  generalize target : (.asleep w : Pc H F) = pc' at move
  cases move with
  | sleep w' =>
    cases target
    rfl
  | waitLock => cases c <;> cases target
  | lost => cases c <;> cases target
  | noFlush site | flushed site => cases site <;> cases c <;> cases target
  | acquire => cases c <;> cases target
  | _ => cases target

end Moves

/-- What a thread that sleeps in `cv_.wait` waits for. -/
def asleep (s : State O H F) (i : Nat) : Option Wait :=
  match s.threads[i]? with
  | some ⟨_, .asleep w⟩ => if i ∈ s.cv then some w else none
  | _ => none

def Owes (s : State O H F) (j : Nat) : Prop :=
  ∃ (c : Call O H F) (pc : Pc H F), s.threads[j]? = some ⟨c, pc⟩ ∧ pc.owes s.handle = true

def Owed (s : State O H F) : Prop := ∃ j, Owes s j

structure Inv (s : State O H F) : Prop where
  held : Held s.mutex (mode s)
  refused : ∀ (i : Nat) (c : Call O H F) (w : Wait),
    s.threads[i]? = some ⟨c, .sleep w⟩ → holds w s = false
  guarded : Guarded asleep holds Owed s

theorem mode_at {s : State O H F} {i : Nat} {c : Call O H F} {pc : Pc H F}
    (here : s.threads[i]? = some ⟨c, pc⟩) : mode s i = pc.mode := by
  unfold mode
  rw [here]

theorem asleep_some {s : State O H F} {i : Nat} {w : Wait} :
    asleep s i = some w ↔
      i ∈ s.cv ∧ ∃ c : Call O H F, s.threads[i]? = some ⟨c, .asleep w⟩ := by
  unfold asleep
  split
  · rename_i c w' here
    by_cases sleeps : i ∈ s.cv <;> simp [here, sleeps]
  · rename_i other
    constructor
    · intro none_
      cases none_
    · rintro ⟨sleeps, c, here⟩
      exact absurd here (other c w)

theorem holds_goto (w : Wait) (s : State O H F) (i : Nat) (c : Call O H F) (pc : Pc H F) :
    holds w (s.goto i c pc) = holds w s := by
  cases w <;> rfl

theorem inv_initial {s : State O H F} (init : Initial s) : Inv s := by
  obtain ⟨coroutine, captured, others, rfl⟩ := init
  constructor
  · exact held_free
  · intro i c w here
    cases here
  · intro i w sleeps
    cases sleeps

/-- A step of thread `i`, and a thread that it leaves where it is. -/
theorem goto_lookup {s u : State O H F} {i j : Nat} {c d : Call O H F} {pc pc' pc'' : Pc H F}
    (threads : u.threads = s.threads) (here : s.threads[i]? = some ⟨c, pc⟩)
    (there : (u.goto i c pc').threads[j]? = some ⟨d, pc''⟩) :
    (j = i ∧ d = c ∧ pc'' = pc') ∨ (j ≠ i ∧ s.threads[j]? = some ⟨d, pc''⟩) := by
  unfold State.goto at there
  rw [threads] at there
  rcases set_lookup here there with ⟨mine, same⟩ | other
  · cases same
    exact .inl ⟨mine, rfl, rfl⟩
  · exact .inr other

theorem goto_here {s u : State O H F} {i : Nat} {c : Call O H F} {pc pc' : Pc H F}
    (threads : u.threads = s.threads) (here : s.threads[i]? = some ⟨c, pc⟩) :
    (u.goto i c pc').threads[i]? = some ⟨c, pc'⟩ := by
  unfold State.goto
  rw [threads]
  exact lookup_set here

theorem goto_other {s u : State O H F} {i j : Nat} {c : Call O H F} {pc' : Pc H F}
    (threads : u.threads = s.threads) (other : j ≠ i) :
    (u.goto i c pc').threads[j]? = s.threads[j]? := by
  unfold State.goto
  rw [threads]
  exact List.getElem?_set_ne (Ne.symm other)

theorem owes_move {s u : State O H F} {i j : Nat} {c : Call O H F} {pc pc' : Pc H F}
    (held : Held s.mutex (mode s)) (here : s.threads[i]? = some ⟨c, pc⟩)
    (move : Move s i c pc u pc') (owed : Owes s j) : Owes (u.goto i c pc') j ∨ u.cv = [] := by
  have threads := move_threads move
  obtain ⟨d, q, there, owes⟩ := owed
  by_cases mine : j = i
  · subst mine
    rw [here] at there
    cases there
    rcases move_pays move owes with woken | still
    · exact .inr woken
    · exact .inl ⟨c, pc', goto_here threads here, still⟩
  · have kept : u.handle = s.handle := by
      rcases move_handle move with same | writes
      · exact same
      · have inside : mode s j ≠ .out := by
          rw [mode_at there, owes_exclusive q owes]
          decide
        exact absurd (held_alone held ((mode_at here).trans writes) inside) mine
    exact .inl ⟨d, q, (goto_other threads mine).trans there, kept.symm ▸ owes⟩

theorem inv_move {s u : State O H F} {i : Nat} {c : Call O H F} {pc pc' : Pc H F} (inv : Inv s)
    (here : s.threads[i]? = some ⟨c, pc⟩) (move : Move s i c pc u pc') :
    Inv (u.goto i c pc') := by
  have threads := move_threads move
  have alone : ∀ {j : Nat} {d : Call O H F} {pc'' : Pc H F}, pc.mode = .exclusive →
      s.threads[j]? = some ⟨d, pc''⟩ → pc''.mode ≠ .out → j = i := by
    intro j d pc'' writes there inside
    exact held_alone inv.held (mode_at here ▸ writes) (mode_at there ▸ inside)
  constructor
  · apply held_passes (i := i) inv.held
    · rw [mode_at here, mode_at (goto_here threads here)]
      exact (move_passes move : Passes i s.mutex pc.mode pc'.mode u.mutex)
    · intro j other
      unfold mode
      rw [goto_other threads other]
  · intro j d w there
    rw [holds_goto]
    rcases goto_lookup threads here there with ⟨-, -, rfl⟩ | ⟨other, before⟩
    · exact move_refused move
    · by_contra now
      have raised := move_raises move (inv.refused j d w before) (eq_true_of_ne_false now)
      exact other (alone raised.1 before Mode.noConfusion)
  · apply guarded_step inv.guarded
    · intro j w sleeps
      obtain ⟨inCv, d, there⟩ := asleep_some.mp sleeps
      rcases goto_lookup threads here there with ⟨rfl, rfl, rfl⟩ | ⟨other, before⟩
      · obtain rfl := move_asleep move
        cases move
        have unmet := inv.refused j d w here
        cases w <;> exact .inr unmet
      · refine .inl (asleep_some.mpr ⟨?_, d, before⟩)
        rcases move_cv move with same | none_ | ⟨-, -, -, added⟩
        · exact same ▸ inCv
        · exact absurd (none_ ▸ inCv : j ∈ []) List.not_mem_nil
        · exact (List.mem_cons.mp (added ▸ inCv : j ∈ i :: s.cv)).resolve_left other
    · intro w idle now
      rw [holds_goto] at now
      have raised := move_raises move idle now
      exact ⟨i, c, pc', goto_here threads here, raised.2⟩
    · rintro ⟨j, owes⟩
      rcases owes_move inv.held here move owes with still | woken
      · exact .inl ⟨j, still⟩
      · right
        intro k
        cases sleeps : asleep (u.goto i c pc') k with
        | none => rfl
        | some w => exact absurd (woken ▸ (asleep_some.mp sleeps).1 : k ∈ []) List.not_mem_nil

theorem push_lookup {s : State O H F} {c d : Call O H F} {j : Nat} {pc : Pc H F}
    (there : (s.push c).threads[j]? = some ⟨d, pc⟩) :
    (j = s.threads.length ∧ d = c ∧ pc = c.entry) ∨ s.threads[j]? = some ⟨d, pc⟩ := by
  rcases append_lookup there with ⟨last, same⟩ | old
  · cases same
    exact .inl ⟨last, rfl, rfl⟩
  · exact .inr old

theorem inv_push {s : State O H F} (inv : Inv s) (c : Call O H F) : Inv (s.push c) := by
  have old : ∀ {j : Nat} {d : Call O H F} {pc : Pc H F}, pc ≠ c.entry →
      (s.push c).threads[j]? = some ⟨d, pc⟩ → s.threads[j]? = some ⟨d, pc⟩ := by
    intro j d pc differs there
    exact (push_lookup there).resolve_left fun new => differs new.2.2
  constructor
  · have last : mode s s.threads.length = .out := by
      unfold mode
      rw [List.getElem?_eq_none (Nat.le_refl _)]
    have new : mode (s.push c) s.threads.length = .out := by
      unfold mode State.push
      rw [List.getElem?_concat_length]
      exact entry_mode c
    apply held_passes (i := s.threads.length) inv.held
    · rw [last, new]
      exact .stay .out
    · intro j other
      by_cases inside : j < s.threads.length
      · unfold mode State.push
        rw [List.getElem?_append_left inside]
      · have after : s.threads.length < j := by omega
        unfold mode State.push
        rw [List.getElem?_eq_none (by simp; omega), List.getElem?_eq_none (by omega)]
  · intro j d w there
    have unmet := inv.refused j d w (old (entry_awake c w).1 there)
    cases w <;> exact unmet
  · apply guarded_step inv.guarded
    · intro j w sleeps
      obtain ⟨inCv, d, there⟩ := asleep_some.mp sleeps
      exact .inl (asleep_some.mpr ⟨inCv, d, old (entry_awake c w).2 there⟩)
    · intro w idle now
      have same : holds w (s.push c) = holds w s := by cases w <;> rfl
      rw [same, idle] at now
      cases now
    · rintro ⟨j, d, pc, there, owes⟩
      exact .inl ⟨j, d, pc, lookup_append there _, owes⟩

theorem inv_step {s t : State O H F} {l : Label O H F} (inv : Inv s) (h : step s l = some t) :
    Inv t := by
  cases step_change h with
  | call c u same after =>
    subst after
    apply inv_push
    rcases same with rfl | rfl
    · exact inv
    · constructor
      · exact inv.held
      · intro j d w there
        have unmet := inv.refused j d w there
        cases w <;> exact unmet
      · intro j w sleeps
        have guarded := inv.guarded j w sleeps
        cases w <;> exact guarded
  | step i c pc pc' u here move after =>
    subst after
    exact inv_move inv here move
  | wake i sleeps after =>
    subst after
    constructor
    · exact inv.held
    · intro j d w there
      have unmet := inv.refused j d w there
      cases w <;> exact unmet
    · intro j w sleeps
      obtain ⟨inCv, d, there⟩ := asleep_some.mp sleeps
      have guarded := inv.guarded j w (asleep_some.mpr ⟨(List.mem_filter.mp inCv).1, d, there⟩)
      cases w <;> exact guarded
  | other k x after =>
    subst after
    constructor
    · exact inv.held
    · intro j d w there
      have unmet := inv.refused j d w there
      cases w <;> exact unmet
    · intro j w sleeps
      have guarded := inv.guarded j w sleeps
      cases w <;> exact guarded

theorem reached_inv {s : State O H F} (reached : Reached s) : Inv s :=
  reachable_invariant (fun _ => inv_initial) (fun _ _ _ => inv_step) reached

def Pc.blocked (others : Nat → Captured) : Pc H F → Bool
  | .scopeDestroy _ captured => captured.any fun k => others k == .pending
  | .scopeWait _ k captured =>
      others k != .finished || captured.any fun k => others k == .pending
  | _ => false

def blocked (s : State O H F) (j : Nat) : Bool :=
  match s.threads[j]? with
  | some x => x.pc.blocked s.others
  | none => false

/-- What brings thread `j` on: its own steps, and the end of a captured promise it waits for. -/
def Brings (waits : Bool) (j : Nat) : Label O H F → Prop
  | .step k => k = j
  | .other _ x => waits = true ∧ x = .finished
  | _ => False

/-- Thread `j`, without leaving the critical section that it is in, comes to a `notify_all`
    that wakes thread `i`. -/
def Comes (waits : Bool) (s : State O H F) (j i : Nat) : Prop :=
  ∃ (ls : List (Label O H F)) (t u : State O H F), (∀ l ∈ ls, Brings waits j l) ∧
    run step s ls = some t ∧ Always step (fun r => r.mutex.writer = some j) s ls ∧
    i ∈ t.cv ∧ step t (.step j) = some u ∧ i ∉ u.cv

/-- Thread `j` has a `notify_all` that wakes thread `i` still to execute: it is in a critical
    section that it cannot leave while `i` sleeps, and it comes to the `notify_all` by its own
    steps, once the captured promises that the section destroys let it. -/
structure WillWake (s : State O H F) (j i : Nat) : Prop where
  stays : ∀ (ls : List (Label O H F)) (t : State O H F), run step s ls = some t →
    Always step (fun r => i ∈ r.cv) s ls → t.mutex.writer = some j
  comes : Comes (blocked s j) s j i

theorem step_at {s : State O H F} {i : Nat} {c : Call O H F} {pc : Pc H F}
    (here : s.threads[i]? = some ⟨c, pc⟩) :
    step s (.step i) = (advance s i c pc).map fun r => r.1.goto i c r.2 := by
  simp only [step, here]

section Debts
variable {s t u : State O H F} {i j : Nat} {c : Call O H F} {pc pc' : Pc H F} {waits : Bool}

theorem owes_writer (inv : Inv s) (owes : Owes s j) : s.mutex.writer = some j := by
  obtain ⟨c, pc, there, owed⟩ := owes
  exact inv.held.writer j ((mode_at there).trans (owes_exclusive pc owed))

theorem owes_step {l : Label O H F} (inv : Inv s) (taken : step s l = some t)
    (owes : Owes s j) : Owes t j ∨ t.cv = [] := by
  cases step_change taken with
  | call c u same after =>
    obtain ⟨d, q, there, owed⟩ := owes
    subst after
    left
    rcases same with rfl | rfl
    · exact ⟨d, q, lookup_append there _, owed⟩
    · exact ⟨d, q, lookup_append there _, owed⟩
  | step k c pc pc' u here move after =>
    subst after
    exact owes_move inv.held here move owes
  | wake k sleeps after =>
    subst after
    exact .inl owes
  | other k x after =>
    subst after
    exact .inl owes

theorem owes_run {ls : List (Label O H F)} (inv : Inv s) (owes : Owes s j)
    (taken : run step s ls = some t) (sleeps : Always step (fun r => i ∈ r.cv) s ls) :
    Inv t ∧ Owes t j := by
  induction ls generalizing s with
  | nil =>
    simp only [run, Option.some.injEq] at taken
    exact taken ▸ ⟨inv, owes⟩
  | cons l ls ih =>
    obtain ⟨u, first, rest⟩ := Option.bind_eq_some_iff.mp taken
    have later := sleeps.2 u first
    rcases owes_step inv first owes with still | woken
    · exact ih (inv_step inv first) still rest later
    · have asleep : i ∈ u.cv := always_head (P := fun r : State O H F => i ∈ r.cv) later
      exact absurd (woken ▸ asleep : i ∈ []) List.not_mem_nil

/-- The next statement is the `notify_all`. -/
theorem comes_now (here : s.threads[j]? = some ⟨c, pc⟩) (inside : s.mutex.writer = some j)
    (sleeps : i ∈ s.cv) (taken : advance s j c pc = some (u, pc')) (woken : u.cv = []) :
    Comes waits s j i := by
  refine ⟨[], s, u.goto j c pc', ?_, rfl, inside, sleeps, ?_, ?_⟩
  · intro l none_
    cases none_
  · rw [step_at here, taken]
    rfl
  · exact fun still => List.not_mem_nil (woken ▸ still : i ∈ [])

theorem comes_later {l : Label O H F} (inside : s.mutex.writer = some j)
    (brings : Brings waits j l) (taken : step s l = some t) (rest : Comes waits t j i) :
    Comes waits s j i := by
  obtain ⟨ls, v, w, mine, steps, always, sleeps, last, woken⟩ := rest
  refine ⟨l :: ls, v, w, ?_, run_cons taken steps, ⟨inside, ?_⟩, sleeps, last, woken⟩
  · intro k member
    rcases List.mem_cons.mp member with rfl | later
    · exact brings
    · exact mine k later
  · intro r there
    rw [taken, Option.some.injEq] at there
    exact there ▸ always

theorem comes_step (here : s.threads[j]? = some ⟨c, pc⟩) (inside : s.mutex.writer = some j)
    (taken : advance s j c pc = some (u, pc')) (rest : Comes waits (u.goto j c pc') j i) :
    Comes waits s j i := by
  apply comes_later (l := .step j) inside rfl _ rest
  rw [step_at here, taken]
  rfl

/-- A captured promise is past the wait of its destructor, or comes to its end. -/
theorem comes_finished {won : Bool} {k : Nat} {captured : List Nat}
    (here : s.threads[j]? = some ⟨c, .scopeWait won k captured⟩)
    (inside : s.mutex.writer = some j) (may : s.others k ≠ .finished → waits = true)
    (rest : ∀ t : State O H F, t.threads[j]? = some ⟨c, .scopeDestroy won captured⟩ →
      t.mutex = s.mutex → t.cv = s.cv →
      (∀ k, s.others k ≠ .pending → t.others k ≠ .pending) → Comes waits t j i) :
    Comes waits s j i := by
  by_cases finished : s.others k = .finished
  · have taken : advance s j c (.scopeWait won k captured) =
        some (s, .scopeDestroy won captured) := if_pos finished
    exact comes_step here inside taken
      (rest _ (goto_here rfl here) rfl rfl fun _ settled => settled)
  · have ends : step s (.other k .finished) =
        some { s with others := Function.update s.others k .finished } := by
      apply if_pos
      cases others : s.others k <;> first | exact absurd others finished | decide
    have brings : Brings waits j (.other k .finished : Label O H F) := ⟨may finished, rfl⟩
    refine comes_later inside brings ends ?_
    have taken : advance { s with others := Function.update s.others k .finished } j c
        (.scopeWait won k captured) =
          some ({ s with others := Function.update s.others k .finished },
            .scopeDestroy won captured) := if_pos (Function.update_self k _ s.others)
    refine comes_step here inside taken (rest _ (goto_here rfl here) rfl rfl ?_)
    intro m settled
    show Function.update s.others k .finished m ≠ .pending
    by_cases same : m = k
    · subst same
      rw [Function.update_self]
      exact Captured.noConfusion
    · rw [Function.update_of_ne same]
      exact settled

theorem comes_destroyed {won : Bool} {captured : List Nat}
    (here : s.threads[j]? = some ⟨c, .scopeDestroy won captured⟩)
    (inside : s.mutex.writer = some j) (sleeps : i ∈ s.cv)
    (free : waits = false → ∀ k ∈ captured, s.others k ≠ .pending) : Comes waits s j i := by
  induction captured generalizing s with
  | nil =>
    apply comes_step here inside rfl
    exact comes_now (goto_here rfl here) inside sleeps rfl rfl
  | cons k rest ih =>
    have tail : waits = false → ∀ m ∈ rest, s.others m ≠ .pending :=
      fun none_ m member => free none_ m (List.mem_cons_of_mem k member)
    by_cases pending : s.others k = .pending
    · have taken : advance s j c (.scopeDestroy won (k :: rest)) =
          some (s, .scopeWait won k rest) := if_pos pending
      have may : waits = true := by
        cases waits with
        | true => rfl
        | false => exact absurd pending (free rfl k List.mem_cons_self)
      apply comes_step here inside taken
      apply comes_finished (goto_here rfl here) inside fun _ => may
      intro t there mutex cv settled
      apply ih there (mutex ▸ inside) (cv ▸ sleeps)
      intro none_
      exact Bool.noConfusion (none_.symm.trans may)
    · have taken : advance s j c (.scopeDestroy won (k :: rest)) =
          some (s, .scopeDestroy won rest) := if_neg pending
      exact comes_step here inside taken (ih (goto_here rfl here) inside sleeps tail)

theorem unblocked_settled {others : Nat → Captured} {captured : List Nat}
    (unblocked : (captured.any fun k => others k == .pending) = false) :
    ∀ k ∈ captured, others k ≠ .pending := by
  intro k member pending
  have other := List.any_eq_false.mp unblocked k member
  rw [pending] at other
  exact other rfl

theorem owes_comes (here : s.threads[j]? = some ⟨c, pc⟩) (inside : s.mutex.writer = some j)
    (sleeps : i ∈ s.cv) (owes : pc.owes s.handle = true) :
    Comes (pc.blocked s.others) s j i := by
  cases pc with
  | notify site => exact comes_now here inside sleeps rfl rfl
  | scopeNotify won => exact comes_now here inside sleeps rfl rfl
  | notifyAwaited => exact comes_now here inside sleeps rfl rfl
  | scopeDestroy won captured => exact comes_destroyed here inside sleeps unblocked_settled
  | scopeWait won k captured =>
    apply comes_finished here inside
    · intro waiting
      exact Bool.or_eq_true_iff.mpr (.inl (bne_iff_ne.mpr waiting))
    · intro t there mutex cv settled
      apply comes_destroyed there (mutex ▸ inside) (cv ▸ sleeps)
      intro unblocked m member
      exact settled m (unblocked_settled (Bool.or_eq_false_iff.mp unblocked).2 m member)
  | onResolved site =>
    have clear : s.handle = false := (Bool.not_eq_true' _).mp owes
    have taken : advance s j c (.onResolved site) = some (s, .notify site) := by
      unfold advance onResolvedStep
      rw [clear]
      rfl
    apply comes_step here inside taken
    exact comes_now (goto_here rfl here) inside sleeps rfl rfl
  | _ => cases owes

theorem owes_wakes (inv : Inv s) (sleeps : i ∈ s.cv) (owes : Owes s j) : WillWake s j i := by
  have inside := owes_writer inv owes
  constructor
  · intro ls t taken asleep
    have still := owes_run inv owes taken asleep
    exact owes_writer still.1 still.2
  · obtain ⟨c, pc, there, owed⟩ := owes
    have same : blocked s j = pc.blocked s.others := by
      unfold blocked
      rw [there]
    rw [same]
    exact owes_comes there inside sleeps owed

end Debts

/-- In every interleaving, a thread asleep in `cv_.wait` has a false predicate, or a thread
    inside its critical section has a `notify_all` that wakes it still to execute. -/
theorem no_lost_wakeup {s : State O H F} (reached : Reached s) {i : Nat} {c : Call O H F}
    {w : Wait} (here : s.threads[i]? = some ⟨c, .asleep w⟩) (sleeps : i ∈ s.cv) :
    holds w s = false ∨ ∃ j, WillWake s j i := by
  have inv := reached_inv reached
  rcases inv.guarded i w (asleep_some.mpr ⟨sleeps, c, here⟩) with idle | ⟨j, owes⟩
  · exact .inl idle
  · exact .inr ⟨j, owes_wakes inv sleeps owes⟩

theorem no_lost_wakeup_captured : ∃ s : State Unit Unit Unit,
    run step (initial true [0] fun _ => .pending) [.call .waitDone, .step 0, .step 0, .step 0,
      .call (.finalSuspend (some ())), .step 1, .step 1, .step 1, .step 1, .step 1, .step 1,
      .step 1] = some s ∧
    holds .done s = true ∧ blocked s 1 = true ∧ ∃ j, WillWake s j 0 := by
  have facts : (run step (initial true [0] fun _ => .pending : State Unit Unit Unit)
      [.call .waitDone, .step 0, .step 0, .step 0, .call (.finalSuspend (some ())), .step 1,
        .step 1, .step 1, .step 1, .step 1, .step 1, .step 1]).map
      (fun s => (holds .done s, blocked s 1, s.threads[0]?, s.cv)) =
      some (true, true, some ⟨.waitDone, .asleep .done⟩, [0]) := by decide
  obtain ⟨s, taken, same⟩ := Option.map_eq_some_iff.mp facts
  simp only [Prod.mk.injEq] at same
  obtain ⟨met, waits, here, sleeps⟩ := same
  refine ⟨s, taken, met, waits, ?_⟩
  have reached : Reached s := run_reachable (.start ⟨true, [0], fun _ => .pending, rfl⟩) taken
  apply (no_lost_wakeup reached here (sleeps ▸ List.mem_cons_self)).resolve_left
  rw [met]
  decide

end WaitSets
