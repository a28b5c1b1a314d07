import JSProCpp.Transitions

/-
Which thread holds `mutex_`, at every lock and unlock of every public operation. A thread is
a list of instructions; an operation, an awaiter and a user continuation are lists too, and a
continuation may use the promise it is attached to. So may the constructors and destructors of
the user's objects that the library runs under the lock: those of the stored value, of a
continuation that is registered, of an awaiter that is withdrawn, and of what the stored
callable has captured.
-/
namespace LockDiscipline
open Transitions

inductive Mode where
  | shared
  | exclusive
  deriving DecidableEq

/-- The public operations on one promise. `body` is what the continuation does with the
    promise, `after` what the code attached to the returned promise does with it, and `copying`,
    `building` and `destroying` what the constructors and destructors run under the lock do. -/
inductive Op where
  -- `coroutine`: the continuation returns a promise.
  | then_ (coroutine : Bool) (body after copying : List Op)
  -- `matching`: the handler takes the stored exception.
  | catch_ (matching : Bool) (body after copying : List Op)
  | finally_ (body after copying : List Op)
  -- `raceDone`: the race promise is done when the operation starts.
  | race (raceDone : Bool) (after : List Op)
  | coAwait (rest : List Op)
  -- The cleanup that `Race` attaches to the race promise.
  | unAwait (n : Nat) (destroying : List Op)
  | detach
  | destroy
  | awaiters
  | inspect
  | waitDone
  | settle (exception : Bool) (building : List Op)
  | complete (exception : Option Bool) (building : List Op)

inductive Instr where
  | acquire (m : Mode)
  | release
  | run (body : List Op)
  -- A constructor or destructor of the user's, where it stands.
  | hook (ops : List Op)
  | thenLocked (coroutine : Bool) (body after copying : List Op)
  | thenRegister (body after : List Op)
  | thenDone (coroutine : Bool) (body : List Op)
  | thenAwaiter (body after : List Op)
  | catchLocked (matching : Bool) (body after copying : List Op)
  | catchRegister (matching : Bool) (body after : List Op)
  | catchHandle (matching : Bool) (body after : List Op)
  | finallyLocked (body after copying : List Op)
  | finallyRegister (body after : List Op)
  | finallyDone (body : List Op)
  | finallyAwaiter (body after : List Op)
  | raceLocked (after : List Op)
  | raceHandle (after : List Op)
  | awaitReady (rest : List Op)
  | awaitSuspend (rest : List Op)
  | erase (n : Nat) (destroying : List Op)
  | callAwaiters
  | isDone
  | waitCheck
  | exchange (exception : Bool) (building : List Op)
  | store (exception : Bool)
  | onResolved
  | finalSuspend (exception : Option Bool) (building : List Op)
  | scopeExit
  | clear
  | finish

def Op.program : Op → List Instr
  | .then_ coroutine body after copying =>
      [.acquire .exclusive, .thenLocked coroutine body after copying]
  | .catch_ matching body after copying =>
      [.acquire .exclusive, .catchLocked matching body after copying]
  | .finally_ body after copying => [.acquire .exclusive, .finallyLocked body after copying]
  | .race raceDone after =>
      .acquire .exclusive :: if raceDone then [.release] else [.raceLocked after]
  | .coAwait rest => [.acquire .shared, .awaitReady rest]
  | .unAwait n destroying => [.acquire .exclusive, .erase n destroying]
  | .detach => [.acquire .exclusive, .release]
  | .destroy => [.acquire .shared, .isDone]
  | .awaiters => [.acquire .shared, .callAwaiters]
  | .inspect => [.acquire .shared, .release]
  | .waitDone => [.acquire .shared, .waitCheck]
  | .settle exception building => [.exchange exception building]
  | .complete exception building => [.finalSuspend exception building]

structure Thread where
  held : List Mode
  prog : List Instr

structure State where
  void : Bool
  outcome : Option Bool
  resolved : Bool
  handle : Bool
  running : Bool
  -- What the destructors of the objects that the stored callable has captured do.
  captured : List Op
  awaiters : List (List Instr)
  threads : List Thread

def Initial (s : State) : Prop :=
  s.outcome = none ∧ s.resolved = false ∧ s.handle = s.running ∧ s.awaiters = [] ∧ s.threads = []

def State.done (s : State) : Bool := s.outcome.isSome

def State.await (s : State) (awaiter : List Instr) : State :=
  { s with awaiters := s.awaiters ++ [awaiter] }

def exec (s : State) : Instr → State × List Instr
  | .acquire _ | .release => (s, [])
  | .run body => (s, body.flatMap Op.program)
  | .hook [] => (s, [])
  | .hook (op :: ops) => (s, op.program ++ [.hook ops])
  | .thenLocked coroutine body after copying =>
      if s.done then (s, [.release, .acquire .shared, .thenDone coroutine body])
      else (s, [.hook copying, .thenRegister body after])
  | .thenRegister body after =>
      (s.await [.acquire .shared, .thenAwaiter body after], [.release])
  | .thenDone coroutine body =>
      if s.outcome = some true then (s, [.release])
      -- the void source has no `value` to read, and this branch no `lock.unlock()`
      else if s.void && coroutine then (s, [.run body, .release])
      else (s, [.release, .run body])
  | .thenAwaiter body after =>
      if s.outcome = some true then (s, [.release, .run after])
      else (s, [.release, .run body, .run after])
  | .catchLocked matching body after copying =>
      if s.done then (s, [.release, .acquire .shared, .catchHandle matching body []])
      else (s, [.hook copying, .catchRegister matching body after])
  | .catchRegister matching body after =>
      (s.await [.acquire .shared, .catchHandle matching body after], [.release])
  | .catchHandle matching body after =>
      if s.outcome = some true ∧ matching then (s, [.release, .run body, .run after])
      else (s, [.release, .run after])
  | .finallyLocked body after copying =>
      if s.done then (s, [.release, .acquire .shared, .finallyDone body])
      else (s, [.hook copying, .finallyRegister body after])
  | .finallyRegister body after =>
      (s.await [.acquire .shared, .finallyAwaiter body after], [.release])
  | .finallyDone body =>
      if s.outcome = some true then (s, [.release, .run body])
      -- again no `lock.unlock()` for a void source
      else if s.void then (s, [.run body, .release])
      else (s, [.release, .run body])
  | .finallyAwaiter body after => (s, [.release, .run body, .run after])
  | .raceLocked after =>
      if s.done then (s, [.release, .acquire .shared, .raceHandle after])
      else (s.await [.acquire .shared, .raceHandle after], [.release])
  | .raceHandle after => (s, [.release, .run after])
  | .awaitReady rest =>
      if s.done then (s, [.release, .acquire .shared, .release, .run rest])
      else (s, [.release, .acquire .exclusive, .awaitSuspend rest])
  | .awaitSuspend rest =>
      if s.done then (s, [.release, .acquire .shared, .release, .run rest])
      else (s.await [.acquire .shared, .release, .run rest], [.release])
  | .erase n destroying =>
      ({ s with awaiters := s.awaiters.eraseIdx n }, [.hook destroying, .release])
  | .callAwaiters => (s, [.acquire .shared, .release, .release])
  | .isDone => (s, if s.done then [.release] else [.release, .acquire .shared, .waitCheck])
  | .waitCheck =>
      (s, if s.done && !s.handle then [.release]
        else [.release, .acquire .shared, .waitCheck])
  | .exchange exception building =>
      if s.resolved then (s, [])
      else ({ s with resolved := true },
        [.acquire .exclusive, .hook (if exception then [] else building), .store exception])
  | .store exception => ({ s with outcome := some exception }, [.onResolved])
  | .onResolved =>
      if s.handle then (s, [.release])
      else ({ s with awaiters := [] }, .release :: s.awaiters.flatten)
  | .finalSuspend exception building =>
      if s.running then
        ({ s with running := false },
          (match exception with
            | some e => [.exchange e building]
            | none => []) ++ [.scopeExit])
      else (s, [])
  | .scopeExit => (s, [.acquire .exclusive, .clear])
  | .clear => ({ s with handle := false, captured := [] }, [.hook s.captured, .finish])
  | .finish => (s, if s.done then [.onResolved] else [.release])

/-- `mutex_` can be taken in mode `m` beside the modes in which it is held. -/
def grants (s : State) (m : Mode) : Bool :=
  s.threads.all fun t =>
    match m with
    | .shared => !t.held.contains .exclusive
    | .exclusive => t.held.isEmpty

inductive Label where
  | spawn (body : List Op)
  | step (t : Nat)

def State.setThread (s : State) (t : Nat) (held : List Mode) (prog : List Instr) : State :=
  { s with threads := s.threads.set t ⟨held, prog⟩ }

def step (s : State) : Label → Option State
  | .spawn body => some { s with threads := s.threads ++ [⟨[], [.run body]⟩] }
  | .step t =>
      match s.threads[t]? with
      | some ⟨held, .acquire m :: rest⟩ =>
          if grants s m then some (s.setThread t (m :: held) rest) else none
      | some ⟨held, .release :: rest⟩ => some (s.setThread t held.tail rest)
      | some ⟨held, i :: rest⟩ => some ((exec s i).1.setThread t held ((exec s i).2 ++ rest))
      | _ => none

def isAcquire : Instr → Bool
  | .acquire _ => true
  | _ => false

def isRun : Instr → Bool
  | .run _ => true
  | _ => false

/-- No thread that holds `mutex_` is about to take it again or to run user code. -/
def Orderly (s : State) : Prop :=
  ∀ (t : Nat) (x : Thread) (i : Instr) (rest : List Instr), s.threads[t]? = some x →
    x.held ≠ [] → x.prog = i :: rest → isAcquire i = false ∧ isRun i = false

/-- It takes `mutex_` at once; a settlement first looks at the resolver's flag. -/
def Op.locks : Op → Bool
  | .settle _ _ | .complete _ _ => false
  | _ => true

/-- The branches that call out or lock again under the lock: `Then` with a continuation that
    returns a promise, and `Finally`, on a void promise that is already resolved; `Awaiters`; and
    a constructor or destructor of the user's that uses the promise while its thread holds the
    lock. -/
def lockedCall (s : State) (holding : Bool) : Instr → Bool
  | .thenDone coroutine _ => s.outcome ≠ some true && s.void && coroutine
  | .finallyDone _ => s.outcome ≠ some true && s.void
  | .callAwaiters => true
  | .hook (op :: _) => holding && op.locks
  | .exchange _ _ => holding && !s.resolved
  | .scopeExit => holding
  | _ => false

def Thread.holding (x : Thread) : Bool := !x.held.isEmpty

def Allowed (s : State) : Label → Prop
  | .spawn _ => True
  | .step t => ∀ (x : Thread) (i : Instr) (rest : List Instr), s.threads[t]? = some x →
      x.prog = i :: rest → lockedCall s x.holding i = false

/-- From `d` locks held the list comes to its end with none; under `strict` it takes a lock
    and runs user code only when none is held. -/
def Fits (strict : Bool) : Nat → List Instr → Prop
  | d, [] => d = 0
  | d, .acquire _ :: rest => (strict = true → d = 0) ∧ Fits strict (d + 1) rest
  | d, .run _ :: rest => (strict = true → d = 0) ∧ Fits strict d rest
  | d, .hook _ :: rest => Fits strict d rest
  | d, .exchange _ _ :: rest => Fits strict d rest
  | d, .finalSuspend _ _ :: rest => Fits strict d rest
  | d, .scopeExit :: rest => Fits strict d rest
  | 0, _ :: _ => False
  | d + 1, _ :: rest => (strict = true → d = 0) ∧ Fits strict d rest

structure Fit (strict : Bool) (s : State) : Prop where
  threads : ∀ (t : Nat) (x : Thread), s.threads[t]? = some x → Fits strict x.held.length x.prog
  awaiters : ∀ a ∈ s.awaiters, Fits strict 0 a

theorem fits_append {strict : Bool} {k d : Nat} {p q : List Instr} (first : Fits strict k p)
    (second : Fits strict d q) (low : strict = true → d = 0) : Fits strict (k + d) (p ++ q) := by
  induction p generalizing k with
  | nil =>
    rw [show k = 0 from first, Nat.zero_add]
    exact second
  | cons i rest ih =>
    have shift : ∀ n, n + d + 1 = n + 1 + d := fun n => by omega
    have still : ∀ n, (strict = true → n = 0) → strict = true → n + d = 0 := by
      intro n zero on
      have := zero on
      have := low on
      omega
    cases i with
    | acquire m =>
      refine ⟨still k first.1, ?_⟩
      rw [shift]
      exact ih first.2
    | run body => exact ⟨still k first.1, ih first.2⟩
    | hook ops | exchange e building | finalSuspend e building | scopeExit => exact ih first
    | _ =>
      cases k with
      | zero => exact first.elim
      | succ n =>
        rw [← shift]
        exact ⟨still n first.1, ih first.2⟩

theorem fits_flatten {strict : Bool} {ps : List (List Instr)}
    (each : ∀ p ∈ ps, Fits strict 0 p) : Fits strict 0 ps.flatten := by
  induction ps with
  | nil => rfl
  | cons p ps ih =>
    rw [List.flatten_cons]
    exact fits_append (k := 0) (d := 0) (each p List.mem_cons_self)
      (ih fun q member => each q (List.mem_cons_of_mem _ member)) fun _ => rfl

theorem program_fits (strict : Bool) (op : Op) : Fits strict 0 op.program := by
  cases op with
  | race raceDone after => cases raceDone <;> simp [Op.program, Fits]
  | _ => simp [Op.program, Fits]

theorem body_fits (strict : Bool) (body : List Op) :
    Fits strict 0 (body.flatMap Op.program) := by
  rw [List.flatMap_def]
  refine fits_flatten fun p member => ?_
  obtain ⟨op, _, rfl⟩ := List.mem_map.mp member
  exact program_fits strict op

theorem await_fits {strict : Bool} {s : State} {p : List Instr}
    (fit : ∀ a ∈ s.awaiters, Fits strict 0 a) (awaiter : Fits strict 0 p) :
    ∀ a ∈ (s.await p).awaiters, Fits strict 0 a := by
  intro a member
  rcases List.mem_append.mp member with old | new
  · exact fit a old
  · rw [List.mem_singleton.mp new]
    exact awaiter

def free : Instr → Bool
  | .hook _ | .exchange _ _ | .finalSuspend _ _ | .scopeExit => true
  | _ => false

def weight : Instr → Nat
  | .run _ | .hook _ | .exchange _ _ | .finalSuspend _ _ | .scopeExit => 0
  | _ => 1

theorem fits_cons {strict : Bool} {d : Nat} {i : Instr} {rest : List Instr}
    (other : isAcquire i = false) (bound : free i = false) (h : Fits strict d (i :: rest)) :
    ∃ k, d = weight i + k ∧ (strict = true → k = 0) ∧ Fits strict k rest := by
  cases i with
  | acquire m => simp [isAcquire] at other
  | hook ops | exchange e building | finalSuspend e building | scopeExit => simp [free] at bound
  | run body => exact ⟨d, (Nat.zero_add d).symm, h.1, h.2⟩
  | _ =>
    cases d with
    | zero => exact h.elim
    | succ k => exact ⟨k, Nat.add_comm k 1, h.1, h.2⟩

theorem fits_free {strict : Bool} {d : Nat} {i : Instr} {rest : List Instr} (loose : free i = true)
    (h : Fits strict d (i :: rest)) : Fits strict d rest := by
  cases i with
  | hook ops | exchange e building | finalSuspend e building | scopeExit => exact h
  | _ => simp [free] at loose

theorem exec_fits {strict : Bool} {s : State} {i : Instr}
    (fit : ∀ a ∈ s.awaiters, Fits strict 0 a) {holding : Bool}
    (good : strict = true → lockedCall s holding i = false) (other : isAcquire i = false)
    (held : i ≠ .release) (bound : free i = false) : Fits strict (weight i) (exec s i).2 := by
  cases i with
  | acquire m => simp [isAcquire] at other
  | release => exact absurd rfl held
  | hook ops | exchange e building | finalSuspend e building | scopeExit => simp [free] at bound
  | run body => exact body_fits strict body
  | thenDone coroutine body =>
    simp only [exec]
    split
    · simp [Fits, weight]
    · split
      · rename_i locked
        have lax : strict = false := by
          by_contra on
          simp_all [lockedCall]
        simp [Fits, weight, lax]
      · simp [Fits, weight]
  | finallyDone body =>
    simp only [exec]
    split
    · simp [Fits, weight]
    · split
      · rename_i locked
        have lax : strict = false := by
          by_contra on
          simp_all [lockedCall]
        simp [Fits, weight, lax]
      · simp [Fits, weight]
  | callAwaiters =>
    have lax : strict = false := by
      by_contra on
      simp_all [lockedCall]
    simp [exec, Fits, weight, lax]
  | onResolved =>
    simp only [exec]
    split
    · simp [Fits, weight]
    · exact ⟨fun _ => rfl, fits_flatten fit⟩
  | _ =>
    simp only [exec]
    (try split) <;> simp [Fits, weight]

theorem exec_free {strict : Bool} {s : State} {i : Instr} {d : Nat} {rest : List Instr}
    (good : strict = true → lockedCall s (decide (d ≠ 0)) i = false) (loose : free i = true)
    (fits : Fits strict d rest) : Fits strict d ((exec s i).2 ++ rest) := by
  have low : strict = true → decide (d ≠ 0) = false → d = 0 := by
    intro _ none_
    simpa using none_
  cases i with
  | hook ops =>
    cases ops with
    | nil => exact fits
    | cons op ops =>
      have tail : Fits strict d (.hook ops :: rest) := fits
      show Fits strict d ((op.program ++ [.hook ops]) ++ rest)
      rw [List.append_assoc]
      cases locks : op.locks with
      | true =>
        have shallow : strict = true → d = 0 := fun on => low on (by
          simpa [lockedCall, locks] using good on)
        simpa using fits_append (program_fits strict op) tail shallow
      | false =>
        cases op with
        | settle e building => exact tail
        | complete e building => exact tail
        | _ => simp [Op.locks] at locks
  | exchange e building =>
    simp only [exec]
    split
    · exact fits
    · rename_i pending
      have shallow : strict = true → d = 0 := fun on => low on (by
        simpa [lockedCall, pending] using good on)
      exact ⟨shallow, shallow, fits⟩
  | finalSuspend e building =>
    simp only [exec]
    split
    · cases e <;> exact fits
    · exact fits
  | scopeExit =>
    have shallow : strict = true → d = 0 := fun on => low on (good on)
    exact ⟨shallow, shallow, fits⟩
  | _ => simp [free] at loose

theorem exec_awaiters {strict : Bool} {s : State} (i : Instr)
    (fit : ∀ a ∈ s.awaiters, Fits strict 0 a) :
    ∀ a ∈ (exec s i).1.awaiters, Fits strict 0 a := by
  cases i with
  | thenRegister body after | catchRegister matching body after | finallyRegister body after =>
    exact await_fits fit (by simp [Fits])
  | raceLocked after | awaitSuspend rest =>
    simp only [exec]
    split
    · exact fit
    · exact await_fits fit (by simp [Fits])
  | erase n destroying => exact fun a member => fit a (List.mem_of_mem_eraseIdx member)
  | hook ops => cases ops <;> exact fit
  | onResolved =>
    simp only [exec]
    split
    · exact fit
    · simp
  | thenLocked coroutine body after copying | catchLocked matching body after copying
  | finallyLocked body after copying | thenDone coroutine body | thenAwaiter body after
  | catchHandle matching body after | finallyDone body | awaitReady rest | exchange e building
  | finalSuspend e building =>
    simp only [exec]
    (try split) <;> (try split) <;> exact fit
  | _ => exact fit

theorem exec_threads (s : State) (i : Instr) : (exec s i).1.threads = s.threads := by
  cases i with
  | hook ops => cases ops <;> rfl
  | _ => simp only [exec] <;> (try split) <;> (try split) <;> rfl

theorem exec_rest {strict : Bool} {s : State} {i : Instr} {d : Nat} {rest : List Instr}
    (fit : ∀ a ∈ s.awaiters, Fits strict 0 a)
    (good : strict = true → lockedCall s (decide (d ≠ 0)) i = false) (other : isAcquire i = false)
    (unlocked : i ≠ .release) (fits : Fits strict d (i :: rest)) :
    Fits strict d ((exec s i).2 ++ rest) := by
  cases loose : free i with
  | true => exact exec_free good loose (fits_free loose fits)
  | false =>
    obtain ⟨k, depth, low, tail⟩ := fits_cons other loose fits
    rw [depth]
    exact fits_append (exec_fits fit good other unlocked loose) tail low

theorem holding_depth (x : Thread) : x.holding = decide (x.held.length ≠ 0) := by
  unfold Thread.holding
  cases x.held <;> rfl

/-- The discipline up to a step: unconditionally in its lax form, and in its strict form when
    the step avoids those branches. -/
theorem step_fit {strict : Bool} {s t : State} {l : Label} (inv : Fit strict s)
    (good : strict = true → Allowed s l) (h : step s l = some t) : Fit strict t := by
  cases l with
  | spawn body =>
    simp only [step, Option.some.injEq] at h
    subst h
    refine ⟨fun k x hx => ?_, inv.awaiters⟩
    rcases append_lookup hx with ⟨_, rfl⟩ | hx
    · simp [Fits]
    · exact inv.threads k x hx
  | step k =>
    simp only [step] at h
    split at h
    · rename_i held m rest here
      split at h <;> simp only [Option.some.injEq, reduceCtorEq] at h
      subst h
      have fits := inv.threads k _ here
      refine ⟨fun j x hx => ?_, inv.awaiters⟩
      rcases set_lookup here hx with ⟨_, rfl⟩ | ⟨_, hx⟩
      · exact fits.2
      · exact inv.threads j x hx
    · rename_i held rest here
      simp only [Option.some.injEq] at h
      subst h
      obtain ⟨d, depth, _, fits⟩ := fits_cons rfl rfl (inv.threads k _ here)
      refine ⟨fun j x hx => ?_, inv.awaiters⟩
      rcases set_lookup here hx with ⟨_, rfl⟩ | ⟨_, hx⟩
      · have below : held.tail.length = d := by
          rw [List.length_tail, depth]
          simp [weight]
        exact below ▸ fits
      · exact inv.threads j x hx
    · rename_i held i rest taken unlocked here
      simp only [Option.some.injEq] at h
      subst h
      have other : isAcquire i = false := by
        cases i with
        | acquire m => exact absurd rfl (taken m)
        | _ => rfl
      have calm : strict = true → lockedCall s (decide (held.length ≠ 0)) i = false := by
        intro on
        rw [← holding_depth ⟨held, i :: rest⟩]
        exact good on _ i rest here rfl
      have fits := exec_rest inv.awaiters calm other unlocked (inv.threads k _ here)
      refine ⟨fun j x hx => ?_, exec_awaiters i inv.awaiters⟩
      simp only [State.setThread, exec_threads] at hx
      rcases set_lookup here hx with ⟨_, rfl⟩ | ⟨_, hx⟩
      · exact fits
      · exact inv.threads j x hx
    · simp at h

theorem orderly_of_fit {s : State} (inv : Fit true s) : Orderly s := by
  intro t x i rest here holding head
  have fits := inv.threads t x here
  have some_ : x.held.length ≠ 0 := by simpa using holding
  rw [head] at fits
  cases i with
  | acquire m | run body => exact absurd (fits.1 rfl) some_
  | _ => exact ⟨rfl, rfl⟩

theorem locks_program {op : Op} (locks : op.locks = true) :
    ∃ m rest, op.program = .acquire m :: rest := by
  cases op with
  | settle e building | complete e building => simp [Op.locks] at locks
  | _ => exact ⟨_, _, rfl⟩

/-- Each of those branches leaves its thread about to lock or to call out under the lock. -/
theorem lockedCall_expands {s : State} {i : Instr} {holding : Bool}
    (bad : lockedCall s holding i = true) :
    (holding = true ∨ weight i = 1 ∧ free i = false) ∧ isAcquire i = false ∧ i ≠ .release ∧
      ∃ j rest, (exec s i).2 = j :: rest ∧ (isAcquire j || isRun j) = true := by
  cases i with
  | thenDone coroutine body =>
    simp only [lockedCall, Bool.and_eq_true, decide_eq_true_eq] at bad
    refine ⟨.inr ⟨rfl, rfl⟩, rfl, by simp, .run body, [.release], ?_, rfl⟩
    simp [exec, bad]
  | finallyDone body =>
    simp only [lockedCall, Bool.and_eq_true, decide_eq_true_eq] at bad
    refine ⟨.inr ⟨rfl, rfl⟩, rfl, by simp, .run body, [.release], ?_, rfl⟩
    simp [exec, bad]
  | callAwaiters => exact ⟨.inr ⟨rfl, rfl⟩, rfl, by simp, _, _, rfl, rfl⟩
  | hook ops =>
    cases ops with
    | nil => simp [lockedCall] at bad
    | cons op ops =>
      obtain ⟨holds, locks⟩ := Bool.and_eq_true_iff.mp bad
      obtain ⟨m, rest, program⟩ := locks_program locks
      refine ⟨.inl holds, rfl, by simp, .acquire m, rest ++ [.hook ops], ?_, rfl⟩
      simp [exec, program]
  | exchange e building =>
    simp only [lockedCall, Bool.and_eq_true, Bool.not_eq_true'] at bad
    refine ⟨.inl bad.1, rfl, by simp, .acquire .exclusive,
      [.hook (if e then [] else building), .store e], ?_, rfl⟩
    simp [exec, bad]
  | scopeExit => exact ⟨.inl bad, rfl, by simp, _, _, rfl, rfl⟩
  | _ => simp [lockedCall] at bad

theorem allowed_of_orderly {s t : State} {l : Label} (inv : Fit false s)
    (h : step s l = some t) (orderly : Orderly t) : Allowed s l := by
  cases l with
  | spawn body => trivial
  | step k =>
    rintro ⟨held, prog⟩ i rest here head
    simp only at head
    subst head
    by_contra bad
    rw [Bool.not_eq_false] at bad
    obtain ⟨inside, other, unlocked, j, more, expanded, reckless⟩ := lockedCall_expands bad
    have holding : held ≠ [] := by
      rintro rfl
      rcases inside with holds | ⟨one, bound⟩
      · cases holds
      · obtain ⟨d, depth, _, _⟩ := fits_cons other bound (inv.threads k _ here)
        rw [one, List.length_nil] at depth
        omega
    have taken : t = (exec s i).1.setThread k held ((exec s i).2 ++ rest) := by
      simp only [step, here] at h
      split at h
      · simp_all [isAcquire]
      · simp_all
      · simp_all
      · simp at h
    subst taken
    have at_ : ((exec s i).1.setThread k held ((exec s i).2 ++ rest)).threads[k]? =
        some ⟨held, (exec s i).2 ++ rest⟩ := by
      simp only [State.setThread, exec_threads]
      exact lookup_set here
    have calm := orderly k _ j (more ++ rest) at_ holding (by rw [expanded]; rfl)
    simp [calm.1, calm.2] at reckless

/-- Exactly the runs that avoid those branches keep the lock discipline in every state. -/
theorem orderly_iff {s : State} (fresh : Initial s) (ls : List Label) :
    Always step Orderly s ls ↔ Meets step Allowed s ls := by
  obtain ⟨_, _, _, none_, idle⟩ := fresh
  have start : ∀ strict, Fit strict s := fun strict =>
    ⟨fun t x here => by simp [idle] at here, by simp [none_]⟩
  constructor
  · exact meets_of_always (fun _ _ _ inv taken => step_fit inv (by simp) taken)
      (fun _ _ _ inv taken => allowed_of_orderly inv taken) (start false)
  · exact always_of_meets (fun _ _ _ inv met taken => step_fit inv (fun _ => met) taken)
      (fun _ inv => orderly_of_fit inv) (start true)

def created (void coroutine : Bool) (captured : List Op) : State where
  void := void
  outcome := none
  resolved := false
  handle := coroutine
  running := coroutine
  captured := captured
  awaiters := []
  threads := []

theorem allowed_head {s : State} {t : Nat} {held : List Mode} {i : Instr} {rest : List Instr}
    (here : s.threads[t]? = some ⟨held, i :: rest⟩)
    (calm : lockedCall s (!held.isEmpty) i = false) :
    Allowed s (.step t) := by
  intro x j more there head
  rw [here, Option.some.injEq] at there
  subst there
  obtain ⟨rfl, rfl⟩ := List.cons.inj head
  exact calm

theorem orderly_attached :
    Always step Orderly (created true false [])
      [.spawn [.finally_ [.inspect] [] []], .step 0, .step 0, .step 0] :=
  (orderly_iff ⟨rfl, rfl, rfl, rfl, rfl⟩ _).mpr
    (meets_cons rfl trivial (meets_cons rfl (allowed_head rfl rfl)
      (meets_cons rfl (allowed_head rfl rfl) (meets_cons rfl (allowed_head rfl rfl) trivial))))

/-- Runs of one thread into each of those branches: `Awaiters`; `Finally` with a continuation
    that inspects the promise and `Then` with one that returns a promise, both on a resolved
    void promise; the end of a coroutine whose callable has captured a handle of the promise, and
    of one whose callable has captured an object that inspects it when it is destroyed; a value
    and a continuation that inspect the promise when they are built and copied. -/
def lockedRuns : List (State × List Op × Nat) :=
  [(created false false [], [.awaiters], 3),
    (created true false [], [.settle false [], .finally_ [.inspect] [] []], 12),
    (created true false [], [.settle false [], .then_ true [.inspect] [] []], 12),
    (created true true [.destroy], [.complete (some false) []], 12),
    (created true true [.inspect], [.complete (some false) []], 12),
    (created false false [], [.settle false [.inspect]], 4),
    (created false false [], [.then_ false [] [] [.inspect]], 4)]

theorem disorderly_of_head {s : State} {t : Nat} {m : Mode} {held : List Mode} {i : Instr}
    {rest : List Instr} (here : s.threads[t]? = some ⟨m :: held, i :: rest⟩)
    (reckless : (isAcquire i || isRun i) = true) : ¬Orderly s := by
  intro orderly
  have calm := orderly t _ i rest here (by simp) rfl
  simp [calm.1, calm.2] at reckless

theorem disorderly : lockedRuns.Forall fun r => ∃ s,
    run step r.1 (.spawn r.2.1 :: List.replicate r.2.2 (.step 0)) = some s ∧ ¬Orderly s := by
  rw [List.forall_iff_forall_mem]
  intro r member
  simp only [lockedRuns, List.mem_cons, List.not_mem_nil, or_false] at member
  rcases member with rfl | rfl | rfl | rfl | rfl | rfl | rfl
  all_goals exact ⟨_, rfl, disorderly_of_head (t := 0) rfl rfl⟩

end LockDiscipline
