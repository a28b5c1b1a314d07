import JSProCpp.WaitRegistrations

/-
`Pool::Dispatch(until)` without a callable, which `MessageQueue::Ensure` forwards to: a promise
made by `Create()`, a task that waits until it is awaited and then resolves it, and callers that
attach continuations meanwhile. The pool itself runs an accepted task once, on a worker. The
order of the attachments is the order of their critical sections.
-/
namespace QueueHop
open Transitions Monitors WaitSets WaitRegistrations
open SharedPromise (Awaiter Target Site)
variable {H B : Type}

inductive Operator where
  | then_
  | catch_
  | finally_
  | race
  deriving DecidableEq

structure Continuation (B : Type) where
  operator : Operator
  body : B
  deriving DecidableEq

/-- What the task stores, and what `Dispatch` stores when there is no task. -/
inductive Settled where
  | resolved
  | queueStopped
  deriving DecidableEq

abbrev PromiseCall (H B : Type) := Call Settled H (Continuation B)

abbrev PromisePc (H B : Type) := Pc H (Continuation B)

inductive Dispatch where
  | offer
  | accepted
  | declined (i : Nat)
  deriving DecidableEq

inductive Worker where
  | queued
  | waiting (i : Nat)
  | resolving (i : Nat)
  deriving DecidableEq

/-- An attachment, recorded where it finds out whether the promise is done: what runs on the
    outcome, nothing for a race that is over. -/
structure Attachment (H B : Type) where
  target : Option (Target H (Continuation B))
  inline : Bool
  deriving DecidableEq

structure Hop (H B : Type) where
  promise : State Settled H (Continuation B)
  dispatch : Dispatch
  worker : Worker
  attachments : List (Attachment H B)

inductive Label (H B : Type) where
  | pool (accepted : Bool)
  | run
  | resolve
  | coAwait (h : H)
  | attach (k : Continuation B)
  | raceSkip
  | unAwait (id : Nat)
  | waitDone
  | waitAwaited (currentCount : Option Nat)
  | step (i : Nat)
  | wake (i : Nat)
  deriving DecidableEq

def initialHop : Hop H B := ⟨initial false [] fun _ => .finished, .offer, .queued, []⟩

def Hop.returned (s : Hop H B) : Bool :=
  match s.dispatch with
  | .offer => false
  | .accepted => true
  | .declined i => isReturned s.promise i

def isRace (a : Awaiter H (Continuation B)) : Bool :=
  match a.target with
  | .function k => k.operator == .race
  | .coroutine _ => false

def attachmentOf (s : State Settled H (Continuation B)) :
    Thread Settled H (Continuation B) → List (Attachment H B)
  | ⟨c, .isDone⟩ => [⟨c.target, s.outcome.isSome⟩]
  | ⟨.raceSkip, .count⟩ => [⟨none, false⟩]
  | _ => []

def Hop.call (s : Hop H B) (c : PromiseCall H B) : Hop H B :=
  { s with promise := s.promise.push c }

def Hop.next (s : Hop H B) : Nat := s.promise.threads.length

def hopStep (s : Hop H B) : Label H B → Option (Hop H B)
  | .pool true => if s.dispatch = .offer then some { s with dispatch := .accepted } else none
  | .pool false =>
      if s.dispatch = .offer then
        some ({ s with dispatch := .declined s.next }.call (.reject .queueStopped))
      else none
  | .run =>
      if s.dispatch = .accepted ∧ s.worker = .queued then
        some ({ s with worker := .waiting s.next }.call (.waitAwaited (some 0)))
      else none
  | .resolve =>
      match s.worker with
      | .waiting i =>
          if isReturned s.promise i then
            some ({ s with worker := .resolving s.next }.call (.resolve .resolved false))
          else none
      | _ => none
  | .coAwait h =>
      if s.returned = true ∧ s.promise.mutex.writer = none then
        if s.promise.outcome.isSome then
          some { s with attachments := s.attachments ++ [⟨some (.coroutine h), true⟩] }
        else some (s.call (.awaitSuspend h))
      else none
  | .attach k => if s.returned then some (s.call (.await k)) else none
  | .raceSkip => if s.returned then some (s.call .raceSkip) else none
  | .unAwait id =>
      if s.returned && s.promise.registered.any fun a => a.id == id && isRace a then
        some (s.call (.unAwait id))
      else none
  | .waitDone => if s.returned then some (s.call .waitDone) else none
  | .waitAwaited currentCount =>
      if s.returned then some (s.call (.waitAwaited currentCount)) else none
  | .step i =>
      match s.promise.threads[i]? with
      | some x => (step s.promise (.step i)).map fun p =>
          { s with promise := p, attachments := s.attachments ++ attachmentOf s.promise x }
      | none => none
  | .wake i => (step s.promise (.wake i)).map fun p => { s with promise := p }

abbrev ReachedHop (s : Hop H B) : Prop := Reachable hopStep (· = initialHop) s

def settler (s : Hop H B) : Option (Nat × Settled) :=
  match s.dispatch, s.worker with
  | .declined i, _ => some (i, .queueStopped)
  | .accepted, .resolving i => some (i, .resolved)
  | _, _ => none

def settleCall : Settled → PromiseCall H B
  | .resolved => .resolve .resolved false
  | .queueStopped => .reject .queueStopped

theorem settle_plain (o : Settled) :
    ∀ d, (settleCall o : PromiseCall H B) ≠ .finalSuspend d := by
  intro d same
  cases o <;> cases same

def Emptied (s : State Settled H (Continuation B)) : PromisePc H B → Prop
  | .flush _ _ | .returned _ => s.awaiters = []
  | _ => True

/-- Where the task's wait is, and that it ends with an attachment. -/
def Awaiting (attached : Prop) : PromisePc H B → Prop
  | .lockShared => True
  | .lastCount currentCount => currentCount = some 0
  | .test w | .sleep w | .asleep w => w = .awaited 0
  | .returned _ => attached
  | _ => False

/-- The target is about to become the first awaiter, in a critical section, or is it. -/
def Registering (s : State Settled H (Continuation B)) (x : Target H (Continuation B)) : Prop :=
  (∃ (i : Nat) (c : PromiseCall H B) (pc : PromisePc H B),
    s.threads[i]? = some ⟨c, pc⟩ ∧ c.target = some x ∧
      (pc = .count ∧ s.useCount = 0 ∨ counted pc = true ∧ s.useCount = 1)) ∨
  ⟨x, 1⟩ ∈ s.registered

structure HopInv (s : Hop H B) : Prop where
  reached : Reached s.promise
  cleared : s.promise.handle = false
  early : s.dispatch = .offer → s.promise.threads = [] ∧ s.attachments = []
  accepted : s.worker ≠ .queued → s.dispatch = .accepted
  settles : ∀ (i : Nat) (c : PromiseCall H B) (pc : PromisePc H B),
    s.promise.threads[i]? = some ⟨c, pc⟩ → kind c = .settle →
      ∃ o, settler s = some (i, o) ∧ c = settleCall o ∧ Phase s.promise o pc ∧
        Emptied s.promise pc
  settling : ∀ (i : Nat) (o : Settled), settler s = some (i, o) →
    ∃ pc : PromisePc H B, s.promise.threads[i]? = some ⟨settleCall o, pc⟩
  unsettled : settler s = none → s.promise.rejected = false ∧ s.promise.resolved = false ∧
    s.promise.outcome = none
  counted : s.attachments = [] → s.promise.useCount = 0
  counting : ∀ (i : Nat) (c : PromiseCall H B),
    s.promise.threads[i]? = some ⟨c, .count⟩ → c.target.isSome = true → s.attachments ≠ []
  waiting : ∀ i, s.worker = .waiting i → ∃ pc : PromisePc H B,
    s.promise.threads[i]? = some ⟨.waitAwaited (some 0), pc⟩ ∧ Awaiting (s.attachments ≠ []) pc
  resolving : ∀ i, s.worker = .resolving i → s.attachments ≠ []
  first : s.dispatch = .accepted → ∀ a rest x, s.attachments = a :: rest → a.target = some x →
    a.inline = false ∧ Registering s.promise x
  races : ∀ (i id : Nat) (pc : PromisePc H B), s.promise.threads[i]? = some ⟨.unAwait id, pc⟩ →
    ∃ a ∈ s.promise.registered, a.id = id ∧ isRace a = true
  withdrawn : ∀ id ∈ s.promise.removed,
    ∃ a ∈ s.promise.registered, a.id = id ∧ isRace a = true

section Moves
variable {s u : State Settled H (Continuation B)} {i : Nat} {c : PromiseCall H B}
  {pc pc' : PromisePc H B}

theorem move_drained (move : Move s i c pc u pc') (drained : s.awaiters = [])
    (pending : registering pc = true → c.target.isSome = true → s.outcome = none)
    (settled : s.outcome ≠ none) : u.awaiters = [] := by
  cases move with
  | swap => rfl
  | emplace =>
    cases target : c.target with
    | none => exact drained
    | some x => exact absurd (pending rfl (by rw [target]; rfl)) settled
  | erase id =>
    show (s.unAwait id).1.awaiters = []
    unfold State.unAwait
    rw [drained]
    exact drained
  | _ => exact drained

theorem emptied_other {o : Settled} {q : PromisePc H B} (move : Move s i c pc u pc')
    (pending : registering pc = true → c.target.isSome = true → s.outcome = none)
    (phase : Phase s o q) (emptied : Emptied s q) : Emptied u q := by
  have settled : s.outcome = some o → s.outcome ≠ none := fun done => by
    rw [done]
    exact Option.some_ne_none o
  cases q with
  | flush site todo =>
    cases site with
    | settle => exact move_drained move emptied pending (settled phase)
    | scopeExit won => exact phase.elim
  | returned won => exact move_drained move emptied pending (settled phase.2)
  | _ => trivial

theorem emptied_own {o : Settled} (cleared : s.handle = false)
    (move : Move s i (settleCall o) pc u pc') (phase : Phase s o pc) (emptied : Emptied s pc) :
    Emptied u pc' := by
  have left : (settleCall o : PromiseCall H B).leave true = .returned true := by
    cases o <;> rfl
  cases move with
  | rejectLost set => exact absurd (set.symm.trans phase.1) Bool.noConfusion
  | lost set => exact absurd (set.symm.trans phase.1) Bool.noConfusion
  | noFlush site live => exact absurd (live.symm.trans cleared) Bool.noConfusion
  | swap site => exact rfl
  | invoke site a rest => exact emptied
  | flushed site =>
    cases site with
    | settle =>
      show Emptied s ((settleCall o).leave true)
      rw [left]
      exact emptied
    | scopeExit won => exact phase.elim
  | rejectFirst | claim | settleLock | throw | store | done | notify => trivial
  | _ => exact phase.elim

theorem registered_move (move : Move s i c pc u pc') {a : Awaiter H (Continuation B)}
    (member : a ∈ s.registered) : a ∈ u.registered := by
  rcases move_registered move with same | ⟨x, -, -, -, more, -⟩
  · exact same.symm ▸ member
  · rw [more]
    exact List.mem_append_left _ member

theorem registering_move {x : Target H (Continuation B)} (held : Held s.mutex (mode s))
    (here : s.threads[i]? = some ⟨c, pc⟩) (move : Move s i c pc u pc')
    (registers : Registering s x) : Registering (u.goto i c pc') x := by
  rcases registers with ⟨j, d, q, there, target, turn⟩ | member
  · by_cases mine : j = i
    · subst mine
      rw [here] at there
      cases there
      rcases turn with ⟨rfl, none_⟩ | ⟨inside, one⟩
      · cases move
        exact .inl ⟨j, c, .notifyAwaited, goto_here rfl here, target,
          .inr ⟨rfl, congrArg (· + 1) none_⟩⟩
      · cases move with
        | notifyAwaited =>
          exact .inl ⟨j, c, .emplace, goto_here rfl here, target, .inr ⟨rfl, one⟩⟩
        | emplace =>
          right
          show (⟨x, 1⟩ : Awaiter H (Continuation B)) ∈ (s.register c.target).registered
          rw [target, ← one]
          exact List.mem_append_right _ (List.mem_singleton.mpr rfl)
        | _ => cases inside
    · have inside : q.mode = .exclusive := by
        apply registering_exclusive
        rcases turn with ⟨rfl, -⟩ | ⟨inside, -⟩
        · rfl
        · exact counted_registering inside
      have still : u.useCount = s.useCount := by
        rcases move_useCount move with same | ⟨rfl, -⟩
        · exact same
        · have alone := held_alone held (i := i) (j := j) (by rw [mode_at here]; rfl)
            (by rw [mode_at there, inside]; decide)
          exact absurd alone mine
      refine .inl ⟨j, d, q, (goto_other (move_threads move) mine).trans there, target, ?_⟩
      show q = .count ∧ u.useCount = 0 ∨ counted q = true ∧ u.useCount = 1
      rw [still]
      exact turn
  · exact .inr (registered_move move member)

theorem awaiting_move {attached : Prop} (move : Move s i (.waitAwaited (some 0)) pc u pc')
    (awaiting : Awaiting attached pc) (counted : 0 < s.useCount → attached) :
    Awaiting attached pc' := by
  cases move with
  | waitLock => exact rfl
  | lastCount currentCount =>
    obtain rfl : currentCount = some 0 := awaiting
    exact rfl
  | waited w met =>
    obtain rfl : w = .awaited 0 := awaiting
    exact counted (of_decide_eq_true met)
  | refused | sleep | woken => exact awaiting
  | lost | noFlush | flushed | acquire => exact awaiting.elim
  | _ => exact awaiting.elim

theorem awaiting_mono {p q : Prop} (implies : p → q) (awaiting : Awaiting p pc) :
    Awaiting q pc := by
  cases pc with
  | returned result => exact implies awaiting
  | _ => exact awaiting

theorem move_count (target : c.target.isSome = true) (move : Move s i c pc u .count) :
    pc = .isDone := by
  generalize there : (.count : PromisePc H B) = q at move
  cases move with
  | pending => rfl
  | acquire => cases c <;> first | exact Bool.noConfusion target | cases there
  | waitLock => cases c <;> cases there
  | lost => cases c <;> cases there
  | noFlush site | flushed site => cases site <;> cases c <;> cases there
  | _ => cases there

theorem removed_move (move : Move s i c pc u pc') {n : Nat} (gone : n ∈ u.removed) :
    n ∈ s.removed ∨ c = .unAwait n := by
  cases move with
  | emplace =>
    left
    cases target : c.target <;> rw [target] at gone <;> exact gone
  | erase id call =>
    have removed : n ∈ (s.unAwait id).1.removed := gone
    unfold State.unAwait at removed
    split at removed
    · rcases List.mem_cons.mp removed with same | before
      · exact .inr (same ▸ call)
      · exact .inl before
    · exact .inl removed
  | _ => exact .inl gone

theorem handle_move (cleared : s.handle = false) (move : Move s i c pc u pc') :
    u.handle = false := by
  cases move with
  | scopeClear => rfl
  | emplace => exact (register_handle s _).trans cleared
  | erase id => exact (unAwait_handle s id).trans cleared
  | _ => exact cleared

end Moves

theorem settler_accepted {s : Hop H B} {i : Nat} {o : Settled} (accepted : s.dispatch = .accepted)
    (settles : settler s = some (i, o)) : s.worker = .resolving i ∧ o = .resolved := by
  unfold settler at settles
  rw [accepted] at settles
  split at settles
  · rename_i other
    cases other
  · rename_i worker
    cases settles
    exact ⟨worker, rfl⟩
  · cases settles

theorem unattached_pending {s : Hop H B} (inv : HopInv s) (accepted : s.dispatch = .accepted)
    (empty : s.attachments = []) : s.promise.outcome = none := by
  apply (inv.unsettled _).2.2
  cases settles : settler s with
  | none => rfl
  | some settled =>
    obtain ⟨i, o⟩ := settled
    exact absurd empty (inv.resolving i (settler_accepted accepted settles).1)

theorem push_step {s : State Settled H (Continuation B)} {c : PromiseCall H B}
    (plain : ∀ d, c ≠ .finalSuspend d) : step s (.call c) = some (s.push c) := by
  cases c with
  | finalSuspend d => exact absurd rfl (plain d)
  | _ => rfl

section Pushes
variable {s : Hop H B} {c : PromiseCall H B}

/-- A new call, and what it changes for the settlement and the task. -/
theorem inv_pushed (d : Dispatch) (w : Worker) (inv : HopInv s) (plain : ∀ x, c ≠ .finalSuspend x)
    (early : d ≠ .offer) (accepted : w ≠ .queued → d = .accepted)
    (dispatch : d = .accepted → s.dispatch = .accepted)
    (race : ∀ id, c = .unAwait id → ∃ a ∈ s.promise.registered, a.id = id ∧ isRace a = true)
    (settles : ∀ (i : Nat) (e : PromiseCall H B) (pc : PromisePc H B),
      (s.promise.push c).threads[i]? = some ⟨e, pc⟩ → kind e = .settle →
        ∃ o, settler { s with dispatch := d, worker := w } = some (i, o) ∧ e = settleCall o ∧
          Phase s.promise o pc ∧ Emptied s.promise pc)
    (settling : ∀ (i : Nat) (o : Settled),
      settler { s with dispatch := d, worker := w } = some (i, o) →
        ∃ pc : PromisePc H B, (s.promise.push c).threads[i]? = some ⟨settleCall o, pc⟩)
    (unsettled : settler { s with dispatch := d, worker := w } = none → settler s = none)
    (waiting : ∀ i, w = .waiting i → ∃ pc : PromisePc H B,
      (s.promise.push c).threads[i]? = some ⟨.waitAwaited (some 0), pc⟩ ∧
        Awaiting (s.attachments ≠ []) pc)
    (resolving : ∀ i, w = .resolving i → s.attachments ≠ []) :
    HopInv ({ s with dispatch := d, worker := w }.call c) := by
  have idle : registering c.entry = false := by
    cases c with
    | finalSuspend x => exact absurd rfl (plain x)
    | _ => rfl
  have old : ∀ {j : Nat} {e : PromiseCall H B} {pc : PromisePc H B}, registering pc = true →
      (s.promise.push c).threads[j]? = some ⟨e, pc⟩ → s.promise.threads[j]? = some ⟨e, pc⟩ := by
    intro j e pc inside there
    apply (push_lookup there).resolve_left
    intro new
    rw [new.2.2, idle] at inside
    cases inside
  constructor
  · exact .next inv.reached (push_step plain)
  · exact inv.cleared
  · exact fun offer => absurd offer early
  · exact accepted
  · exact settles
  · exact settling
  · exact fun none_ => inv.unsettled (unsettled none_)
  · exact inv.counted
  · exact fun i e there target => inv.counting i e (old rfl there) target
  · exact waiting
  · exact resolving
  · intro now a rest x same target
    obtain ⟨inline, registers⟩ := inv.first (dispatch now) a rest x same target
    refine ⟨inline, ?_⟩
    rcases registers with ⟨i, e, pc, there, mine, turn⟩ | registered
    · exact .inl ⟨i, e, pc, lookup_append there _, mine, turn⟩
    · exact .inr registered
  · intro i id pc there
    rcases push_lookup there with ⟨-, same, -⟩ | before
    · exact race id same.symm
    · exact inv.races i id pc before
  · exact inv.withdrawn

/-- A caller's call: it does not settle the promise. -/
theorem inv_call (inv : HopInv s) (returned : s.dispatch ≠ .offer) (caller : kind c ≠ .settle)
    (race : ∀ id, c = .unAwait id → ∃ a ∈ s.promise.registered, a.id = id ∧ isRace a = true) :
    HopInv (s.call c) := by
  have plain : ∀ d, c ≠ .finalSuspend d := fun d same => caller (same ▸ rfl)
  apply inv_pushed s.dispatch s.worker inv plain returned inv.accepted id race
  · intro i d pc there isSettle
    rcases push_lookup there with ⟨-, same, -⟩ | before
    · exact absurd (same ▸ isSettle) caller
    · exact inv.settles i d pc before isSettle
  · intro i o settled
    obtain ⟨pc, there⟩ := inv.settling i o settled
    exact ⟨pc, lookup_append there _⟩
  · exact id
  · intro i worker
    obtain ⟨pc, there, awaiting⟩ := inv.waiting i worker
    exact ⟨pc, lookup_append there _, awaiting⟩
  · exact inv.resolving

end Pushes

/-- What a thread's statement leaves to the list of attachments. -/
def Hop.advanced (s : Hop H B) (p : State Settled H (Continuation B)) (c : PromiseCall H B)
    (pc : PromisePc H B) : Hop H B :=
  { s with promise := p, attachments := s.attachments ++ attachmentOf s.promise ⟨c, pc⟩ }

theorem count_attached {s : Hop H B} (inv : HopInv s) {i : Nat} {c : PromiseCall H B}
    (here : s.promise.threads[i]? = some ⟨c, .count⟩) :
    s.attachments ++ attachmentOf s.promise ⟨c, .count⟩ ≠ [] := by
  have fit := (registrations inv.reached).fitting i c .count here
  cases c with
  | raceSkip => exact List.append_ne_nil_of_right_ne_nil _ (List.cons_ne_nil _ _)
  | awaitSuspend h => exact List.append_ne_nil_of_left_ne_nil (inv.counting i _ here rfl) _
  | await k => exact List.append_ne_nil_of_left_ne_nil (inv.counting i _ here rfl) _
  | _ => cases fit

theorem first_advanced {s : Hop H B} (inv : HopInv s) {i : Nat} {c : PromiseCall H B}
    {pc pc' : PromisePc H B} {u : State Settled H (Continuation B)}
    (here : s.promise.threads[i]? = some ⟨c, pc⟩) (move : Move s.promise i c pc u pc')
    (accepted : s.dispatch = .accepted) {a : Attachment H B} {rest : List (Attachment H B)}
    {x : Target H (Continuation B)}
    (same : s.attachments ++ attachmentOf s.promise ⟨c, pc⟩ = a :: rest)
    (target : a.target = some x) :
    a.inline = false ∧ Registering (u.goto i c pc') x := by
  cases before : s.attachments with
  | cons b more =>
    rw [before, List.cons_append, List.cons.injEq] at same
    obtain ⟨inline, registers⟩ :=
      inv.first accepted b more x before (same.1.symm ▸ target)
    have held := (reached_inv inv.reached).held
    exact ⟨same.1 ▸ inline, registering_move held here move registers⟩
  | nil =>
    have pending := unattached_pending inv accepted before
    rw [before, List.nil_append] at same
    unfold attachmentOf at same
    split at same
    · rename_i d found
      cases found
      cases same
      refine ⟨by rw [pending]; rfl, ?_⟩
      cases move with
      | inline done =>
        rw [pending] at done
        cases done
      | pending =>
        exact .inl ⟨i, c, .count, goto_here rfl here, target, .inl ⟨rfl, inv.counted before⟩⟩
    · cases same
      cases target
    · cases same

theorem inv_thread {s : Hop H B} (inv : HopInv s) {i : Nat} {c : PromiseCall H B}
    {pc pc' : PromisePc H B} {u : State Settled H (Continuation B)}
    (here : s.promise.threads[i]? = some ⟨c, pc⟩) (move : Move s.promise i c pc u pc')
    (reached : Reached (u.goto i c pc')) : HopInv (s.advanced (u.goto i c pc') c pc) := by
  have threads := move_threads move
  have known := registrations inv.reached
  have fit := known.fitting i c pc here
  have grown : s.attachments ≠ [] → s.attachments ++ attachmentOf s.promise ⟨c, pc⟩ ≠ [] :=
    fun some_ => List.append_ne_nil_of_left_ne_nil some_ _
  have used : 0 < s.promise.useCount → s.attachments ≠ [] := by
    intro positive empty
    rw [inv.counted empty] at positive
    exact absurd positive (Nat.lt_irrefl 0)
  constructor
  · exact reached
  · exact (handle_move inv.cleared move : u.handle = false)
  · intro offer
    rw [(inv.early offer).1] at here
    cases here
  · exact inv.accepted
  · intro j d q there isSettle
    rcases goto_lookup threads here there with ⟨rfl, rfl, rfl⟩ | ⟨other, before⟩
    · obtain ⟨o, settled, rfl, phase, emptied⟩ := inv.settles j d pc here isSettle
      have after : Phase u o q := phase_own (by cases o <;> rfl) (settle_plain o) move phase
      have empty : Emptied u q := emptied_own inv.cleared move phase emptied
      exact ⟨o, settled, rfl, after, empty⟩
    · obtain ⟨o, settled, same, phase, emptied⟩ := inv.settles j d q before isSettle
      have idle : settlesAt pc = false := by
        by_contra writes
        obtain ⟨o', settled', -⟩ :=
          inv.settles i c pc here (settles_kind fit (eq_true_of_ne_false writes))
        rw [settled, Option.some.injEq, Prod.mk.injEq] at settled'
        exact other settled'.1
      have after : Phase u o q := phase_other idle move phase
      have empty : Emptied u q := emptied_other move (known.pending i c pc here) phase emptied
      exact ⟨o, settled, same, after, empty⟩
  · intro j o settled
    obtain ⟨q, there⟩ := inv.settling j o settled
    by_cases mine : j = i
    · subst mine
      rw [here] at there
      cases there
      exact ⟨pc', goto_here threads here⟩
    · exact ⟨q, (goto_other threads mine).trans there⟩
  · intro none_
    have idle : settlesAt pc = false := by
      by_contra writes
      obtain ⟨o, settled, -⟩ :=
        inv.settles i c pc here (settles_kind fit (eq_true_of_ne_false writes))
      exact Option.some_ne_none _ (settled.symm.trans none_)
    obtain ⟨rejected, resolved, outcome⟩ := move_unsettling idle move
    obtain ⟨unrejected, unresolved, pending⟩ := inv.unsettled none_
    exact ⟨rejected.trans unrejected, resolved.trans unresolved, outcome.trans pending⟩
  · intro empty
    rcases move_useCount move with same | ⟨rfl, -⟩
    · exact same.trans (inv.counted (List.append_eq_nil_iff.mp empty).1)
    · exact absurd empty (count_attached inv here)
  · intro j d there target
    rcases goto_lookup threads here there with ⟨-, rfl, rfl⟩ | ⟨-, before⟩
    · obtain rfl := move_count target move
      exact List.append_ne_nil_of_right_ne_nil _ (List.cons_ne_nil _ _)
    · exact grown (inv.counting j d before target)
  · intro j worker
    obtain ⟨q, there, awaiting⟩ := inv.waiting j worker
    by_cases mine : j = i
    · subst mine
      rw [here] at there
      cases there
      exact ⟨pc', goto_here threads here,
        awaiting_mono grown (awaiting_move move awaiting used)⟩
    · exact ⟨q, (goto_other threads mine).trans there, awaiting_mono grown awaiting⟩
  · intro j worker
    exact grown (inv.resolving j worker)
  · intro accepted a rest x same target
    exact first_advanced inv here move accepted same target
  · intro j id q there
    have known_ : ∃ a ∈ s.promise.registered, a.id = id ∧ isRace a = true := by
      rcases goto_lookup threads here there with ⟨-, rfl, -⟩ | ⟨-, before⟩
      · exact inv.races i id pc here
      · exact inv.races j id q before
    obtain ⟨a, member, race⟩ := known_
    exact ⟨a, registered_move move member, race⟩
  · intro id gone
    have known_ : ∃ a ∈ s.promise.registered, a.id = id ∧ isRace a = true := by
      rcases removed_move move gone with before | rfl
      · exact inv.withdrawn id before
      · exact inv.races i id pc here
    obtain ⟨a, member, race⟩ := known_
    exact ⟨a, registered_move move member, race⟩

theorem inv_initialHop : HopInv (initialHop : Hop H B) := by
  constructor
  · exact .start ⟨false, [], fun _ => .finished, rfl⟩
  · rfl
  · exact fun _ => ⟨rfl, rfl⟩
  · exact fun busy => absurd rfl busy
  · intro i c pc here
    cases here
  · intro i o settled
    cases settled
  · exact fun _ => ⟨rfl, rfl, rfl⟩
  · exact fun _ => rfl
  · intro i c here
    cases here
  · intro i worker
    cases worker
  · intro i worker
    cases worker
  · intro accepted
    cases accepted
  · intro i id pc here
    cases here
  · intro id gone
    cases gone

theorem offer_queued {s : Hop H B} (inv : HopInv s) (offer : s.dispatch = .offer) :
    s.worker = .queued := by
  by_contra busy
  have accepted := inv.accepted busy
  rw [offer] at accepted
  cases accepted

theorem offer_unsettled {s : Hop H B} (offer : s.dispatch = .offer) : settler s = none := by
  unfold settler
  rw [offer]

theorem inv_accepted {s : Hop H B} (inv : HopInv s) (offer : s.dispatch = .offer) :
    HopInv { s with dispatch := .accepted } := by
  obtain ⟨threads, empty⟩ := inv.early offer
  constructor
  · exact inv.reached
  · exact inv.cleared
  · intro now
    cases now
  · exact fun _ => rfl
  · intro i c pc there
    rw [threads] at there
    cases there
  · intro i o settled
    unfold settler at settled
    rw [offer_queued inv offer] at settled
    cases settled
  · exact fun _ => inv.unsettled (offer_unsettled offer)
  · exact inv.counted
  · exact inv.counting
  · exact inv.waiting
  · exact inv.resolving
  · intro _ a rest x same
    rw [empty] at same
    cases same
  · exact inv.races
  · exact inv.withdrawn

theorem inv_declined {s : Hop H B} (inv : HopInv s) (offer : s.dispatch = .offer) :
    HopInv ({ s with dispatch := .declined s.next }.call (.reject .queueStopped)) := by
  have queued := offer_queued inv offer
  apply inv_pushed (.declined s.next) s.worker inv
  · intro x same
    cases same
  · intro now
    cases now
  · exact fun busy => absurd queued busy
  · intro now
    cases now
  · intro id same
    cases same
  · intro i d pc there isSettle
    rcases push_lookup there with ⟨rfl, rfl, rfl⟩ | before
    · exact ⟨.queueStopped, rfl, rfl, inv.unsettled (offer_unsettled offer), trivial⟩
    · rw [(inv.early offer).1] at before
      cases before
  · intro i o settled
    cases settled
    exact ⟨.rejected, List.getElem?_concat_length⟩
  · exact fun _ => offer_unsettled offer
  · intro i worker
    exact absurd (queued.symm.trans worker) Worker.noConfusion
  · intro i worker
    exact absurd (queued.symm.trans worker) Worker.noConfusion

theorem inv_run {s : Hop H B} (inv : HopInv s) (accepted : s.dispatch = .accepted)
    (queued : s.worker = .queued) :
    HopInv ({ s with worker := .waiting s.next }.call (.waitAwaited (some 0))) := by
  have none_ : settler s = none := by
    unfold settler
    rw [accepted, queued]
  apply inv_pushed s.dispatch (.waiting s.next) inv
  · intro x same
    cases same
  · intro now
    exact absurd (accepted.symm.trans now) Dispatch.noConfusion
  · exact fun _ => accepted
  · exact fun _ => accepted
  · intro id same
    cases same
  · intro i d pc there isSettle
    rcases push_lookup there with ⟨-, rfl, -⟩ | before
    · cases isSettle
    · obtain ⟨o, settled, -⟩ := inv.settles i d pc before isSettle
      exact absurd (none_.symm.trans settled) (Option.some_ne_none _).symm
  · intro i o settled
    unfold settler at settled
    rw [accepted] at settled
    cases settled
  · exact fun _ => none_
  · intro i worker
    cases worker
    exact ⟨.lockShared, List.getElem?_concat_length, trivial⟩
  · intro i worker
    cases worker

theorem inv_resolve {s : Hop H B} (inv : HopInv s) {k : Nat} (worker : s.worker = .waiting k)
    (returned : isReturned s.promise k = true) :
    HopInv ({ s with worker := .resolving s.next }.call (.resolve .resolved false)) := by
  have accepted : s.dispatch = .accepted := inv.accepted (by rw [worker]; exact Worker.noConfusion)
  have none_ : settler s = none := by
    unfold settler
    rw [accepted, worker]
  have attached : s.attachments ≠ [] := by
    obtain ⟨pc, there, awaiting⟩ := inv.waiting k worker
    unfold isReturned at returned
    rw [there] at returned
    cases pc with
    | returned result => exact awaiting
    | _ => cases returned
  have settled : settler { s with worker := .resolving s.next } = some (s.next, .resolved) := by
    unfold settler
    rw [accepted]
  apply inv_pushed s.dispatch (.resolving s.next) inv
  · intro x same
    cases same
  · intro now
    exact absurd (accepted.symm.trans now) Dispatch.noConfusion
  · exact fun _ => accepted
  · exact fun _ => accepted
  · intro id same
    cases same
  · intro i d pc there isSettle
    rcases push_lookup there with ⟨rfl, rfl, rfl⟩ | before
    · exact ⟨.resolved, settled, rfl, (inv.unsettled none_).2, trivial⟩
    · obtain ⟨o, already, -⟩ := inv.settles i d pc before isSettle
      exact absurd (none_.symm.trans already) (Option.some_ne_none _).symm
  · intro i o mine
    rw [settled] at mine
    cases mine
    exact ⟨.exchange, List.getElem?_concat_length⟩
  · exact fun _ => none_
  · intro i now
    cases now
  · exact fun _ _ => attached

theorem returned_after {s : Hop H B} (returned : s.returned = true) : s.dispatch ≠ .offer := by
  intro offer
  unfold Hop.returned at returned
  rw [offer] at returned
  cases returned

theorem inv_ready {s : Hop H B} (inv : HopInv s) (returned : s.dispatch ≠ .offer)
    (done : s.promise.outcome.isSome = true) (h : H) :
    HopInv { s with attachments := s.attachments ++ [⟨some (.coroutine h), true⟩] } := by
  constructor
  · exact inv.reached
  · exact inv.cleared
  · exact fun offer => absurd offer returned
  · exact inv.accepted
  · exact inv.settles
  · exact inv.settling
  · exact inv.unsettled
  · intro empty
    exact absurd empty (List.append_ne_nil_of_right_ne_nil _ (List.cons_ne_nil _ _))
  · intro i c there target
    exact List.append_ne_nil_of_left_ne_nil (inv.counting i c there target) _
  · intro i worker
    obtain ⟨pc, there, awaiting⟩ := inv.waiting i worker
    exact ⟨pc, there,
      awaiting_mono (fun some_ => List.append_ne_nil_of_left_ne_nil some_ _) awaiting⟩
  · intro i worker
    exact List.append_ne_nil_of_left_ne_nil (inv.resolving i worker) _
  · intro accepted a rest x same target
    cases before : s.attachments with
    | nil =>
      rw [unattached_pending inv accepted before] at done
      cases done
    | cons b more =>
      rw [before, List.cons_append, List.cons.injEq] at same
      exact same.1 ▸ inv.first accepted b more x before (same.1.symm ▸ target)
  · exact inv.races
  · exact inv.withdrawn

theorem inv_wake {s : Hop H B} (inv : HopInv s) {i : Nat} {p : State Settled H (Continuation B)}
    (taken : step s.promise (.wake i) = some p) : HopInv { s with promise := p } := by
  have reached : Reached p := .next inv.reached taken
  cases step_change taken with
  | wake i sleeps after =>
    subst after
    exact ⟨reached, inv.cleared, inv.early, inv.accepted, inv.settles,
      inv.settling, inv.unsettled, inv.counted, inv.counting, inv.waiting, inv.resolving,
      inv.first, inv.races, inv.withdrawn⟩

theorem inv_hopStep {s t : Hop H B} {l : Label H B} (inv : HopInv s)
    (taken : hopStep s l = some t) : HopInv t := by
  have attaches : ∀ {c : PromiseCall H B}, kind c ≠ .settle → (∀ id, c ≠ .unAwait id) →
      s.dispatch ≠ .offer → HopInv (s.call c) := fun caller other returned =>
    inv_call inv returned caller fun id same => absurd same (other id)
  cases l with
  | pool accepted =>
    cases accepted <;> simp only [hopStep] at taken <;> split at taken <;> cases taken
    · exact inv_declined inv ‹_›
    · exact inv_accepted inv ‹_›
  | run =>
    simp only [hopStep] at taken
    split at taken <;> cases taken
    rename_i free
    exact inv_run inv free.1 free.2
  | resolve =>
    simp only [hopStep] at taken
    split at taken
    · split at taken <;> cases taken
      exact inv_resolve inv ‹_› ‹_›
    · cases taken
  | coAwait h =>
    simp only [hopStep] at taken
    split at taken
    · rename_i free
      have returned := returned_after free.1
      split at taken <;> cases taken
      · exact inv_ready inv returned ‹_› h
      · exact attaches Kind.noConfusion (by simp) returned
    · cases taken
  | unAwait id =>
    simp only [hopStep] at taken
    split at taken <;> cases taken
    rename_i known
    obtain ⟨returned, some_⟩ := Bool.and_eq_true_iff.mp known
    obtain ⟨a, member, facts⟩ := List.any_eq_true.mp some_
    obtain ⟨same, race⟩ := Bool.and_eq_true_iff.mp facts
    apply inv_call inv (returned_after returned) Kind.noConfusion
    intro id' call
    cases call
    exact ⟨a, member, eq_of_beq same, race⟩
  | step i =>
    simp only [hopStep] at taken
    split at taken
    · obtain ⟨p, next, same⟩ := Option.map_eq_some_iff.mp taken
      subst same
      have reached : Reached p := .next inv.reached next
      cases step_change next with
      | step i c pc pc' u here move after =>
        subst after
        rename_i x found
        rw [here] at found
        cases found
        exact inv_thread inv here move reached
    · cases taken
  | wake i =>
    obtain ⟨p, next, same⟩ := Option.map_eq_some_iff.mp taken
    subst same
    exact inv_wake inv next
  | attach | raceSkip | waitDone | waitAwaited =>
    simp only [hopStep] at taken
    split at taken <;> cases taken
    exact attaches Kind.noConfusion (by simp) (returned_after ‹_›)

theorem reachedHop_inv {s : Hop H B} (reached : ReachedHop s) : HopInv s := by
  induction reached with
  | start init => exact init ▸ inv_initialHop
  | next _ taken ih => exact inv_hopStep ih taken

theorem settled_outcome {s : Hop H B} (inv : HopInv s) {k : Nat} {o : Settled}
    (settles : settler s = some (k, o)) (returned : isReturned s.promise k = true) :
    s.promise.outcome = some o ∧ s.promise.awaiters = [] ∧
      ∃ result, s.promise.threads[k]? = some ⟨settleCall o, .returned result⟩ := by
  obtain ⟨pc, here⟩ := inv.settling k o settles
  have settling : kind (settleCall o : PromiseCall H B) = .settle := by cases o <;> rfl
  obtain ⟨o', settles', -, phase, emptied⟩ := inv.settles k _ pc here settling
  rw [settles, Option.some.injEq, Prod.mk.injEq] at settles'
  obtain ⟨-, rfl⟩ := settles'
  unfold isReturned at returned
  rw [here] at returned
  cases pc with
  | returned result => exact ⟨phase.2, emptied, result, here⟩
  | _ => cases returned

theorem first_run {s : Hop H B} (inv : HopInv s) {k : Nat} {o : Settled}
    (settles : settler s = some (k, o)) (returned : isReturned s.promise k = true)
    {x : Target H (Continuation B)} (registers : Registering s.promise x) :
    ⟨x, 1⟩ ∈ s.promise.invoked ∨
      isRace (⟨x, 1⟩ : Awaiter H (Continuation B)) = true ∧ 1 ∈ s.promise.removed := by
  have known := registrations inv.reached
  obtain ⟨done, empty, result, here⟩ := settled_outcome inv settles returned
  have nobody : s.promise.outcome ≠ none := by
    rw [done]
    exact Option.some_ne_none o
  rcases registers with ⟨i, d, pc, there, target, turn⟩ | member
  · have inside : registering pc = true := by
      rcases turn with ⟨rfl, -⟩ | ⟨inside, -⟩
      · rfl
      · exact counted_registering inside
    exact absurd (known.pending i d pc there inside (by rw [target]; rfl)) nobody
  · rcases known.delivered _ member with waits | ⟨j, d, site, todo, there, -⟩ | ran | gone
    · rw [empty] at waits
      cases waits
    · have flushes : kind d = .settle := eq_of_beq (known.fitting j d _ there)
      obtain ⟨o', settles', -⟩ := inv.settles j d _ there flushes
      rw [settles, Option.some.injEq, Prod.mk.injEq] at settles'
      rw [← settles'.1, here] at there
      cases there
    · exact .inl ran
    · obtain ⟨b, other, id, race⟩ := inv.withdrawn 1 gone
      have same : ⟨x, 1⟩ = b := ids_unique known member other id.symm
      exact .inr ⟨same ▸ race, gone⟩

def Hop.resolved (s : Hop H B) : Bool :=
  match s.worker with
  | .resolving i => isReturned s.promise i
  | _ => false

theorem invoked_by_task {s t : Hop H B} (inv : HopInv s) (accepted : s.dispatch = .accepted)
    {l : Label H B} (taken : hopStep s l = some t)
    (ran : t.promise.invoked ≠ s.promise.invoked) :
    ∃ i, s.worker = .resolving i ∧ l = .step i := by
  cases l with
  | pool accepted =>
    cases accepted <;> simp only [hopStep] at taken <;> split at taken <;> cases taken <;>
      exact absurd rfl ran
  | resolve =>
    simp only [hopStep] at taken
    split at taken
    · split at taken <;> cases taken
      exact absurd rfl ran
    · cases taken
  | coAwait h =>
    simp only [hopStep] at taken
    split at taken
    · split at taken <;> cases taken <;> exact absurd rfl ran
    · cases taken
  | step i =>
    simp only [hopStep] at taken
    split at taken
    · rename_i x found
      obtain ⟨p, next, same⟩ := Option.map_eq_some_iff.mp taken
      subst same
      cases step_change next with
      | step i c pc pc' u here move after =>
        subst after
        rcases move_invoked move with same | ⟨site, b, rest, rfl, -, -⟩
        · exact absurd same ran
        · have fit := (registrations inv.reached).fitting i c _ here
          obtain ⟨o, settled, -⟩ := inv.settles i c _ here (eq_of_beq fit)
          exact ⟨i, (settler_accepted accepted settled).1, rfl⟩
    · cases taken
  | wake i =>
    obtain ⟨p, next, same⟩ := Option.map_eq_some_iff.mp taken
    subst same
    cases step_change next with
    | wake i sleeps after =>
      subst after
      exact absurd rfl ran
  | _ =>
    simp only [hopStep] at taken
    split at taken <;> cases taken
    exact absurd rfl ran

/-- In every interleaving: an accepted task's promise is not resolved before something has been
    attached; the first attachment, unless it is a race that is over, finds the promise pending,
    becomes its first awaiter and is run by the task's resolve call, or withdrawn by its own race;
    nothing else runs an awaiter. Without a task the promise is rejected with `QueueStopped`. -/
theorem queue_hop {s : Hop H B} (reached : ReachedHop s) :
    (s.dispatch = .accepted →
      (s.promise.outcome.isSome = true → s.attachments ≠ []) ∧
      (∀ a rest x, s.attachments = a :: rest → a.target = some x →
        a.inline = false ∧ Registering s.promise x ∧
        (s.resolved = true → ⟨x, 1⟩ ∈ s.promise.invoked ∨
          isRace (⟨x, 1⟩ : Awaiter H (Continuation B)) = true ∧ 1 ∈ s.promise.removed)) ∧
      ∀ l t, hopStep s l = some t → t.promise.invoked ≠ s.promise.invoked →
        ∃ i, s.worker = .resolving i ∧ l = .step i) ∧
    ∀ i, s.dispatch = .declined i → isReturned s.promise i = true →
      s.promise.outcome = some .queueStopped := by
  have inv := reachedHop_inv reached
  constructor
  · intro accepted
    refine ⟨?_, ?_, ?_⟩
    · intro done empty
      rw [unattached_pending inv accepted empty] at done
      cases done
    · intro a rest x same target
      obtain ⟨inline, registers⟩ := inv.first accepted a rest x same target
      refine ⟨inline, registers, ?_⟩
      intro resolved
      unfold Hop.resolved at resolved
      split at resolved
      · rename_i i worker
        have settles : settler s = some (i, .resolved) := by
          unfold settler
          rw [accepted, worker]
        exact first_run inv settles resolved registers
      · cases resolved
    · exact fun l t taken ran => invoked_by_task inv accepted taken ran
  · intro i declined returned
    have settles : settler s = some (i, .queueStopped) := by
      unfold settler
      rw [declined]
    exact (settled_outcome inv settles returned).1

/-- The task sleeps in `WaitAwaited`, a `Then` wakes it, and the resolve call runs it. -/
def hopRun : List (Label Unit Nat) :=
  [.pool true, .run, .step 0, .step 0, .step 0, .step 0, .attach ⟨.then_, 5⟩, .step 1, .step 1,
    .step 1, .step 1, .step 1, .step 0, .step 0, .resolve, .step 2, .step 2, .step 2, .step 2,
    .step 2, .step 2, .step 2, .step 2]

theorem queue_hop_then : ∃ s : Hop Unit Nat, run hopStep initialHop hopRun = some s ∧
    (⟨.function ⟨.then_, 5⟩, 1⟩ : Awaiter Unit (Continuation Nat)) ∈ s.promise.invoked := by
  have facts : (run hopStep initialHop hopRun).map
      (fun s => (s.dispatch, s.attachments, s.resolved)) =
      some (.accepted, [⟨some (.function ⟨.then_, 5⟩), false⟩], true) := by decide
  obtain ⟨s, taken, same⟩ := Option.map_eq_some_iff.mp facts
  simp only [Prod.mk.injEq] at same
  obtain ⟨accepted, attachments, resolved⟩ := same
  have reached : ReachedHop s := run_reachable (.start rfl) taken
  obtain ⟨-, -, ran⟩ :=
    ((queue_hop reached).1 accepted).2.1 _ _ (.function ⟨.then_, 5⟩) attachments rfl
  refine ⟨s, taken, (ran resolved).resolve_right ?_⟩
  intro withdrawn
  exact Bool.noConfusion withdrawn.1

/-- A pending race attaches first and is settled by another promise before the task resolves. -/
def withdrawnRun : List (Label Unit Nat) :=
  [.pool true, .run, .attach ⟨.race, 5⟩, .step 1, .step 1, .step 1, .step 1, .step 1,
    .unAwait 1, .step 2, .step 2, .step 0, .step 0, .step 0, .resolve, .step 3, .step 3, .step 3,
    .step 3, .step 3, .step 3, .step 3]

/-- Then the resolve call does not run the first awaiter. -/
theorem queue_hop_withdrawn : ¬ ∀ (s : Hop Unit Nat), ReachedHop s → s.dispatch = .accepted →
    ∀ a rest x, s.attachments = a :: rest → a.target = some x → s.resolved = true →
      ⟨x, 1⟩ ∈ s.promise.invoked := by
  intro claim
  have facts : (run hopStep initialHop withdrawnRun).map
      (fun s => (s.dispatch, s.attachments, s.resolved && s.promise.invoked.isEmpty)) =
      some (.accepted, [⟨some (.function ⟨.race, 5⟩), false⟩], true) := by decide
  obtain ⟨s, taken, same⟩ := Option.map_eq_some_iff.mp facts
  simp only [Prod.mk.injEq] at same
  obtain ⟨accepted, attachments, both⟩ := same
  obtain ⟨resolved, nothing⟩ := Bool.and_eq_true_iff.mp both
  have reached : ReachedHop s := run_reachable (.start rfl) taken
  have ran := claim s reached accepted _ _ (.function ⟨.race, 5⟩) attachments rfl resolved
  rw [List.isEmpty_iff.mp nothing] at ran
  cases ran

end QueueHop
