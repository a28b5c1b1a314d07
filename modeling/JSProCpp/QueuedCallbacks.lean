import JSProCpp.WaitRegistrations

/-
`Proxy::operator()` of the message queue: the coroutine that queues the callback, the holder
that owns the `Resolve` and `Reject` handles, and the queue that runs the callback at any later
time with references to them. A call of a handle reads the handle object until it is past the
resolver's flag: `resolver_` of a `Resolve`, `rejected_` and `impl_` of a `Reject`. The promise
state takes the steps of `WaitSets`; whoever has the returned promise may attach to it and wait
for it.
-/
namespace QueuedCallbacks
open Transitions Monitors WaitSets WaitRegistrations
open SharedPromise (Site)
variable {V E H F : Type}

/-- What is stored; `notRunning` is the error of a queue that refuses the callback. -/
inductive Outcome (V E : Type) where
  | value (v : V)
  | exception (e : E)
  | notRunning
  deriving DecidableEq

/-- The end of `callback(details_)`. `fails`: building the stored value throws. -/
inductive Result (V E : Type) where
  | returns (v : V) (fails : Option E)
  | raises (e : E)
  deriving DecidableEq

inductive Callback (V E : Type) where
  | unasked
  | refused (j : Nat)
  | queued
  | running
  | settling (j : Nat) (r : Result V E)
  | rejecting (j : Nat) (r : Result V E)
  -- It has called a handle that is destroyed.
  | dangling
  deriving DecidableEq

inductive Create where
  | body
  | finishing (i : Nat)
  | returned
  deriving DecidableEq

structure Proxy (V E H F : Type) where
  promise : State (Outcome V E) H F
  create : Create
  -- `function_` owns the handles.
  holder : Bool
  -- The local variables `resolve` and `reject` of `CreateImpl` own the handles.
  locals : Bool
  callback : Callback V E

inductive Label (V E H F : Type) where
  | ensure (accepted : Bool)
  | coReturn
  | createReturns
  | start
  | finish (r : Result V E)
  | catch_
  | call (c : Call (Outcome V E) H F)
  | step (i : Nat)
  | wake (i : Nat)
  deriving DecidableEq

def Result.outcome : Result V E → Outcome V E
  | .returns v _ => .value v
  | .raises e => .exception e

def Result.fails : Result V E → Bool
  | .returns _ fails => fails.isSome
  | .raises _ => false

def Result.call : Result V E → Call (Outcome V E) H F
  | .returns v fails => .resolve (.value v) fails.isSome
  | .raises e => .reject (.exception e)

def Proxy.owned (s : Proxy V E H F) : Bool := s.holder || s.locals

def Proxy.next (s : Proxy V E H F) : Nat := s.promise.threads.length

def Proxy.call (s : Proxy V E H F) (c : Call (Outcome V E) H F) : Option (Proxy V E H F) :=
  (WaitSets.step s.promise (.call c)).map fun p => { s with promise := p }

/-- `function_ = nullptr` releases `reject_` and `resolve_` first. -/
def drops : Pc H F → Bool
  | .scopeClear _ => true
  | _ => false

/-- Thread `i` is inside a call of a handle and has not read all that it reads of the handle. -/
def unread (s : State (Outcome V E) H F) (i : Nat) : Bool :=
  match s.threads[i]? with
  | some ⟨_, .rejected⟩ | some ⟨_, .exchange⟩ => true
  | _ => false

def hasThrown (s : State (Outcome V E) H F) (i : Nat) : Bool :=
  match s.threads[i]? with
  | some ⟨_, .threw⟩ => true
  | _ => false

/-- The call starts with its coroutine in `handle_()`. -/
def fresh : Proxy V E H F :=
  ⟨initial true [] fun _ => .finished, .body, true, true, .unasked⟩

/-- The statement of thread `i` reads the handle that the callback has called. -/
def Proxy.reads (s : Proxy V E H F) (i : Nat) : Bool :=
  match s.callback with
  | .settling j _ | .rejecting j _ => i == j && unread s.promise j
  | _ => false

/-- The callback will still read a handle: it has not called one yet, the call has not read it, or
    the call throws and the `catch` block calls `reject`. -/
def Proxy.uses (s : Proxy V E H F) : Bool :=
  match s.callback with
  | .running => true
  | .settling j r => unread s.promise j || (r.fails && !isReturned s.promise j)
  | .rejecting j _ => unread s.promise j
  | _ => false

def Proxy.atEnd (s : Proxy V E H F) : Bool :=
  match s.create, s.callback with
  | .body, .unasked => false
  | .body, .refused j => isReturned s.promise j
  | .body, _ => true
  | _, _ => false

def proxyStep (s : Proxy V E H F) : Label V E H F → Option (Proxy V E H F)
  | .ensure accepted =>
      match s.callback with
      | .unasked =>
          if accepted then some { s with callback := .queued }
          else { s with callback := .refused s.next }.call (.reject .notRunning)
      | _ => none
  | .coReturn =>
      if s.atEnd then { s with create := .finishing s.next }.call (.finalSuspend none) else none
  | .createReturns =>
      match s.create with
      | .finishing i =>
          if isReturned s.promise i then some { s with create := .returned, locals := false }
          else none
      | _ => none
  | .start =>
      match s.callback with
      | .queued => some { s with callback := .running }
      | _ => none
  | .finish r =>
      match s.callback with
      | .running =>
          if s.owned then { s with callback := .settling s.next r }.call r.call
          else some { s with callback := .dangling }
      | _ => none
  | .catch_ =>
      match s.callback with
      | .settling j (.returns v (some e)) =>
          if hasThrown s.promise j then
            if s.owned then
              { s with callback := .rejecting s.next (.returns v (some e)) }.call
                (.reject (.exception e))
            else some { s with callback := .dangling }
          else none
      | _ => none
  | .call c => if s.create = .returned ∧ kind c ≠ .settle then s.call c else none
  | .step i =>
      match s.promise.threads[i]? with
      | some x =>
          if s.reads i && !s.owned then some { s with callback := .dangling }
          else (WaitSets.step s.promise (.step i)).map fun p =>
            { s with promise := p, holder := s.holder && !drops x.pc }
      | none => none
  | .wake i => (WaitSets.step s.promise (.wake i)).map fun p => { s with promise := p }

structure Kept (s : Proxy V E H F) : Prop where
  owned : s.uses = true → s.owned = true
  intact : s.callback ≠ .dangling
  settled : ∀ j r, s.callback = .settling j r →
    isReturned s.promise j = true ∨ hasThrown s.promise j = true →
      s.promise.outcome = some r.outcome

def settler (s : Proxy V E H F) : Option (Nat × Call (Outcome V E) H F) :=
  match s.callback with
  | .refused j => some (j, .reject .notRunning)
  | .settling j r => some (j, r.call)
  | _ => none

def sound : Callback V E → Bool
  | .rejecting _ _ | .dangling => false
  | _ => true

def finalPc : Pc H F → Bool
  | .scopeLock _ | .scopeClear _ | .scopeDestroy _ _ | .scopeWait _ _ _ | .scopeNotify _
  | .scopeDone _ | .onResolved (.scopeExit _) | .notify (.scopeExit _) | .swap (.scopeExit _)
  | .flush (.scopeExit _) _ | .returned _ => true
  | _ => false

def beforeDrop : Pc H F → Bool
  | .scopeLock _ | .scopeClear _ => true
  | _ => false

structure Inv (s : Proxy V E H F) : Prop where
  reached : Reached s.promise
  sound : sound s.callback = true
  locals : s.create ≠ .returned → s.locals = true
  gone : s.create = .returned → s.owned = false
  finals : ∀ (i : Nat) (d : Option (Outcome V E)) (pc : Pc H F),
    s.promise.threads[i]? = some ⟨.finalSuspend d, pc⟩ →
      d = none ∧ finalPc pc = true ∧ (beforeDrop pc = false → s.holder = false)
  finishing : ∀ i, s.create = .finishing i →
    ∃ pc : Pc H F, s.promise.threads[i]? = some ⟨.finalSuspend none, pc⟩
  settles : ∀ (i : Nat) (c : Call (Outcome V E) H F) (pc : Pc H F),
    s.promise.threads[i]? = some ⟨c, pc⟩ → kind c = .settle → (∀ d, c ≠ .finalSuspend d) →
      settler s = some (i, c) ∧ ∃ o, c.payload = some o ∧ Phase s.promise o pc
  settling : ∀ (i : Nat) (c : Call (Outcome V E) H F), settler s = some (i, c) →
    ∃ pc : Pc H F, s.promise.threads[i]? = some ⟨c, pc⟩
  unsettled : settler s = none → s.promise.rejected = false ∧ s.promise.resolved = false ∧
    s.promise.outcome = none

theorem result_call (r : Result V E) : kind (r.call : Call (Outcome V E) H F) = .settle ∧
    (∀ d, (r.call : Call (Outcome V E) H F) ≠ .finalSuspend d) ∧
    (r.call : Call (Outcome V E) H F).payload = some r.outcome := by
  cases r <;> exact ⟨rfl, by simp [Result.call], rfl⟩

theorem final_move {s u : State (Outcome V E) H F} {i : Nat} {pc pc' : Pc H F}
    (move : Move s i (.finalSuspend none) pc u pc') (final : finalPc pc = true) :
    finalPc pc' = true ∧ (beforeDrop pc' = false → beforeDrop pc = false ∨ drops pc = true) := by
  cases move with
  | scopeLock => exact ⟨rfl, fun passed => nomatch passed⟩
  | scopeClear => exact ⟨rfl, fun _ => .inr rfl⟩
  | destroyWait | destroySkip | destroyResume | destroyed | scopeNotify | scopeDone
  | scopePending => exact ⟨rfl, fun _ => .inl rfl⟩
  | noFlush site | flushed site | done site | notify site | swap site | invoke site =>
    cases site with
    | settle => cases final
    | scopeExit won => exact ⟨rfl, fun _ => .inl rfl⟩
  | _ => cases final

theorem final_idle {pc : Pc H F} (final : finalPc pc = true) : settlesAt pc = false := by
  cases pc <;> first | rfl | cases final

theorem writer_settles {s : Proxy V E H F} (inv : Inv s) {i : Nat}
    {c : Call (Outcome V E) H F} {pc : Pc H F} (here : s.promise.threads[i]? = some ⟨c, pc⟩)
    (writes : settlesAt pc = true) : settler s = some (i, c) := by
  have settling := settles_kind ((registrations inv.reached).fitting i c pc here) writes
  apply (inv.settles i c pc here settling _).1
  intro d same
  subst same
  rw [final_idle (inv.finals i d pc here).2.1] at writes
  cases writes

theorem inv_thread {s : Proxy V E H F} (inv : Inv s) {i : Nat} {c : Call (Outcome V E) H F}
    {pc pc' : Pc H F} {u : State (Outcome V E) H F}
    (here : s.promise.threads[i]? = some ⟨c, pc⟩) (move : Move s.promise i c pc u pc')
    (reached : Reached (u.goto i c pc')) :
    Inv { s with promise := u.goto i c pc', holder := s.holder && !drops pc } := by
  have threads := move_threads move
  have dropped : s.holder = false → (s.holder && !drops pc) = false := by
    intro none_
    rw [none_]
    rfl
  constructor
  · exact reached
  · exact inv.sound
  · exact inv.locals
  · intro returned
    obtain ⟨noHolder, noLocals⟩ := Bool.or_eq_false_iff.mp (inv.gone returned)
    exact Bool.or_eq_false_iff.mpr ⟨dropped noHolder, noLocals⟩
  · intro j d q there
    rcases goto_lookup threads here there with ⟨-, rfl, rfl⟩ | ⟨-, before⟩
    · obtain ⟨rfl, final, passed⟩ := inv.finals i d pc here
      obtain ⟨after, drop⟩ := final_move move final
      refine ⟨rfl, after, ?_⟩
      intro now
      rcases drop now with already | drops_
      · exact dropped (passed already)
      · show (s.holder && !drops pc) = false
        rw [drops_]
        exact Bool.and_false _
    · obtain ⟨none_, final, passed⟩ := inv.finals j d q before
      exact ⟨none_, final, fun now => dropped (passed now)⟩
  · intro j finishing
    obtain ⟨q, there⟩ := inv.finishing j finishing
    by_cases mine : j = i
    · subst mine
      rw [here] at there
      cases there
      exact ⟨pc', goto_here threads here⟩
    · exact ⟨q, (goto_other threads mine).trans there⟩
  · intro j d q there isSettle plain
    rcases goto_lookup threads here there with ⟨rfl, rfl, rfl⟩ | ⟨other, before⟩
    · obtain ⟨settled, o, payload, phase⟩ := inv.settles j d pc here isSettle plain
      have after : Phase u o q := phase_own payload plain move phase
      exact ⟨settled, o, payload, after⟩
    · obtain ⟨settled, o, payload, phase⟩ := inv.settles j d q before isSettle plain
      have idle : settlesAt pc = false := by
        by_contra writes
        have mine := writer_settles inv here (eq_true_of_ne_false writes)
        rw [settled, Option.some.injEq, Prod.mk.injEq] at mine
        exact other mine.1
      have after : Phase u o q := phase_other idle move phase
      exact ⟨settled, o, payload, after⟩
  · intro j d settled
    obtain ⟨q, there⟩ := inv.settling j d settled
    by_cases mine : j = i
    · subst mine
      rw [here] at there
      cases there
      exact ⟨pc', goto_here threads here⟩
    · exact ⟨q, (goto_other threads mine).trans there⟩
  · intro none_
    have idle : settlesAt pc = false := by
      by_contra writes
      have mine := writer_settles inv here (eq_true_of_ne_false writes)
      exact Option.some_ne_none _ (mine.symm.trans none_)
    obtain ⟨rejected, resolved, outcome⟩ := move_unsettling idle move
    obtain ⟨unrejected, unresolved, pending⟩ := inv.unsettled none_
    exact ⟨rejected.trans unrejected, resolved.trans unresolved, outcome.trans pending⟩

/-- A new call, with what it changes for the coroutine and the callback. -/
theorem inv_call {s t : Proxy V E H F} (k : Create) (b : Callback V E)
    {c : Call (Outcome V E) H F} (inv : Inv s)
    (taken : { s with create := k, callback := b }.call c = some t) (honest : sound b = true)
    (stays : k = .returned ↔ s.create = .returned)
    (final : ∀ d, c = .finalSuspend d → d = none)
    (finishing : ∀ i, k = .finishing i →
      s.create = .finishing i ∨ i = s.next ∧ c = .finalSuspend none)
    (claims : kind c = .settle → (∀ d, c ≠ .finalSuspend d) →
      settler { s with create := k, callback := b } = some (s.next, c) ∧
        ∃ o, c.payload = some o ∧ Phase s.promise o c.entry)
    (keeps : ∀ x, settler s = some x → settler { s with create := k, callback := b } = some x)
    (adds : ∀ i d, settler { s with create := k, callback := b } = some (i, d) →
      settler s = some (i, d) ∨ i = s.next ∧ d = c)
    (unsettled : settler { s with create := k, callback := b } = none → settler s = none) :
    Inv t := by
  obtain ⟨p, next, same⟩ := Option.map_eq_some_iff.mp taken
  subst same
  have reached : Reached p := .next inv.reached next
  cases step_change next with
  | call c u before after =>
    subst after
    have threads : u.threads = s.promise.threads := by
      rcases before with rfl | rfl <;> rfl
    have flags : u.rejected = s.promise.rejected ∧ u.resolved = s.promise.resolved ∧
        u.outcome = s.promise.outcome := by
      rcases before with rfl | rfl <;> exact ⟨rfl, rfl, rfl⟩
    have lookup : ∀ {j : Nat} {d : Call (Outcome V E) H F} {pc : Pc H F},
        (u.push c).threads[j]? = some ⟨d, pc⟩ →
        (j = s.next ∧ d = c ∧ pc = c.entry) ∨ s.promise.threads[j]? = some ⟨d, pc⟩ := by
      intro j d pc there
      have found := push_lookup there
      rw [threads] at found
      exact found
    have still : ∀ {j : Nat} {x : Thread (Outcome V E) H F}, s.promise.threads[j]? = some x →
        (u.push c).threads[j]? = some x := by
      intro j x there
      exact lookup_append (threads.symm ▸ there) _
    have last : (u.push c).threads[s.next]? = some ⟨c, c.entry⟩ := by
      unfold State.push Proxy.next
      rw [threads]
      exact List.getElem?_concat_length
    constructor
    · exact reached
    · exact honest
    · exact fun running => inv.locals fun returned => running (stays.mpr returned)
    · exact fun returned => inv.gone (stays.mp returned)
    · intro i d pc there
      rcases lookup there with ⟨-, same, rfl⟩ | old
      · obtain rfl := final d same.symm
        rw [← same]
        exact ⟨rfl, rfl, fun passed => nomatch passed⟩
      · exact inv.finals i d pc old
    · intro i now
      rcases finishing i now with old | ⟨rfl, rfl⟩
      · obtain ⟨pc, there⟩ := inv.finishing i old
        exact ⟨pc, still there⟩
      · exact ⟨_, last⟩
    · intro i d pc there isSettle plain
      rcases lookup there with ⟨rfl, rfl, rfl⟩ | old
      · obtain ⟨settled, o, payload, phase⟩ := claims isSettle plain
        have after : Phase u o d.entry := phase_same flags.1 flags.2.1 flags.2.2 phase
        exact ⟨settled, o, payload, after⟩
      · obtain ⟨settled, o, payload, phase⟩ := inv.settles i d pc old isSettle plain
        have after : Phase u o pc := phase_same flags.1 flags.2.1 flags.2.2 phase
        exact ⟨keeps _ settled, o, payload, after⟩
    · intro i d settled
      rcases adds i d settled with old | ⟨rfl, rfl⟩
      · obtain ⟨pc, there⟩ := inv.settling i d old
        exact ⟨pc, still there⟩
      · exact ⟨_, last⟩
    · intro none_
      obtain ⟨unrejected, unresolved, pending⟩ := inv.unsettled (unsettled none_)
      exact ⟨flags.1.trans unrejected, flags.2.1.trans unresolved, flags.2.2.trans pending⟩

theorem settling_phase {s : Proxy V E H F} (inv : Inv s) {j : Nat} {r : Result V E}
    (settling : s.callback = .settling j r) :
    ∃ pc : Pc H F, s.promise.threads[j]? = some ⟨r.call, pc⟩ ∧ Phase s.promise r.outcome pc := by
  obtain ⟨isSettle, plain, payload⟩ := result_call (H := H) (F := F) r
  have mine : settler s = some (j, r.call) := by
    unfold settler
    rw [settling]
  obtain ⟨pc, here⟩ := inv.settling j _ mine
  obtain ⟨-, o, payload', phase⟩ := inv.settles j _ pc here isSettle plain
  rw [payload, Option.some.injEq] at payload'
  exact ⟨pc, here, payload'.symm ▸ phase⟩

theorem kept_whole {s : Proxy V E H F} (inv : Inv s) (kept : Kept s) {j : Nat} {r : Result V E}
    (settling : s.callback = .settling j r) : hasThrown s.promise j = false := by
  by_contra thrown
  have stored := kept.settled j r settling (.inr (eq_true_of_ne_false thrown))
  obtain ⟨pc, here, phase⟩ := settling_phase inv settling
  unfold hasThrown at thrown
  rw [here] at thrown
  cases pc with
  | threw => exact Option.some_ne_none _ (stored.symm.trans phase)
  | _ => exact thrown rfl

theorem inv_begun {s : Proxy V E H F} (inv : Inv s) {b : Callback V E} (honest : sound b = true)
    (before : settler s = none) (after : settler { s with callback := b } = none) :
    Inv { s with callback := b } := by
  constructor
  · exact inv.reached
  · exact honest
  · exact inv.locals
  · exact inv.gone
  · exact inv.finals
  · exact inv.finishing
  · intro i c pc here isSettle plain
    have settled := (inv.settles i c pc here isSettle plain).1
    exact absurd (settled.symm.trans before) (Option.some_ne_none _)
  · intro i c settled
    exact absurd (settled.symm.trans after) (Option.some_ne_none _)
  · exact fun _ => inv.unsettled before

theorem inv_returned {s : Proxy V E H F} (inv : Inv s) {i : Nat}
    (finishing : s.create = .finishing i) (ended : isReturned s.promise i = true) :
    Inv { s with create := .returned, locals := false } := by
  have dropped : s.holder = false := by
    obtain ⟨pc, here⟩ := inv.finishing i finishing
    unfold isReturned at ended
    rw [here] at ended
    cases pc with
    | returned won => exact (inv.finals i none _ here).2.2 rfl
    | _ => cases ended
  constructor
  · exact inv.reached
  · exact inv.sound
  · exact fun running => absurd rfl running
  · exact fun _ => Bool.or_eq_false_iff.mpr ⟨dropped, rfl⟩
  · exact inv.finals
  · intro i now
    cases now
  · exact inv.settles
  · exact inv.settling
  · exact inv.unsettled

section Uses
variable {s t : Proxy V E H F}

theorem reads_uses {i : Nat} (reads : s.reads i = true) : s.uses = true := by
  unfold Proxy.reads at reads
  unfold Proxy.uses
  split at reads
  · rename_i j r settling
    rw [settling]
    exact Bool.or_eq_true_iff.mpr (.inl (Bool.and_eq_true_iff.mp reads).2)
  · rename_i j r rejecting
    rw [rejecting]
    exact (Bool.and_eq_true_iff.mp reads).2
  · cases reads

end Uses

inductive Change (s t : Proxy V E H F) : Label V E H F → Prop where
  | accepted (unasked : s.callback = .unasked) (after : t = { s with callback := .queued }) :
      Change s t (.ensure true)
  | refused (unasked : s.callback = .unasked)
      (taken : Proxy.call { s with callback := .refused s.next } (.reject .notRunning) = some t) :
      Change s t (.ensure false)
  | coReturn (body : s.create = .body)
      (taken : Proxy.call { s with create := .finishing s.next } (.finalSuspend none) = some t) :
      Change s t .coReturn
  | createReturns (i : Nat) (finishing : s.create = .finishing i)
      (ended : isReturned s.promise i = true)
      (after : t = { s with create := .returned, locals := false }) : Change s t .createReturns
  | start (queued : s.callback = .queued) (after : t = { s with callback := .running }) :
      Change s t .start
  | finish (r : Result V E) (running : s.callback = .running)
      (taken : Proxy.call { s with callback := .settling s.next r } r.call = some t) :
      Change s t (.finish r)
  | call (c : Call (Outcome V E) H F) (mine : kind c ≠ .settle) (taken : s.call c = some t) :
      Change s t (.call c)
  | step (i : Nat) (c : Call (Outcome V E) H F) (pc pc' : Pc H F) (u : State (Outcome V E) H F)
      (here : s.promise.threads[i]? = some ⟨c, pc⟩) (move : Move s.promise i c pc u pc')
      (next : WaitSets.step s.promise (.step i) = some (u.goto i c pc'))
      (after : t = { s with promise := u.goto i c pc', holder := s.holder && !drops pc }) :
      Change s t (.step i)
  | wake (i : Nat) (sleeps : i ∈ s.promise.cv)
      (next : WaitSets.step s.promise (.wake i) =
        some { s.promise with cv := s.promise.cv.filter (· != i) })
      (after : t = { s with promise := { s.promise with cv := s.promise.cv.filter (· != i) } }) :
      Change s t (.wake i)

theorem proxy_change {s t : Proxy V E H F} {l : Label V E H F} (inv : Inv s) (kept : Kept s)
    (taken : proxyStep s l = some t) : Change s t l := by
  cases l with
  | ensure accepted =>
    simp only [proxyStep] at taken
    split at taken
    · cases accepted with
      | true => exact .accepted ‹_› (Option.some.inj taken).symm
      | false => exact .refused ‹_› taken
    · cases taken
  | coReturn =>
    simp only [proxyStep] at taken
    split at taken
    · rename_i ended
      apply Change.coReturn _ taken
      unfold Proxy.atEnd at ended
      cases create : s.create with
      | body => rfl
      | _ => simp [create] at ended
    · cases taken
  | createReturns =>
    simp only [proxyStep] at taken
    split at taken
    · split at taken <;> cases taken
      exact .createReturns _ ‹_› ‹_› rfl
    · cases taken
  | start =>
    simp only [proxyStep] at taken
    split at taken <;> cases taken
    exact .start ‹_› rfl
  | finish r =>
    simp only [proxyStep] at taken
    split at taken
    · rename_i running
      have uses : s.uses = true := by
        unfold Proxy.uses
        rw [running]
      rw [if_pos (kept.owned uses)] at taken
      exact .finish r running taken
    · cases taken
  | catch_ =>
    simp only [proxyStep] at taken
    split at taken
    · rename_i settling
      rw [kept_whole inv kept settling] at taken
      cases taken
    · cases taken
  | call c =>
    simp only [proxyStep] at taken
    split at taken
    · rename_i mine
      exact .call c mine.2 taken
    · cases taken
  | step i =>
    simp only [proxyStep] at taken
    split at taken
    · rename_i x found
      have intact : (s.reads i && !s.owned) = false := by
        cases reads : s.reads i with
        | false => rfl
        | true =>
          rw [kept.owned (reads_uses reads)]
          rfl
      rw [intact] at taken
      obtain ⟨p, next, same⟩ := Option.map_eq_some_iff.mp taken
      cases step_change next with
      | step i c pc pc' u here move after =>
        subst after
        rw [here] at found
        cases found
        exact .step i c pc pc' u here move next same.symm
    · cases taken
  | wake i =>
    obtain ⟨p, next, same⟩ := Option.map_eq_some_iff.mp taken
    cases step_change next with
    | wake i sleeps after =>
      subst after
      exact .wake i sleeps next same.symm

section Steps
variable {s t : Proxy V E H F}

theorem inv_refused (inv : Inv s) (unasked : s.callback = .unasked)
    (taken : Proxy.call { s with callback := .refused s.next } (.reject .notRunning) = some t) :
    Inv t := by
  have before : settler s = none := by
    unfold settler
    rw [unasked]
  apply inv_call s.create (.refused s.next) inv taken rfl Iff.rfl
  · intro d same
    cases same
  · exact fun i now => .inl now
  · exact fun _ _ => ⟨rfl, .notRunning, rfl, inv.unsettled before⟩
  · intro x settled
    exact absurd (settled.symm.trans before) (Option.some_ne_none x)
  · intro i d settled
    cases settled
    exact .inr ⟨rfl, rfl⟩
  · exact fun _ => before

theorem inv_coReturn (inv : Inv s) (body : s.create = .body)
    (taken : Proxy.call { s with create := .finishing s.next } (.finalSuspend none) = some t) :
    Inv t := by
  apply inv_call (.finishing s.next) s.callback inv taken inv.sound
  · constructor
    · intro now
      cases now
    · exact fun returned => absurd (body.symm.trans returned) Create.noConfusion
  · intro d same
    cases same
    rfl
  · intro i now
    cases now
    exact .inr ⟨rfl, rfl⟩
  · exact fun _ plain => absurd rfl (plain none)
  · exact fun x settled => settled
  · exact fun i d settled => .inl settled
  · exact id

theorem inv_finish (inv : Inv s) {r : Result V E} (running : s.callback = .running)
    (taken : Proxy.call { s with callback := .settling s.next r } r.call = some t) : Inv t := by
  have before : settler s = none := by
    unfold settler
    rw [running]
  obtain ⟨-, plain, payload⟩ := result_call (H := H) (F := F) r
  have flags := inv.unsettled before
  apply inv_call s.create (.settling s.next r) inv taken rfl Iff.rfl
  · exact fun d same => absurd same (plain d)
  · exact fun i now => .inl now
  · refine fun _ _ => ⟨rfl, r.outcome, payload, ?_⟩
    cases r with
    | returns v fails => exact flags.2
    | raises e => exact flags
  · intro x settled
    exact absurd (settled.symm.trans before) (Option.some_ne_none x)
  · intro i d settled
    cases settled
    exact .inr ⟨rfl, rfl⟩
  · exact fun _ => before

theorem inv_attached (inv : Inv s) {c : Call (Outcome V E) H F} (mine : kind c ≠ .settle)
    (taken : s.call c = some t) : Inv t := by
  apply inv_call s.create s.callback inv taken inv.sound Iff.rfl
  · intro d same
    exact absurd (same ▸ rfl) mine
  · exact fun i now => .inl now
  · exact fun isSettle => absurd isSettle mine
  · exact fun x settled => settled
  · exact fun i d settled => .inl settled
  · exact id

theorem inv_step {l : Label V E H F} (inv : Inv s) (kept : Kept s)
    (taken : proxyStep s l = some t) : Inv t := by
  cases proxy_change inv kept taken with
  | accepted unasked after =>
    subst after
    apply inv_begun inv rfl _ rfl
    unfold settler
    rw [unasked]
  | refused unasked call => exact inv_refused inv unasked call
  | coReturn body call => exact inv_coReturn inv body call
  | createReturns i finishing ended after => exact after ▸ inv_returned inv finishing ended
  | start queued after =>
    subst after
    apply inv_begun inv rfl _ rfl
    unfold settler
    rw [queued]
  | finish r running call => exact inv_finish inv running call
  | call c mine call => exact inv_attached inv mine call
  | step i c pc pc' u here move next after =>
    subst after
    exact inv_thread inv here move (.next inv.reached next)
  | wake i sleeps next after =>
    subst after
    exact ⟨.next inv.reached next, inv.sound, inv.locals, inv.gone, inv.finals, inv.finishing,
      inv.settles, inv.settling, inv.unsettled⟩

end Steps

end QueuedCallbacks
