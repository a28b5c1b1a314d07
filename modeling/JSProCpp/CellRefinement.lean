import JSProCpp.Completion
import JSProCpp.PromiseCells

/-
The promise with its locks refines the cell. A critical section of `mutex_` is one instruction of
the cell: `Resolve` and `Reject` take effect when `OnResolved` unlocks, the `ScopeExit` of
`final_suspend` when it has destroyed what the stored callable captured.
-/
namespace CellRefinement
open Transitions SharedPromise Interleaving PromiseCells StateOwners OrderedDelivery SettleOnce
open FinalSuspend
variable {V E H F : Type}

/-- A promise as a cell, with the history of its registrations, removals and invocations. -/
structure Promise (V E H F : Type) where
  cell : Cell (Awaiter H F) V E
  running : Bool
  registered : List (Awaiter H F)
  removed : List Nat
  invoked : List (Awaiter H F)

inductive Instr (V E H F : Type) where
  | settling (x : Settling Unit V E)
  | attach (t : Target H F)
  | unAwait (id : Nat)
  | raceSkip
  | invoke (a : Awaiter H F)

def Promise.attach (p : Promise V E H F) (t : Target H F) : Promise V E H F :=
  if p.cell.outcome.isSome then p
  else { p with
    cell := p.cell.register fun id => ⟨t, id⟩
    registered := p.registered ++ [⟨t, p.cell.useCount + 1⟩] }

def Promise.unAwait (p : Promise V E H F) (id : Nat) : Promise V E H F :=
  if p.cell.awaiters.any (fun a => a.isFunction && a.id == id) then
    { p with
      cell := { p.cell with
        awaiters := p.cell.awaiters.eraseP (fun a => a.isFunction && a.id == id) }
      removed := id :: p.removed }
  else p

def execute (p : Promise V E H F) : Instr V E H F → Promise V E H F × List (Instr V E H F)
  | .settling x => ({ p with cell := (settle p.cell x).cell },
      (settle p.cell x).next.map .settling ++ (settle p.cell x).flushed.map .invoke)
  | .attach t => (p.attach t, [])
  | .unAwait id => (p.unAwait id, [])
  | .raceSkip => ({ p with cell := { p.cell with useCount := p.cell.useCount + 1 } }, [])
  | .invoke a => ({ p with invoked := p.invoked ++ [a] }, [])

def outcome? : Payload V E → Option (Outcome V E)
  | .value v => some (.value v)
  | .exception e => e.map .exception

def settling (x : Outcome V E → Settling Unit V E) (c : Call V E H F) : List (Instr V E H F) :=
  match c.payload.bind outcome? with
  | some o => [.settling (x o)]
  | none => []

def finally_ : Call V E H F → List (Instr V E H F)
  | .finalSuspend _ => [.settling (.clear ())]
  | _ => []

def section_ : Call V E H F → List (Instr V E H F)
  | .awaitSuspend h => [.attach (.coroutine h)]
  | .await f => [.attach (.function f)]
  | .unAwait id => [.unAwait id]
  | .raceSkip => [.raceSkip]
  | _ => []

def instructions : Call V E H F → List (Instr V E H F)
  | .reject e => settling (.reject ()) (.reject e)
  | .resolve v throws => settling (.claim ()) (.resolve v throws)
  | .resolverReject e => settling (.claim ()) (.resolverReject e)
  | .finalSuspend c => settling (.claim ()) (.finalSuspend c) ++ [.settling (.clear ())]
  | c => section_ c

def spawn (c : Call V E H F) (p : Promise V E H F) :
    Option (Promise V E H F × List (Instr V E H F)) :=
  match c with
  | .finalSuspend _ =>
      if p.running then some ({ p with running := false }, instructions c) else none
  | _ => some (p, instructions c)

def program : Program (Promise V E H F) (Instr V E H F) (Call V E H F) where
  exec x p := execute p x
  spawn _ := spawn

/-- What an activation has still to do to the cell. One that throws in `Resolve`, or finds the
    state gone, never does it. -/
def code (a : Activation V E H F) : List (Instr V E H F) :=
  match a.pc with
  | .rejected => settling (.reject ()) a.call
  | .exchange => settling (.claim ()) a.call ++ finally_ a.call
  | .weakLock | .lock | .store | .onResolved .settle | .threw | .expired =>
      settling (.store ()) a.call ++ finally_ a.call
  | .flush .settle _ todo => todo.map .invoke ++ finally_ a.call
  | .flush (.scopeExit _) _ todo => todo.map .invoke
  | .scopeLock _ | .scopeClear _ | .scopeDestroy _ _ | .scopeWait _ _ _
  | .onResolved (.scopeExit _) => [.settling (.clear ())]
  | .acquire | .locked => section_ a.call
  | .check | .waitDone | .returned _ => []

/-- The outcome is stored, but the critical section that stores it is not over. -/
def storing (a : Activation V E H F) : Bool :=
  match a.pc with
  | .onResolved .settle => true
  | _ => false

/-- `handle_` is null, but the `ScopeExit` that cleared it still holds the lock. -/
def clearing (a : Activation V E H F) : Bool := afterClear a.pc

def outcome (s : State V E H F) : Option (Outcome V E) :=
  match s.value with
  | some v => some (.value v)
  | none => s.exception.map .exception

def view (s : State V E H F) (hidden kept : Bool) : Promise V E H F where
  cell :=
    { resolved := s.resolved
      rejected := s.rejected
      outcome := if hidden then none else outcome s
      handle := s.handle || kept
      awaiters := s.awaiters
      useCount := s.useCount }
  running := s.running
  registered := s.registered
  removed := s.removed
  invoked := s.invoked

section View
variable (s : State V E H F) (i : Nat) (c : Call V E H F) (pc : Pc H F) (hidden kept : Bool)

@[simp] theorem view_goto : view (s.goto i c pc) hidden kept = view s hidden kept := rfl
@[simp] theorem view_unlock : view s.unlock hidden kept = view s hidden kept := rfl
@[simp] theorem view_takeAwaiters : view s.takeAwaiters hidden kept =
    { view s hidden kept with cell := { (view s hidden kept).cell with awaiters := [] } } := rfl

end View

def shared (s : State V E H F) : Promise V E H F :=
  view s (s.acts.any storing) (s.acts.any clearing)

def abs (s : State V E H F) : Machine (Promise V E H F) (Instr V E H F) where
  shared := shared s
  threads := s.acts.map code

section Marks
variable {s t : State V E H F} {i : Nat} {a b : Activation V E H F}

theorem storing_holds (h : storing a = true) : holds a.pc = true := by
  unfold storing at h
  split at h
  · simp_all [holds]
  · simp at h

/-- Whoever holds the lock is the only one inside a critical section. -/
theorem alone (ends : Finalization s) (here : s.acts[i]? = some a) (inside : holds a.pc = true) :
    (∀ (j : Nat) (x : Activation V E H F), s.acts[j]? = some x → j ≠ i → storing x = false) ∧
    ∀ (j : Nat) (x : Activation V E H F), s.acts[j]? = some x → j ≠ i → clearing x = false := by
  have mine := ends.mutex i a here inside
  have apart : ∀ (j : Nat) (x : Activation V E H F), s.acts[j]? = some x → j ≠ i →
      ¬holds x.pc = true := by
    intro j x there other busy
    have theirs := ends.mutex j x there busy
    rw [mine, Option.some.injEq] at theirs
    exact other theirs.symm
  constructor
  · intro j x there other
    exact Bool.eq_false_iff.mpr fun marked => apart j x there other (storing_holds marked)
  · intro j x there other
    exact Bool.eq_false_iff.mpr fun marked => apart j x there other (afterClear_holds marked)

theorem unlocked_marks (ends : Finalization s) (free : s.mutex = none) :
    s.acts.any storing = false ∧ s.acts.any clearing = false := by
  have outside : ∀ x ∈ s.acts, ¬holds x.pc = true := by
    intro x member busy
    obtain ⟨j, there⟩ := List.mem_iff_getElem?.mp member
    simp [ends.mutex j x there busy] at free
  constructor
  · exact List.any_eq_false.mpr fun x member marked => outside x member (storing_holds marked)
  · exact List.any_eq_false.mpr fun x member marked => outside x member (afterClear_holds marked)

end Marks

/-- Only `Reject::operator()` goes through the flag of the `Reject` handle, and whoever has
    cleared `handle_` finds it null. -/
structure Stages (s : State V E H F) : Prop where
  rejecting : ∀ (i : Nat) (a : Activation V E H F), s.acts[i]? = some a → a.pc = .rejected →
    isFinal a.call = false
  cleared : ∀ (i : Nat) (a : Activation V E H F), s.acts[i]? = some a → clearing a = true →
    s.handle = false

theorem frame_stages {s t : State V E H F} {i : Nat} {c : Call V E H F} {pc pc' : Pc H F}
    (inv : Stages s) (here : s.acts[i]? = some ⟨c, pc⟩) (acts : t.acts = s.acts.set i ⟨c, pc'⟩)
    (handle : t.handle = s.handle ∨ t.handle = false) (rejecting : pc' ≠ .rejected)
    (clears : afterClear pc' = true → afterClear pc = true ∨ t.handle = false) : Stages t where
  rejecting := by
    intro j x hx at_
    rw [acts] at hx
    rcases set_lookup here hx with ⟨_, rfl⟩ | ⟨_, hx⟩
    · exact absurd at_ rejecting
    · exact inv.rejecting j x hx at_
  cleared := by
    intro j x hx marked
    rcases handle with same | off
    · rw [acts] at hx
      rcases set_lookup here hx with ⟨_, rfl⟩ | ⟨_, hx⟩
      · rcases clears marked with before | off
        · exact same.trans (inv.cleared i _ here before)
        · exact off
      · exact same.trans (inv.cleared j x hx marked)
    · exact off

theorem append_stages {s t : State V E H F} {more : List (Activation V E H F)} (inv : Stages s)
    (acts : t.acts = s.acts ++ more) (handle : t.handle = s.handle)
    (plain : ∀ a ∈ more, (a.pc = .rejected → isFinal a.call = false) ∧ clearing a = false) :
    Stages t where
  rejecting := by
    intro j x hx at_
    rw [acts, List.getElem?_append] at hx
    split at hx
    · exact inv.rejecting j x hx at_
    · exact (plain x (List.mem_of_getElem? hx)).1 at_
  cleared := by
    intro j x hx marked
    rw [acts, List.getElem?_append] at hx
    split at hx
    · exact handle.trans (inv.cleared j x hx marked)
    · simp [(plain x (List.mem_of_getElem? hx)).2] at marked

theorem leave_stages (c : Call V E H F) (won : Bool) :
    c.leave won ≠ .rejected ∧ afterClear (c.leave won) = false := by
  cases c <;> simp [Call.leave, afterClear]

theorem after_stages (c : Call V E H F) (site : Site) :
    c.after site ≠ .rejected ∧ afterClear (c.after site) = false := by
  cases site with
  | settle => exact leave_stages c true
  | scopeExit won => simp [Call.after, afterClear]

theorem move_stages {s t : State V E H F} {i : Nat} {c : Call V E H F} {pc : Pc H F}
    (inv : Stages s) (here : s.acts[i]? = some ⟨c, pc⟩) (m : Move s i c pc t) : Stages t := by
  cases m with
  | lost payload set =>
    have leaving := leave_stages c false
    exact frame_stages inv here rfl (.inl rfl) leaving.1 (by simp [leaving.2])
  | noFlush site live | flushed site saveSelf =>
    have leaving := after_stages c site
    exact frame_stages inv here rfl (.inl rfl) leaving.1 (by simp [leaving.2])
  | store p payload total =>
    have next : ((s.put p).goto i c (.onResolved .settle)).acts =
        s.acts.set i ⟨c, .onResolved .settle⟩ := by rw [goto_acts, (put_fields s p).1]
    have handle : (s.put p).handle = s.handle := by cases p <;> rfl
    exact frame_stages inv here next (.inl handle) (by simp) (by simp [afterClear])
  | scopeClear won =>
    exact frame_stages inv here rfl (.inr rfl) (by simp) fun _ => .inr rfl
  | body u result run =>
    obtain ⟨acts, _, handle, _⟩ := lockedBody_finalization run
    have next : (u.unlock.goto i c (.returned result)).acts =
        s.acts.set i ⟨c, .returned result⟩ := by rw [goto_acts, State.unlock, acts]
    exact frame_stages inv here next (.inl handle) (by simp) (by simp [afterClear])
  | _ => exact frame_stages inv here rfl (.inl rfl) (by simp) (by simp [afterClear])

theorem step_stages {s t : State V E H F} {l : Label V E H F} (inv : Stages s)
    (h : step s l = some t) : Stages t := by
  cases step_change h with
  | call c started =>
    have plain : ∀ a ∈ [(⟨c, c.entry⟩ : Activation V E H F)],
        (a.pc = .rejected → isFinal a.call = false) ∧ clearing a = false := by
      intro a member
      rw [List.mem_singleton.mp member]
      cases c with
      | finalSuspend e => cases e <;> simp [Call.entry, Completion.payload, clearing, afterClear]
      | _ => simp [Call.entry, isFinal, clearing, afterClear]
    cases started <;> exact append_stages inv rfl rfl plain
  | step i c pc here move => exact move_stages inv here move
  | copy k live same | move k live same | overwrite k live same | other k c later same =>
    subst same
    exact append_stages inv (List.append_nil _).symm rfl (by simp)

theorem initial_stages (s : State V E H F) (h : Initial s) : Stages s := by
  obtain ⟨coroutine, captured, others, rfl⟩ := h
  constructor <;> simp [initial]

theorem reached_stages {s : State V E H F} (h : Reached s) : Stages s :=
  reachable_invariant initial_stages (fun _ _ _ inv taken => step_stages inv taken) h

structure Known (s : State V E H F) : Prop where
  delivery : Delivery s
  agreement : Agreement s
  ends : Finalization s
  critical : Critical s
  stages : Stages s

theorem reached_known {s : State V E H F} (h : ReachedNonNull s) : Known s := by
  have all := Completion.nonNull_reached h
  exact ⟨reached_delivery h, reached_agreement all, reached_finalization all,
    reached_critical all, reached_stages all⟩

section Codes
variable {s : State V E H F} {i : Nat} {c : Call V E H F} {pc : Pc H F} {o : Outcome V E}

theorem settling_of (pays : c.payload.bind outcome? = some o)
    (x : Outcome V E → Settling Unit V E) : settling x c = [.settling (x o)] := by
  simp only [settling, pays]

theorem settling_some (known : Known s) (here : s.acts[i]? = some ⟨c, pc⟩)
    (settles : c.payload.isSome) : ∃ o, c.payload.bind outcome? = some o := by
  obtain ⟨p, payload⟩ := Option.isSome_iff_exists.mp settles
  have real := known.delivery.nonnull i _ here
  rw [payload] at real ⊢
  cases p with
  | value v => exact ⟨_, rfl⟩
  | exception e =>
    cases e with
    | none => exact absurd rfl real
    | some e => exact ⟨_, rfl⟩

theorem holds_outcome {p : Payload V E} (stored : Holds s p) : outcome s = outcome? p := by
  cases p with
  | value v => simp [outcome, stored.1, outcome?]
  | exception e => simp [outcome, stored.1, stored.2, outcome?]

theorem pending_outcome (pending : s.value = none ∧ s.exception = none) : outcome s = none := by
  simp [outcome, pending.1, pending.2]

theorem outcome_done : (outcome s).isSome = s.isDone := by
  unfold outcome State.isDone
  cases s.value <;> simp

theorem leave_code (c : Call V E H F) (won : Bool) : code ⟨c, c.leave won⟩ = finally_ c := by
  cases c <;> rfl

theorem entry_code (c : Call V E H F) : code ⟨c, c.entry⟩ = instructions c := by
  cases c with
  | finalSuspend e => cases e <;> rfl
  | resolve v throws | resolverReject e => simp [code, Call.entry, instructions, finally_]
  | _ => rfl

end Codes

section Steps
variable {s t : State V E H F} {i : Nat} {c : Call V E H F} {a b : Activation V E H F}

theorem same_marks (here : s.acts[i]? = some a) (acts : t.acts = s.acts.set i b)
    (stores : storing b = storing a) (clears : clearing b = clearing a) :
    shared t = view t (s.acts.any storing) (s.acts.any clearing) := by
  simp only [shared, acts, set_any_same here stores, set_any_same here clears]

theorem abs_same (here : s.acts[i]? = some a) (acts : t.acts = s.acts.set i b)
    (same : shared t = shared s) (codes : code b = code a) : abs t = abs s := by
  have threads : t.acts.map code = s.acts.map code := by
    have there : (s.acts.map code)[i]? = some (code b) := by
      rw [List.getElem?_map, here, Option.map_some, codes]
    obtain ⟨inside, entry⟩ := List.getElem?_eq_some_iff.mp there
    rw [acts, List.map_set, ← entry, List.set_getElem_self]
  unfold abs
  rw [same, threads]

theorem abs_run {x : Instr V E H F} {rest : List (Instr V E H F)} (next : List (Instr V E H F))
    (here : s.acts[i]? = some a) (acts : t.acts = s.acts.set i b) (waits : code a = x :: rest)
    (executed : execute (shared s) x = (shared t, next)) (codes : code b = next ++ rest) :
    Interleaving.step program (abs s) (.run i) = some (abs t) := by
  have there : (abs s).threads[i]? = some (x :: rest) := by
    change (s.acts.map code)[i]? = _
    rw [List.getElem?_map, here, Option.map_some, waits]
  have threads : (abs t).threads = (abs s).threads.set i (next ++ rest) := by
    change t.acts.map code = (s.acts.map code).set i _
    rw [acts, List.map_set, codes]
  have ran : program.exec x (abs s).shared = (shared t, next) := executed
  simp only [Interleaving.step, there, ran, ← threads]
  rfl

/-- The step leaves the cell alone, or it is one instruction on the cell. -/
def Simulated (i : Nat) (s t : State V E H F) : Prop :=
  abs t = abs s ∨ Interleaving.step program (abs s) (.run i) = some (abs t)

/-- Inside a critical section the marks of the state are those of its activation. -/
theorem only_marks (known : Known s) (here : s.acts[i]? = some a) (inside : holds a.pc = true) :
    shared s = view s (storing a) (clearing a) ∧
    ∀ (t : State V E H F) (b : Activation V E H F), t.acts = s.acts.set i b →
      shared t = view t (storing b) (clearing b) := by
  obtain ⟨noStore, noClear⟩ := alone known.ends here inside
  constructor
  · simp only [shared, any_only here noStore, any_only here noClear]
  · intro t b acts
    simp only [shared, acts, set_any_only here noStore, set_any_only here noClear]

theorem leave_marks (c : Call V E H F) (won : Bool) :
    storing ⟨c, c.leave won⟩ = false ∧ clearing ⟨c, c.leave won⟩ = false := by
  cases c <;> exact ⟨rfl, rfl⟩

theorem after_marks (c : Call V E H F) (site : Site) :
    storing ⟨c, c.after site⟩ = false ∧ clearing ⟨c, c.after site⟩ = false := by
  cases site with
  | settle => exact leave_marks c true
  | scopeExit won => exact ⟨rfl, rfl⟩

theorem store_simulated {p : Payload V E} (known : Known s)
    (here : s.acts[i]? = some ⟨c, .store⟩) (payload : c.payload = some p) :
    abs ((s.put p).goto i c (.onResolved .settle)) = abs s := by
  have next : ((s.put p).goto i c (.onResolved .settle)).acts =
      s.acts.set i ⟨c, .onResolved .settle⟩ := by rw [goto_acts, (put_fields s p).1]
  obtain ⟨before, after⟩ := only_marks known here rfl
  have claimed : claims (⟨c, .store⟩ : Activation V E H F) = true := by
    simp [claims, early, payload]
  have pending := pending_outcome (known.agreement.early i _ here claimed)
  refine abs_same here next ?_ rfl
  rw [before, after _ _ next]
  cases p <;> simp [view, storing, clearing, afterClear, pending, State.put, State.goto]

theorem settled_simulated (next : List (Instr V E H F)) (known : Known s)
    (here : s.acts[i]? = some ⟨c, .onResolved .settle⟩) {b : Activation V E H F}
    (acts : t.acts = s.acts.set i b)
    (outside : storing b = false ∧ clearing b = false) (codes : code b = next ++ finally_ c)
    (executed : ∀ o, outcome s = some o →
      execute (view s true false) (.settling (.store () o)) = (view t false false, next)) :
    Simulated i s t := by
  have settles : c.payload.isSome := known.critical.fit i _ here
  obtain ⟨before, after⟩ := only_marks known here rfl
  obtain ⟨o, pays⟩ := settling_some known here settles
  obtain ⟨p, payload, result⟩ := Option.bind_eq_some_iff.mp pays
  have stored := known.agreement.stored i _ p here (by simp [wins, stored, settles]) payload
  have waits : code (⟨c, .onResolved .settle⟩ : Activation V E H F) =
      .settling (.store () o) :: finally_ c := by
    simp only [code, settling_of pays, List.cons_append, List.nil_append]
  refine .inr (abs_run next here acts waits ?_ codes)
  rw [before, after _ _ acts, outside.1, outside.2]
  exact executed o ((holds_outcome stored).trans result)

theorem cleared_simulated {pc : Pc H F} (known : Known s) (here : s.acts[i]? = some ⟨c, pc⟩)
    (inside : afterClear pc = true) {b : Activation V E H F} (acts : t.acts = s.acts.set i b)
    (outside : storing b = false ∧ clearing b = false)
    (executed : s.handle = false → execute (view s false true) (.settling (.clear ())) =
      (view t false false, code b)) : Simulated i s t := by
  have locked := afterClear_holds inside
  obtain ⟨before, after⟩ := only_marks known here locked
  have off := known.stages.cleared i _ here inside
  have shows : storing (⟨c, pc⟩ : Activation V E H F) = false := by
    cases pc with
    | onResolved site => cases site <;> simp_all [afterClear, storing]
    | _ => rfl
  have waits : code (⟨c, pc⟩ : Activation V E H F) = .settling (.clear ()) :: [] := by
    cases pc with
    | onResolved site => cases site <;> simp_all [afterClear, code]
    | scopeDestroy won captured | scopeWait won j captured => rfl
    | _ => simp [afterClear] at inside
  refine .inr (abs_run _ here acts waits ?_ (List.append_nil _).symm)
  rw [before, after _ _ acts, outside.1, outside.2, shows]
  simpa only [clearing, inside] using executed off

theorem resolved_simulated {site : Site} (known : Known s)
    (here : s.acts[i]? = some ⟨c, .onResolved site⟩) :
    (s.handle = true → Simulated i s (s.unlock.goto i c (c.after site))) ∧
    (s.handle = false → Simulated i s
      (s.takeAwaiters.goto i c (.flush site s.selfOwned s.awaiters))) := by
  have outside := after_marks c site
  cases site with
  | settle =>
    constructor
    · intro live
      refine settled_simulated [] known here rfl outside (leave_code c true) ?_
      intro o done
      rw [view_goto, view_unlock]
      simp [execute, settle, view, live, done]
    · intro off
      refine settled_simulated (s.awaiters.map .invoke) known here rfl ⟨rfl, rfl⟩ rfl ?_
      intro o done
      rw [view_goto, view_takeAwaiters]
      simp [execute, settle, view, off, done]
  | scopeExit won =>
    constructor
    · intro live
      simp [known.stages.cleared i _ here rfl] at live
    · intro off
      refine cleared_simulated known here rfl rfl ⟨rfl, rfl⟩ fun _ => ?_
      have done : (outcome s).isSome = true :=
        outcome_done.trans (known.delivery.resolving i _ _ here rfl)
      rw [view_goto, view_takeAwaiters]
      simp [execute, settle, view, done, off, code]

/-- A flag is tried: the call goes on with `next`, or it has lost. -/
theorem tried_simulated (next : List (Instr V E H F)) {x : Instr V E H F}
    {rest : List (Instr V E H F)} {pc pc' : Pc H F}
    (here : s.acts[i]? = some ⟨c, pc⟩) (acts : t.acts = s.acts.set i ⟨c, pc'⟩)
    (stores : storing ⟨c, pc'⟩ = storing ⟨c, pc⟩) (clears : clearing ⟨c, pc'⟩ = clearing ⟨c, pc⟩)
    (waits : code ⟨c, pc⟩ = x :: rest) (codes : code ⟨c, pc'⟩ = next ++ rest)
    (executed : ∀ hidden kept, execute (view s hidden kept) x = (view t hidden kept, next)) :
    Simulated i s t := by
  refine .inr (abs_run next here acts waits ?_ codes)
  rw [same_marks here acts stores clears]
  exact executed _ _

theorem settling_simulated {pc : Pc H F} (known : Known s) (here : s.acts[i]? = some ⟨c, pc⟩)
    (tries : pc = .rejected ∨ pc = .exchange) (m : Move s i c pc t) : Simulated i s t := by
  have settles : c.payload.isSome := by
    have fit := known.critical.fit i _ here
    rcases tries with rfl | rfl <;> exact fit
  obtain ⟨o, pays⟩ := settling_some known here settles
  cases m with
  | rejectLost set =>
    have waits : code (⟨c, .rejected⟩ : Activation V E H F) = .settling (.reject () o) :: [] :=
      settling_of pays _
    refine tried_simulated [] here rfl rfl rfl waits rfl fun hidden kept => ?_
    rw [view_goto]
    simp [execute, settle, view, set]
  | rejectFirst clear =>
    have waits : code (⟨c, .rejected⟩ : Activation V E H F) = .settling (.reject () o) :: [] :=
      settling_of pays _
    have plain : finally_ c = ([] : List (Instr V E H F)) := by
      have other := known.stages.rejecting i _ here rfl
      cases c <;> simp_all [isFinal, finally_]
    have codes : code (⟨c, .exchange⟩ : Activation V E H F) = [.settling (.claim () o)] ++ [] := by
      simp only [code, settling_of pays, plain]
    refine tried_simulated _ here rfl rfl rfl waits codes fun hidden kept => ?_
    rw [view_goto]
    simp [execute, settle, view, clear, outcome]
  | lost payload set =>
    have marks := leave_marks c false
    have waits : code (⟨c, .exchange⟩ : Activation V E H F) =
        .settling (.claim () o) :: finally_ c := by
      simp only [code, settling_of pays, List.cons_append, List.nil_append]
    refine tried_simulated [] here rfl marks.1 marks.2 waits (leave_code c false) ?_
    intro hidden kept
    rw [view_goto]
    simp [execute, settle, view, set]
  | claim payload clear =>
    have waits : code (⟨c, .exchange⟩ : Activation V E H F) =
        .settling (.claim () o) :: finally_ c := by
      simp only [code, settling_of pays, List.cons_append, List.nil_append]
    have codes : code (⟨c, .weakLock⟩ : Activation V E H F) =
        [.settling (.store () o)] ++ finally_ c := by
      simp only [code, settling_of pays]
    refine tried_simulated _ here rfl rfl rfl waits codes fun hidden kept => ?_
    rw [view_goto]
    simp [execute, settle, view, clear, outcome]
  | _ => simp at tries

theorem body_simulated {u : State V E H F} {result : Bool} (known : Known s)
    (here : s.acts[i]? = some ⟨c, .locked⟩) (body : lockedBody s c = some (u, result)) :
    Simulated i s (u.unlock.goto i c (.returned result)) := by
  obtain ⟨before, after⟩ := only_marks known here rfl
  have acts : (u.unlock.goto i c (.returned result)).acts = s.acts.set i ⟨c, .returned result⟩ := by
    rw [goto_acts, State.unlock, (lockedBody_finalization body).1]
  have there := after _ _ acts
  rw [view_goto, view_unlock] at there
  have done : (outcome s).isSome = s.isDone := outcome_done
  have one : ∀ x : Instr V E H F, code (⟨c, .locked⟩ : Activation V E H F) = [x] →
      execute (view s false false) x = (view u false false, []) →
      Simulated i s (u.unlock.goto i c (.returned result)) := by
    intro x waits executed
    refine .inr (abs_run [] here acts waits ?_ rfl)
    rw [before, there]
    exact executed
  cases c with
  | awaitSuspend h =>
    refine one (.attach (.coroutine h)) rfl ?_
    simp only [lockedBody] at body
    split at body <;> simp only [Option.some.injEq, Prod.mk.injEq] at body <;>
      obtain ⟨rfl, -⟩ := body
    · simp_all [execute, Promise.attach, view]
    · simp_all [execute, Promise.attach, view, State.register, Cell.register, outcome]
  | await f =>
    refine one (.attach (.function f)) rfl ?_
    simp only [lockedBody] at body
    split at body <;> simp only [Option.some.injEq, Prod.mk.injEq] at body <;>
      obtain ⟨rfl, -⟩ := body
    · simp_all [execute, Promise.attach, view]
    · simp_all [execute, Promise.attach, view, State.register, Cell.register, outcome]
  | unAwait id =>
    refine one (.unAwait id) rfl ?_
    simp only [lockedBody] at body
    split at body <;> simp only [Option.some.injEq, Prod.mk.injEq] at body <;>
      obtain ⟨rfl, -⟩ := body
    · simp_all [execute, Promise.unAwait, view, outcome]
    · simp_all [execute, Promise.unAwait, view]
  | raceSkip =>
    refine one .raceSkip rfl ?_
    simp only [lockedBody, Option.some.injEq, Prod.mk.injEq] at body
    obtain ⟨rfl, -⟩ := body
    simp [execute, view, outcome]
  | detach h =>
    refine .inl (abs_same here acts ?_ rfl)
    rw [before, there]
    simp only [lockedBody] at body
    split at body <;> simp only [Option.some.injEq, Prod.mk.injEq] at body <;>
      obtain ⟨rfl, -⟩ := body <;> rfl
  | _ => simp [lockedBody] at body

theorem move_simulated {pc : Pc H F} (known : Known s) (here : s.acts[i]? = some ⟨c, pc⟩)
    (m : Move s i c pc t) : Simulated i s t := by
  cases m with
  | rejectLost set => exact settling_simulated known here (.inl rfl) (.rejectLost set)
  | rejectFirst clear => exact settling_simulated known here (.inl rfl) (.rejectFirst clear)
  | lost payload set => exact settling_simulated known here (.inr rfl) (.lost payload set)
  | claim payload clear => exact settling_simulated known here (.inr rfl) (.claim payload clear)
  | store p payload total => exact .inl (store_simulated known here payload)
  | noFlush site live => exact (resolved_simulated known here).1 live
  | flush site clear => exact (resolved_simulated known here).2 clear
  | invoke site saveSelf a rest =>
    cases site with
    | settle =>
      exact tried_simulated [] here rfl rfl rfl rfl rfl fun hidden kept => rfl
    | scopeExit won =>
      exact tried_simulated [] here rfl rfl rfl rfl rfl fun hidden kept => rfl
  | flushed site saveSelf =>
    have marks := after_marks c site
    cases site with
    | settle =>
      exact .inl
        (abs_same here rfl (same_marks here rfl marks.1 marks.2) (leave_code c true))
    | scopeExit won => exact .inl (abs_same here rfl (same_marks here rfl rfl rfl) rfl)
  | scopeClear won =>
    obtain ⟨before, after⟩ := only_marks known here rfl
    have live := known.ends.before i _ here (known.ends.scope i _ here rfl) rfl
    refine .inl (abs_same here rfl ?_ rfl)
    rw [before, after _ _ rfl, view_goto]
    simp [view, storing, clearing, afterClear, live, outcome]
  | scopePending won pending =>
    refine cleared_simulated known here rfl rfl ⟨rfl, rfl⟩ fun off => ?_
    have none_ : (outcome s).isSome = false := outcome_done.trans pending
    rw [view_goto, view_unlock]
    simp [execute, settle, view, none_, off, code]
  | body u result run => exact body_simulated known here run
  | _ => exact .inl (abs_same here rfl (same_marks here rfl rfl rfl) rfl)

end Steps

def calls : SharedPromise.Label V E H F → List (Call V E H F)
  | .call c => [c]
  | _ => []

def starts : Interleaving.Label (Call V E H F) → List (Call V E H F)
  | .start _ c => [c]
  | _ => []

theorem append_shared {s t : State V E H F} {more : List (Activation V E H F)}
    (acts : t.acts = s.acts ++ more) (plain : ∀ a ∈ more, storing a = false ∧ clearing a = false) :
    shared t = view t (s.acts.any storing) (s.acts.any clearing) := by
  have noStore : more.any storing = false := List.any_eq_false.mpr fun a member => by
    simp [(plain a member).1]
  have noClear : more.any clearing = false := List.any_eq_false.mpr fun a member => by
    simp [(plain a member).2]
  simp only [shared, acts, List.any_append, noStore, noClear, Bool.or_false]

theorem entry_marks (c : Call V E H F) :
    storing ⟨c, c.entry⟩ = false ∧ clearing ⟨c, c.entry⟩ = false := by
  cases c with
  | finalSuspend e => cases e <;> exact ⟨rfl, rfl⟩
  | _ => exact ⟨rfl, rfl⟩

theorem started_simulated {s t : State V E H F} {c : Call V E H F} (started : Started s c t) :
    run (Interleaving.step program) (abs s) [.fork, .start s.acts.length c] = some (abs t) := by
  have acts : t.acts = s.acts ++ [⟨c, c.entry⟩] := by cases started <;> rfl
  have marks : shared t = view t (s.acts.any storing) (s.acts.any clearing) := by
    refine append_shared acts fun a member => ?_
    rw [List.mem_singleton.mp member]
    exact entry_marks c
  have spawned : spawn c (shared s) = some (shared t, instructions c) := by
    rw [marks]
    cases started with
    | final e running => simp [spawn, shared, view, running, State.push, outcome]
    | close c h which live =>
      rcases which with rfl | rfl <;> rfl
    | plain c body => cases c <;> first | rfl | exact absurd rfl (body _)
  have there : ((abs s).threads ++ [[]])[s.acts.length]? = some [] := by
    simp [abs]
  have threads : (abs t).threads =
      ((abs s).threads ++ [[]]).set s.acts.length (instructions c) := by
    simp [abs, acts, entry_code]
  have forked : Interleaving.step program (abs s) .fork =
      some ⟨shared s, (abs s).threads ++ [[]]⟩ := rfl
  refine run_cons forked (run_cons ?_ rfl)
  have start : program.spawn s.acts.length c (shared s) = some (shared t, instructions c) := spawned
  simp only [Interleaving.step, there, start, Option.map_some, ← threads]
  rfl

theorem step_simulated {s t : State V E H F} {l : SharedPromise.Label V E H F}
    (reached : ReachedNonNull s) (taken : stepNonNull s l = some t) :
    ∃ ks, run (Interleaving.step program) (abs s) ks = some (abs t) ∧
      ks.flatMap starts = calls l := by
  have known := reached_known reached
  cases SharedPromise.step_change (stepNonNull_taken taken).2 with
  | call c started => exact ⟨_, started_simulated started, rfl⟩
  | step i c pc here move =>
    rcases move_simulated known here move with same | ran
    · exact ⟨[], congrArg some same.symm, rfl⟩
    · exact ⟨[.run i], run_cons ran rfl, rfl⟩
  | copy k live same | move k live same | overwrite k live same | other k c later same =>
    subst same
    exact ⟨[], rfl, rfl⟩

def cell (s : State V E H F) : Cell (Awaiter H F) V E := (view s false false).cell

/-- Every run of a promise with its locks is a run of the cell on which the same calls start in the
    same order, and between critical sections the cell is the promise. -/
theorem cell_refinement {s t : State V E H F} {ls : List (SharedPromise.Label V E H F)}
    (reached : ReachedNonNull s) (ran : run stepNonNull s ls = some t) :
    (∃ ks, run (Interleaving.step program) (abs s) ks = some (abs t) ∧
      ks.flatMap starts = ls.flatMap calls) ∧
    (t.mutex = none → (abs t).shared.cell = cell t) := by
  constructor
  · exact run_simulates (fun s l t known taken => step_simulated known taken)
      (fun s l t known taken => .next known taken) reached ran
  · intro free
    have known := reached_known (run_reachable reached ran)
    obtain ⟨noStore, noClear⟩ := unlocked_marks known.ends free
    change (shared t).cell = _
    rw [shared, noStore, noClear]
    rfl

theorem cell_refinement_finished : ∃ t ks,
    run stepNonNull (initial true [] fun _ => .pending) resolvedThenFinished = some t ∧
    run (Interleaving.step program) (abs (initial true [] fun _ => .pending)) ks = some (abs t) ∧
    ks.flatMap starts = [.await 10, .awaitSuspend 11, .await 12, .unAwait 1, .resolve 7 false,
      .finalSuspend .resolverReturned] ∧
    (abs t).shared.cell.outcome = some (.value 7) ∧
    (abs t).shared.invoked = t.invoked ∧ (abs t).threads = List.replicate 6 [] := by
  have start : ReachedNonNull (initial (V := Nat) (E := Nat) (H := Nat) (F := Nat) true []
      fun _ => .pending) := .start ⟨true, [], fun _ => .pending, rfl⟩
  have ran : run stepNonNull (initial true [] fun _ => .pending) resolvedThenFinished =
      some _ := rfl
  obtain ⟨⟨ks, simulated, same⟩, unlocked⟩ := cell_refinement start ran
  refine ⟨_, ks, ran, simulated, same, ?_, rfl, rfl⟩
  rw [unlocked rfl]
  rfl

end CellRefinement
