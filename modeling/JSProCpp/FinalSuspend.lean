import JSProCpp.OrderedDelivery
import JSProCpp.SettleOnce
import JSProCpp.StateOwners

/-
How `final_suspend` completes. Its `ScopeExit` destroys the stored callable, and with it the
promise handles the callable captured, while it holds `mutex_`; the destructor of a handle
waits for its promise. The container coroutine of `promise::All` captures all its inputs.
-/
namespace FinalSuspend
open Transitions SharedPromise StateOwners OrderedDelivery SettleOnce
variable {V E H F : Type}

def takesLock : Call V E H F → Bool
  | .awaitSuspend _ | .await _ | .unAwait _ | .raceSkip | .detach _ => true
  | _ => false

def fits (a : Activation V E H F) : Bool :=
  match a.pc with
  | .exchange | .weakLock | .lock | .store | .onResolved .settle | .flush .settle _ _
  | .rejected => a.call.payload.isSome
  | .acquire | .locked => takesLock a.call
  | _ => true

/-- Whoever holds `mutex_` is inside a critical section and can leave it. -/
structure Critical (s : State V E H F) : Prop where
  holder : ∀ j, s.mutex = some j →
    ∃ a : Activation V E H F, s.acts[j]? = some a ∧ holds a.pc = true
  fit : ∀ (i : Nat) (a : Activation V E H F), s.acts[i]? = some a → fits a = true

theorem frame_critical {s t : State V E H F} {i : Nat} {c : Call V E H F} {pc pc' : Pc H F}
    (inv : Critical s) (here : s.acts[i]? = some ⟨c, pc⟩)
    (acts : t.acts = s.acts.set i ⟨c, pc'⟩)
    (mutex : t.mutex = none ∨ (t.mutex = some i ∧ holds pc' = true) ∨
      (t.mutex = s.mutex ∧ holds pc' = holds pc))
    (kept : fits ⟨c, pc⟩ = true → fits ⟨c, pc'⟩ = true) :
    Critical t where
  holder := by
    intro j held
    have at_ : t.acts[i]? = some ⟨c, pc'⟩ := by rw [acts]; exact lookup_set here
    rcases mutex with free | ⟨mine, inside⟩ | ⟨same, inside⟩
    · simp [free] at held
    · have here_ : j = i := by simpa [mine, eq_comm] using held
      exact ⟨_, here_ ▸ at_, inside⟩
    · obtain ⟨a, ha, pa⟩ := inv.holder j (same ▸ held)
      by_cases moved : j = i
      · subst moved
        rw [here, Option.some.injEq] at ha
        subst ha
        exact ⟨_, at_, inside.trans pa⟩
      · exact ⟨a, by rw [acts, List.getElem?_set_ne (Ne.symm moved)]; exact ha, pa⟩
  fit := by
    intro j x hx
    rw [acts] at hx
    rcases set_lookup here hx with ⟨rfl, rfl⟩ | ⟨_, hx⟩
    · exact kept (inv.fit j _ here)
    · exact inv.fit j x hx

theorem leave_fits (c : Call V E H F) (won : Bool) :
    holds (c.leave won) = false ∧ fits ⟨c, c.leave won⟩ = true := by
  cases c <;> exact ⟨rfl, rfl⟩

theorem after_fits (c : Call V E H F) (site : Site) :
    holds (c.after site) = false ∧ fits ⟨c, c.after site⟩ = true := by
  cases site with
  | settle => exact leave_fits c true
  | scopeExit won => exact ⟨rfl, rfl⟩

theorem move_critical {s t : State V E H F} {i : Nat} {c : Call V E H F} {pc : Pc H F}
    (inv : Critical s) (here : s.acts[i]? = some ⟨c, pc⟩) (m : Move s i c pc t) :
    Critical t := by
  cases m with
  | lost payload set =>
    have leaving := leave_fits c false
    exact frame_critical inv here rfl (.inr (.inr ⟨rfl, leaving.1⟩)) fun _ => leaving.2
  | settleLock free | acquire free | scopeLock won free =>
    exact frame_critical inv here rfl (.inr (.inl ⟨rfl, rfl⟩)) id
  | throw throws | scopePending won pending =>
    exact frame_critical inv here rfl (.inl rfl) fun _ => rfl
  | store p payload total =>
    obtain ⟨acts, _, _, mutex⟩ := put_finalization s p
    have next : ((s.put p).goto i c (.onResolved .settle)).acts =
        s.acts.set i ⟨c, .onResolved .settle⟩ := by rw [goto_acts, acts]
    exact frame_critical inv here next (.inr (.inr ⟨mutex, rfl⟩)) id
  | noFlush site live =>
    exact frame_critical inv here rfl (.inl rfl) fun _ => (after_fits c site).2
  | flush site clear =>
    refine frame_critical inv here rfl (.inl rfl) ?_
    cases site <;> exact id
  | invoke site saveSelf a rest =>
    refine frame_critical inv here rfl (.inr (.inr ⟨rfl, rfl⟩)) ?_
    cases site <;> exact id
  | flushed site saveSelf =>
    have leaving := after_fits c site
    exact frame_critical inv here rfl (.inr (.inr ⟨rfl, leaving.1⟩)) fun _ => leaving.2
  | body u result run =>
    have acts := (lockedBody_finalization run).1
    have next : (u.unlock.goto i c (.returned result)).acts =
        s.acts.set i ⟨c, .returned result⟩ := by rw [goto_acts, State.unlock, acts]
    exact frame_critical inv here next (.inl rfl) fun _ => rfl
  | claim payload | rejectFirst clear | pin alive =>
    exact frame_critical inv here rfl (.inr (.inr ⟨rfl, rfl⟩)) id
  | _ => exact frame_critical inv here rfl (.inr (.inr ⟨rfl, rfl⟩)) fun _ => rfl

theorem append_critical {s t : State V E H F} {more : List (Activation V E H F)}
    (inv : Critical s) (acts : t.acts = s.acts ++ more) (mutex : t.mutex = s.mutex)
    (fit : ∀ a ∈ more, fits a = true) : Critical t where
  holder := by
    intro j held
    obtain ⟨a, ha, pa⟩ := inv.holder j (mutex ▸ held)
    exact ⟨a, by rw [acts]; exact lookup_append ha _, pa⟩
  fit := by
    intro j x hx
    rw [acts, List.getElem?_append] at hx
    split at hx
    · exact inv.fit j x hx
    · exact fit x (List.mem_of_getElem? hx)

theorem entry_fits (c : Call V E H F) : fits ⟨c, c.entry⟩ = true := by
  cases c with
  | finalSuspend e => cases e <;> rfl
  | _ => rfl

theorem step_critical {s t : State V E H F} {l : Label V E H F} (inv : Critical s)
    (h : step s l = some t) : Critical t := by
  cases step_change h with
  | call c started =>
    have fit : ∀ a ∈ [(⟨c, c.entry⟩ : Activation V E H F)], fits a = true := by
      intro a member
      rw [List.mem_singleton.mp member]
      exact entry_fits c
    cases started <;> exact append_critical inv rfl rfl fit
  | step i c pc here move => exact move_critical inv here move
  | copy k live same | move k live same | overwrite k live same | other k c later same =>
    subst same
    exact append_critical inv (List.append_nil _).symm rfl (by simp)

theorem reached_critical {s : State V E H F} (h : Reached s) : Critical s := by
  refine reachable_invariant (fun s fresh => ?_)
    (fun _ _ _ inv taken => step_critical inv taken) h
  obtain ⟨coroutine, captured, others, rfl⟩ := fresh
  constructor <;> simp [initial]

def Steps (ls : List (Label V E H F)) : Prop := ∀ l ∈ ls, ∃ j, l = .step j

/-- What the end of another critical section leaves as it was for the activation `i`. -/
structure Spared (i : Nat) (s t : State V E H F) : Prop where
  act : t.acts[i]? = s.acts[i]?
  handle : t.handle = s.handle
  function : t.function = s.function
  others : t.others = s.others
  resolved : t.resolved = s.resolved
  owned : s.owned = true → t.owned = true

theorem lockedBody_spared {s t : State V E H F} {c : Call V E H F} {result : Bool} (i : Nat)
    (h : lockedBody s c = some (t, result)) : Spared i s t := by
  have owned : s.owned = true → t.owned = true := fun before => lockedBody_owned h before
  cases c <;> simp only [lockedBody, reduceCtorEq] at h <;> (try split at h) <;>
    simp only [Option.some.injEq, Prod.mk.injEq] at h <;> obtain ⟨rfl, -⟩ := h <;>
    exact ⟨rfl, rfl, rfl, rfl, rfl, owned⟩

theorem lockedBody_total (s : State V E H F) {c : Call V E H F} (h : takesLock c = true) :
    ∃ t result, lockedBody s c = some (t, result) := by
  cases c <;> simp only [takesLock, reduceCtorEq] at h <;> simp only [lockedBody] <;>
    (try split) <;> exact ⟨_, _, rfl⟩

theorem goto_spared {s t : State V E H F} {i j : Nat} (other : i ≠ j) (c : Call V E H F)
    (pc : Pc H F) (h : Spared i s t) : Spared i s (t.unlock.goto j c pc) := by
  refine ⟨?_, h.handle, h.function, h.others, h.resolved, h.owned⟩
  rw [goto_acts, List.getElem?_set_ne (Ne.symm other)]
  exact h.act

theorem holder_run {s : State V E H F} {i : Nat} {a : Activation V E H F}
    (critical : Critical s) (ends : Finalization s) (live : s.handle = true)
    (here : s.acts[i]? = some a) (final : isFinal a.call = true) (outside : holds a.pc = false) :
    ∃ ls t, Steps ls ∧ run step s ls = some t ∧ t.mutex = none ∧ Spared i s t := by
  cases held : s.mutex with
  | none => exact ⟨[], s, by simp [Steps], rfl, held, rfl, rfl, rfl, rfl, rfl, id⟩
  | some j =>
    obtain ⟨⟨c, pc⟩, there, inside⟩ := critical.holder j held
    have other : i ≠ j := by
      rintro rfl
      rw [here, Option.some.injEq] at there
      subst there
      simp [outside] at inside
    have single : ∀ t, step s (.step j) = some t → t.mutex = none → Spared i s t →
        ∃ ls t, Steps ls ∧ run step s ls = some t ∧ t.mutex = none ∧ Spared i s t :=
      fun t taken free spared => ⟨[.step j], t, by simp [Steps], run_cons taken rfl, free, spared⟩
    have scope : inScope pc = true → False := by
      intro within
      exact other (ends.once i j a _ here there final (ends.scope j _ there within))
    have fit := critical.fit j _ there
    cases pc with
    | store =>
      obtain ⟨p, payload⟩ := Option.isSome_iff_exists.mp fit
      by_cases throws : c.throws = true
      · refine single (s.unlock.goto j c .threw) ?_ rfl
          (goto_spared other c _ ⟨rfl, rfl, rfl, rfl, rfl, id⟩)
        simp [step, there, advance, payload, settleStep, throws]
      · have first : step s (.step j) = some ((s.put p).goto j c (.onResolved .settle)) := by
          simp [step, there, advance, payload, settleStep, throws]
        have put_ : Spared i s (s.put p) := by cases p <;> exact ⟨rfl, rfl, rfl, rfl, rfl, id⟩
        have at_ : ((s.put p).goto j c (.onResolved .settle)).acts[j]? =
            some ⟨c, .onResolved .settle⟩ := by
          rw [goto_acts, (put_finalization s p).1]
          exact lookup_set there
        have still : ((s.put p).goto j c (.onResolved .settle)).handle = true :=
          put_.handle.trans live
        have second : step ((s.put p).goto j c (.onResolved .settle)) (.step j) =
            some (((s.put p).goto j c (.onResolved .settle)).unlock.goto j c
              (c.after .settle)) := by
          rw [step_act at_]
          simp only [advance, onResolvedStep, still, if_true]
        have between : Spared i s ((s.put p).goto j c (.onResolved .settle)) := by
          refine ⟨?_, put_.handle, put_.function, put_.others, put_.resolved, put_.owned⟩
          rw [goto_acts, List.getElem?_set_ne (Ne.symm other)]
          exact put_.act
        exact ⟨[.step j, .step j], _, by simp [Steps], run_cons first (run_cons second rfl), rfl,
          goto_spared other c _ between⟩
    | onResolved site =>
      cases site with
      | settle =>
        refine single (s.unlock.goto j c (c.after .settle)) ?_ rfl
          (goto_spared other c _ ⟨rfl, rfl, rfl, rfl, rfl, id⟩)
        simp [step, there, advance, onResolvedStep, live]
      | scopeExit won => exact absurd rfl scope
    | locked =>
      obtain ⟨t, result, body⟩ := lockedBody_total s fit
      refine single (t.unlock.goto j c (.returned result)) ?_ rfl
        (goto_spared other c _ (lockedBody_spared i body))
      simp [step, there, advance, lockedStep, body]
    | scopeClear won | scopeDestroy won rest | scopeWait won k rest => exact absurd rfl scope
    | _ => simp [holds] at inside

/-- `final_suspend` has returned and left nothing of the coroutine in the state. -/
structure Completed (i : Nat) (c : Call V E H F) (won : Bool) (s t : State V E H F) : Prop where
  act : t.acts[i]? = some ⟨c, .returned won⟩
  handle : t.handle = false
  function : t.function = []
  mutex : t.mutex = none
  delivered : t.isDone = true → t.awaiters = [] ∧ t.invoked = s.invoked ++ s.awaiters

theorem destroys_complete {s : State V E H F} {i : Nat} {c : Call V E H F} {won : Bool}
    {captured : List Nat} (here : s.acts[i]? = some ⟨c, .scopeDestroy won captured⟩)
    (clear : s.handle = false) (empty : s.function = [])
    (settled : ∀ j ∈ captured, s.others j ≠ .pending) :
    ∃ n t, run step s (List.replicate n (.step i)) = some t ∧ Completed i c won s t := by
  induction captured generalizing s with
  | nil =>
    by_cases done : s.isDone = true
    · have first : step s (.step i) = some (s.goto i c (.onResolved (.scopeExit won))) := by
        rw [step_act here]
        simp [advance, scopeExitStep, done]
      have at_ : (s.goto i c (.onResolved (.scopeExit won))).acts[i]? =
          some ⟨c, .onResolved (.scopeExit won)⟩ := lookup_set here
      have second : step (s.goto i c (.onResolved (.scopeExit won))) (.step i) =
          some ((s.goto i c (.onResolved (.scopeExit won))).takeAwaiters.goto i c
            (.flush (.scopeExit won) s.selfOwned s.awaiters)) := by
        rw [step_act at_]
        simp [advance, onResolvedStep, clear]
      have next : ((s.goto i c (.onResolved (.scopeExit won))).takeAwaiters.goto i c
          (.flush (.scopeExit won) s.selfOwned s.awaiters)).acts[i]? =
          some ⟨c, .flush (.scopeExit won) s.selfOwned s.awaiters⟩ := lookup_set at_
      obtain ⟨t, taken, flushed⟩ := flush_run next
      exact ⟨s.awaiters.length + 1 + 1 + 1, t, run_cons first (run_cons second taken), flushed.act,
        flushed.handle.trans clear, flushed.function.trans empty, flushed.mutex,
        fun _ => ⟨flushed.awaiters, flushed.invoked⟩⟩
    · have only : step s (.step i) = some (s.unlock.goto i c (.returned won)) := by
        rw [step_act here]
        simp [advance, scopeExitStep, done]
      exact ⟨1, _, run_cons only rfl, lookup_set here, clear, empty, rfl,
        fun d => absurd d done⟩
  | cons j rest ih =>
    have first : step s (.step i) = some (s.goto i c (.scopeDestroy won rest)) := by
      rw [step_act here]
      simp [advance, scopeExitStep, settled j List.mem_cons_self]
    have next : (s.goto i c (.scopeDestroy won rest)).acts[i]? =
        some ⟨c, .scopeDestroy won rest⟩ := lookup_set here
    obtain ⟨n, t, taken, completed⟩ :=
      ih next clear empty fun k member => settled k (List.mem_cons_of_mem _ member)
    exact ⟨n + 1, t, run_cons first taken, { completed with }⟩

theorem scope_completes {s : State V E H F} {i : Nat} {c : Call V E H F} {won : Bool}
    (free : s.mutex = none) (here : s.acts[i]? = some ⟨c, .scopeLock won⟩)
    (settled : ∀ j ∈ s.function, s.others j ≠ .pending) :
    ∃ n t, run step s (List.replicate n (.step i)) = some t ∧ Completed i c won s t := by
  have first : step s (.step i) =
      some ({ s with mutex := some i }.goto i c (.scopeClear won)) := by
    rw [step_act here]
    simp [advance, scopeExitStep, free]
  have at_ : ({ s with mutex := some i }.goto i c (.scopeClear won)).acts[i]? =
      some ⟨c, .scopeClear won⟩ := lookup_set here
  have second : step ({ s with mutex := some i }.goto i c (.scopeClear won)) (.step i) =
      some ({ { s with mutex := some i }.goto i c (.scopeClear won) with
        handle := false, function := [] }.goto i c (.scopeDestroy won s.function)) := by
    rw [step_act at_]
    rfl
  have next : ({ { s with mutex := some i }.goto i c (.scopeClear won) with
      handle := false, function := [] }.goto i c (.scopeDestroy won s.function)).acts[i]? =
      some ⟨c, .scopeDestroy won s.function⟩ := lookup_set at_
  obtain ⟨n, t, taken, completed⟩ := destroys_complete next rfl rfl settled
  exact ⟨n + 1 + 1, t, run_cons first (run_cons second taken), { completed with }⟩

theorem stores_run {s : State V E H F} {i : Nat} {c : Call V E H F} {p : Payload V E}
    (here : s.acts[i]? = some ⟨c, .weakLock⟩) (pays : c.payload = some p)
    (total : c.throws = false) (free : s.mutex = none) (live : s.handle = true)
    (alive : s.alive = true) :
    ∃ t, run step s (List.replicate 4 (.step i)) = some t ∧
      t.acts[i]? = some ⟨c, c.leave true⟩ ∧ t.mutex = none ∧ t.function = s.function ∧
      t.others = s.others ∧ t.awaiters = s.awaiters ∧ t.invoked = s.invoked := by
  have pin : step s (.step i) = some (s.goto i c .lock) := by
    rw [step_act here]
    simp [advance, pays, settleStep, alive]
  have at_lock : (s.goto i c .lock).acts[i]? = some ⟨c, .lock⟩ := lookup_set here
  have lock : step (s.goto i c .lock) (.step i) =
      some ({ s.goto i c .lock with mutex := some i }.goto i c .store) := by
    rw [step_act at_lock]
    simp [advance, pays, settleStep, free]
  have at_store : ({ s.goto i c .lock with mutex := some i }.goto i c .store).acts[i]? =
      some ⟨c, .store⟩ := lookup_set at_lock
  generalize locked : { s.goto i c .lock with mutex := some i }.goto i c .store = u
    at lock at_store
  have store : step u (.step i) = some ((u.put p).goto i c (.onResolved .settle)) := by
    rw [step_act at_store]
    simp [advance, pays, settleStep, total]
  have at_resolved : ((u.put p).goto i c (.onResolved .settle)).acts[i]? =
      some ⟨c, .onResolved .settle⟩ := by
    rw [goto_acts, (put_finalization u p).1]
    exact lookup_set at_store
  have still : ((u.put p).goto i c (.onResolved .settle)).handle = true := by
    rw [goto_handle, (put_finalization u p).2.2.1, ← locked]
    exact live
  have leave : step ((u.put p).goto i c (.onResolved .settle)) (.step i) =
      some (((u.put p).goto i c (.onResolved .settle)).unlock.goto i c (c.leave true)) := by
    rw [step_act at_resolved]
    simp only [advance, onResolvedStep, still, if_true]
    rfl
  refine ⟨_, run_cons pin (run_cons lock (run_cons store (run_cons leave rfl))),
    lookup_set at_resolved, rfl, ?_⟩
  subst locked
  cases p <;> exact ⟨rfl, rfl, rfl, rfl⟩

theorem settle_run {s : State V E H F} {i : Nat} {e : Completion V E} (free : s.mutex = none)
    (live : s.handle = true) (owned : s.owned = true)
    (here : s.acts[i]? = some ⟨.finalSuspend e, (Call.finalSuspend e : Call V E H F).entry⟩) :
    ∃ n t won, run step s (List.replicate n (.step i)) = some t ∧
      t.acts[i]? = some ⟨.finalSuspend e, .scopeLock won⟩ ∧ t.mutex = none ∧
      t.function = s.function ∧ t.others = s.others ∧ t.awaiters = s.awaiters ∧
      t.invoked = s.invoked ∧ (s.resolved = false → e.payload.isSome → won = true) := by
  cases payload : e.payload with
  | none =>
    have at_ : (Call.finalSuspend e : Call V E H F).entry = .scopeLock false := by
      simp [Call.entry, payload]
    rw [at_] at here
    exact ⟨0, s, false, rfl, here, free, rfl, rfl, rfl, rfl, by simp⟩
  | some p =>
    have at_ : (Call.finalSuspend e : Call V E H F).entry = .exchange := by
      simp [Call.entry, payload]
    rw [at_] at here
    have pays : (Call.finalSuspend e : Call V E H F).payload = some p := payload
    by_cases set : s.resolved = true
    · have only : step s (.step i) = some (s.goto i (.finalSuspend e) (.scopeLock false)) := by
        rw [step_act here]
        simp [advance, pays, settleStep, set, Call.leave]
      exact ⟨1, _, false, run_cons only rfl, lookup_set here, free, rfl, rfl, rfl, rfl,
        by simp [set]⟩
    · have claim : step s (.step i) =
          some ({ s with resolved := true }.goto i (.finalSuspend e) .weakLock) := by
        rw [step_act here]
        simp [advance, pays, settleStep, set]
      have next : ({ s with resolved := true }.goto i (.finalSuspend e) .weakLock).acts[i]? =
          some ⟨.finalSuspend e, .weakLock⟩ := lookup_set here
      obtain ⟨t, taken, act, mutex, function, others, awaiters, invoked⟩ :=
        stores_run next pays rfl free live (Bool.or_eq_true_iff.mpr (.inl owned))
      exact ⟨4 + 1, t, true, run_cons claim taken, act, mutex, function, others, awaiters,
        invoked, fun _ _ => rfl⟩

structure Returned (i : Nat) (e : Completion V E) (won : Bool) (t : State V E H F) : Prop where
  act : t.acts[i]? = some ⟨.finalSuspend e, .returned won⟩
  handle : t.handle = false
  function : t.function = []
  mutex : t.mutex = none
  delivered : t.isDone = true → t.awaiters = []

theorem entry_final_pc (e : Completion V E) :
    beforeClear (Call.finalSuspend e : Call V E H F).entry = true ∧
      holds (Call.finalSuspend e : Call V E H F).entry = false := by
  cases e <;> exact ⟨rfl, rfl⟩

theorem steps_return {s : State V E H F} {i : Nat} {e : Completion V E} (reached : Reached s)
    (owned : s.owned = true)
    (here : s.acts[i]? = some ⟨.finalSuspend e, (Call.finalSuspend e : Call V E H F).entry⟩)
    (settled : ∀ j ∈ s.function, s.others j ≠ .pending) :
    ∃ ls t won, Steps ls ∧ run step s ls = some t ∧ Returned i e won t ∧
      (s.resolved = false → e.payload.isSome → won = true) := by
  have ends := reached_finalization reached
  obtain ⟨before, outside⟩ := entry_final_pc (H := H) (F := F) e
  have live := ends.before i _ here rfl before
  obtain ⟨ls, u, steps, first, free, spared⟩ :=
    holder_run (reached_critical reached) ends live here rfl outside
  obtain ⟨n, v, won, second, act, mutex, function, others, _, _, wins⟩ :=
    settle_run free (spared.handle.trans live) (spared.owned owned) (spared.act.trans here)
  have ready : ∀ j ∈ v.function, v.others j ≠ .pending := by
    rw [function, others, spared.function, spared.others]
    exact settled
  obtain ⟨m, t, third, completed⟩ := scope_completes mutex act ready
  refine ⟨ls ++ (List.replicate n (.step i) ++ List.replicate m (.step i)), t, won, ?_, ?_,
    { completed with delivered := fun d => (completed.delivered d).1 }, ?_⟩
  · intro l member
    simp only [List.mem_append, List.mem_replicate] at member
    rcases member with old | ⟨_, rfl⟩ | ⟨_, rfl⟩
    · exact steps l old
    · exact ⟨i, rfl⟩
    · exact ⟨i, rfl⟩
  · rw [run_append, first, Option.bind_some, run_append, second]
    exact third
  · rw [← spared.resolved]
    exact wins

def Waits (s : State V E H F) (pc : Pc H F) : Prop :=
  (beforeClear pc = true ∧ pc ≠ .rejected ∧ ∃ j ∈ s.function, s.others j = .pending) ∨
    (∃ j ∈ destroys pc, s.others j = .pending) ∨ pc = .expired

def Blocked (i : Nat) (e : Completion V E) (s : State V E H F) : Prop :=
  ∃ pc, s.acts[i]? = some ⟨.finalSuspend e, pc⟩ ∧ Waits s pc

def Quiet (l : Label V E H F) : Prop := ∀ j c, l ≠ .other j c

theorem move_function {s t : State V E H F} {i : Nat} {c : Call V E H F} {pc : Pc H F}
    (m : Move s i c pc t) : t.others = s.others ∧
      (t.function = s.function ∨ ∃ won, pc = .scopeClear won) := by
  cases m with
  | scopeClear won => exact ⟨rfl, .inr ⟨won, rfl⟩⟩
  | store p payload total => cases p <;> exact ⟨rfl, .inl rfl⟩
  | body u result run =>
    have spared := lockedBody_spared i run
    exact ⟨spared.others, .inl spared.function⟩
  | _ => exact ⟨rfl, .inl rfl⟩

theorem blocked_before {s t : State V E H F} {i : Nat} {e : Completion V E} {pc : Pc H F}
    (here : s.acts[i]? = some ⟨.finalSuspend e, pc⟩) (m : Move s i (.finalSuspend e) pc t)
    (before : beforeClear pc = true) (entered : pc ≠ .rejected)
    (pending : ∃ j ∈ s.function, s.others j = .pending) : Blocked i e t := by
  cases m with
  | rejectLost | rejectFirst => exact absurd rfl entered
  | lost payload set => exact ⟨_, lookup_set here, .inl ⟨rfl, by simp [Call.leave], pending⟩⟩
  | expire dead => exact ⟨_, lookup_set here, .inr (.inr rfl)⟩
  | throw throws => simp [Call.throws] at throws
  | store p payload total =>
    refine ⟨.onResolved .settle, ?_, .inl ⟨rfl, by simp, ?_⟩⟩
    · rw [goto_acts, (put_finalization s p).1]
      exact lookup_set here
    · cases p <;> exact pending
  | noFlush site live | flushed site saveSelf =>
    cases site with
    | settle => exact ⟨_, lookup_set here, .inl ⟨rfl, by simp [Call.after, Call.leave], pending⟩⟩
    | scopeExit won => simp [beforeClear] at before
  | flush site clear | invoke site saveSelf a rest =>
    cases site with
    | settle => exact ⟨_, lookup_set here, .inl ⟨rfl, by simp, pending⟩⟩
    | scopeExit won => simp [beforeClear] at before
  | scopeClear won => exact ⟨_, lookup_set here, .inr (.inl pending)⟩
  | claim | pin | settleLock | scopeLock =>
    exact ⟨_, lookup_set here, .inl ⟨rfl, by simp, pending⟩⟩
  | _ => simp [beforeClear] at before

theorem blocked_after {s t : State V E H F} {i : Nat} {e : Completion V E} {pc : Pc H F}
    (here : s.acts[i]? = some ⟨.finalSuspend e, pc⟩) (m : Move s i (.finalSuspend e) pc t)
    (pending : ∃ j ∈ destroys pc, s.others j = .pending) : Blocked i e t := by
  obtain ⟨k, member, waits⟩ := pending
  cases m with
  | block won j rest =>
    exact ⟨_, lookup_set here, .inr (.inl ⟨k, member, waits⟩)⟩
  | release won j rest done =>
    rcases List.mem_cons.mp member with rfl | later
    · exact absurd waits done
    · exact ⟨_, lookup_set here, .inr (.inl ⟨k, later, waits⟩)⟩
  | wake won j rest done =>
    rcases List.mem_cons.mp member with rfl | later
    · simp [done] at waits
    · exact ⟨_, lookup_set here, .inr (.inl ⟨k, later, waits⟩)⟩
  | _ => simp [destroys] at member

/-- A step elsewhere keeps the call where it is, and with it the callable it will destroy. -/
theorem blocked_frame {s t : State V E H F} {i : Nat} {e : Completion V E}
    (blocked : Blocked i e s)
    (act : ∀ a : Activation V E H F, s.acts[i]? = some a → t.acts[i]? = some a)
    (function : t.function = s.function) (others : t.others = s.others) : Blocked i e t := by
  obtain ⟨pc, here, waits⟩ := blocked
  refine ⟨pc, act _ here, ?_⟩
  simpa only [Waits, function, others] using waits

theorem blocked_step {s t : State V E H F} {l : Label V E H F} {i : Nat} {e : Completion V E}
    (ends : Finalization s) (blocked : Blocked i e s) (quiet : Quiet l)
    (h : step s l = some t) : Blocked i e t := by
  cases step_change h with
  | call c started =>
    cases started <;> exact blocked_frame blocked (fun _ here => lookup_append here _) rfl rfl
  | step k c pc there move =>
    by_cases mine : k = i
    · subst mine
      obtain ⟨pc', here, before | after | stuck⟩ := blocked
      all_goals
        rw [there, Option.some.injEq, Activation.mk.injEq] at here
        obtain ⟨rfl, rfl⟩ := here
      · exact blocked_before there move before.1 before.2.1 before.2.2
      · exact blocked_after there move after
      · subst stuck
        cases move
    · obtain ⟨pc', acts, _⟩ := move_uses move
      obtain ⟨others, same | ⟨won, rfl⟩⟩ := move_function move
      · refine blocked_frame blocked (fun a here => ?_) same others
        rw [acts, List.getElem?_set_ne mine]
        exact here
      · obtain ⟨_, here, _⟩ := blocked
        exact absurd (ends.once k i _ _ there here (ends.scope k _ there rfl) rfl) mine
  | copy k live same | move k live same | overwrite k live same =>
    subst same
    exact blocked_frame blocked (fun _ here => here) rfl rfl
  | other j c later same => exact absurd rfl (quiet j c)

theorem blocked_run {s t : State V E H F} {ls : List (Label V E H F)} {i : Nat}
    {e : Completion V E} (ends : Finalization s) (blocked : Blocked i e s)
    (quiet : ∀ l ∈ ls, Quiet l) (h : run step s ls = some t) : Blocked i e t := by
  induction ls generalizing s with
  | nil =>
    simp only [run, Option.some.injEq] at h
    exact h ▸ blocked
  | cons l ls ih =>
    obtain ⟨u, first, rest⟩ := Option.bind_eq_some_iff.mp h
    exact ih (step_finalization ends first)
      (blocked_step ends blocked (quiet l List.mem_cons_self) first)
      (fun k member => quiet k (List.mem_cons_of_mem _ member)) rest

theorem blocked_not_returned {s : State V E H F} {i : Nat} {e : Completion V E}
    (blocked : Blocked i e s) (won : Bool) :
    s.acts[i]? ≠ some ⟨.finalSuspend e, .returned won⟩ := by
  obtain ⟨pc, here, waits⟩ := blocked
  intro returned
  rw [here, Option.some.injEq, Activation.mk.injEq] at returned
  obtain ⟨-, rfl⟩ := returned
  simp [Waits, beforeClear, destroys] at waits

theorem entry_blocked {s : State V E H F} {i : Nat} {e : Completion V E}
    (here : s.acts[i]? = some ⟨.finalSuspend e, (Call.finalSuspend e : Call V E H F).entry⟩)
    (pending : ∃ j ∈ s.function, s.others j = .pending) : Blocked i e s := by
  refine ⟨_, here, .inl ⟨(entry_final_pc e).1, ?_, pending⟩⟩
  cases e <;> simp [Call.entry, Completion.payload]

/-- `final_suspend` can return without any other promise settling exactly when no promise
    that the stored callable captured is still pending. -/
theorem returns_iff {s : State V E H F} {i : Nat} {e : Completion V E} (reached : Reached s)
    (owned : s.owned = true)
    (here : s.acts[i]? = some ⟨.finalSuspend e, (Call.finalSuspend e : Call V E H F).entry⟩) :
    (∃ ls t won, (∀ l ∈ ls, Quiet l) ∧ run step s ls = some t ∧ Returned i e won t) ↔
      ∀ j ∈ s.function, s.others j ≠ .pending := by
  constructor
  · rintro ⟨ls, t, won, quiet, taken, returned⟩ j member waits
    have blocked := blocked_run (reached_finalization reached)
      (entry_blocked here ⟨j, member, waits⟩) quiet taken
    exact blocked_not_returned blocked won returned.act
  · intro settled
    obtain ⟨ls, t, won, steps, taken, returned, _⟩ := steps_return reached owned here settled
    refine ⟨ls, t, won, fun l member j c same => ?_, taken, returned⟩
    obtain ⟨k, rfl⟩ := steps l member
    simp at same

end FinalSuspend
