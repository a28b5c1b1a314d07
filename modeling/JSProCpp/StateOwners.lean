import JSProCpp.SharedPromise

/-
Who keeps a promise state alive. `~WPromise` and `Detach` look at the stored outcome, while
the coroutine may still be suspended; assignment does not wait at all; and the flush of
`final_suspend` has only a raw pointer to the state it works for.
-/
namespace StateOwners
open Transitions SharedPromise
variable {V E H F : Type}

def isFinal : Call V E H F → Bool
  | .finalSuspend _ => true
  | _ => false

def holds : Pc H F → Bool
  | .store | .onResolved _ | .scopeClear _ | .scopeDestroy _ _ | .scopeWait _ _ _ | .locked => true
  | _ => false

/-- `final_suspend` up to `handle_ = nullptr`. -/
def beforeClear : Pc H F → Bool
  | .rejected | .exchange | .weakLock | .lock | .store | .onResolved .settle
  | .flush .settle _ _ | .scopeLock _ | .scopeClear _ => true
  | _ => false

def afterClear : Pc H F → Bool
  | .scopeDestroy _ _ | .scopeWait _ _ _ | .onResolved (.scopeExit _) => true
  | _ => false

def inScope : Pc H F → Bool
  | .scopeLock _ | .scopeClear _ | .scopeDestroy _ _ | .scopeWait _ _ _
  | .onResolved (.scopeExit _) | .flush (.scopeExit _) _ _ => true
  | _ => false

/-- `final_suspend` still goes through `parent_`. -/
def usesParent (a : Activation V E H F) : Bool :=
  isFinal a.call && (beforeClear a.pc || afterClear a.pc)

/-- Nothing of the coroutine is left: `handle_` is null and `final_suspend` is through. -/
def Finished (s : State V E H F) : Prop :=
  s.handle = false ∧ ∀ (i : Nat) (a : Activation V E H F), s.acts[i]? = some a →
    usesParent a = false

def ReleasedFinished (s : State V E H F) : Prop := s.owned = false → Finished s

/-- The handle variable whose reference the step gives up without a look at `handle_`:
    assignment over it, or its destructor when an outcome is stored. -/
def drops (s : State V E H F) : Label V E H F → Option Nat
  | .overwrite h => some h
  | .step i =>
      match s.acts[i]? with
      | some ⟨.destroy h, .check⟩ => if s.isDone then some h else none
      | _ => none
  | _ => none

def ownedBut (s : State V E H F) (h : Nat) : Bool :=
  (s.handles.set h .empty).any (· != .empty) || s.selfOwned

def DropsFinished (s : State V E H F) (l : Label V E H F) : Prop :=
  ∀ h, drops s l = some h → ownedBut s h = false → Finished s

/-- How `final_suspend` is tied to the coroutine and to `mutex_`. -/
structure Finalization (s : State V E H F) : Prop where
  mutex : ∀ (i : Nat) (a : Activation V E H F), s.acts[i]? = some a → holds a.pc = true →
    s.mutex = some i
  running : s.running = true → s.handle = true ∧
    ∀ (i : Nat) (a : Activation V E H F), s.acts[i]? = some a → isFinal a.call = false
  before : ∀ (i : Nat) (a : Activation V E H F), s.acts[i]? = some a → isFinal a.call = true →
    beforeClear a.pc = true → s.handle = true
  once : ∀ (i j : Nat) (a b : Activation V E H F), s.acts[i]? = some a → s.acts[j]? = some b →
    isFinal a.call = true → isFinal b.call = true → i = j
  scope : ∀ (i : Nat) (a : Activation V E H F), s.acts[i]? = some a → inScope a.pc = true →
    isFinal a.call = true

theorem initial_finalization (s : State V E H F) (h : Initial s) : Finalization s := by
  obtain ⟨coroutine, captured, others, rfl⟩ := h
  constructor <;> simp [initial]

/-- A step of one activation that leaves `handle_` alone. -/
theorem frame_finalization {s t : State V E H F} {i : Nat} {c : Call V E H F} {pc pc' : Pc H F}
    (inv : Finalization s) (here : s.acts[i]? = some ⟨c, pc⟩)
    (acts : t.acts = s.acts.set i ⟨c, pc'⟩) (running : t.running = s.running)
    (handle : t.handle = s.handle) (locks : holds pc' = true → t.mutex = some i)
    (mutex : t.mutex = s.mutex ∨ s.mutex = none ∨ holds pc = true)
    (before : isFinal c = true → beforeClear pc' = true → beforeClear pc = true)
    (scope : inScope pc' = true → isFinal c = true) : Finalization t where
  mutex := by
    intro j x hx px
    rw [acts] at hx
    rcases set_lookup here hx with ⟨rfl, rfl⟩ | ⟨other, hx⟩
    · exact locks px
    · have mine := inv.mutex j x hx px
      rcases mutex with same | free | held
      · exact same.trans mine
      · simp [free] at mine
      · have ours := inv.mutex i _ here held
        rw [mine, Option.some.injEq] at ours
        exact absurd ours other
  running := by
    intro on
    obtain ⟨live, none_⟩ := inv.running (running ▸ on)
    refine ⟨handle.trans live, fun j x hx => ?_⟩
    rw [acts] at hx
    rcases set_lookup here hx with ⟨rfl, rfl⟩ | ⟨_, hx⟩
    · exact none_ j ⟨c, pc⟩ here
    · exact none_ j x hx
  before := by
    intro j x hx final px
    rw [handle]
    rw [acts] at hx
    rcases set_lookup here hx with ⟨rfl, rfl⟩ | ⟨_, hx⟩
    · exact inv.before j ⟨c, pc⟩ here final (before final px)
    · exact inv.before j x hx final px
  once := by
    intro j k x y hx hy fx fy
    rw [acts] at hx hy
    rcases set_lookup here hx with ⟨rfl, rfl⟩ | ⟨_, hx'⟩ <;>
      rcases set_lookup here hy with ⟨rfl, rfl⟩ | ⟨_, hy'⟩
    · rfl
    · exact inv.once j k ⟨c, pc⟩ y here hy' fx fy
    · exact inv.once j k x ⟨c, pc⟩ hx' here fx fy
    · exact inv.once j k x y hx' hy' fx fy
  scope := by
    intro j x hx px
    rw [acts] at hx
    rcases set_lookup here hx with ⟨rfl, rfl⟩ | ⟨_, hx⟩
    · exact scope px
    · exact inv.scope j x hx px

theorem leave_final (c : Call V E H F) (won : Bool) :
    holds (c.leave won) = false ∧ (inScope (c.leave won) = true → isFinal c = true) := by
  cases c <;> simp [Call.leave, holds, inScope, isFinal]

theorem after_final (c : Call V E H F) (site : Site) :
    holds (c.after site) = false ∧ (inScope (c.after site) = true → isFinal c = true) ∧
      (beforeClear (c.after site) = true → site = .settle) := by
  cases site with
  | settle => exact ⟨(leave_final c true).1, (leave_final c true).2, fun _ => rfl⟩
  | scopeExit won => simp [Call.after, holds, inScope, beforeClear]

theorem lockedBody_finalization {s t : State V E H F} {c : Call V E H F} {result : Bool}
    (h : lockedBody s c = some (t, result)) : t.acts = s.acts ∧ t.running = s.running ∧
      t.handle = s.handle ∧ t.mutex = s.mutex := by
  cases c <;> simp only [lockedBody, reduceCtorEq] at h <;> (try split at h) <;>
    simp only [Option.some.injEq, Prod.mk.injEq] at h <;> obtain ⟨rfl, -⟩ := h <;>
    exact ⟨rfl, rfl, rfl, rfl⟩

theorem put_finalization (s : State V E H F) (p : Payload V E) :
    (s.put p).acts = s.acts ∧ (s.put p).running = s.running ∧
      (s.put p).handle = s.handle ∧ (s.put p).mutex = s.mutex := by
  cases p <;> simp [State.put]

theorem clear_finalization {s : State V E H F} {i : Nat} {c : Call V E H F} {won : Bool}
    (inv : Finalization s) (here : s.acts[i]? = some ⟨c, .scopeClear won⟩) :
    Finalization ({ s with handle := false, function := [] }.goto i c
      (.scopeDestroy won s.function)) := by
  have final : isFinal c = true := inv.scope i _ here rfl
  have mine := inv.mutex i _ here rfl
  have other : ∀ (j : Nat) (x : Activation V E H F), s.acts[j]? = some x → j ≠ i →
      isFinal x.call = false := by
    intro j x hx differs
    by_contra fx
    exact differs (inv.once j i x _ hx here (by simpa using fx) final)
  refine ⟨?_, ?_, ?_, ?_, ?_⟩
  · intro j x hx px
    rcases set_lookup here hx with ⟨rfl, rfl⟩ | ⟨_, hx⟩
    · exact mine
    · exact inv.mutex j x hx px
  · intro on
    have none_ := (inv.running on).2 i _ here
    simp [final] at none_
  · intro j x hx fx px
    rcases set_lookup here hx with ⟨rfl, rfl⟩ | ⟨differs, hx⟩
    · simp [beforeClear] at px
    · simp [other j x hx differs] at fx
  · intro j k x y hx hy fx fy
    rcases set_lookup here hx with ⟨rfl, rfl⟩ | ⟨dx, hx'⟩ <;>
      rcases set_lookup here hy with ⟨rfl, rfl⟩ | ⟨dy, hy'⟩
    · rfl
    · simp [other k y hy' dy] at fy
    · simp [other j x hx' dx] at fx
    · simp [other j x hx' dx] at fx
  · intro j x hx px
    rcases set_lookup here hx with ⟨rfl, rfl⟩ | ⟨_, hx⟩
    · exact final
    · exact inv.scope j x hx px

theorem move_finalization {s t : State V E H F} {i : Nat} {c : Call V E H F} {pc : Pc H F}
    (inv : Finalization s) (here : s.acts[i]? = some ⟨c, pc⟩) (m : Move s i c pc t) :
    Finalization t := by
  have final : inScope pc = true → isFinal c = true := inv.scope i _ here
  cases m with
  | rejectLost | pin | expire | destroyDone | destroyWait | destroyWoken =>
    exact frame_finalization inv here rfl rfl rfl (by simp [holds]) (.inl rfl)
      (by simp [beforeClear]) (by simp [inScope])
  | rejectFirst | claim =>
    exact frame_finalization inv here rfl rfl rfl (by simp [holds]) (.inl rfl)
      (by simp [beforeClear]) (by simp [inScope])
  | lost payload set =>
    have leaving := leave_final c false
    exact frame_finalization inv here rfl rfl rfl (by simp [leaving.1]) (.inl rfl)
      (by simp [beforeClear]) leaving.2
  | settleLock free | acquire free =>
    exact frame_finalization inv here rfl rfl rfl (fun _ => rfl) (.inr (.inl free))
      (by simp [beforeClear]) (by simp [inScope])
  | throw throws =>
    exact frame_finalization inv here rfl rfl rfl (by simp [holds]) (.inr (.inr rfl))
      (by simp [beforeClear]) (by simp [inScope])
  | store p payload total =>
    obtain ⟨acts, running, handle, mutex⟩ := put_finalization s p
    have next : ((s.put p).goto i c (.onResolved .settle)).acts =
        s.acts.set i ⟨c, .onResolved .settle⟩ := by rw [goto_acts, acts]
    have mine := inv.mutex i _ here rfl
    exact frame_finalization inv here next running handle (fun _ => mutex.trans mine)
      (.inl mutex) (by simp [beforeClear]) (by simp [inScope])
  | noFlush site live =>
    obtain ⟨free, scope, before⟩ := after_final c site
    refine frame_finalization inv here rfl rfl rfl (by simp [free]) (.inr (.inr rfl)) ?_ scope
    intro _ inside
    rw [before inside]
    rfl
  | flush site clear =>
    refine frame_finalization inv here rfl rfl rfl (by simp [holds]) (.inr (.inr rfl)) ?_ ?_
    · cases site <;> simp [beforeClear]
    · intro inside
      cases site with
      | settle => simp [inScope] at inside
      | scopeExit won => exact final rfl
  | invoke site saveSelf a rest =>
    refine frame_finalization inv here rfl rfl rfl (by simp [holds]) (.inl rfl) ?_ ?_
    · cases site <;> simp [beforeClear]
    · intro inside
      cases site with
      | settle => simp [inScope] at inside
      | scopeExit won => exact final rfl
  | flushed site saveSelf =>
    obtain ⟨free, scope, before⟩ := after_final c site
    refine frame_finalization inv here rfl rfl rfl (by simp [free]) (.inl rfl) ?_ scope
    intro _ inside
    rw [before inside]
    rfl
  | scopeLock won free =>
    exact frame_finalization inv here rfl rfl rfl (fun _ => rfl) (.inr (.inl free))
      (by simp [beforeClear]) (fun _ => final rfl)
  | scopeClear won => exact clear_finalization inv here
  | block | release | wake | scopeDone =>
    have mine := inv.mutex i _ here rfl
    exact frame_finalization inv here rfl rfl rfl (fun _ => mine) (.inl rfl)
      (by simp [beforeClear]) (fun _ => final rfl)
  | scopePending won pending =>
    exact frame_finalization inv here rfl rfl rfl (by simp [holds]) (.inr (.inr rfl))
      (by simp [beforeClear]) (by simp [inScope])
  | body u result run =>
    obtain ⟨acts, running, handle, mutex⟩ := lockedBody_finalization run
    have next : (u.unlock.goto i c (.returned result)).acts =
        s.acts.set i ⟨c, .returned result⟩ := by rw [goto_acts, State.unlock, acts]
    exact frame_finalization inv here next running handle (by simp [holds]) (.inr (.inr rfl))
      (by simp [beforeClear]) (by simp [inScope])

theorem append_finalization {s t : State V E H F} {more : List (Activation V E H F)}
    (inv : Finalization s) (acts : t.acts = s.acts ++ more)
    (plain : ∀ a ∈ more, holds a.pc = false ∧ isFinal a.call = false ∧ inScope a.pc = false)
    (running : t.running = s.running) (handle : t.handle = s.handle)
    (mutex : t.mutex = s.mutex) : Finalization t := by
  have old : ∀ (j : Nat) (x : Activation V E H F), t.acts[j]? = some x →
      s.acts[j]? = some x ∨ x ∈ more := by
    intro j x hx
    rw [acts, List.getElem?_append] at hx
    split at hx
    · exact .inl hx
    · exact .inr (List.mem_of_getElem? hx)
  refine ⟨?_, ?_, ?_, ?_, ?_⟩
  · intro j x hx px
    rcases old j x hx with hx | new
    · exact mutex.trans (inv.mutex j x hx px)
    · simp [(plain x new).1] at px
  · intro on
    obtain ⟨live, none_⟩ := inv.running (running ▸ on)
    refine ⟨handle.trans live, fun j x hx => ?_⟩
    rcases old j x hx with hx | new
    · exact none_ j x hx
    · exact (plain x new).2.1
  · intro j x hx fx px
    rcases old j x hx with hx | new
    · exact handle.trans (inv.before j x hx fx px)
    · simp [(plain x new).2.1] at fx
  · intro j k x y hx hy fx fy
    rcases old j x hx with hx | new
    · rcases old k y hy with hy | new
      · exact inv.once j k x y hx hy fx fy
      · simp [(plain y new).2.1] at fy
    · simp [(plain x new).2.1] at fx
  · intro j x hx px
    rcases old j x hx with hx | new
    · exact inv.scope j x hx px
    · simp [(plain x new).2.2] at px

theorem entry_final (c : Call V E H F) :
    holds c.entry = false ∧ (isFinal c = false → inScope c.entry = false) := by
  cases c with
  | finalSuspend e => cases e <;> simp [Call.entry, Completion.payload, holds, isFinal]
  | _ => simp [Call.entry, holds, inScope]

theorem final_finalization {s : State V E H F} (inv : Finalization s) (e : Completion V E)
    (on : s.running = true) :
    Finalization ({ s with running := false }.push (.finalSuspend e)) := by
  obtain ⟨live, none_⟩ := inv.running on
  have old : ∀ (j : Nat) (x : Activation V E H F),
      ({ s with running := false }.push (.finalSuspend e)).acts[j]? = some x →
      isFinal x.call = false → s.acts[j]? = some x := by
    intro j x hx plain
    rcases append_lookup hx with ⟨_, rfl⟩ | hx
    · simp [isFinal] at plain
    · exact hx
  refine ⟨?_, fun off => ?_, fun _ _ _ _ _ => live, ?_, ?_⟩
  · intro j x hx px
    rcases append_lookup hx with ⟨_, rfl⟩ | hx
    · simp [(entry_final (.finalSuspend e)).1] at px
    · exact inv.mutex j x hx px
  · simp [State.push] at off
  · intro j k x y hx hy fx fy
    rcases append_lookup hx with ⟨rfl, rfl⟩ | hx
    · rcases append_lookup hy with ⟨rfl, rfl⟩ | hy
      · rfl
      · simp [none_ k y hy] at fy
    · simp [none_ j x hx] at fx
  · intro j x hx px
    rcases append_lookup hx with ⟨_, rfl⟩ | hx
    · rfl
    · exact inv.scope j x hx px

theorem step_finalization {s t : State V E H F} {l : Label V E H F} (inv : Finalization s)
    (h : step s l = some t) : Finalization t := by
  cases step_change h with
  | call c started =>
    have entry := entry_final c
    have plain : isFinal c = false → ∀ a ∈ [(⟨c, c.entry⟩ : Activation V E H F)],
        holds a.pc = false ∧ isFinal a.call = false ∧ inScope a.pc = false := by
      intro calm a member
      rw [List.mem_singleton.mp member]
      exact ⟨entry.1, calm, entry.2 calm⟩
    cases started with
    | final e on => exact final_finalization inv e on
    | close _ k which live =>
      have calm : isFinal c = false := by rcases which with rfl | rfl <;> rfl
      exact append_finalization inv rfl (plain calm) rfl rfl rfl
    | plain _ body =>
      have calm : isFinal c = false := by
        cases c with
        | finalSuspend e => exact absurd rfl (body e)
        | _ => rfl
      exact append_finalization inv rfl (plain calm) rfl rfl rfl
  | step i c pc here move => exact move_finalization inv here move
  | copy k live same | move k live same | overwrite k live same | other k c later same =>
    subst same
    exact append_finalization inv (List.append_nil _).symm (by simp) rfl rfl rfl

theorem reached_finalization {s : State V E H F} (h : Reached s) : Finalization s :=
  reachable_invariant initial_finalization (fun _ _ _ inv taken => step_finalization inv taken) h

theorem any_set {xs : List HandleVar} (h : Nat) {x : HandleVar}
    (before : xs.any (· != .empty) = true) (held : x ≠ .empty) :
    (xs.set h x).any (· != .empty) = true := by
  by_cases inside : h < xs.length
  · have member : x ∈ xs.set h x := List.mem_set inside x
    exact List.any_eq_true.mpr ⟨x, member, by simpa using held⟩
  · rw [List.set_eq_of_length_le (by omega)]
    exact before

theorem lockedBody_owned {s t : State V E H F} {c : Call V E H F} {result : Bool}
    (h : lockedBody s c = some (t, result)) (before : s.owned = true) : t.owned = true := by
  cases c <;> simp only [lockedBody, reduceCtorEq] at h <;> (try split at h) <;>
    simp only [Option.some.injEq, Prod.mk.injEq] at h <;> obtain ⟨rfl, -⟩ := h
  case detach.isTrue k done =>
    rcases Bool.or_eq_true_iff.mp before with handle | self
    · exact Bool.or_eq_true_iff.mpr (.inl (any_set k handle (by simp)))
    · exact Bool.or_eq_true_iff.mpr (.inr self)
  case detach.isFalse k pending => exact Bool.or_eq_true_iff.mpr (.inr rfl)
  all_goals exact before

theorem move_owned {s t : State V E H F} {i : Nat} {c : Call V E H F} {pc : Pc H F}
    (m : Move s i c pc t) (before : s.owned = true) (after : t.owned = false) :
    (∃ h, c = .destroy h ∧ pc = .check ∧ s.isDone = true ∧ ownedBut s h = false) ∨
      (s.handle = false ∧ s.mutex = none) ∨
      (s.handle = false ∧ ∃ site, pc = .onResolved site ∧
        t.acts = s.acts.set i ⟨c, .flush site s.selfOwned s.awaiters⟩) := by
  cases m with
  | destroyDone h call free done => exact .inl ⟨h, call, rfl, done, after⟩
  | destroyWoken h call free done clear => exact .inr (.inl ⟨clear, free⟩)
  | flush site clear => exact .inr (.inr ⟨clear, site, rfl, rfl⟩)
  | store p => cases p <;> exact absurd (before.symm.trans after) (by simp)
  | body u result run => exact absurd (lockedBody_owned run before) (Bool.eq_false_iff.mp after)
  | _ => exact absurd (before.symm.trans after) (by simp)

/-- No step makes a null `handle_` live or brings `final_suspend` back to its parent. -/
theorem move_uses {s t : State V E H F} {i : Nat} {c : Call V E H F} {pc : Pc H F}
    (m : Move s i c pc t) : ∃ pc', t.acts = s.acts.set i ⟨c, pc'⟩ ∧
      (usesParent ⟨c, pc'⟩ = true → usesParent ⟨c, pc⟩ = true) ∧
      (t.handle = true → s.handle = true) := by
  have shrink : (beforeClear pc || afterClear pc) = true → ∀ pc' : Pc H F,
      usesParent ⟨c, pc'⟩ = true → usesParent ⟨c, pc⟩ = true := by
    intro uses pc' new
    have final := (Bool.and_eq_true_iff.mp new).1
    simp only [usesParent, uses, Bool.and_true]
    exact final
  cases m with
  | store p payload total =>
    obtain ⟨acts, _, handle, _⟩ := put_finalization s p
    refine ⟨.onResolved .settle, by rw [goto_acts, acts], shrink rfl _, fun live => ?_⟩
    exact handle ▸ live
  | body u result run =>
    obtain ⟨acts, _, handle, _⟩ := lockedBody_finalization run
    refine ⟨.returned result, by rw [goto_acts, State.unlock, acts], ?_, fun live => ?_⟩
    · simp [usesParent, beforeClear, afterClear]
    · exact handle ▸ live
  | scopeClear won => exact ⟨_, rfl, shrink rfl _, fun live => absurd live (by simp)⟩
  | noFlush site live | flush site clear =>
    refine ⟨_, rfl, shrink ?_ _, id⟩
    cases site <;> rfl
  | invoke site saveSelf a rest => exact ⟨_, rfl, by cases site <;> exact id, id⟩
  | flushed site saveSelf =>
    refine ⟨_, rfl, ?_, id⟩
    cases site with
    | settle => exact shrink rfl _
    | scopeExit won => simp [Call.after, usesParent, beforeClear, afterClear]
  | rejectLost | rejectFirst | lost | claim | pin | expire | settleLock | throw | scopeLock
  | block | release | wake | scopeDone | scopePending => exact ⟨_, rfl, shrink rfl _, id⟩
  | acquire | destroyDone | destroyWait | destroyWoken =>
    exact ⟨_, rfl, by simp [usesParent, beforeClear, afterClear], id⟩

theorem finished_of_clear {s : State V E H F} (inv : Finalization s) (clear : s.handle = false)
    (outside : ∀ (i : Nat) (a : Activation V E H F), s.acts[i]? = some a →
      afterClear a.pc = false) : Finished s := by
  refine ⟨clear, fun i a here => ?_⟩
  by_contra uses
  rw [Bool.not_eq_false] at uses
  obtain ⟨final, inside⟩ := Bool.and_eq_true_iff.mp uses
  rw [outside i a here, Bool.or_false] at inside
  simp [inv.before i a here final inside] at clear

theorem afterClear_holds {pc : Pc H F} (h : afterClear pc = true) : holds pc = true := by
  cases pc <;> simp_all [afterClear, holds]

theorem flush_finished {s t : State V E H F} {i : Nat} {c : Call V E H F} {site : Site}
    (inv : Finalization s) (here : s.acts[i]? = some ⟨c, .onResolved site⟩)
    (clear : s.handle = false) (handle : t.handle = s.handle)
    (acts : t.acts = s.acts.set i ⟨c, .flush site s.selfOwned s.awaiters⟩) : Finished t := by
  have mine := inv.mutex i _ here rfl
  refine ⟨handle.trans clear, fun j x hx => ?_⟩
  by_contra uses
  rw [Bool.not_eq_false] at uses
  obtain ⟨final, inside⟩ := Bool.and_eq_true_iff.mp uses
  rw [acts] at hx
  rcases set_lookup here hx with ⟨rfl, rfl⟩ | ⟨other, hx'⟩
  · cases site with
    | settle => simp [inv.before j _ here final rfl] at clear
    | scopeExit won => simp [beforeClear, afterClear] at inside
  · rcases Bool.or_eq_true_iff.mp inside with before | after
    · simp [inv.before j x hx' final before] at clear
    · have theirs := inv.mutex j x hx' (afterClear_holds after)
      rw [mine, Option.some.injEq] at theirs
      exact other theirs.symm

theorem finished_congr {s t : State V E H F} (h : Finished s) (acts : t.acts = s.acts)
    (handle : t.handle = s.handle) : Finished t :=
  ⟨handle.trans h.1, fun i a here => h.2 i a (acts ▸ here)⟩

theorem started_released {s t : State V E H F} {c : Call V E H F} (inv : Finalization s)
    (released : ReleasedFinished s) (started : Started s c t) : ReleasedFinished t := by
  intro gone
  have calm : s.owned = false → (∀ e, c ≠ .finalSuspend e) → Finished (s.push c) := by
    intro none_ body
    obtain ⟨clear, old⟩ := released none_
    refine ⟨clear, fun j x hx => ?_⟩
    rcases append_lookup hx with ⟨_, rfl⟩ | hx
    · cases c with
      | finalSuspend e => exact absurd rfl (body e)
      | _ => rfl
    · exact old j x hx
  cases started with
  | final e on =>
    have clear := (released gone).1
    simp [(inv.running on).1] at clear
  | close _ k which live =>
    have member : s.handles.any (· != .empty) = true :=
      List.any_eq_true.mpr ⟨.live, List.mem_of_getElem? live, rfl⟩
    have owned : ({ s with handles := s.handles.set k .closing }.push c).owned = true :=
      Bool.or_eq_true_iff.mpr (.inl (any_set k member (by simp)))
    exact absurd owned (Bool.eq_false_iff.mp gone)
  | plain _ body => exact calm gone body

theorem released_step {s t : State V E H F} {l : Label V E H F}
    (inv : Finalization s ∧ ReleasedFinished s) (met : DropsFinished s l)
    (h : step s l = some t) : Finalization t ∧ ReleasedFinished t := by
  obtain ⟨ends, released⟩ := inv
  refine ⟨step_finalization ends h, ?_⟩
  cases step_change h with
  | call c started => exact started_released ends released started
  | step i c pc here move =>
    intro gone
    obtain ⟨pc', acts, uses, live⟩ := move_uses move
    have keeps : Finished s → Finished t := by
      rintro ⟨clear, none_⟩
      refine ⟨by simpa [clear] using live, fun j x hx => ?_⟩
      rw [acts] at hx
      rcases set_lookup here hx with ⟨rfl, rfl⟩ | ⟨_, hx'⟩
      · have old := none_ j _ here
        simpa [old] using uses
      · exact none_ j x hx'
    by_cases owned : s.owned = true
    · rcases move_owned move owned gone with ⟨k, rfl, rfl, done, last⟩ | ⟨clear, free⟩ |
        ⟨clear, site, rfl, flushing⟩
      · exact keeps (met k (by simp [drops, here, done]) last)
      · refine keeps (finished_of_clear ends clear fun j x hx => ?_)
        by_contra inside
        simp [ends.mutex j x hx (afterClear_holds (by simpa using inside))] at free
      · exact flush_finished ends here clear (by simpa [clear] using live) flushing
    · exact keeps (released (by simpa using owned))
  | copy k alive same | move k alive same =>
    intro gone
    subst same
    simp [State.owned] at gone
  | overwrite k alive same =>
    intro gone
    subst same
    exact finished_congr (met k rfl gone) rfl rfl
  | other j c later same =>
    intro gone
    subst same
    exact finished_congr (released gone) rfl rfl

theorem dropped_unfinished {s t : State V E H F} {l : Label V E H F} (h : step s l = some t)
    (released : ReleasedFinished t) : DropsFinished s l := by
  intro k dropped last
  have gone : t.owned = false → Finished t := released
  cases l with
  | overwrite k' =>
    simp only [drops, Option.some.injEq] at dropped
    subst dropped
    cases step_change h with
    | overwrite k live same =>
      subst same
      exact finished_congr (gone last) rfl rfl
  | step i =>
    simp only [drops] at dropped
    split at dropped
    · rename_i k' here
      split at dropped <;> simp only [Option.some.injEq, reduceCtorEq] at dropped
      subst dropped
      rename_i done
      have taken : t = { s with handles := s.handles.set k' .empty }.goto i (.destroy k')
          (.returned true) := by
        simp only [step, here, advance, destructorStep, done, if_true] at h
        split at h <;> simp only [Option.some.injEq, reduceCtorEq] at h
        exact h.symm
      subst taken
      obtain ⟨clear, none_⟩ := gone last
      refine ⟨clear, fun j x hx => ?_⟩
      by_cases moved : j = i
      · subst moved
        rw [here, Option.some.injEq] at hx
        subst hx
        rfl
      · refine none_ j x ?_
        rw [goto_acts, List.getElem?_set_ne (Ne.symm moved)]
        exact hx
    · simp at dropped
  | _ => simp [drops] at dropped

/-- Exactly the runs that never give up the last owner of a live coroutine that way keep
    every released state finished. -/
theorem released_finished_iff {s : State V E H F} (fresh : Initial s)
    (ls : List (Label V E H F)) :
    Always step ReleasedFinished s ls ↔ Meets step DropsFinished s ls := by
  have start : Finalization s ∧ ReleasedFinished s := by
    refine ⟨initial_finalization s fresh, ?_⟩
    obtain ⟨coroutine, captured, others, rfl⟩ := fresh
    simp [ReleasedFinished, State.owned, initial]
  constructor
  · exact meets_of_always (fun _ _ _ inv taken => step_finalization inv taken)
      (fun _ _ _ _ taken => dropped_unfinished taken) start.1
  · exact always_of_meets (fun _ _ _ inv met taken => released_step inv met taken)
      (fun _ inv => inv.2) start

def copiedThenOverwritten : List (Label Nat Nat Nat Nat) := [.copy 0, .overwrite 0]

theorem released_finished_copied :
    Always step ReleasedFinished
      (initial true [] fun _ => .pending) copiedThenOverwritten := by
  refine (released_finished_iff ⟨true, [], fun _ => .pending, rfl⟩ _).mpr
    (meets_cons rfl (by simp [DropsFinished, drops]) (meets_cons rfl ?_ trivial))
  intro h dropped last
  simp only [drops, Option.some.injEq] at dropped
  subst dropped
  exact Bool.noConfusion last

def resolvedThenDestroyed : List (Label Nat Nat Nat Nat) :=
  [.call (.resolve 7 false), .step 0, .step 0, .step 0, .step 0, .step 0,
    .call (.destroy 0), .step 1]

/-- So is a coroutine whose only handle is assigned over. -/
theorem released_unfinished :
    (∃ s, run step (initial true [] fun _ => .pending) resolvedThenDestroyed = some s ∧
      s.owned = false ∧ s.handle = true ∧ ¬ReleasedFinished s) ∧
    ∃ s, run step (initial true [] fun _ => .pending)
      [(.overwrite 0 : Label Nat Nat Nat Nat)] = some s ∧
      s.owned = false ∧ s.handle = true ∧ ¬ReleasedFinished s := by
  refine ⟨⟨_, rfl, rfl, rfl, ?_⟩, ⟨_, rfl, rfl, rfl, ?_⟩⟩
  · exact fun released => Bool.noConfusion (released rfl).1
  · exact fun released => Bool.noConfusion (released rfl).1

/-- A flush of `final_suspend` that took over no `self_owned_` and still has function awaiters,
    which captured the state as `this`. -/
def UnsavedFlush (s : State V E H F) : Prop :=
  ∃ (i : Nat) (c : Call V E H F) (won : Bool) (todo : List (Awaiter H F)),
    s.acts[i]? = some ⟨c, .flush (.scopeExit won) false todo⟩ ∧
      todo.any Awaiter.isFunction = true

def SourceOwned (s : State V E H F) : Prop := UnsavedFlush s → s.alive = true

def NextOwned (s : State V E H F) : Prop :=
  ∀ (i : Nat) (c : Call V E H F) (site : Site) (saveSelf : Bool) (a : Awaiter H F)
    (rest : List (Awaiter H F)), s.acts[i]? = some ⟨c, .flush site saveSelf (a :: rest)⟩ →
    a.isFunction = true → s.alive = true

inductive Owner where
  | handle (h : Nat)
  | call (i : Nat)
  deriving DecidableEq

def givesUp (s : State V E H F) : Label V E H F → Option Owner
  | .overwrite h => some (.handle h)
  | .step i =>
      match s.acts[i]? with
      | some ⟨.destroy h, .check⟩ => if s.isDone then some (.handle h) else none
      | some ⟨.destroy h, .waitDone⟩ => some (.handle h)
      | some ⟨c, .store⟩ => if c.throws then some (.call i) else none
      | some ⟨_, .onResolved .settle⟩ => if s.handle then some (.call i) else none
      | some ⟨_, .flush .settle _ []⟩ => some (.call i)
      | some ⟨_, .flush (.scopeExit _) true []⟩ => some (.call i)
      | _ => none
  | _ => none

def OwnedWithout (s : State V E H F) : Owner → Prop
  | .handle h => ownedBut s h = true ∨ s.acts.any Activation.keeps = true
  | .call i => s.owned = true ∨ ∃ (j : Nat) (a : Activation V E H F),
      j ≠ i ∧ s.acts[j]? = some a ∧ a.keeps = true

def KeepsSource (s : State V E H F) (l : Label V E H F) : Prop :=
  (∀ o, givesUp s l = some o → UnsavedFlush s → OwnedWithout s o) ∧
  ∀ (i : Nat) (c : Call V E H F) (won : Bool), l = .step i →
    s.acts[i]? = some ⟨c, .onResolved (.scopeExit won)⟩ → s.handle = false →
    s.selfOwned = false → s.awaiters.any Awaiter.isFunction = true → s.alive = true

theorem alive_iff (s : State V E H F) : s.alive = true ↔ s.owned = true ∨
    ∃ (i : Nat) (a : Activation V E H F), s.acts[i]? = some a ∧ a.keeps = true := by
  rw [State.alive, Bool.or_eq_true, List.any_eq_true]
  refine or_congr_right ⟨?_, ?_⟩
  · rintro ⟨a, member, keeps⟩
    obtain ⟨i, here⟩ := List.mem_iff_getElem?.mp member
    exact ⟨i, a, here, keeps⟩
  · rintro ⟨i, a, here, keeps⟩
    exact ⟨a, List.mem_of_getElem? here, keeps⟩

/-- A step of one activation that gives up nothing. -/
theorem frame_alive {s t : State V E H F} {i : Nat} {a b : Activation V E H F}
    (here : s.acts[i]? = some a) (acts : t.acts = s.acts.set i b)
    (owned : s.owned = true → t.owned = true) (keeps : a.keeps = true → b.keeps = true)
    (alive : s.alive = true) : t.alive = true := by
  rcases (alive_iff s).mp alive with mine | ⟨j, x, hx, kx⟩
  · exact (alive_iff t).mpr (.inl (owned mine))
  · by_cases moved : j = i
    · subst moved
      rw [here, Option.some.injEq] at hx
      subst hx
      exact (alive_iff t).mpr (.inr ⟨j, b, by rw [acts]; exact lookup_set here, keeps kx⟩)
    · refine (alive_iff t).mpr (.inr ⟨j, x, ?_, kx⟩)
      rw [acts, List.getElem?_set_ne (Ne.symm moved)]
      exact hx

theorem without_call {s t : State V E H F} {i : Nat} {b : Activation V E H F}
    (others : OwnedWithout s (.call i)) (acts : t.acts = s.acts.set i b)
    (owned : t.owned = s.owned) : t.alive = true := by
  rcases others with mine | ⟨j, x, other, hx, kx⟩
  · exact (alive_iff t).mpr (.inl (owned.trans mine))
  · refine (alive_iff t).mpr (.inr ⟨j, x, ?_, kx⟩)
    rw [acts, List.getElem?_set_ne (Ne.symm other)]
    exact hx

theorem without_handle {s t : State V E H F} {i h : Nat} {a b : Activation V E H F}
    (here : s.acts[i]? = some a) (acts : t.acts = s.acts.set i b)
    (idle : a.keeps = false) (owned : t.owned = ownedBut s h)
    (others : OwnedWithout s (.handle h)) : t.alive = true := by
  rcases others with mine | keeps
  · exact (alive_iff t).mpr (.inl (owned.trans mine))
  · obtain ⟨x, member, kx⟩ := List.any_eq_true.mp keeps
    obtain ⟨j, hx⟩ := List.mem_iff_getElem?.mp member
    have moved : j ≠ i := by
      rintro rfl
      rw [here, Option.some.injEq] at hx
      subst hx
      simp [idle] at kx
    refine (alive_iff t).mpr (.inr ⟨j, x, ?_, kx⟩)
    rw [acts, List.getElem?_set_ne (Ne.symm moved)]
    exact hx

theorem flush_alive {s : State V E H F} {i : Nat} {c : Call V E H F} {site : Site}
    (here : s.acts[i]? = some ⟨c, .onResolved site⟩) (alive : s.alive = true) :
    (s.takeAwaiters.goto i c (.flush site s.selfOwned s.awaiters)).alive = true := by
  by_cases self : s.selfOwned = true
  · have keeps : (⟨c, .flush site s.selfOwned s.awaiters⟩ : Activation V E H F).keeps = true := by
      cases site <;> simp [Activation.keeps, self]
    exact (alive_iff _).mpr (.inr ⟨i, _, lookup_set here, keeps⟩)
  · refine frame_alive here rfl (fun owned => ?_) ?_ alive
    · have handle : s.handles.any (· != .empty) = true := by simpa [State.owned, self] using owned
      exact Bool.or_eq_true_iff.mpr (.inl handle)
    · cases site <;> simp [Activation.keeps]

theorem leave_keeps (c : Call V E H F) (won : Bool) :
    (⟨c, c.leave won⟩ : Activation V E H F).keeps = false := by
  cases c <;> rfl

theorem after_keeps (c : Call V E H F) (site : Site) :
    (⟨c, c.after site⟩ : Activation V E H F).keeps = false := by
  cases site with
  | settle => exact leave_keeps c true
  | scopeExit won => rfl

theorem put_owned (s : State V E H F) (p : Payload V E) : (s.put p).owned = s.owned := by
  cases p <;> rfl

theorem move_alive {s t : State V E H F} {i : Nat} {c : Call V E H F} {pc : Pc H F}
    (here : s.acts[i]? = some ⟨c, pc⟩) (m : Move s i c pc t) (alive : s.alive = true)
    (kept : ∀ o, givesUp s (.step i) = some o → OwnedWithout s o) : t.alive = true := by
  cases m with
  | lost payload set =>
    exact frame_alive here rfl id (by simp [Activation.keeps]) alive
  | throw throws => exact without_call (kept (.call i) (by simp [givesUp, here, throws])) rfl rfl
  | store p payload total =>
    refine frame_alive here (b := ⟨c, .onResolved .settle⟩) ?_ ?_ (fun _ => rfl) alive
    · rw [goto_acts, (put_finalization s p).1]
    · exact fun owned => (put_owned s p).trans owned
  | noFlush site live =>
    cases site with
    | settle => exact without_call (kept (.call i) (by simp [givesUp, here, live])) rfl rfl
    | scopeExit won => exact frame_alive here rfl id (by simp [Activation.keeps]) alive
  | flush site clear => exact flush_alive here alive
  | flushed site saveSelf =>
    cases site with
    | settle => exact without_call (kept (.call i) (by simp [givesUp, here])) rfl rfl
    | scopeExit won =>
      cases saveSelf with
      | true => exact without_call (kept (.call i) (by simp [givesUp, here])) rfl rfl
      | false => exact frame_alive here rfl id (by simp [Activation.keeps]) alive
  | destroyDone h call free done =>
    subst call
    exact without_handle here rfl rfl rfl (kept _ (by simp [givesUp, here, done]))
  | destroyWoken h call free done clear =>
    subst call
    exact without_handle here rfl rfl rfl (kept _ (by simp [givesUp, here]))
  | body u result run =>
    obtain ⟨acts, _⟩ := lockedBody_finalization run
    refine frame_alive here (b := ⟨c, .returned result⟩) ?_ ?_ (by simp [Activation.keeps]) alive
    · rw [goto_acts, State.unlock, acts]
    · intro owned
      have still : u.owned = true := lockedBody_owned run owned
      exact still
  | invoke site saveSelf a rest =>
    exact frame_alive here rfl id (by cases site <;> exact id) alive
  | settleLock => exact frame_alive here rfl id (fun _ => rfl) alive
  | _ => exact frame_alive here rfl id (by simp [Activation.keeps]) alive

theorem append_alive {s t : State V E H F} {more : List (Activation V E H F)}
    (alive : s.alive = true) (acts : t.acts = s.acts ++ more)
    (owned : s.owned = true → t.owned = true) : t.alive = true := by
  rcases (alive_iff s).mp alive with mine | ⟨j, x, hx, kx⟩
  · exact (alive_iff t).mpr (.inl (owned mine))
  · exact (alive_iff t).mpr (.inr ⟨j, x, by rw [acts]; exact lookup_append hx _, kx⟩)

theorem step_alive {s t : State V E H F} {l : Label V E H F} (h : step s l = some t)
    (alive : s.alive = true) (kept : ∀ o, givesUp s l = some o → OwnedWithout s o) :
    t.alive = true := by
  cases step_change h with
  | call c started =>
    cases started with
    | final e on => exact append_alive alive rfl id
    | plain _ body => exact append_alive alive rfl id
    | close _ k which live =>
      refine append_alive alive rfl fun owned => ?_
      rcases Bool.or_eq_true_iff.mp owned with handle | self
      · exact Bool.or_eq_true_iff.mpr (.inl (any_set k handle (by simp)))
      · exact Bool.or_eq_true_iff.mpr (.inr self)
  | step i c pc here move => exact move_alive here move alive kept
  | copy k live same | move k live same =>
    subst same
    exact (alive_iff _).mpr (.inl (by simp [State.owned]))
  | overwrite k live same =>
    subst same
    rcases kept _ rfl with mine | keeps
    · exact Bool.or_eq_true_iff.mpr (.inl mine)
    · exact Bool.or_eq_true_iff.mpr (.inr keeps)
  | other j c later same =>
    subst same
    exact alive

theorem move_flush {s t : State V E H F} {i : Nat} {c : Call V E H F} {pc : Pc H F}
    (m : Move s i c pc t) : ∃ pc', t.acts = s.acts.set i ⟨c, pc'⟩ ∧
      ∀ (site : Site) (saveSelf : Bool) (todo : List (Awaiter H F)),
        pc' = .flush site saveSelf todo →
        (∃ a, pc = .flush site saveSelf (a :: todo)) ∨
        (pc = .onResolved site ∧ s.handle = false ∧ saveSelf = s.selfOwned ∧
          todo = s.awaiters) := by
  cases m with
  | store p payload total =>
    exact ⟨.onResolved .settle, by rw [goto_acts, (put_finalization s p).1], by simp⟩
  | body u result run =>
    have acts := (lockedBody_finalization run).1
    exact ⟨.returned result, by rw [goto_acts, State.unlock, acts], by simp⟩
  | lost payload set =>
    refine ⟨_, rfl, fun site saveSelf todo at_ => ?_⟩
    cases c <;> simp [Call.leave] at at_
  | noFlush site live | flushed site saveSelf =>
    refine ⟨_, rfl, fun site' saveSelf' todo at_ => ?_⟩
    cases site <;> cases c <;> simp [Call.after, Call.leave] at at_
  | flush site clear =>
    refine ⟨_, rfl, fun site' saveSelf todo at_ => .inr ?_⟩
    simp only [Pc.flush.injEq] at at_
    obtain ⟨rfl, rfl, rfl⟩ := at_
    exact ⟨rfl, clear, rfl, rfl⟩
  | invoke site saveSelf a rest =>
    refine ⟨_, rfl, fun site' saveSelf' todo at_ => .inl ⟨a, ?_⟩⟩
    simp only [Pc.flush.injEq] at at_
    obtain ⟨rfl, rfl, rfl⟩ := at_
    rfl
  | _ => exact ⟨_, rfl, by simp⟩

theorem unsaved_before {s t : State V E H F} {l : Label V E H F} (h : step s l = some t)
    (unsaved : UnsavedFlush t) : UnsavedFlush s ∨
      ∃ (i : Nat) (c : Call V E H F) (won : Bool), l = .step i ∧
        s.acts[i]? = some ⟨c, .onResolved (.scopeExit won)⟩ ∧ s.handle = false ∧
        s.selfOwned = false ∧ s.awaiters.any Awaiter.isFunction = true := by
  obtain ⟨j, c, won, todo, here, waiting⟩ := unsaved
  have old : s.acts[j]? = some ⟨c, .flush (.scopeExit won) false todo⟩ → UnsavedFlush s :=
    fun there => ⟨j, c, won, todo, there, waiting⟩
  cases step_change h with
  | call d started =>
    have pushed : t.acts = s.acts ++ [⟨d, d.entry⟩] := by cases started <;> rfl
    rw [pushed] at here
    rcases append_lookup here with ⟨_, same⟩ | there
    · simp only [Activation.mk.injEq] at same
      obtain ⟨rfl, pc⟩ := same
      cases c with
      | finalSuspend e => cases e <;> simp [Call.entry, Completion.payload] at pc
      | _ => simp [Call.entry] at pc
    · exact .inl (old there)
  | step i d pc there move =>
    obtain ⟨pc', acts, flush⟩ := move_flush move
    rw [acts] at here
    rcases set_lookup there here with ⟨rfl, same⟩ | ⟨_, there⟩
    · simp only [Activation.mk.injEq] at same
      obtain ⟨rfl, at_⟩ := same
      rcases flush _ _ _ at_.symm with ⟨a, rfl⟩ | ⟨rfl, clear, self, rfl⟩
      · refine .inl ⟨j, c, won, a :: todo, there, ?_⟩
        simp [waiting]
      · exact .inr ⟨j, c, won, rfl, there, clear, self.symm, waiting⟩
    · exact .inl (old there)
  | copy k live same | move k live same | overwrite k live same | other k d later same =>
    subst same
    exact .inl (old here)

theorem source_step {s t : State V E H F} {l : Label V E H F} (owned : SourceOwned s)
    (met : KeepsSource s l) (h : step s l = some t) : SourceOwned t := by
  intro unsaved
  rcases unsaved_before h unsaved with old | ⟨i, c, won, rfl, here, clear, self, waiting⟩
  · exact step_alive h (owned old) fun o up => met.1 o up old
  · have alive := met.2 i c won rfl here clear self waiting
    refine step_alive h alive fun o up => ?_
    simp [givesUp, here] at up

theorem next_of_source {s : State V E H F} (owned : SourceOwned s) : NextOwned s := by
  intro i c site saveSelf a rest here function
  have kept : (⟨c, .flush site saveSelf (a :: rest)⟩ : Activation V E H F).keeps = true →
      s.alive = true := fun keeps => (alive_iff s).mpr (.inr ⟨i, _, here, keeps⟩)
  cases site with
  | settle => exact kept rfl
  | scopeExit won =>
    cases saveSelf with
    | true => exact kept rfl
    | false => exact owned ⟨i, c, won, a :: rest, here, by simp [function]⟩

theorem unsaved_kept {s t : State V E H F} {i : Nat} {c : Call V E H F} {pc : Pc H F}
    {b : Activation V E H F} (here : s.acts[i]? = some ⟨c, pc⟩)
    (other : ∀ won todo, pc ≠ .flush (.scopeExit won) false todo)
    (acts : t.acts = s.acts.set i b) (unsaved : UnsavedFlush s) : UnsavedFlush t := by
  obtain ⟨j, d, won, todo, there, waiting⟩ := unsaved
  have moved : j ≠ i := by
    rintro rfl
    rw [here, Option.some.injEq, Activation.mk.injEq] at there
    exact other won todo there.2
  refine ⟨j, d, won, todo, ?_, waiting⟩
  rw [acts, List.getElem?_set_ne (Ne.symm moved)]
  exact there

theorem kept_elsewhere {s t : State V E H F} {i : Nat} {a b : Activation V E H F}
    (here : s.acts[i]? = some a) (alive : t.alive = true) (acts : t.acts = s.acts.set i b)
    (idle : b.keeps = false) : t.owned = true ∨
      ∃ (j : Nat) (x : Activation V E H F), j ≠ i ∧ s.acts[j]? = some x ∧ x.keeps = true := by
  rcases (alive_iff t).mp alive with owned | ⟨j, x, hx, kx⟩
  · exact .inl owned
  · rw [acts] at hx
    rcases set_lookup here hx with ⟨_, rfl⟩ | ⟨other, hx⟩
    · simp [idle] at kx
    · exact .inr ⟨j, x, other, hx, kx⟩

theorem elsewhere_call {s t : State V E H F} {i : Nat} {a b : Activation V E H F}
    (here : s.acts[i]? = some a) (alive : t.alive = true) (acts : t.acts = s.acts.set i b)
    (idle : b.keeps = false) (owned : t.owned = s.owned) : OwnedWithout s (.call i) :=
  (kept_elsewhere here alive acts idle).imp_left fun mine => owned.symm.trans mine

theorem elsewhere_handle {s t : State V E H F} {i h : Nat} {a b : Activation V E H F}
    (here : s.acts[i]? = some a) (alive : t.alive = true) (acts : t.acts = s.acts.set i b)
    (idle : b.keeps = false) (owned : t.owned = ownedBut s h) : OwnedWithout s (.handle h) := by
  rcases kept_elsewhere here alive acts idle with mine | ⟨j, x, _, hx, kx⟩
  · exact .inl (owned ▸ mine)
  · exact .inr (List.any_eq_true.mpr ⟨x, List.mem_of_getElem? hx, kx⟩)

theorem move_gives {s t : State V E H F} {i : Nat} {c : Call V E H F} {pc : Pc H F} {o : Owner}
    (here : s.acts[i]? = some ⟨c, pc⟩) (m : Move s i c pc t)
    (up : givesUp s (.step i) = some o) (alive : t.alive = true) : OwnedWithout s o := by
  simp only [givesUp, here] at up
  cases m with
  | throw throws =>
    simp only [throws, if_true, Option.some.injEq] at up
    subst up
    exact elsewhere_call here alive rfl rfl rfl
  | noFlush site live =>
    cases site with
    | settle =>
      simp only [live, if_true, Option.some.injEq] at up
      subst up
      exact elsewhere_call here alive rfl (after_keeps c _) rfl
    | scopeExit won => simp at up
  | flushed site saveSelf =>
    have gone : o = .call i → OwnedWithout s o := by
      intro same
      subst same
      exact elsewhere_call here alive rfl (after_keeps c _) rfl
    cases site with
    | settle =>
      simp only [Option.some.injEq] at up
      exact gone up.symm
    | scopeExit won =>
      cases saveSelf with
      | true =>
        simp only [Option.some.injEq] at up
        exact gone up.symm
      | false => simp at up
  | destroyDone h call free done =>
    subst call
    simp only [done, if_true, Option.some.injEq] at up
    subst up
    exact elsewhere_handle here alive rfl rfl rfl
  | destroyWoken h call free done clear =>
    subst call
    simp only [Option.some.injEq] at up
    subst up
    exact elsewhere_handle here alive rfl rfl rfl
  | destroyWait h call free pending =>
    subst call
    simp [pending] at up
  | store p payload total => simp [total] at up
  | flush site clear => cases site <;> simp [clear] at up
  | invoke site saveSelf a rest =>
    cases site <;> cases saveSelf <;> simp at up
  | _ => simp at up

theorem step_gives {s t : State V E H F} {l : Label V E H F} {o : Owner}
    (h : step s l = some t) (up : givesUp s l = some o) (alive : t.alive = true) :
    OwnedWithout s o := by
  cases step_change h with
  | step i c pc here move => exact move_gives here move up alive
  | overwrite k live same =>
    subst same
    simp only [givesUp, Option.some.injEq] at up
    subst up
    exact Bool.or_eq_true_iff.mp alive
  | _ => simp [givesUp] at up

theorem gives_unsaved {s t : State V E H F} {l : Label V E H F} {o : Owner}
    (h : step s l = some t) (up : givesUp s l = some o) (unsaved : UnsavedFlush s) :
    UnsavedFlush t := by
  cases step_change h with
  | step i c pc here move =>
    obtain ⟨pc', acts, _⟩ := move_uses move
    apply unsaved_kept here ?_ acts unsaved
    intro won todo at_
    subst at_
    cases todo <;> simp [givesUp, here] at up
  | overwrite k live same =>
    subst same
    exact unsaved
  | _ => simp [givesUp] at up

theorem source_kept {s t : State V E H F} {l : Label V E H F} (h : step s l = some t)
    (owned : SourceOwned t) : KeepsSource s l := by
  constructor
  · intro o up unsaved
    exact step_gives h up (owned (gives_unsaved h up unsaved))
  · rintro i c won rfl here clear self waiting
    have taken : t = s.takeAwaiters.goto i c (.flush (.scopeExit won) false s.awaiters) := by
      simpa [step, here, advance, onResolvedStep, clear, self] using h.symm
    subst taken
    have alive := owned ⟨i, c, won, s.awaiters, lookup_set here, waiting⟩
    rcases kept_elsewhere here alive rfl rfl with mine | ⟨j, x, _, hx, kx⟩
    · refine (alive_iff s).mpr (.inl ?_)
      simpa [State.owned, State.takeAwaiters, State.goto, self] using mine
    · exact (alive_iff s).mpr (.inr ⟨j, x, hx, kx⟩)

theorem unsaved_run {s : State V E H F} {i : Nat} {c : Call V E H F} {won : Bool}
    {todo : List (Awaiter H F)} (here : s.acts[i]? = some ⟨c, .flush (.scopeExit won) false todo⟩)
    (waiting : todo.any Awaiter.isFunction = true) (dead : s.alive = false) :
    ∃ n t, run step s (List.replicate n (.step i)) = some t ∧ ¬NextOwned t := by
  induction todo generalizing s with
  | nil => simp at waiting
  | cons a rest ih =>
    by_cases function : a.isFunction = true
    · refine ⟨0, s, rfl, fun next => ?_⟩
      simp [next i c _ _ a rest here function] at dead
    · have first : step s (.step i) = some ({ s with invoked := s.invoked ++ [a] }.goto i c
          (.flush (.scopeExit won) false rest)) := by
        simp [step, here, advance, onResolvedStep]
      have still : ({ s with invoked := s.invoked ++ [a] }.goto i c
          (.flush (.scopeExit won) false rest)).alive = false := by
        by_contra alive
        rw [Bool.not_eq_false] at alive
        have before : s.alive = true := by
          rcases kept_elsewhere here alive rfl rfl with mine | ⟨j, x, _, hx, kx⟩
          · exact (alive_iff s).mpr (.inl mine)
          · exact (alive_iff s).mpr (.inr ⟨j, x, hx, kx⟩)
        simp [before] at dead
      have next : ({ s with invoked := s.invoked ++ [a] }.goto i c
          (.flush (.scopeExit won) false rest)).acts[i]? =
          some ⟨c, .flush (.scopeExit won) false rest⟩ := lookup_set here
      obtain ⟨n, t, taken, bad⟩ := ih next (by simpa [function] using waiting) still
      exact ⟨n + 1, t, run_cons first taken, bad⟩

/-- Every awaiter finds its source owned in the runs that meet the condition, and a step that
    breaks it lets the flush run on to an awaiter whose source is gone. -/
theorem source_outlives {s : State V E H F} (fresh : Initial s) (ls : List (Label V E H F)) :
    (Meets step KeepsSource s ls → Always step NextOwned s ls) ∧
    (Always step SourceOwned s ls ↔ Meets step KeepsSource s ls) ∧
    ∀ t, run step s ls = some t → ∀ l u, step t l = some u → ¬KeepsSource t l →
      ∃ i n w, run step u (List.replicate n (.step i)) = some w ∧ ¬NextOwned w := by
  have start : SourceOwned s := by
    obtain ⟨coroutine, captured, others, rfl⟩ := fresh
    rintro ⟨i, c, won, todo, here, _⟩
    simp [initial] at here
  have steps : ∀ (s : State V E H F) (l : Label V E H F) (t : State V E H F), SourceOwned s →
      KeepsSource s l → step s l = some t → SourceOwned t :=
    fun _ _ _ owned met taken => source_step owned met taken
  refine ⟨always_of_meets steps (fun _ owned => next_of_source owned) start, ⟨?_, ?_⟩, ?_⟩
  · exact meets_of_always (fun _ _ _ inv taken => step_finalization inv taken)
      (fun _ _ _ _ taken => source_kept taken) (initial_finalization s fresh)
  · exact always_of_meets steps (fun _ owned => owned) start
  · intro t _ l u taken broken
    have lost : ¬SourceOwned u := fun owned => broken (source_kept taken owned)
    obtain ⟨unsaved, dead⟩ := Classical.not_imp.mp lost
    obtain ⟨i, c, won, todo, here, waiting⟩ := unsaved
    exact ⟨i, unsaved_run here waiting (by simpa using dead)⟩

theorem source_outlives_copied :
    Always step NextOwned
      (initial true [] fun _ => .pending) copiedThenOverwritten := by
  refine (source_outlives ⟨true, [], fun _ => .pending, rfl⟩ _).1
    (meets_cons rfl ⟨by simp [givesUp], by simp⟩ (meets_cons rfl ⟨?_, by simp⟩ trivial))
  rintro o _ ⟨i, c, won, todo, here, _⟩
  simp [initial] at here

def releasedDuringFlush : List (Label Nat Nat Nat Nat) :=
  [.call (.await 10), .step 0, .step 0, .call (.destroy 0), .step 1,
    .call (.finalSuspend (.returned 7)), .step 2, .step 2, .step 2, .step 2, .step 2, .step 2,
    .step 2, .step 2, .step 2, .step 1]

theorem source_released : ∃ s,
    run step (initial true [] fun _ => .pending) releasedDuringFlush = some s ∧
      s.acts[2]? = some ⟨.finalSuspend (.returned 7),
        .flush (.scopeExit true) false [⟨.function 10, 1⟩]⟩ ∧
      s.alive = false ∧ ¬NextOwned s := by
  refine ⟨_, rfl, rfl, rfl, fun next => ?_⟩
  exact Bool.noConfusion (next 2 _ _ _ _ _ rfl rfl)

end StateOwners
