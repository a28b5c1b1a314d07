import JSProCpp.FinalSuspend

/-
Completion as its observers see it. `Done()`, `await_ready` and `Then` ask for a stored
outcome; `WaitDone` and `OnResolved` ask for a null `handle_` as well. The two agree once the
coroutine has ended. Until then a resolver may have settled the promise, and the flush and
`self_owned_` are left to `final_suspend`.
-/
namespace Completion
open Transitions SharedPromise SettleOnce OrderedDelivery StateOwners FinalSuspend
variable {V E H F : Type}

/-- `Handle::WaitDone` entered now returns without blocking. -/
def waitDone (s : State V E H F) : Bool := s.mutex.isNone && (s.isDone && !s.handle)

def ended : Pc H F → Bool
  | .returned _ | .threw => true
  | _ => false

def Quiet (s : State V E H F) : Prop := ∀ a ∈ s.acts, ended a.pc = true

def Released (s : State V E H F) : Prop := s.awaiters = [] ∧ s.selfOwned = false

def Closing (s : State V E H F) : Prop :=
  ∃ (i : Nat) (a : Activation V E H F), s.acts[i]? = some a ∧ closing a.pc = true

/-- `final_suspend` with `handle_ = nullptr` still ahead, which a dead parent stops. -/
def ending (a : Activation V E H F) : Prop :=
  isFinal a.call = true ∧ (beforeClear a.pc = true ∨ a.pc = .expired)

def located (s : State V E H F) (a : Awaiter H F) : Prop :=
  a.id ∈ s.removed ∨ a ∈ s.invoked ∨ a ∈ s.awaiters ∨
    ∃ (i : Nat) (x : Activation V E H F), s.acts[i]? = some x ∧ a ∈ todo x.pc

/-- What a state says about the flush: it is over or under way once the outcome and the null
    `handle_` are there, and before that it has not begun. -/
structure Observed (s : State V E H F) : Prop where
  closed : s.isDone = true → s.handle = false → Released s ∨ Closing s
  attached : s.handle = true → s.running = true ∨
    ∃ (i : Nat) (a : Activation V E H F), s.acts[i]? = some a ∧ ending a
  waiting : s.handle = true → s.invoked = [] ∧
    ∀ (i : Nat) (a : Activation V E H F), s.acts[i]? = some a → todo a.pc = []
  accounted : ∀ a ∈ s.registered, located s a
  rejecting : ∀ (i : Nat) (a : Activation V E H F), s.acts[i]? = some a → a.pc = .rejected →
    isFinal a.call = false

theorem initial_observed (s : State V E H F) (h : Initial s) : Observed s := by
  obtain ⟨coroutine, captured, others, rfl⟩ := h
  constructor
  · intro done
    simp [initial, State.isDone] at done
  · intro live
    exact .inl live
  · intro live
    exact ⟨rfl, by simp [initial]⟩
  · simp [initial]
  · simp [initial]

/-- A step of one activation that registers nothing. -/
theorem frame_observed {s t : State V E H F} {i : Nat} {c : Call V E H F} {pc pc' : Pc H F}
    (inv : Observed s) (here : s.acts[i]? = some ⟨c, pc⟩)
    (acts : t.acts = s.acts.set i ⟨c, pc'⟩) (registered : t.registered = s.registered)
    (removed : t.removed = s.removed) (running : t.running = s.running)
    (handle : t.handle = true → s.handle = true ∧ t.invoked = s.invoked ∧
      todo pc' = ([] : List (Awaiter H F)) ∧ (ending ⟨c, pc⟩ → ending ⟨c, pc'⟩))
    (moves : ∀ a, a ∈ s.invoked ∨ a ∈ s.awaiters ∨ a ∈ todo pc →
      a ∈ t.invoked ∨ a ∈ t.awaiters ∨ a ∈ todo pc')
    (entered : pc' ≠ .rejected)
    (closed : closing pc' = true ∨ Released t ∨ (t.isDone = true → t.handle = false →
      s.isDone = true ∧ s.handle = false ∧ closing pc = false ∧ (Released s → Released t))) :
    Observed t where
  closed := by
    intro done clear
    rcases closed with inside | released | before
    · exact .inr ⟨i, _, by rw [acts]; exact lookup_set here, inside⟩
    · exact .inl released
    · obtain ⟨done, clear, outside, keeps⟩ := before done clear
      rcases inv.closed done clear with released | inside
      · exact .inl (keeps released)
      · right
        unfold Closing
        rw [acts]
        exact set_keeps here (fun there => absurd there (by simp [outside])) inside
  attached := by
    intro live
    obtain ⟨before, _, _, ends⟩ := handle live
    rw [running]
    refine (inv.attached before).imp id fun final => ?_
    rw [acts]
    exact set_keeps here ends final
  waiting := by
    intro live
    obtain ⟨before, invoked, idle, _⟩ := handle live
    obtain ⟨none_, rest⟩ := inv.waiting before
    refine ⟨invoked.trans none_, fun j x hx => ?_⟩
    rw [acts] at hx
    rcases set_lookup here hx with ⟨_, rfl⟩ | ⟨_, hx⟩
    · exact idle
    · exact rest j x hx
  accounted := by
    intro a member
    have at_ : t.acts[i]? = some ⟨c, pc'⟩ := by rw [acts]; exact lookup_set here
    have place : a ∈ t.invoked ∨ a ∈ t.awaiters ∨ a ∈ todo pc' → located t a := by
      rintro (ran | waits | flight)
      · exact .inr (.inl ran)
      · exact .inr (.inr (.inl waits))
      · exact .inr (.inr (.inr ⟨i, _, at_, flight⟩))
    rcases inv.accounted a (registered ▸ member) with gone | ran | waits | ⟨j, x, hx, flight⟩
    · exact .inl (removed ▸ gone)
    · exact place (moves a (.inl ran))
    · exact place (moves a (.inr (.inl waits)))
    · by_cases same : j = i
      · subst same
        rw [here, Option.some.injEq] at hx
        subst hx
        exact place (moves a (.inr (.inr flight)))
      · refine .inr (.inr (.inr ⟨j, x, ?_, flight⟩))
        rw [acts, List.getElem?_set_ne (Ne.symm same)]
        exact hx
  rejecting := by
    intro j x hx at_
    rw [acts] at hx
    rcases set_lookup here hx with ⟨_, rfl⟩ | ⟨_, hx⟩
    · exact absurd at_ entered
    · exact inv.rejecting j x hx at_

theorem register_observed {s : State V E H F} (inv : Observed s) (t : Target H F)
    (pending : s.isDone = false) : Observed (s.register t) where
  closed := by
    intro done
    change s.isDone = true at done
    simp [pending] at done
  attached := inv.attached
  waiting := inv.waiting
  rejecting := inv.rejecting
  accounted := by
    intro a member
    rcases List.mem_append.mp member with old | new
    · rcases inv.accounted a old with gone | ran | waits | flight
      · exact .inl gone
      · exact .inr (.inl ran)
      · exact .inr (.inr (.inl (List.mem_append_left _ waits)))
      · exact .inr (.inr (.inr flight))
    · exact .inr (.inr (.inl (List.mem_append_right _ new)))

theorem unAwait_observed {s : State V E H F} (inv : Observed s) (id : Nat)
    (found : s.awaiters.any (fun a => a.isFunction && a.id == id) = true) :
    Observed { s with
      awaiters := s.awaiters.eraseP (fun a => a.isFunction && a.id == id)
      removed := id :: s.removed } where
  closed := by
    intro done clear
    rcases inv.closed done clear with released | inside
    · simp [released.1] at found
    · exact .inr inside
  attached := inv.attached
  waiting := inv.waiting
  rejecting := inv.rejecting
  accounted := by
    intro a member
    by_cases hit : a.isFunction && a.id == id
    · have here : a.id = id := by simpa using (Bool.and_eq_true_iff.mp hit).2
      exact .inl (here ▸ List.mem_cons_self)
    · rcases inv.accounted a member with gone | ran | waits | flight
      · exact .inl (List.mem_cons_of_mem _ gone)
      · exact .inr (.inl ran)
      · have stays : a ∈ s.awaiters.eraseP (fun a => a.isFunction && a.id == id) :=
          (List.mem_eraseP_of_neg (p := fun a => a.isFunction && a.id == id) hit).mpr waits
        exact .inr (.inr (.inl stays))
      · exact .inr (.inr (.inr flight))

theorem lockedBody_observed {s t : State V E H F} {c : Call V E H F} {result : Bool}
    (inv : Observed s) (h : lockedBody s c = some (t, result)) :
    Observed t ∧ t.acts = s.acts := by
  cases c <;> simp only [lockedBody, reduceCtorEq] at h <;> (try split at h) <;>
    simp only [Option.some.injEq, Prod.mk.injEq] at h <;> obtain ⟨rfl, -⟩ := h
  case awaitSuspend.isFalse target pending | await.isFalse target pending =>
    exact ⟨register_observed inv _ (by simpa using pending), rfl⟩
  case unAwait.isTrue id found => exact ⟨unAwait_observed inv id found, rfl⟩
  case detach.isFalse k pending =>
    exact ⟨{ inv with closed := fun done => absurd done pending }, rfl⟩
  all_goals exact ⟨{ inv with }, rfl⟩

theorem leave_entered (c : Call V E H F) (won : Bool) : c.leave won ≠ (.rejected : Pc H F) := by
  cases c <;> simp [Call.leave]

theorem after_entered (c : Call V E H F) (site : Site) : c.after site ≠ (.rejected : Pc H F) := by
  cases site with
  | settle => exact leave_entered c true
  | scopeExit won => simp [Call.after]

theorem leave_ending (c : Call V E H F) (won : Bool) (pc : Pc H F) :
    ending ⟨c, pc⟩ → ending ⟨c, c.leave won⟩ := by
  intro h
  cases c with
  | finalSuspend e => exact ⟨rfl, .inl rfl⟩
  | _ => exact absurd h.1 (by simp [isFinal])

theorem after_ending (c : Call V E H F) (site : Site) (pc : Pc H F)
    (inside : ∀ won, site = .scopeExit won → ¬ending ⟨c, pc⟩) :
    ending ⟨c, pc⟩ → ending ⟨c, c.after site⟩ := by
  intro h
  cases site with
  | settle => exact leave_ending c true pc h
  | scopeExit won => exact absurd h (inside won rfl)

theorem move_observed {s t : State V E H F} {i : Nat} {c : Call V E H F} {pc : Pc H F}
    (inv : Observed s) (here : s.acts[i]? = some ⟨c, pc⟩) (m : Move s i c pc t) :
    Observed t := by
  cases m with
  | rejectLost set | rejectFirst clear =>
    have plain := inv.rejecting i _ here rfl
    refine frame_observed inv here rfl rfl rfl rfl (fun live => ⟨live, rfl, rfl, ?_⟩)
      (fun a h => h) (by simp) (.inr (.inr fun d h => ⟨d, h, rfl, id⟩))
    exact fun h => absurd h.1 (by simp [plain])
  | claim | pin | expire | settleLock =>
    refine frame_observed inv here rfl rfl rfl rfl (fun live => ⟨live, rfl, rfl, ?_⟩)
      (fun a h => h) (by simp) (.inr (.inr fun d h => ⟨d, h, rfl, id⟩))
    exact fun h => ⟨h.1, by simp [beforeClear]⟩
  | throw throws =>
    refine frame_observed inv here rfl rfl rfl rfl (fun live => ⟨live, rfl, rfl, ?_⟩)
      (fun a h => h) (by simp) (.inr (.inr fun d h => ⟨d, h, rfl, id⟩))
    intro h
    cases c with
    | finalSuspend e => simp [Call.throws] at throws
    | _ => exact absurd h.1 (by simp [isFinal])
  | lost payload set =>
    obtain ⟨idle, _, outside, open_⟩ := leave_plain c false
    exact frame_observed inv here rfl rfl rfl rfl
      (fun live => ⟨live, rfl, idle, leave_ending c false _⟩) (fun a h => by rwa [idle])
      (leave_entered c false) (.inr (.inr fun d h => ⟨d, h, rfl, id⟩))
  | store p payload total =>
    obtain ⟨registered, removed, invoked, awaiters, _, handle, acts⟩ := put_lists s p
    have next : ((s.put p).goto i c (.onResolved .settle)).acts =
        s.acts.set i ⟨c, .onResolved .settle⟩ := by rw [goto_acts, acts]
    refine frame_observed inv here next registered removed (put_finalization s p).2.1
      (fun live => ⟨handle ▸ live, invoked, rfl, fun h => ⟨h.1, .inl rfl⟩⟩) ?_ (by simp) (.inl rfl)
    intro a h
    rwa [goto_invoked, goto_awaiters, invoked, awaiters]
  | noFlush site live =>
    obtain ⟨idle, _, outside, open_⟩ := after_plain c site
    refine frame_observed inv here rfl rfl rfl rfl (fun _ => ⟨live, rfl, idle, ?_⟩)
      (fun a h => by rwa [idle]) (after_entered c site) (.inr (.inr fun _ h => ?_))
    · exact after_ending c site _ fun won same => by simp [ending, same, beforeClear]
    · exact absurd (show s.handle = false from h) (by simp [live])
  | flush site clear =>
    refine frame_observed inv here rfl rfl rfl rfl
      (fun live => absurd (show s.handle = true from live) (by simp [clear]))
      (fun a h => ?_) (by simp) (.inr (.inl ⟨rfl, rfl⟩))
    rcases h with ran | waits | flight
    · exact .inl ran
    · exact .inr (.inr waits)
    · simp [todo] at flight
  | invoke site saveSelf a rest =>
    refine frame_observed inv here rfl rfl rfl rfl
      (fun live => absurd ((inv.waiting live).2 i _ here) (by simp [todo]))
      (fun b h => ?_) (by simp) (.inr (.inr fun d h => ⟨d, h, rfl, id⟩))
    rcases h with ran | waits | flight
    · exact .inl (List.mem_append_left _ ran)
    · exact .inr (.inl waits)
    · rcases List.mem_cons.mp flight with rfl | later
      · exact .inl (List.mem_append_right _ List.mem_cons_self)
      · exact .inr (.inr later)
  | flushed site saveSelf =>
    obtain ⟨idle, _, _, _⟩ := after_plain c site
    refine frame_observed inv here rfl rfl rfl rfl (fun live => ⟨live, rfl, idle, ?_⟩)
      (fun a h => by rwa [idle]) (after_entered c site) (.inr (.inr fun d h => ⟨d, h, rfl, id⟩))
    exact after_ending c site _ fun won same => by simp [ending, same, beforeClear]
  | scopeLock won free =>
    exact frame_observed inv here rfl rfl rfl rfl
      (fun live => ⟨live, rfl, rfl, fun h => ⟨h.1, .inl rfl⟩⟩) (fun a h => h) (by simp)
      (.inr (.inr fun d h => ⟨d, h, rfl, id⟩))
  | scopeClear won =>
    exact frame_observed inv here rfl rfl rfl rfl (fun live => absurd live (by simp))
      (fun a h => h) (by simp) (.inl rfl)
  | block | release | wake | scopeDone =>
    exact frame_observed inv here rfl rfl rfl rfl
      (fun live => ⟨live, rfl, rfl, fun h => absurd h.2 (by simp [beforeClear])⟩) (fun a h => h)
      (by simp) (.inl rfl)
  | scopePending won pending =>
    refine frame_observed inv here rfl rfl rfl rfl
      (fun live => ⟨live, rfl, rfl, fun h => absurd h.2 (by simp [beforeClear])⟩) (fun a h => h)
      (by simp) (.inr (.inr fun d _ => ?_))
    exact absurd (show s.isDone = true from d) (by simp [pending])
  | body u result run =>
    obtain ⟨observed, acts⟩ := lockedBody_observed inv run
    rw [← acts] at here
    exact frame_observed observed here rfl rfl rfl rfl
      (fun live => ⟨live, rfl, rfl, fun h => absurd h.2 (by simp [beforeClear])⟩) (fun a h => h)
      (by simp) (.inr (.inr fun d h => ⟨d, h, rfl, id⟩))
  | acquire | destroyDone | destroyWait | destroyWoken =>
    exact frame_observed inv here rfl rfl rfl rfl
      (fun live => ⟨live, rfl, rfl, fun h => absurd h.2 (by simp [beforeClear])⟩) (fun a h => h)
      (by simp) (.inr (.inr fun d h => ⟨d, h, rfl, id⟩))

/-- A step that adds activations, if any, or hands `running` over to one. -/
theorem append_observed {s t : State V E H F} {more : List (Activation V E H F)}
    (inv : Observed s) (acts : t.acts = s.acts ++ more) (registered : t.registered = s.registered)
    (removed : t.removed = s.removed) (invoked : t.invoked = s.invoked)
    (awaiters : t.awaiters = s.awaiters) (selfOwned : t.selfOwned = s.selfOwned)
    (done : t.isDone = s.isDone) (handle : t.handle = s.handle)
    (plain : ∀ a ∈ more, todo a.pc = ([] : List (Awaiter H F)) ∧
      (a.pc = .rejected → isFinal a.call = false))
    (running : t.running = s.running ∨ ∃ a ∈ more, ending a) : Observed t := by
  have keeps : ∀ {q : Activation V E H F → Prop},
      (∃ (i : Nat) (a : Activation V E H F), s.acts[i]? = some a ∧ q a) →
      ∃ (i : Nat) (a : Activation V E H F), t.acts[i]? = some a ∧ q a := by
    rintro q ⟨i, a, here, holds⟩
    exact ⟨i, a, by rw [acts]; exact lookup_append here _, holds⟩
  have old : ∀ (j : Nat) (x : Activation V E H F), t.acts[j]? = some x →
      s.acts[j]? = some x ∨ x ∈ more := by
    intro j x hx
    rw [acts, List.getElem?_append] at hx
    split at hx
    · exact .inl hx
    · exact .inr (List.mem_of_getElem? hx)
  refine ⟨?_, ?_, ?_, ?_, ?_⟩
  · rw [done, handle, Released, awaiters, selfOwned]
    exact fun d h => (inv.closed d h).imp id keeps
  · rw [handle]
    intro live
    rcases running with same | ⟨a, member, ends⟩
    · rw [same]
      exact (inv.attached live).imp id keeps
    · obtain ⟨i, here⟩ := List.mem_iff_getElem?.mp
        (show a ∈ t.acts by rw [acts]; exact List.mem_append_right _ member)
      exact .inr ⟨i, a, here, ends⟩
  · rw [handle, invoked]
    refine fun live => ⟨(inv.waiting live).1, fun j x hx => ?_⟩
    rcases old j x hx with hx | new
    · exact (inv.waiting live).2 j x hx
    · exact (plain x new).1
  · intro a member
    unfold located
    rw [removed, invoked, awaiters]
    exact (inv.accounted a (registered ▸ member)).imp id (.imp id (.imp id keeps))
  · intro j x hx at_
    rcases old j x hx with hx | new
    · exact inv.rejecting j x hx at_
    · exact (plain x new).2 at_

theorem entry_observed (c : Call V E H F) : todo c.entry = ([] : List (Awaiter H F)) ∧
    (c.entry = (.rejected : Pc H F) → isFinal c = false) := by
  cases c with
  | finalSuspend e => cases e <;> simp [Call.entry, Completion.payload, todo]
  | _ => simp [Call.entry, todo, isFinal]

theorem step_observed {s t : State V E H F} {l : Label V E H F} (inv : Observed s)
    (h : step s l = some t) : Observed t := by
  cases step_change h with
  | call c started =>
    have plain : ∀ a ∈ [(⟨c, c.entry⟩ : Activation V E H F)],
        todo a.pc = ([] : List (Awaiter H F)) ∧ (a.pc = .rejected → isFinal a.call = false) := by
      intro a member
      rw [List.mem_singleton.mp member]
      exact entry_observed c
    cases started with
    | final e running =>
      refine append_observed inv rfl rfl rfl rfl rfl rfl rfl rfl plain
        (.inr ⟨_, List.mem_singleton_self _, rfl, .inl ?_⟩)
      cases e <;> rfl
    | close _ k which live | plain _ body =>
      exact append_observed inv rfl rfl rfl rfl rfl rfl rfl rfl plain (.inl rfl)
  | step i c pc here move => exact move_observed inv here move
  | copy k live same | move k live same | overwrite k live same | other k c later same =>
    subst same
    exact append_observed inv (List.append_nil _).symm rfl rfl rfl rfl rfl rfl rfl (by simp)
      (.inl rfl)

theorem reached_observed {s : State V E H F} (h : Reached s) : Observed s :=
  reachable_invariant initial_observed (fun _ _ _ inv taken => step_observed inv taken) h

theorem outcome_step {s t : State V E H F} {l : Label V E H F} (inv : Agreement s)
    (done : s.isDone = true) (h : step s l = some t) :
    t.value = s.value ∧ t.exception = s.exception := by
  cases step_effect h with
  | same acts flag value exception | push c acts flag value exception
  | quiet i c pc pc' here acts wins claims flag value exception
  | claim i c here payload acts clear flag value exception => exact ⟨value, exception⟩
  | store i c p here acts payload flag value exception =>
    obtain ⟨value, exception⟩ := inv.early i _ here (by simp [claims, early, payload])
    simp [State.isDone, value, exception] at done

theorem done_run {s t : State V E H F} {ls : List (Label V E H F)} (reached : Reached s)
    (done : s.isDone = true) (h : run step s ls = some t) : t.isDone = true := by
  induction ls generalizing s with
  | nil =>
    simp only [run, Option.some.injEq] at h
    exact h ▸ done
  | cons l ls ih =>
    obtain ⟨u, first, rest⟩ := Option.bind_eq_some_iff.mp h
    obtain ⟨value, exception⟩ := outcome_step (reached_agreement reached) done first
    refine ih (.next reached first) ?_ rest
    rw [State.isDone, value, exception]
    exact done

section Quiescence
variable {s : State V E H F}

theorem quiet_all (h : s.acts.all (fun a => ended a.pc) = true) : Quiet s :=
  List.all_eq_true.mp h

theorem quiet_free (reached : Reached s) (quiet : Quiet s) : s.mutex = none := by
  cases held : s.mutex with
  | none => rfl
  | some j =>
    obtain ⟨a, here, inside⟩ := (reached_critical reached).holder j held
    have past := quiet a (List.mem_of_getElem? here)
    cases at_ : a.pc <;> simp_all [ended, holds]

theorem quiet_open (quiet : Quiet s) : ¬Closing s := by
  rintro ⟨i, a, here, inside⟩
  have past := quiet a (List.mem_of_getElem? here)
  cases at_ : a.pc <;> simp_all [ended, closing]

theorem quiet_handle (reached : Reached s) (quiet : Quiet s) (past : s.running = false) :
    s.handle = false := by
  by_contra live
  rw [Bool.not_eq_false] at live
  rcases (reached_observed reached).attached live with on | ⟨i, a, here, _, ends⟩
  · simp [past] at on
  · have past := quiet a (List.mem_of_getElem? here)
    cases at_ : a.pc <;> simp_all [ended, beforeClear]

theorem quiet_located (reached : Reached s) (quiet : Quiet s) :
    ∀ a ∈ s.registered, a.id ∈ s.removed ∨ a ∈ s.invoked ∨ a ∈ s.awaiters := by
  intro a member
  rcases (reached_observed reached).accounted a member with gone | ran | waits | ⟨i, x, here, h⟩
  · exact .inl gone
  · exact .inr (.inl ran)
  · exact .inr (.inr waits)
  · have past := quiet x (List.mem_of_getElem? here)
    cases at_ : x.pc <;> simp_all [ended, todo]

theorem quiet_keeps (quiet : Quiet s) : s.acts.any Activation.keeps = false := by
  by_contra keeps
  rw [Bool.not_eq_false] at keeps
  obtain ⟨a, member, holds⟩ := List.any_eq_true.mp keeps
  have past := quiet a member
  unfold Activation.keeps at holds
  cases at_ : a.pc <;> simp_all [ended]

theorem ended_stored {pc : Pc H F} (past : ended pc = true) (at_ : stored pc = true) :
    pc = .returned true := by
  cases pc with
  | returned result => cases result <;> simp_all [stored]
  | _ => simp_all [ended, stored]

theorem settled_early (reached : Reached s) (quiet : Quiet s) (done : s.isDone = true)
    (on : s.running = true) : ∃ (i : Nat) (a : Activation V E H F), s.acts[i]? = some a ∧
      isFinal a.call = false ∧ a.call.payload.isSome ∧ a.pc = .returned true := by
  have inv := reached_agreement reached
  have set : s.resolved = true := by
    by_contra clear
    obtain ⟨value, exception⟩ := inv.unclaimed (by simpa using clear)
    simp [State.isDone, value, exception] at done
  obtain ⟨i, a, here, holds⟩ := inv.claimant set
  refine ⟨i, a, here, ((reached_finalization reached).running on).2 i a here, ?_⟩
  rcases Bool.or_eq_true_iff.mp holds with claim | won
  · obtain ⟨value, exception⟩ := inv.early i a here claim
    simp [State.isDone, value, exception] at done
  · obtain ⟨settles, at_⟩ := Bool.and_eq_true_iff.mp won
    have past := quiet a (List.mem_of_getElem? here)
    exact ⟨settles, ended_stored past at_⟩

end Quiescence

/-- With no call in progress, `Done()` means completion for every observer once the coroutine
    has ended. One that its resolver settled earlier keeps all its awaiters, and `WaitDone`
    waiting, up to the end of the body. -/
theorem completion_observed {s : State V E H F} (reached : Reached s) (quiet : Quiet s)
    (done : s.isDone = true) :
    (s.running = false → waitDone s = true ∧ s.awaiters = [] ∧
      ∀ a ∈ s.registered, a.id ∈ s.removed ∨ a ∈ s.invoked) ∧
    (s.running = true → waitDone s = false ∧ s.invoked = [] ∧
      (∀ a ∈ s.registered, a.id ∈ s.removed ∨ a ∈ s.awaiters) ∧
      ∃ (i : Nat) (a : Activation V E H F), s.acts[i]? = some a ∧ isFinal a.call = false ∧
        a.call.payload.isSome ∧ a.pc = .returned true) ∧
    (∀ (f : F) (h : H), lockedBody s (.await f) = some (s, false) ∧
      lockedBody s (.awaitSuspend h) = some (s, false)) ∧
    ∀ (ls : List (Label V E H F)) (t : State V E H F), run step s ls = some t →
      t.isDone = true := by
  have free := quiet_free reached quiet
  have inv := reached_observed reached
  have places := quiet_located reached quiet
  refine ⟨fun past => ?_, fun on => ?_, fun f h => ?_, fun ls t => done_run reached done⟩
  · have clear := quiet_handle reached quiet past
    have released := (inv.closed done clear).resolve_right (quiet_open quiet)
    refine ⟨by simp [waitDone, free, done, clear], released.1, fun a member => ?_⟩
    simpa [released.1] using places a member
  · have live := ((reached_finalization reached).running on).1
    have none_ := (inv.waiting live).1
    refine ⟨by simp [waitDone, live], none_, fun a member => ?_,
      settled_early reached quiet done on⟩
    simpa [none_] using places a member
  · simp [lockedBody, done]

def attachedThenReturned : List (Label Nat Nat Nat Nat) :=
  [.call (.await 10), .step 0, .step 0, .call (.finalSuspend (.returned 7)), .step 1, .step 1,
    .step 1, .step 1, .step 1, .step 1, .step 1, .step 1, .step 1, .step 1, .step 1]

theorem completion_observed_returned : ∃ s,
    run step (initial true [] fun _ => .pending) attachedThenReturned = some s ∧
      s.invoked.map (·.target) = [.function 10] ∧ waitDone s = true ∧ s.awaiters = [] := by
  refine ⟨_, rfl, rfl, ?_⟩
  have reached : Reached (V := Nat) (E := Nat) (H := Nat) (F := Nat) _ :=
    run_reachable (.start ⟨true, [], fun _ => .pending, rfl⟩)
      (show run step (initial true [] fun _ => .pending) attachedThenReturned = some _ from rfl)
  have observed := (completion_observed reached (quiet_all rfl) rfl).1 rfl
  exact ⟨observed.1, observed.2.1⟩

def resolvedBeforeEnd : List (Label Nat Nat Nat Nat) :=
  [.call (.await 10), .step 0, .step 0, .call (.resolve 7 false), .step 1, .step 1, .step 1,
    .step 1, .step 1]

theorem completion_deferred : ∃ s,
    run step (initial true [] fun _ => .pending) resolvedBeforeEnd = some s ∧ Quiet s ∧
      s.isDone = true ∧ waitDone s = false ∧ s.awaiters.map (·.target) = [.function 10] ∧
      s.invoked = [] ∧ lockedBody s (.await 11) = some (s, false) := by
  exact ⟨_, rfl, quiet_all rfl, rfl, rfl, rfl, rfl, rfl⟩

section SelfOwnership
variable {s t u : State V E H F}

theorem selfOwned_step {l : Label V E H F} (done : s.isDone = true) (clear : s.selfOwned = false)
    (h : step s l = some t) : t.selfOwned = false := by
  cases step_change h with
  | call c started => cases started <;> exact clear
  | step i c pc here move =>
    cases move with
    | store p payload total => cases p <;> exact clear
    | flush site clear => rfl
    | body u result run =>
      cases c <;> simp only [lockedBody, reduceCtorEq] at run <;> (try split at run) <;>
        simp only [Option.some.injEq, Prod.mk.injEq] at run <;> obtain ⟨rfl, -⟩ := run
      case detach.isFalse k pending => exact absurd done pending
      all_goals exact clear
    | _ => exact clear
  | copy k live same | move k live same | overwrite k live same | other k c later same =>
    subst same
    exact clear

theorem selfOwned_run {ls : List (Label V E H F)} (reached : Reached s) (done : s.isDone = true)
    (clear : s.selfOwned = false) (h : run step s ls = some t) : t.selfOwned = false := by
  induction ls generalizing s with
  | nil =>
    simp only [run, Option.some.injEq] at h
    exact h ▸ clear
  | cons l ls ih =>
    obtain ⟨u, first, rest⟩ := Option.bind_eq_some_iff.mp h
    have done' := done_run reached done (run_cons first (rfl : run step u [] = some u))
    exact ih (.next reached first) done' (selfOwned_step done clear first) rest

theorem nonNull_reached (h : ReachedNonNull s) : Reached s := by
  induction h with
  | start fresh => exact .start fresh
  | next _ taken ih => exact .next ih (stepNonNull_taken taken).2

theorem nonNull_run {ls : List (Label V E H F)} (h : run stepNonNull s ls = some t) :
    run step s ls = some t := by
  induction ls generalizing s with
  | nil => exact h
  | cons l ls ih =>
    obtain ⟨u, first, rest⟩ := Option.bind_eq_some_iff.mp h
    exact run_cons (stepNonNull_taken first).2 (ih rest)

/-- The flush clears `self_owned_` for good, so that a state whose coroutine has finished and
    whose outcome is stored has only external owners and the calls that run on it. -/
theorem self_owned_released (reached : ReachedNonNull s) :
    (∀ (i : Nat) (c : Call V E H F) (site : Site) (t u : State V E H F)
      (ls : List (Label V E H F)), s.acts[i]? = some ⟨c, .onResolved site⟩ → s.handle = false →
      stepNonNull s (.step i) = some t → run stepNonNull t ls = some u → u.selfOwned = false) ∧
    (s.isDone = true → s.handle = false → ¬Closing s → s.selfOwned = false ∧
      s.alive = (s.handles.any (· != .empty) || s.acts.any Activation.keeps) ∧
      (Quiet s → s.alive = s.handles.any (· != .empty))) := by
  have all := nonNull_reached reached
  refine ⟨?_, fun done clear opened => ?_⟩
  · intro i c site t u ls here clear taken rest
    have done := (reached_delivery reached).resolving i _ site here rfl
    have first := (stepNonNull_taken taken).2
    have flushed : t.selfOwned = false := by
      simp only [step_act here, advance, onResolvedStep, clear, Bool.false_eq_true, if_false,
        Option.some.injEq] at first
      exact first ▸ rfl
    have done' := done_run all done (run_cons first (rfl : run step t [] = some t))
    exact selfOwned_run (.next all first) done' flushed (nonNull_run rest)
  · have released := ((reached_observed all).closed done clear).resolve_right opened
    have alive : s.alive = (s.handles.any (· != .empty) || s.acts.any Activation.keeps) := by
      simp [State.alive, State.owned, released.2]
    refine ⟨released.2, alive, fun quiet => ?_⟩
    rw [alive, quiet_keeps quiet, Bool.or_false]

end SelfOwnership

def detachedTwice : List (Label Nat Nat Nat Nat) :=
  [.copy 0, .call (.await 10), .step 0, .step 0, .call (.detach 0), .step 1, .step 1,
    .call (.resolve 7 false), .step 2, .step 2, .step 2, .step 2, .step 2, .step 2, .step 2,
    .call (.detach 1), .step 3, .step 3, .overwrite 1]

theorem self_owned_released_detached : ∃ s,
    run stepNonNull (initial false [] fun _ => .pending) detachedTwice = some s ∧
      s.selfOwned = false ∧ s.alive = false := by
  refine ⟨_, rfl, ?_⟩
  have reached : ReachedNonNull (V := Nat) (E := Nat) (H := Nat) (F := Nat) _ :=
    run_reachable (.start ⟨false, [], fun _ => .pending, rfl⟩)
      (show run stepNonNull (initial false [] fun _ => .pending) detachedTwice = some _ from rfl)
  have released := (self_owned_released reached).2 rfl rfl (quiet_open (quiet_all rfl))
  exact ⟨released.1, released.2.2 (quiet_all rfl)⟩

end Completion
