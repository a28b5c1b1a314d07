import JSProCpp.StatePromise

/-
The life of a `StatePromise`: what each signal gives to those who wait, across any number of
cycles, and how its destructor differs from `Done()`.
-/
namespace StateLifecycle
open Transitions PromiseCells DerivedPromises StatePromise

def releases : Call → Kind → Option Result
  | .ready, k => released .ready k
  | .done, k => released .done k
  | .reset, _ | .wait _, _ | .attach _ _ _, _ => none

def isAttach : Call → Bool
  | .attach _ _ _ => true
  | _ => false

section Specification
variable {a b : Spec} {n : Nat} {k : Kind}

theorem spec_pending {c : Call} (here : a.waiters[n]? = some (k, none)) (h : a.step c = some b) :
    b.waiters[n]? = some (k, releases c k) := by
  cases c with
  | ready =>
    simp only [Spec.step] at h
    split at h <;> simp only [Option.some.injEq, reduceCtorEq] at h
    simp [← h, here, release, releases]
  | done =>
    simp only [Spec.step, Option.some.injEq] at h
    simp [← h, here, release, releases]
  | reset =>
    simp only [Spec.step, Option.some.injEq] at h
    exact h ▸ here
  | wait j =>
    simp only [Spec.step, Option.some.injEq] at h
    rw [← h]
    exact lookup_append here _
  | attach m coroutine j =>
    simp only [Spec.step] at h
    split at h <;> simp only [Option.some.injEq, reduceCtorEq] at h
    exact h ▸ here

theorem spec_waits {cs : List Call} (here : a.waiters[n]? = some (k, none))
    (silent : ∀ c ∈ cs, releases c k = none) (h : run Spec.step a cs = some b) :
    b.waiters[n]? = some (k, none) := by
  induction cs generalizing a with
  | nil =>
    simp only [run, Option.some.injEq] at h
    exact h ▸ here
  | cons c cs ih =>
    obtain ⟨d, first, rest⟩ := Option.bind_eq_some_iff.mp h
    have next := spec_pending here first
    rw [silent c List.mem_cons_self] at next
    exact ih next (fun e member => silent e (List.mem_cons_of_mem _ member)) rest

/-- The object `a` has handed out `n` promises before those of `b`. -/
structure Shifted (n : Nat) (a b : Spec) : Prop where
  phase : a.phase = b.phase
  waiters : a.waiters.drop n = b.waiters
  inside : n ≤ a.waiters.length

theorem shifted_step {c : Call} (shifted : Shifted n a b) (call : isAttach c = false) :
    Option.Rel (Shifted n) (a.step c) (b.step c) := by
  have dropped : ∀ f : Kind × Option Result → Kind × Option Result,
      (a.waiters.map f).drop n = b.waiters.map f := by
    intro f
    rw [← List.map_drop, shifted.waiters]
  have inside : ∀ f : Kind × Option Result → Kind × Option Result,
      n ≤ (a.waiters.map f).length := fun f => by simpa using shifted.inside
  cases c with
  | ready =>
    simp only [Spec.step, shifted.phase]
    split
    · exact .some ⟨rfl, dropped _, inside _⟩
    · exact .none
  | done => exact .some ⟨rfl, dropped _, inside _⟩
  | reset => exact .some ⟨rfl, shifted.waiters, shifted.inside⟩
  | wait k =>
    refine .some ⟨shifted.phase, ?_, ?_⟩
    · rw [List.drop_append_of_le_length shifted.inside, shifted.waiters, shifted.phase]
    · simp only [List.length_append, List.length_cons, List.length_nil]
      exact Nat.le_succ_of_le shifted.inside
  | attach m coroutine k => simp [isAttach] at call

theorem attach_same {c : Call} (attach : isAttach c = true) (h : a.step c = some b) : b = a := by
  cases c <;> simp only [isAttach, reduceCtorEq] at attach
  simp only [Spec.step] at h
  split at h <;> simp only [Option.some.injEq, reduceCtorEq] at h
  exact h.symm

theorem shifted_run {cs : List Call} {a' : Spec} (shifted : Shifted n a b)
    (h : run Spec.step a cs = some a') :
    ∃ b', run Spec.step b (cs.filter fun c => !isAttach c) = some b' ∧ Shifted n a' b' := by
  induction cs generalizing a b with
  | nil =>
    simp only [run, Option.some.injEq] at h
    exact ⟨b, rfl, h ▸ shifted⟩
  | cons c cs ih =>
    obtain ⟨d, first, rest⟩ := Option.bind_eq_some_iff.mp h
    by_cases attach : isAttach c = true
    · have same := attach_same attach first
      rw [List.filter_cons_of_neg (by simp [attach])]
      exact ih (same ▸ shifted) rest
    · have step := shifted_step shifted (by simpa using attach)
      rw [first] at step
      cases taken : b.step c with
      | none =>
        rw [taken] at step
        cases step
      | some e =>
        rw [taken] at step
        cases step with
        | some related =>
          obtain ⟨b', later, final⟩ := ih related rest
          rw [List.filter_cons_of_pos (by simpa using attach)]
          exact ⟨b', run_cons taken later, final⟩

theorem shifted_back {cs : List Call} {b' : Spec} (shifted : Shifted n a b)
    (calls : ∀ c ∈ cs, isAttach c = false) (h : run Spec.step b cs = some b') :
    ∃ a', run Spec.step a cs = some a' ∧ Shifted n a' b' := by
  induction cs generalizing a b with
  | nil =>
    simp only [run, Option.some.injEq] at h
    exact ⟨a, rfl, h ▸ shifted⟩
  | cons c cs ih =>
    obtain ⟨d, first, rest⟩ := Option.bind_eq_some_iff.mp h
    have step := shifted_step shifted (calls c List.mem_cons_self)
    rw [first] at step
    cases taken : a.step c with
    | none =>
      rw [taken] at step
      cases step
    | some e =>
      rw [taken] at step
      cases step with
      | some related =>
        obtain ⟨a', later, final⟩ :=
          ih related (fun e member => calls e (List.mem_cons_of_mem _ member)) rest
        exact ⟨a', run_cons taken later, final⟩

end Specification

section Lifecycle
variable {s t : State}

theorem run_abstract (sound : Sound s) (cs : List Call) :
    (run step s cs).map abstract_ = run Spec.step (abstract_ s) cs :=
  run_refines (fun _ c sound => (step_refines sound c).1)
    (fun _ c _ sound taken => (step_refines sound c).2 _ taken) sound cs

theorem run_forth {cs : List Call} (sound : Sound s) (h : run step s cs = some t) :
    run Spec.step (abstract_ s) cs = some (abstract_ t) := by
  rw [← run_abstract sound, h]
  rfl

theorem run_back {cs : List Call} {b : Spec} (sound : Sound s)
    (h : run Spec.step (abstract_ s) cs = some b) :
    ∃ t, run step s cs = some t ∧ abstract_ t = b := by
  rw [← run_abstract sound] at h
  obtain ⟨t, taken, same⟩ := Option.map_eq_some_iff.mp h
  exact ⟨t, taken, same⟩

theorem step_waiters {c : Call} (h : step s c = some t) :
    ∃ ws, t.waiters = s.waiters ++ ws := by
  cases c <;> simp only [step] at h
  case ready =>
    unfold ready at h
    split at h
    · obtain ⟨g, _, rfl⟩ := Option.map_eq_some_iff.mp h
      exact ⟨[], (List.append_nil _).symm⟩
    · simp at h
  case done =>
    obtain ⟨g, _, h⟩ := Option.bind_eq_some_iff.mp h
    obtain ⟨g', _, rfl⟩ := Option.map_eq_some_iff.mp h
    exact ⟨[], (List.append_nil _).symm⟩
  case reset =>
    unfold reset at h
    split at h <;> (try split at h) <;>
      simp only [Option.some.injEq, reduceCtorEq] at h <;> subst h <;>
      exact ⟨[], (List.append_nil _).symm⟩
  case wait k =>
    obtain ⟨x, _, rfl⟩ := Option.map_eq_some_iff.mp h
    exact ⟨_, rfl⟩
  case attach n coroutine k =>
    obtain ⟨w, _, rfl⟩ := Option.map_eq_some_iff.mp h
    exact ⟨[], (List.append_nil _).symm⟩

theorem run_waiters {cs : List Call} {n : Nat} {w : Waiter} (here : s.waiters[n]? = some w)
    (h : run step s cs = some t) : t.waiters[n]? = some w := by
  induction cs generalizing s with
  | nil =>
    simp only [run, Option.some.injEq] at h
    exact h ▸ here
  | cons c cs ih =>
    obtain ⟨u, first, rest⟩ := Option.bind_eq_some_iff.mp h
    obtain ⟨ws, same⟩ := step_waiters first
    exact ih (by rw [same]; exact lookup_append here ws) rest

theorem abstract_waiter {n : Nat} {w : Waiter} {k : Kind} {o : Option Result}
    (here : s.waiters[n]? = some w) :
    (abstract_ s).waiters[n]? = some (k, o) ↔ w.kind = k ∧ s.graph.outcome w.promise = o := by
  simp [abstract_, here, status]

/-- The life of a `StatePromise`. `done` implies `ready`; a promise that is pending stays so up
    to the first signal for its kind, however many cycles lie between, and then has what that
    signal gives; and an object that was reset hands out what a new one does. -/
theorem state_lifecycle {s : State} (reached : Reached s) :
    ((s.graph.outcome s.done ≠ none → s.graph.outcome s.ready ≠ none) ∧
      isDone s = (s.graph.outcome s.done).isSome ∧
      (step s .done).isSome ∧ (step s .reset).isSome) ∧
    (∀ (n : Nat) (w : Waiter) (cs : List Call) (t : State), s.waiters[n]? = some w →
      s.graph.outcome w.promise = none → (∀ c ∈ cs, releases c w.kind = none) →
      run step s cs = some t → t.graph.outcome w.promise = none ∧
        ∀ (c : Call) (o : Result) (u : State), step t c = some u → releases c w.kind = some o →
          u.graph.outcome w.promise = some o) ∧
    (∀ t, step s .reset = some t →
      (∀ (cs : List Call) (u : State), run step t cs = some u →
        ∃ v, run step initial (cs.filter fun c => !isAttach c) = some v ∧
          (u.waiters.map (status u.graph)).drop t.waiters.length =
            v.waiters.map (status v.graph)) ∧
      (∀ (cs : List Call) (v : State), (∀ c ∈ cs, isAttach c = false) →
        run step initial cs = some v → ∃ u, run step t cs = some u ∧
          (u.waiters.map (status u.graph)).drop t.waiters.length =
            v.waiters.map (status v.graph))) := by
  have sound := reached_sound reached
  refine ⟨⟨sound.order, ?_, ?_, ?_⟩, ?_, ?_⟩
  · rw [isDone, resolved_source sound.graph sound.done, resolved_source sound.graph sound.ready]
    cases past : s.graph.outcome s.done with
    | none => rfl
    | some o =>
      have ready := Option.isSome_iff_ne_none.mpr (sound.order (by simp [past]))
      simp [ready]
  · have refines := (step_refines sound .done).1
    rw [← Option.isSome_map (f := abstract_), refines]
    rfl
  · have refines := (step_refines sound .reset).1
    rw [← Option.isSome_map (f := abstract_), refines]
    rfl
  · intro n w cs t here pending silent taken
    have waits := spec_waits ((abstract_waiter here).mpr ⟨rfl, pending⟩) silent
      (run_forth sound taken)
    have there := run_waiters here taken
    refine ⟨((abstract_waiter there).mp waits).2, fun c o u first gives => ?_⟩
    have final : Sound t := reached_sound (run_reachable reached taken)
    have refines := (step_refines final c).1
    rw [first, Option.map_some] at refines
    have given := spec_pending waits refines.symm
    have last : u.waiters[n]? = some w := run_waiters there
      (run_cons first (rfl : run step u [] = some u))
    rw [gives] at given
    exact ((abstract_waiter last).mp given).2
  · intro t first
    have final : Sound t := (step_refines sound .reset).2 t first
    have refines := (step_refines sound .reset).1
    rw [first, Option.map_some] at refines
    have idle : (abstract_ t).phase = .idle := by
      simp only [Spec.step, Option.some.injEq] at refines
      rw [refines]
    have shifted : Shifted t.waiters.length (abstract_ t) (abstract_ initial) :=
      ⟨idle.trans rfl, by simp [abstract_, initial], by simp [abstract_]⟩
    refine ⟨fun cs u taken => ?_, fun cs v calls taken => ?_⟩
    · obtain ⟨b, ran, last⟩ := shifted_run shifted (run_forth final taken)
      obtain ⟨v, fresh, same⟩ := run_back initial_sound ran
      exact ⟨v, fresh, last.waiters.trans (congrArg Spec.waiters same.symm)⟩
    · obtain ⟨a, ran, last⟩ := shifted_back shifted calls (run_forth initial_sound taken)
      obtain ⟨u, older, same⟩ := run_back final ran
      exact ⟨u, older, (congrArg (fun b : Spec => b.waiters.drop t.waiters.length) same).trans
        last.waiters⟩

/-- Waiting for `Done`, across a `Reset` that only clears `ready`. -/
def resetAfterReady : List Call := [.wait .waitDoneWithReject, .ready, .reset]

theorem state_lifecycle_reset : ∃ s t, run step initial resetAfterReady = some s ∧
    step s .done = some t ∧
      t.waiters.map (status t.graph) = [(.waitDoneWithReject, some (.exception .end_))] := by
  refine ⟨_, _, rfl, rfl, ?_⟩
  have reached : Reached _ := run_reachable (.start rfl)
    (show run step initial resetAfterReady = some _ from rfl)
  have given := ((state_lifecycle reached).2.1 0 _ [] _ rfl rfl (by simp) rfl).2 .done _ _ rfl rfl
  exact congrArg (fun o => [(Kind.waitDoneWithReject, o)]) given

/-- A settling call on a promise that is settled changes nothing. -/
theorem settled_again {g : Graph} {c : Nat} {q o : Result} (inside : 0 < g.next)
    (past : g.outcome c = some q) : g.settled c o = some g := by
  obtain ⟨n, is⟩ := Nat.exists_eq_add_of_lt inside
  have set : (g.cells c).outcome = some q := past
  rw [Graph.settled, is, Nat.zero_add]
  simp only [DerivedPromises.settle, set, Option.isSome_some, if_true]

/-- Once `ready_promise_` is settled, the destructor does what `Done()` does. -/
theorem destroy_done (sound : Sound s) (past : s.graph.outcome s.ready ≠ none) :
    destroy s = done s := by
  obtain ⟨o, there⟩ := Option.ne_none_iff_exists'.mp past
  have inside : 0 < s.graph.next := Nat.lt_of_le_of_lt (Nat.zero_le _) sound.ready.1
  simp only [destroy, done, settled_again inside there, Option.bind_some, there,
    Option.isSome_some, if_true, Option.map_some]
  cases s.graph.settled s.done (.value ()) <;> rfl

theorem destroy_refines (sound : Sound s) :
    (destroy s).map abstract_ = some (abstract_ s).destroy := by
  by_cases idle : phase s = .idle
  · obtain ⟨pending, pendingDone⟩ := (phase_idle s).mp idle
    obtain ⟨t, taken, settled, value⟩ := source_settles sound.graph sound.ready
    have first : ready s = some { s with graph := t } := by
      simp [ready, pending, pendingDone, taken]
    have same : destroy s = destroy { s with graph := t } := by
      have inside : 0 < t.next := by
        rw [settled.kept.next]
        exact Nat.lt_of_le_of_lt (Nat.zero_le _) sound.ready.1
      simp only [destroy, taken, settled_again inside value, Option.bind_some]
    obtain ⟨refines, keeps⟩ := ready_refines sound
    have after := keeps _ first
    rw [first, Option.map_some, Spec.step, if_pos (show (abstract_ s).phase = .idle from idle),
      Option.some.injEq] at refines
    rw [same, destroy_done after (by simp [value]), (done_refines after).1, refines]
    simp [Spec.step, Spec.destroy, show (abstract_ s).phase = .idle from idle]
  · have ready : s.graph.outcome s.ready ≠ none := by
      intro pending
      have past : s.graph.outcome s.done = none := by
        by_contra settled
        exact sound.order settled pending
      exact idle ((phase_idle s).mpr ⟨pending, past⟩)
    rw [destroy_done sound ready, (done_refines sound).1]
    simp [Spec.step, Spec.destroy, show (abstract_ s).phase ≠ .idle from idle]

theorem rejecting_idle (sound : Sound s) {w : Waiter} (member : w ∈ s.waiters)
    (kind : w.kind = .waitWithReject) (pending : s.graph.outcome w.promise = none) :
    phase s = .idle := by
  have shape := sound.shapes w member
  have past : s.graph.outcome w.done = none := by
    by_contra settled
    have ready := (status_done sound.graph shape settled).1 pending
    simp [kind] at ready
  have there : s.graph.outcome w.ready = none := by
    by_contra settled
    rw [status_pending sound.graph shape past, if_neg settled, kind] at pending
    simp [released] at pending
  rw [current_done sound member past] at past
  rw [current_ready sound member there] at there
  exact (phase_idle s).mpr ⟨there, past⟩

theorem done_keeps_waiters {t : State} (h : done s = some t) : t.waiters = s.waiters := by
  obtain ⟨g, _, h⟩ := Option.bind_eq_some_iff.mp h
  obtain ⟨g', _, rfl⟩ := Option.map_eq_some_iff.mp h
  rfl

theorem destroy_keeps_waiters {t : State} (h : destroy s = some t) : t.waiters = s.waiters := by
  obtain ⟨g, _, h⟩ := Option.bind_eq_some_iff.mp h
  obtain ⟨g', _, rfl⟩ := Option.map_eq_some_iff.mp h
  rfl

/-- Destroying the object and calling `Done()` settle everyone alike exactly if nobody is left
    waiting for `Ready` or else `End`. -/
theorem destroy_as_done_iff (reached : Reached s) :
    ∃ t u, destroy s = some t ∧ step s .done = some u ∧
      ((∀ w ∈ s.waiters, t.graph.outcome w.promise = u.graph.outcome w.promise) ↔
        ∀ w ∈ s.waiters, w.kind = .waitWithReject → s.graph.outcome w.promise ≠ none) := by
  have sound := reached_sound reached
  obtain ⟨t, destroyed, abstractT⟩ := Option.map_eq_some_iff.mp (destroy_refines sound)
  obtain ⟨u, finished, abstractU⟩ := Option.map_eq_some_iff.mp
    ((done_refines sound).1.trans (show _ = some _ from rfl))
  have inT := congrArg Spec.waiters abstractT
  have inU := congrArg Spec.waiters abstractU
  simp only [abstract_, Spec.destroy, destroy_keeps_waiters destroyed,
    done_keeps_waiters finished, List.map_map, List.map_inj_left, Function.comp] at inT inU
  have outcomeT : ∀ w ∈ s.waiters, t.graph.outcome w.promise = (release .done
      (if phase s = .idle then release .ready (status s.graph w) else status s.graph w)).2 :=
    fun w member => congrArg Prod.snd (inT w member)
  have outcomeU : ∀ w ∈ s.waiters,
      u.graph.outcome w.promise = (release .done (status s.graph w)).2 :=
    fun w member => congrArg Prod.snd (inU w member)
  refine ⟨t, u, destroyed, finished, fun same w member kind pending => ?_,
    fun settled w member => ?_⟩
  · have equal := same w member
    rw [outcomeT w member, outcomeU w member, if_pos (rejecting_idle sound member kind pending)]
      at equal
    simp [status, release, pending, kind, released] at equal
  · rw [outcomeT w member, outcomeU w member]
    cases before : s.graph.outcome w.promise with
    | some o => split <;> simp [status, release, before]
    | none =>
      have other : w.kind ≠ .waitWithReject := fun kind => settled w member kind before
      split
      · cases kind : w.kind <;> simp_all [status, release, released]
      · rfl

def waitingBoth : List Call := [.wait .wait, .wait .waitDoneWithReject]

theorem destroy_as_done_iff_both : ∃ s t u, run step initial waitingBoth = some s ∧
    destroy s = some t ∧ step s .done = some u ∧
      ∀ w ∈ s.waiters, t.graph.outcome w.promise = u.graph.outcome w.promise := by
  have reached : Reached _ := run_reachable (.start rfl)
    (show run step initial waitingBoth = some _ from rfl)
  obtain ⟨t, u, destroyed, finished, same⟩ := destroy_as_done_iff reached
  refine ⟨_, t, u, rfl, destroyed, finished, same.mpr fun w member kind => ?_⟩
  rcases List.mem_cons.mp member with rfl | member
  · exact absurd kind (by decide)
  · rw [List.mem_singleton.mp member] at kind
    exact absurd kind (by decide)

/-- `WaitWithReject` with neither signal given: `Done()` rejects it, the destructor does not. -/
theorem destroy_not_done : ∃ s t u, run step initial [.wait .waitWithReject] = some s ∧
    destroy s = some t ∧ step s .done = some u ∧
      t.waiters.map (status t.graph) = [(.waitWithReject, some (.value ()))] ∧
      u.waiters.map (status u.graph) = [(.waitWithReject, some (.exception .end_))] :=
  ⟨_, _, _, rfl, rfl, rfl, rfl, rfl⟩

end Lifecycle

end StateLifecycle
