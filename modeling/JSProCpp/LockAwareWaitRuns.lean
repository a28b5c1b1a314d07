import JSProCpp.LockAwareGuards
import JSProCpp.LockAwareWaiters

/- What holds of every waiter of `Wait(guard)`, of its guard and of the mutex in every run. -/
namespace LockAwareWait
open Transitions Interleaving PromiseCells
variable {E : Type}

structure Healthy (s : State E) : Prop where
  waiters : Waiters s.cv s.guards s.released
  locks : Locks s.mutex s.owner s.guards

section Steps
variable {s t u : State E} {g : Nat}

theorem onCv_some {a : CVPromise.Action E} (taken : s.onCv a = some t) :
    ∃ m, CVPromise.act quiet s.cv a = some m ∧ t = { s with cv := m } := by
  obtain ⟨m, first, rfl⟩ := Option.map_eq_some_iff.mp taken
  exact ⟨m, first, rfl⟩

theorem onMutex_some {l : AsyncMutex.Label} (taken : s.onMutex l = some t) :
    ∃ m, AsyncMutex.step s.mutex l = some m ∧ t = { s with mutex := m } := by
  obtain ⟨m, first, rfl⟩ := Option.map_eq_some_iff.mp taken
  exact ⟨m, first, rfl⟩

/-- The owner of a guard goes on without a call of the `CVPromise` or of the mutex. -/
theorem goto_healthy {phase : Phase} (healthy : Healthy s)
    (token : phase.token = (s.guards g).phase.token) (settled : Settled s.cv.shared phase)
    (sound : Sound s.mutex s.owner g { s.guards g with phase := phase })
    (returned : ∀ u, (s.guards g).phase.ending = some u → s.mutex.unlocks u = .resume []) :
    Healthy (s.goto g phase) :=
  ⟨waiters_put healthy.waiters token rfl settled, locks_put healthy.locks sound returned⟩

theorem lock_healthy {i : Nat} (phase : Phase) (healthy : Healthy s)
    (clear : Clear s.mutex s.owner g (s.guards g))
    (token : phase.token = (s.guards g).phase.token) (settled : Settled s.cv.shared phase)
    (outside : (s.guards g).phase.ending = none)
    (locking : ∀ m owner x, x.phase = phase → Locking m owner g x → Sound m owner g x)
    (taken : s.lock g i phase = some t) : Healthy t := by
  obtain ⟨m, first, rfl⟩ := onMutex_some taken
  constructor
  · exact waiters_put healthy.waiters token rfl settled
  · exact locks_lock healthy.locks clear rfl rfl outside (locking _ _ _ rfl) first

theorem unlock_healthy {v : Nat} (phase : Phase) (healthy : Healthy s)
    (holding : Holding s.mutex s.owner g (s.guards g))
    (token : phase.token = (s.guards g).phase.token) (settled : Settled s.cv.shared phase)
    (outside : (s.guards g).phase.ending = none) (inside : phase.ending = some v)
    (clear : ∀ m owner x, x.phase = phase → Clear m owner g x → Sound m owner g x)
    (taken : s.unlock g v phase = some t) : Healthy t := by
  obtain ⟨m, first, rfl⟩ := onMutex_some taken
  constructor
  · exact waiters_put healthy.waiters token rfl settled
  · exact locks_unlock healthy.locks holding rfl outside inside (clear _ _ _ rfl) first

theorem cv_healthy {a : CVPromise.Action E} (healthy : Healthy s)
    (same : ∀ m, CVPromise.act quiet s.cv a = some m → ∀ h k, tokens h k m = tokens h k s.cv)
    (taken : s.onCv a = some t) : Healthy t := by
  obtain ⟨m, first, rfl⟩ := onCv_some taken
  exact ⟨waiters_kept healthy.waiters first (same m first), healthy.locks⟩

theorem wait_healthy {v : Nat} (healthy : Healthy s) (free : (s.guards g).phase = .free)
    (taken : (s.goto g .copying).onCv (.thread (.start v (.wait g))) = some t) : Healthy t := by
  obtain ⟨m, first, rfl⟩ := onCv_some taken
  have started : ∀ h k, tokens h k m = tokens h k s.cv + tokenWeight h k (.call [] (.wait g)) :=
    fun h k => (start_tokens first).1
  constructor
  · refine waiters_moved healthy.waiters first (fun k => ?_) (fun h other k => ?_)
      (by simp [Phase.token])
      trivial
    · have before := healthy.waiters.tokens g k
      simp only [free, Phase.token] at before
      rw [started, before]
      simp [tokenWeight, atPlace, place, Phase.token]
    · rw [started]
      simp [tokenWeight, atPlace, place, Ne.symm other]
  · refine locks_put healthy.locks ?_ (by simp [free, Phase.ending])
    have sound := healthy.locks.sound g
    simp only [Sound, free] at sound
    exact sound

theorem phase_of_token {phase : Phase} :
    (phase.token = some .copying → phase = .copying) ∧
      ∀ n, phase.token = some (.waiting n) → phase = .waiting n := by
  cases phase <;> simp [Phase.token]

theorem follow_cv {i : CVPromise.Instr E} (followed : s.follow i = some t) : t.cv = s.cv := by
  unfold State.follow at followed
  split at followed
  · exact (Option.some.inj followed) ▸ rfl
  · simp only [Option.ite_none_right_eq_some, Option.some.injEq] at followed
    exact followed.2 ▸ rfl
  · split at followed <;> exact (Option.some.inj followed) ▸ rfl
  · exact (Option.some.inj followed) ▸ rfl

theorem run_healthy {v : Nat} {i : CVPromise.Instr E} {rest : List (CVPromise.Instr E)}
    (healthy : Healthy s) (here : s.cv.threads[v]? = some (i :: rest))
    (followed : s.follow i = some t) (taken : t.onCv (.thread (.run v)) = some u) : Healthy u := by
  obtain ⟨m, first, rfl⟩ := onCv_some taken
  rw [follow_cv followed] at first
  have has := has_here here (x := i) List.mem_cons_self
  have cvHealthy := CVPromise.reached_healthy healthy.waiters.reached
  have unplaced : place i = none → t = s → Healthy { t with cv := m } := by
    rintro away rfl
    refine ⟨waiters_kept healthy.waiters first fun h k => ?_, healthy.locks⟩
    exact run_elsewhere healthy.waiters here first (by simp [away]) k
  cases i with
  | settling inside i => exact unplaced rfl (Option.some.inj followed).symm
  | assertDone n => exact unplaced rfl (Option.some.inj followed).symm
  | call inside x =>
    cases x with
    | notify => exact unplaced rfl (Option.some.inj followed).symm
    | reject e => exact unplaced rfl (Option.some.inj followed).symm
    | attach n g => exact absurd rfl (instr_usual healthy.waiters has inside n g)
    | wait g =>
      simp only [State.follow, Option.some.injEq] at followed
      subst followed
      have copying := phase_of_token.1 (token_of_place healthy.waiters has rfl)
      constructor
      · refine waiters_run healthy.waiters here first rfl (fun j => ?_) (fun p token => ?_) trivial
        · simp [advanced, Phase.token]
        · simp only [Phase.token, Option.some.injEq, Token.attaching.injEq] at token
          subst token
          exact ⟨cvHealthy.sound.inv.swapped, act_promise first⟩
      · refine locks_put healthy.locks ?_ (by simp [copying, Phase.ending])
        have sound := healthy.locks.sound g
        simp only [Sound, copying] at sound
        exact sound
  | attach inside n g =>
    simp only [State.follow, Option.ite_none_right_eq_some, Option.some.injEq] at followed
    obtain ⟨attaching, rfl⟩ := followed
    constructor
    · refine waiters_run healthy.waiters here first rfl (fun j => ?_)
        (by simp [Phase.token]) trivial
      simp [advanced, Phase.token]
    · refine locks_put healthy.locks ?_ (by simp [attaching, Phase.ending])
      have sound := healthy.locks.sound g
      simp only [Sound, attaching] at sound
      exact sound
  | resume inside n g =>
    have waiting := phase_of_token.2 n (token_of_place healthy.waiters has rfl)
    have clear : Clear s.mutex s.owner g (s.guards g) := by
      have sound := healthy.locks.sound g
      simp only [Sound, waiting] at sound
      exact sound
    have moves : ∀ phase : Phase, phase.token = none → Settled m.shared phase →
        (∀ x : Guard, x.phase = phase → Clear s.mutex s.owner g x → Sound s.mutex s.owner g x) →
        Healthy { s.goto g phase with cv := m } := by
      intro phase token settled sound
      constructor
      · refine waiters_run healthy.waiters here first rfl (fun j => ?_) (by simp [token]) settled
        simp [advanced, token]
      · exact locks_put healthy.locks (sound _ rfl clear) (by simp [waiting, Phase.ending])
    have kept := (CVPromise.act_later healthy.waiters.reached first).2
    simp only [State.follow] at followed
    split at followed
    · rename_i done
      rw [Option.some.injEq] at followed
      subst followed
      apply moves (.woken n) rfl (kept _ _ done)
      rintro ⟨phase, _, _, _⟩ rfl clear
      exact clear
    · rename_i e rejected
      rw [Option.some.injEq] at followed
      subst followed
      apply moves (.rejected n) rfl ⟨e, kept _ _ rejected⟩
      rintro ⟨phase, _, _, _⟩ rfl clear
      exact clear
    · rename_i pending
      obtain ⟨o, done, _⟩ := cvHealthy.sound.fit _ has
      exact absurd (pending.symm.trans done) (by simp)

theorem release_healthy {n : Nat} (healthy : Healthy s) (copied : (s.guards g).phase = .copied n) :
    Healthy (s.release ⟨g, n, (s.guards g).copied, s.cv.shared.swaps.length⟩) := by
  have swapped := (CVPromise.reached_healthy healthy.waiters.reached).sound.inv.swapped
  obtain ⟨same, bound⟩ := healthy.waiters.copies g n (by rw [copied]; rfl)
  refine ⟨⟨healthy.waiters.reached, healthy.waiters.tokens, healthy.waiters.copies,
    healthy.waiters.settled, fun r member => ?_⟩, healthy.locks⟩
  rcases List.mem_append.mp member with old | new
  · exact healthy.waiters.released r old
  · rw [List.mem_singleton.mp new]
    refine ⟨same, ?_, ?_⟩
    · rw [← same, ← swapped]
      exact bound
    · exact Nat.le_of_eq swapped.symm

theorem mutex_healthy {l : AsyncMutex.Label} (healthy : Healthy s)
    (taken : step s (.mutex l) = some t) : Healthy t := by
  have locks := healthy.locks
  cases l with
  | lock i =>
    obtain ⟨m, first, rfl⟩ := onMutex_some taken
    obtain ⟨idle, _, others⟩ := lock_stage first
    refine ⟨healthy.waiters, locks_calm locks rfl first (by simp)
      fun k g its => calm_same (others k ?_)⟩
    rintro rfl
    exact locks.owned k g its idle
  | step i =>
    obtain ⟨m, first, rfl⟩ := onMutex_some taken
    exact ⟨healthy.waiters, locks_calm locks rfl first (by simp) fun k _ _ => advance_calm first k⟩
  | proceed u =>
    obtain ⟨m, first, rfl⟩ := onMutex_some taken
    exact ⟨healthy.waiters, locks_calm locks rfl first (by simp)
      fun k _ _ => proceed_calm locks.chain first k⟩
  | unlock u k =>
    simp only [step, Option.ite_none_right_eq_some] at taken
    obtain ⟨⟨unowned, granted⟩, taken⟩ := taken
    obtain ⟨m, first, rfl⟩ := onMutex_some taken
    have lawful : AsyncMutex.legal s.mutex (.unlock u k) = true := by
      simp [AsyncMutex.legal, granted]
    refine ⟨healthy.waiters, locks_calm locks lawful first (fun v i same => ?_)
      fun i g its => calm_same ((unlock_stage first granted).2 i ?_)⟩
    · rw [AsyncMutex.Label.unlock.injEq] at same
      exact same.2 ▸ unowned
    · rintro rfl
      exact absurd (unowned.symm.trans its) (by simp)

theorem step_lock {i : Nat} (healthy : Healthy s) (taken : step s (.lock g i) = some t) :
    Healthy t := by
  have sound := healthy.locks.sound
  simp only [step, Option.ite_none_right_eq_some] at taken
  obtain ⟨⟨free, own⟩, taken⟩ := taken
  have clear := sound g
  simp only [Sound, free] at clear
  refine lock_healthy .locking healthy (free_clear clear own) (by rw [free]; rfl) trivial
    (by rw [free]; rfl) ?_ taken
  rintro m owner ⟨_, _, _, _⟩ rfl locking
  exact locking

theorem step_locked (healthy : Healthy s) (taken : step s (.locked g) = some t) :
    Healthy t := by
  have sound := healthy.locks.sound
  simp only [step, Option.ite_none_right_eq_some, Option.some.injEq] at taken
  obtain ⟨⟨locking, granted⟩, rfl⟩ := taken
  have held := sound g
  simp only [Sound, locking] at held
  refine goto_healthy healthy (by rw [locking]; rfl) trivial ?_ (by simp [locking, Phase.ending])
  exact .inr (granted_holding held granted)

theorem step_unlock {u : Nat} (healthy : Healthy s) (taken : step s (.unlock g u) = some t) :
    Healthy t := by
  have sound := healthy.locks.sound
  simp only [step, Option.ite_none_right_eq_some] at taken
  obtain ⟨⟨free, own⟩, taken⟩ := taken
  have held := sound g
  simp only [Sound, free] at held
  refine unlock_healthy (.unlocking u) healthy (free_holding held own) (by rw [free]; rfl) trivial
    (by rw [free]; rfl) rfl ?_ taken
  rintro m owner ⟨_, _, _, _⟩ rfl clear
  exact clear

theorem step_unlocked (healthy : Healthy s) (taken : step s (.unlocked g) = some t) :
    Healthy t := by
  have sound := healthy.locks.sound
  simp only [step] at taken
  split at taken
  · rename_i u unlocking
    simp only [Option.ite_none_right_eq_some, Option.some.injEq] at taken
    obtain ⟨returned, rfl⟩ := taken
    have clear := sound g
    simp only [Sound, unlocking] at clear
    refine goto_healthy healthy (by rw [unlocking]; rfl) trivial (.inl clear) ?_
    simpa [unlocking, Phase.ending] using returned
  · simp at taken

theorem step_test {u : Nat} (healthy : Healthy s) (taken : step s (.test g u) = some t) :
    Healthy t := by
  have sound := healthy.locks.sound
  simp only [step] at taken
  split at taken
  · rename_i n copied
    have either := sound g
    simp only [Sound, copied] at either
    split at taken
    · rename_i own
      have at_ : ((s.release ⟨g, n, (s.guards g).copied, s.cv.shared.swaps.length⟩).guards
        g).phase = .copied n := copied
      refine unlock_healthy (.releasing n u) (release_healthy healthy copied)
        (free_holding either own) (by rw [at_]; rfl) trivial (by rw [at_]; rfl) rfl ?_ taken
      rintro m owner ⟨_, _, _, _⟩ rfl clear
      exact clear
    · rename_i own
      rw [Option.some.injEq] at taken
      subst taken
      refine goto_healthy healthy (by rw [copied]; rfl) trivial ?_ (by simp [copied, Phase.ending])
      exact free_clear either (Bool.eq_false_iff.mpr own)
  · simp at taken

theorem step_released (healthy : Healthy s) (taken : step s (.released g) = some t) :
    Healthy t := by
  have sound := healthy.locks.sound
  simp only [step] at taken
  split at taken
  · rename_i n u releasing
    simp only [Option.ite_none_right_eq_some, Option.some.injEq] at taken
    obtain ⟨returned, rfl⟩ := taken
    have clear := sound g
    simp only [Sound, releasing] at clear
    refine goto_healthy healthy (by rw [releasing]; rfl) trivial clear ?_
    simpa [releasing, Phase.ending] using returned
  · simp at taken

theorem step_relock {i : Nat} (healthy : Healthy s) (taken : step s (.relock g i) = some t) :
    Healthy t := by
  have sound := healthy.locks.sound
  have settled := healthy.waiters.settled
  simp only [step] at taken
  split at taken
  · rename_i n woken
    have clear := sound g
    have done := settled g
    simp only [Sound, woken] at clear
    simp only [Settled, woken] at done
    refine lock_healthy (.relocking n) healthy clear (by rw [woken]; rfl) done (by rw [woken]; rfl)
      ?_ taken
    rintro m owner ⟨_, _, _, _⟩ rfl locking
    exact locking
  · simp at taken

theorem step_relocked (healthy : Healthy s) (taken : step s (.relocked g) = some t) :
    Healthy t := by
  have sound := healthy.locks.sound
  have settled := healthy.waiters.settled
  simp only [step] at taken
  split at taken
  · rename_i n relocking
    simp only [Option.ite_none_right_eq_some, Option.some.injEq] at taken
    obtain ⟨granted, rfl⟩ := taken
    have locking := sound g
    have done := settled g
    simp only [Sound, relocking] at locking
    simp only [Settled, relocking] at done
    refine goto_healthy healthy (by rw [relocking]; rfl) done ?_ (by simp [relocking, Phase.ending])
    exact granted_holding locking granted
  · simp at taken

theorem step_settle (healthy : Healthy s) (taken : step s (.settle g) = some t) :
    Healthy t := by
  have sound := healthy.locks.sound
  have settled := healthy.waiters.settled
  simp only [step] at taken
  split at taken
  · rename_i n acquired
    rw [Option.some.injEq] at taken
    subst taken
    have holding := sound g
    have done := settled g
    simp only [Sound, acquired] at holding
    simp only [Settled, acquired] at done
    exact goto_healthy healthy (by rw [acquired]; rfl) done holding
      (by simp [acquired, Phase.ending])
  · simp at taken

theorem step_back (healthy : Healthy s) (taken : step s (.back g) = some t) :
    Healthy t := by
  have sound := healthy.locks.sound
  simp only [step] at taken
  split at taken
  · rename_i n resolved
    rw [Option.some.injEq] at taken
    subst taken
    have holding := sound g
    simp only [Sound, resolved] at holding
    exact goto_healthy healthy (by rw [resolved]; rfl) trivial (.inr holding)
      (by simp [resolved, Phase.ending])
  · rename_i n rejected
    rw [Option.some.injEq] at taken
    subst taken
    have clear := sound g
    simp only [Sound, rejected] at clear
    exact goto_healthy healthy (by rw [rejected]; rfl) trivial (.inl clear)
      (by simp [rejected, Phase.ending])
  · simp at taken

theorem step_healthy {l : Label E} (healthy : Healthy s) (taken : step s l = some t) :
    Healthy t := by
  cases l with
  | fork =>
    exact cv_healthy (a := .thread .fork) healthy (fun m first h k => (fork_tokens first).1) taken
  | signal v o =>
    refine cv_healthy (a := .thread (.start v (calls o))) healthy (fun m first h k => ?_) taken
    rw [(start_tokens first).1]
    cases o <;> rfl
  | destroy v => exact cv_healthy healthy (fun m first h k => (destroy_tokens first).1) taken
  | run v =>
    simp only [step] at taken
    split at taken
    · rename_i i rest here
      obtain ⟨u, followed, taken⟩ := Option.bind_eq_some_iff.mp taken
      exact run_healthy healthy here followed taken
    · simp at taken
  | mutex l => exact mutex_healthy healthy taken
  | wait g v =>
    simp only [step, Option.ite_none_right_eq_some] at taken
    exact wait_healthy healthy taken.1 taken.2
  | lock g i => exact step_lock healthy taken
  | locked g => exact step_locked healthy taken
  | unlock g u => exact step_unlock healthy taken
  | unlocked g => exact step_unlocked healthy taken
  | test g u => exact step_test healthy taken
  | released g => exact step_released healthy taken
  | relock g i => exact step_relock healthy taken
  | relocked g => exact step_relocked healthy taken
  | settle g => exact step_settle healthy taken
  | back g => exact step_back healthy taken

theorem initial_healthy : Healthy (initial : State E) := by
  refine ⟨⟨.start rfl, fun g k => ?_, ?_, fun _ => trivial, ?_⟩,
    ⟨⟨0, false, AsyncMutex.initial_chain⟩,
    fun g => .inl ⟨rfl, by simp [initial]⟩, by simp [initial], by simp [initial]⟩⟩
  · cases k <;> simp [tokens, load, initial, CVPromise.initial, tokenCost, Phase.token, created]
  · simp [initial, Phase.token]
  · simp [initial]

theorem reached_healthy (reached : Reached s) : Healthy s := by
  induction reached with
  | start first => exact first ▸ initial_healthy
  | next _ taken ih => exact step_healthy ih taken

theorem waiting_resumes {n : Nat} (healthy : Healthy s) (waiting : (s.guards g).phase = .waiting n)
    (done : s.cv.shared.outcome n ≠ none) : ∃ inside, Has s.cv (.resume inside n g) := by
  have inv := (CVPromise.reached_healthy healthy.waiters.reached).sound.inv
  have one := healthy.waiters.tokens g (.waiting n)
  have emptied : (s.cv.shared.cells n).awaiters = [] := inv.tidy.emptied n (inv.made n) done
  have none_ : tokenCost g (.waiting n) s.cv.shared = 0 := by simp [tokenCost, emptied]
  rw [waiting, if_pos (show (Phase.waiting n).token = some (.waiting n) from rfl)] at one
  unfold tokens at one
  obtain ⟨i, has, heavy⟩ := load_has (tokenWeight g (.waiting n)) (tokenCost g (.waiting n))
    (m := s.cv) (by omega)
  have placed : place i = some (g, .waiting n) := by
    by_contra away
    simp [tokenWeight, atPlace, away] at heavy
  cases i with
  | resume inside p h =>
    simp only [place, Option.some.injEq, Prod.mk.injEq, Token.waiting.injEq] at placed
    obtain ⟨rfl, rfl⟩ := placed
    exact ⟨inside, has⟩
  | call inside x => cases x <;> simp [place] at placed
  | _ => simp [place] at placed

/-- The promise that a released guard waits for is taken by the first swap after the copy, at
    the latest by the first one after the release, and settled by whoever takes it. -/
theorem release_taken {r : Release} {j q : Nat} {o : CVPromise.Signal E} (healthy : Healthy s)
    (member : r ∈ s.released) (swap : s.cv.shared.swaps[j]? = some (q, o)) (after : r.swapped ≤ j) :
    ∃ (i : Nat) (o' : CVPromise.Signal E), r.copied ≤ i ∧ i ≤ j ∧
      s.cv.shared.swaps[i]? = some (r.promise, o') ∧
      (s.cv.shared.outcome r.promise = some o'.outcome ∨
        ∃ x, Has s.cv x ∧ CVPromise.Gives x r.promise) := by
  have inv := (CVPromise.reached_healthy healthy.waiters.reached).sound.inv
  obtain ⟨same, order, _⟩ := healthy.waiters.released r member
  have inside := lookup_inside swap
  have taken : r.promise < s.cv.shared.promise := by
    rw [inv.swapped]
    omega
  obtain ⟨o', here, owed⟩ := CVPromise.due_taken inv taken
  refine ⟨r.promise, o', by omega, by omega, here, ?_⟩
  cases done : s.cv.shared.outcome r.promise with
  | some o =>
    left
    rw [← owed, inv.settled _ o done]
  | none =>
    right
    apply CVPromise.reached_covered healthy.waiters.reached
    refine ⟨?_, done⟩
    by_contra untaken
    rw [Bool.not_eq_false, CVPromise.due_iff inv, owed] at untaken
    simp at untaken

theorem clear_released {i : Nat} (healthy : Healthy s)
    (clear : Clear s.mutex s.owner g (s.guards g)) (outside : (s.guards g).phase.ending = none)
    (its : s.owner i = some g) :
    s.mutex.stage i = .ended ∧ ¬AsyncMutex.Holds s.mutex i ∧ ¬AsyncMutex.Waits s.mutex i ∧
      ¬AsyncMutex.Granting s.mutex i := by
  have ended := clear.2 i its
  refine ⟨ended, ?_, ?_, ?_⟩
  · rintro (granted | ⟨u, ending⟩)
    · exact absurd (ended.symm.trans granted) (by simp)
    · exact absurd (outside.symm.trans (healthy.locks.ending u i g ending its)) (by simp)
  · simp [AsyncMutex.Waits, ended]
  · simp [AsyncMutex.Granting, ended]

end Steps

/-- `Wait(guard)`: no signal after the release misses the waiter, and who waits for a settled
    promise is resumed; the coroutine finds `own_lock_` unset; when the returned promise resolves
    the guard alone holds the mutex, and when it rejects the guard neither holds it nor waits for
    it. -/
theorem wait_with_guard {s : State E} (reached : Reached s) :
    (∀ r ∈ s.released, ∀ j q o, s.cv.shared.swaps[j]? = some (q, o) → r.swapped ≤ j →
      ∃ (i : Nat) (o' : CVPromise.Signal E), r.copied ≤ i ∧ i ≤ j ∧
        s.cv.shared.swaps[i]? = some (r.promise, o') ∧
        (s.cv.shared.outcome r.promise = some o'.outcome ∨
          ∃ x, Has s.cv x ∧ CVPromise.Gives x r.promise)) ∧
    (∀ g n, (s.guards g).phase = .waiting n → s.cv.shared.outcome n ≠ none →
      ∃ inside, Has s.cv (.resume inside n g)) ∧
    (∀ g n, (s.guards g).phase = .woken n → (s.guards g).own = false) ∧
    (∀ g n, (s.guards g).phase = .resolved n →
      s.cv.shared.outcome n = some (.value ()) ∧ (s.guards g).own = true ∧
      s.owner (s.guards g).session = some g ∧
      s.mutex.stage (s.guards g).session = .granted ∧
      ∀ i, AsyncMutex.Holds s.mutex i → i = (s.guards g).session) ∧
    ∀ g n, (s.guards g).phase = .rejected n →
      (∃ e, s.cv.shared.outcome n = some (.exception e)) ∧ (s.guards g).own = false ∧
      ∀ i, s.owner i = some g → s.mutex.stage i = .ended ∧ ¬AsyncMutex.Holds s.mutex i ∧
        ¬AsyncMutex.Waits s.mutex i ∧ ¬AsyncMutex.Granting s.mutex i := by
  have healthy := reached_healthy reached
  have sound := healthy.locks.sound
  have settled := healthy.waiters.settled
  refine ⟨fun r member j q o swap after => release_taken healthy member swap after,
    fun g n waiting done => waiting_resumes healthy waiting done, fun g n woken => ?_,
    fun g n resolved => ?_, fun g n rejected => ?_⟩
  · have clear := sound g
    simp only [Sound, woken] at clear
    exact clear.1
  · have holding := sound g
    have done := settled g
    simp only [Sound, resolved] at holding
    simp only [Settled, resolved] at done
    obtain ⟨owns, mine, granted, _⟩ := holding
    obtain ⟨h, won, chain⟩ := healthy.locks.chain
    refine ⟨done, owns, mine, granted, fun i holds => ?_⟩
    have head := AsyncMutex.holds_head chain holds
    rw [AsyncMutex.holds_head chain (.inl granted), Option.some.injEq] at head
    exact head.symm
  · have clear := sound g
    have done := settled g
    simp only [Sound, rejected] at clear
    simp only [Settled, rejected] at done
    exact ⟨done, clear.1, fun i its => clear_released healthy clear (by rw [rejected]; rfl) its⟩

/-- Each waiter has a thread of its own; the second one still holds the mutex when the `Notify`
    wakes the first. -/
def handover : List (Label String) :=
  List.flatten [[.fork, .lock 0 0], List.replicate 4 (.mutex (.step 0)),
    [.locked 0, .wait 0 0, .run 0, .test 0 0], List.replicate 3 (.mutex (.proceed 0)),
    [.released 0, .run 0, .lock 1 1], List.replicate 4 (.mutex (.step 1)),
    [.locked 1, .signal 0 .notify], List.replicate 4 (.run 0),
    [.relock 0 2, .mutex (.step 2), .mutex (.step 2), .unlock 1 1],
    List.replicate 4 (.mutex (.proceed 1)), List.replicate 2 (.mutex (.step 2)),
    [.relocked 0, .settle 0]]

theorem wait_with_guard_handover : ∃ s, run step initial handover = some s ∧
    (s.guards 0).phase = .resolved 0 ∧ (s.guards 0).session = 2 ∧ s.mutex.grants = [0, 1, 2] ∧
    ∀ i, AsyncMutex.Holds s.mutex i → i = 2 := by
  have facts : (run step initial handover).map (fun s =>
      ((s.guards 0).phase, (s.guards 0).session, s.mutex.grants)) =
      some (.resolved 0, 2, [0, 1, 2]) := by
    decide +kernel
  obtain ⟨s, ran, facts⟩ := Option.map_eq_some_iff.mp facts
  simp only [Prod.mk.injEq] at facts
  obtain ⟨phase, session, grants⟩ := facts
  obtain ⟨_, _, _, alone, _⟩ := wait_with_guard (run_reachable (.start rfl) ran)
  obtain ⟨_, _, _, _, only⟩ := alone 0 0 phase
  rw [session] at only
  exact ⟨s, ran, phase, session, grants, only⟩

/-- The first `Notify` has taken the promise before the release and settles it later. -/
def overtaken : List (Label String) :=
  List.flatten [[.fork, .fork, .fork, .lock 0 0], List.replicate 4 (.mutex (.step 0)),
    [.locked 0, .wait 0 0, .run 0, .signal 1 .notify, .run 1, .test 0 0, .signal 2 .notify],
    List.replicate 4 (.run 2)]

/-- A later `Notify` can return while the waiter's promise is unsettled, and settle another. -/
theorem notify_overtakes : ∃ s : State String, run step initial overtaken = some s ∧
    s.cv.threads[2]? = some [] ∧ ∃ r ∈ s.released, ∃ j, r.swapped ≤ j ∧
      s.cv.shared.swaps[j]? = some (1, .notify) ∧ r.promise = 0 ∧
      s.cv.shared.outcome 1 = some (.value ()) ∧ s.cv.shared.outcome 0 = none := by
  have facts : (run step initial overtaken).map (fun s => (s.released, s.cv.shared.swaps,
      s.cv.threads[2]?, s.cv.shared.outcome 0, s.cv.shared.outcome 1)) =
      some ([⟨0, 0, 0, 1⟩], [(0, .notify), (1, .notify)], some [], none, some (.value ())) := rfl
  obtain ⟨s, ran, facts⟩ := Option.map_eq_some_iff.mp facts
  simp only [Prod.mk.injEq] at facts
  obtain ⟨released, swaps, returned, first, second⟩ := facts
  refine ⟨s, ran, returned, ⟨0, 0, 0, 1⟩, ?_, 1, Nat.le_refl 1, ?_, rfl, second, first⟩
  · rw [released]
    exact List.mem_singleton.mpr rfl
  · rw [swaps]
    rfl

end LockAwareWait
