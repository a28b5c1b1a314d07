import JSProCpp.LockAwareWait

/- The guards of `Wait(guard)` as the mutex sees them: what a step of the mutex leaves alone, and
   what the phase of a guard says of its sessions. -/
namespace LockAwareWait

structure Calm (m m' : AsyncMutex.State) (k : Nat) : Prop where
  ended : m'.stage k = .ended ↔ m.stage k = .ended
  granted : m.stage k = .granted → m'.stage k = .granted
  idle : m'.stage k = .idle → m.stage k = .idle

section Sessions
variable {m m' : AsyncMutex.State} {i k u : Nat}

theorem calm_same (same : m'.stage k = m.stage k) : Calm m m' k := by
  constructor
  · rw [same]
  · exact fun granted => same.trans granted
  · exact fun idle => same.symm.trans idle

theorem lock_stage (taken : AsyncMutex.step m (.lock i) = some m') :
    m.stage i = .idle ∧ m'.stage i = .start ∧ ∀ k, k ≠ i → m'.stage k = m.stage k := by
  simp only [AsyncMutex.step, Option.ite_none_right_eq_some, Option.some.injEq] at taken
  obtain ⟨idle, rfl⟩ := taken
  exact ⟨idle, Function.update_self _ _ _, fun k other => Function.update_of_ne other _ _⟩

theorem unlock_stage (taken : AsyncMutex.step m (.unlock u i) = some m')
    (granted : m.stage i = .granted) :
    m'.stage i = .ended ∧ ∀ k, k ≠ i → m'.stage k = m.stage k := by
  simp only [AsyncMutex.step, granted, if_true, Option.ite_none_right_eq_some, Option.some.injEq]
    at taken
  obtain ⟨_, rfl⟩ := taken
  exact ⟨Function.update_self _ _ _, fun k other => Function.update_of_ne other _ _⟩

theorem advance_calm (taken : AsyncMutex.step m (.step i) = some m') (k : Nat) : Calm m m' k := by
  obtain ⟨running, others, after⟩ := LockGuards.advance_stage taken
  by_cases here : k = i
  · subst here
    have before : m.stage k ≠ .ended ∧ m.stage k ≠ .granted := by
      constructor
      · intro at_
        simp [at_, LockGuards.InCall] at running
      · intro at_
        simp [at_, LockGuards.InCall] at running
    have later : m'.stage k ≠ .ended ∧ m'.stage k ≠ .idle := by
      rcases after with inside | granted | ⟨j, _, _, suspended⟩
      · constructor
        · intro at_
          simp [at_, LockGuards.InCall] at inside
        · intro at_
          simp [at_, LockGuards.InCall] at inside
      · simp [granted]
      · simp [suspended]
    exact ⟨iff_of_false later.1 before.1, fun granted => absurd granted before.2,
      fun idle => absurd idle later.2⟩
  · exact calm_same (others k here)

theorem proceed_calm (chain : ∃ h won, AsyncMutex.Chain m h won)
    (taken : AsyncMutex.step m (.proceed u) = some m') (k : Nat) : Calm m m' k := by
  obtain ⟨h, won, chain⟩ := chain
  rcases LockGuards.proceed_stage taken k with same | ⟨waiters, resumes, after⟩
  · exact calm_same same
  · obtain ⟨j, before⟩ := LockGuards.resumed_suspended chain resumes
    constructor
    · simp [before, after]
    · simp [before]
    · simp [after]

/-- The call `u` of `UnLock` has yet to resolve the promise of the session. -/
def Ending (m : AsyncMutex.State) (u i : Nat) : Prop :=
  m.unlocks u = .take i ∨ ∃ j, m.unlocks u = .resolve i j

theorem lockStep_unlocks {stage : AsyncMutex.Stage}
    (taken : AsyncMutex.lockStep m i stage = some m') : m'.unlocks = m.unlocks := by
  unfold AsyncMutex.lockStep at taken
  split at taken
  · exact (Option.some.inj taken) ▸ rfl
  · split at taken
    · exact (Option.some.inj taken) ▸ rfl
    · split at taken <;> exact (Option.some.inj taken) ▸ rfl
  · exact (Option.some.inj taken) ▸ rfl
  · exact (Option.some.inj taken) ▸ rfl
  · simp at taken

theorem unlockStep_ending {pc : AsyncMutex.Unlocking}
    (taken : AsyncMutex.unlockStep m u pc = some m') :
    (∀ v, v ≠ u → m'.unlocks v = m.unlocks v) ∧ (Ending m' u i → pc = .take i) := by
  have elsewhere : ∀ (n : AsyncMutex.State) pc v, v ≠ u →
      (n.unlocking u pc).unlocks v = n.unlocks v :=
    fun n pc v other => Function.update_of_ne other _ _
  have here : ∀ (n : AsyncMutex.State) pc, (n.unlocking u pc).unlocks u = pc :=
    fun n pc => Function.update_self _ _ _
  unfold AsyncMutex.unlockStep at taken
  split at taken
  · split at taken
    · rw [Option.some.injEq] at taken
      subst taken
      refine ⟨fun v other => elsewhere _ _ v other, fun ending => ?_⟩
      simp only [Ending, here] at ending
      simpa using ending
    · simp at taken
  all_goals
    simp only [Option.some.injEq, reduceCtorEq] at taken
  · subst taken
    refine ⟨fun v other => elsewhere _ _ v other, fun ending => ?_⟩
    simp [Ending, here] at ending
  · subst taken
    refine ⟨fun v other => elsewhere _ _ v other, fun ending => ?_⟩
    simp [Ending, here] at ending
  · subst taken
    refine ⟨fun v other => elsewhere _ _ v other, fun ending => ?_⟩
    simp [Ending, here] at ending

theorem ending_step {l : AsyncMutex.Label} (taken : AsyncMutex.step m l = some m')
    (ending : Ending m' u i) : Ending m u i ∨ l = .unlock u i := by
  have frame : m'.unlocks u = m.unlocks u → Ending m u i := by
    intro same
    unfold Ending at ending ⊢
    rwa [same] at ending
  cases l with
  | lock k =>
    simp only [AsyncMutex.step, Option.ite_none_right_eq_some, Option.some.injEq] at taken
    exact .inl (frame (taken.2 ▸ rfl))
  | step k => exact .inl (frame (congrFun (lockStep_unlocks taken) u))
  | proceed v =>
    obtain ⟨others, own⟩ := unlockStep_ending (i := i) taken
    by_cases here : u = v
    · subst here
      exact .inl (.inl (own ending))
    · exact .inl (frame (others u here))
  | unlock v k =>
    simp only [AsyncMutex.step, Option.ite_none_right_eq_some, Option.some.injEq] at taken
    obtain ⟨_, rfl⟩ := taken
    by_cases here : u = v
    · subst here
      right
      simpa [Ending, AsyncMutex.State.unlocking] using ending.symm
    · left
      apply frame
      simp only [AsyncMutex.State.unlocking, Function.update_of_ne here]
      split <;> rfl

theorem ending_ended (chain : ∃ h won, AsyncMutex.Chain m h won) (ending : Ending m u i) :
    m.stage i = .ended := by
  obtain ⟨h, won, chain⟩ := chain
  rcases ending with take | ⟨j, resolve⟩
  · exact LockGuards.take_ended chain take
  · obtain ⟨k, _, work, _⟩ :=
      AsyncMutex.busy_head chain (u := u) (by simp [AsyncMutex.Spent, resolve])
    cases work <;> simp_all

end Sessions

/-- The session of the last `Lock` of the guard is at such a stage; the others are over. -/
def Session (m : AsyncMutex.State) (owner : Nat → Option Nat) (g : Nat) (x : Guard)
    (q : AsyncMutex.Stage → Prop) : Prop :=
  x.own = true ∧ owner x.session = some g ∧ q (m.stage x.session) ∧
    ∀ i, owner i = some g → i ≠ x.session → m.stage i = .ended

def Clear (m : AsyncMutex.State) (owner : Nat → Option Nat) (g : Nat) (x : Guard) : Prop :=
  x.own = false ∧ ∀ i, owner i = some g → m.stage i = .ended

def Holding (m : AsyncMutex.State) (owner : Nat → Option Nat) (g : Nat) (x : Guard) : Prop :=
  Session m owner g x (· = .granted)

def Locking (m : AsyncMutex.State) (owner : Nat → Option Nat) (g : Nat) (x : Guard) : Prop :=
  Session m owner g x (· ≠ .ended)

def Sound (m : AsyncMutex.State) (owner : Nat → Option Nat) (g : Nat) (x : Guard) : Prop :=
  match x.phase with
  | .free => Clear m owner g x ∨ Holding m owner g x
  | .copying => Clear m owner g x ∨ Holding m owner g x
  | .copied _ => Clear m owner g x ∨ Holding m owner g x
  | .locking => Locking m owner g x
  | .relocking _ => Locking m owner g x
  | .acquired _ => Holding m owner g x
  | .resolved _ => Holding m owner g x
  | _ => Clear m owner g x

section Guards
variable {m m' : AsyncMutex.State} {owner owner' : Nat → Option Nat} {g : Nat} {x y : Guard}

theorem session_frame {q : AsyncMutex.Stage → Prop} (session : Session m owner g x q)
    (calm : ∀ i, owner i = some g → Calm m m' i) (same : ∀ i, owner' i = some g ↔ owner i = some g)
    (kept : q (m.stage x.session) → q (m'.stage x.session)) : Session m' owner' g x q := by
  obtain ⟨owns, mine, stage, others⟩ := session
  refine ⟨owns, (same _).mpr mine, kept stage, fun i its other => ?_⟩
  have before := (same i).mp its
  exact (calm i before).ended.mpr (others i before other)

theorem clear_frame (clear : Clear m owner g x) (calm : ∀ i, owner i = some g → Calm m m' i)
    (same : ∀ i, owner' i = some g ↔ owner i = some g) : Clear m' owner' g x := by
  refine ⟨clear.1, fun i its => ?_⟩
  have before := (same i).mp its
  exact (calm i before).ended.mpr (clear.2 i before)

theorem holding_frame (holding : Holding m owner g x)
    (calm : ∀ i, owner i = some g → Calm m m' i)
    (same : ∀ i, owner' i = some g ↔ owner i = some g) : Holding m' owner' g x :=
  session_frame holding calm same (calm _ holding.2.1).granted

theorem locking_frame (locking : Locking m owner g x)
    (calm : ∀ i, owner i = some g → Calm m m' i)
    (same : ∀ i, owner' i = some g ↔ owner i = some g) : Locking m' owner' g x :=
  session_frame locking calm same (mt (calm _ locking.2.1).ended.mp)

theorem sound_frame (sound : Sound m owner g x) (calm : ∀ i, owner i = some g → Calm m m' i)
    (same : ∀ i, owner' i = some g ↔ owner i = some g) : Sound m' owner' g x := by
  unfold Sound at sound ⊢
  split at sound
  · exact sound.imp (clear_frame · calm same) (holding_frame · calm same)
  · exact sound.imp (clear_frame · calm same) (holding_frame · calm same)
  · exact sound.imp (clear_frame · calm same) (holding_frame · calm same)
  · exact locking_frame sound calm same
  · exact locking_frame sound calm same
  · exact holding_frame sound calm same
  · exact holding_frame sound calm same
  · exact clear_frame sound calm same

theorem free_clear (free : Clear m owner g x ∨ Holding m owner g x) (own : x.own = false) :
    Clear m owner g x := by
  rcases free with clear | holding
  · exact clear
  · exact absurd (own.symm.trans holding.1) (by simp)

theorem free_holding (free : Clear m owner g x ∨ Holding m owner g x) (own : x.own = true) :
    Holding m owner g x := by
  rcases free with clear | holding
  · exact absurd (own.symm.trans clear.1) (by simp)
  · exact holding

/-- The end of `LockGuard::Unlock`'s session leaves the guard with none. -/
theorem holding_ends (holding : Holding m owner g x) (ended : m'.stage x.session = .ended)
    (others : ∀ k, k ≠ x.session → m'.stage k = m.stage k) (own : y.own = false) :
    Clear m' owner g y := by
  refine ⟨own, fun i its => ?_⟩
  by_cases here : i = x.session
  · rw [here, ended]
  · rw [others i here, holding.2.2.2 i its here]

theorem clear_locks {i : Nat} (clear : Clear m owner g x) (start : m'.stage i = .start)
    (others : ∀ k, k ≠ i → m'.stage k = m.stage k) (own : y.own = true) (session : y.session = i) :
    Locking m' (Function.update owner i (some g)) g y := by
  subst session
  refine ⟨own, Function.update_self _ _ _, by simp [start], fun k its other => ?_⟩
  rw [Function.update_of_ne other] at its
  rw [others k other, clear.2 k its]

theorem granted_holding (locking : Locking m owner g x) (granted : m.stage x.session = .granted) :
    Holding m owner g x :=
  ⟨locking.1, locking.2.1, granted, locking.2.2.2⟩

end Guards

/-- The call of `UnLock` that the owner of the guard is inside of. -/
def Phase.ending : Phase → Option Nat
  | .unlocking u => some u
  | .releasing _ u => some u
  | _ => none

structure Locks (m : AsyncMutex.State) (owner : Nat → Option Nat) (guards : Nat → Guard) :
    Prop where
  chain : ∃ h won, AsyncMutex.Chain m h won
  sound : ∀ g, Sound m owner g (guards g)
  owned : ∀ i g, owner i = some g → m.stage i ≠ .idle
  ending : ∀ u i g, Ending m u i → owner i = some g → (guards g).phase.ending = some u

section Locks
variable {m m' : AsyncMutex.State} {owner : Nat → Option Nat} {guards : Nat → Guard} {g i u : Nat}
  {x : Guard}

theorem locks_put (locks : Locks m owner guards) (sound : Sound m owner g x)
    (returned : ∀ u, (guards g).phase.ending = some u → m.unlocks u = .resume []) :
    Locks m owner (Function.update guards g x) := by
  refine ⟨locks.chain, fun h => ?_, locks.owned, fun u i h ending its => ?_⟩
  · by_cases here : h = g
    · subst here
      rw [Function.update_self]
      exact sound
    · rw [Function.update_of_ne here]
      exact locks.sound h
  · have inside := locks.ending u i h ending its
    by_cases here : h = g
    · subst here
      simp [Ending, returned u inside] at ending
    · rw [Function.update_of_ne here]
      exact inside

/-- A step of the mutex that ends no session of a guard. -/
theorem locks_calm {l : AsyncMutex.Label} (locks : Locks m owner guards)
    (lawful : AsyncMutex.legal m l = true) (taken : AsyncMutex.step m l = some m')
    (foreign : ∀ u k, l = .unlock u k → owner k = none)
    (calm : ∀ k g, owner k = some g → Calm m m' k) : Locks m' owner guards := by
  refine ⟨LockGuards.chain_next locks.chain lawful taken, fun h => ?_, fun k h its idle => ?_,
    fun u k h ending its => ?_⟩
  · exact sound_frame (locks.sound h) (fun k its => calm k h its) fun _ => Iff.rfl
  · exact locks.owned k h its ((calm k h its).idle idle)
  · rcases ending_step taken ending with before | unlock
    · exact locks.ending u k h before its
    · exact absurd (its.symm.trans (foreign u k unlock)) (by simp)

theorem locks_lock (locks : Locks m owner guards) (clear : Clear m owner g (guards g))
    (own : x.own = true) (session : x.session = i) (outside : (guards g).phase.ending = none)
    (locking : Locking m' (Function.update owner i (some g)) g x →
      Sound m' (Function.update owner i (some g)) g x)
    (taken : AsyncMutex.step m (.lock i) = some m') :
    Locks m' (Function.update owner i (some g)) (Function.update guards g x) := by
  obtain ⟨idle, start, others⟩ := lock_stage taken
  refine ⟨LockGuards.chain_next locks.chain rfl taken, fun h => ?_, fun k h its idle_ => ?_,
    fun u k h ending its => ?_⟩
  · by_cases here : h = g
    · subst here
      rw [Function.update_self]
      exact locking (clear_locks clear start others own session)
    · rw [Function.update_of_ne here]
      refine sound_frame (locks.sound h) (fun k its => calm_same (others k ?_)) fun k => ?_
      · rintro rfl
        exact locks.owned k h its idle
      · by_cases new : k = i
        · subst new
          rw [Function.update_self]
          refine iff_of_false (by simpa using Ne.symm here) fun its => ?_
          exact locks.owned k h its idle
        · rw [Function.update_of_ne new]
  · by_cases new : k = i
    · rw [new, start] at idle_
      simp at idle_
    · rw [Function.update_of_ne new] at its
      rw [others k new] at idle_
      exact locks.owned k h its idle_
  · have before : Ending m u k := (ending_step taken ending).resolve_right (by simp)
    have new : k ≠ i := by
      rintro rfl
      exact absurd (idle.symm.trans (ending_ended locks.chain before)) (by simp)
    rw [Function.update_of_ne new] at its
    have inside := locks.ending u k h before its
    by_cases here : h = g
    · subst here
      exact absurd (outside.symm.trans inside) (by simp)
    · rw [Function.update_of_ne here]
      exact inside

theorem locks_unlock (locks : Locks m owner guards) (holding : Holding m owner g (guards g))
    (own : x.own = false) (outside : (guards g).phase.ending = none)
    (inside : x.phase.ending = some u) (clear : Clear m' owner g x → Sound m' owner g x)
    (taken : AsyncMutex.step m (.unlock u (guards g).session) = some m') :
    Locks m' owner (Function.update guards g x) := by
  obtain ⟨_, mine, granted, _⟩ := id holding
  obtain ⟨ended, others⟩ := unlock_stage taken granted
  have lawful : AsyncMutex.legal m (.unlock u (guards g).session) = true := by
    simp [AsyncMutex.legal, granted]
  refine ⟨LockGuards.chain_next locks.chain lawful taken, fun h => ?_, fun k h its idle => ?_,
    fun v k h ending its => ?_⟩
  · by_cases here : h = g
    · subst here
      rw [Function.update_self]
      exact clear (holding_ends holding ended others own)
    · rw [Function.update_of_ne here]
      refine sound_frame (locks.sound h) (fun k its => calm_same (others k ?_)) fun _ => Iff.rfl
      rintro rfl
      rw [mine, Option.some.injEq] at its
      exact here its.symm
  · by_cases same : k = (guards g).session
    · rw [same, ended] at idle
      simp at idle
    · rw [others k same] at idle
      exact locks.owned k h its idle
  · by_cases here : h = g
    · subst here
      rw [Function.update_self]
      rcases ending_step taken ending with before | unlock
      · exact absurd (outside.symm.trans (locks.ending v k h before its)) (by simp)
      · rw [AsyncMutex.Label.unlock.injEq] at unlock
        rw [inside, unlock.1]
    · rw [Function.update_of_ne here]
      rcases ending_step taken ending with before | unlock
      · exact locks.ending v k h before its
      · rw [AsyncMutex.Label.unlock.injEq] at unlock
        rw [← unlock.2, mine, Option.some.injEq] at its
        exact absurd its.symm here

end Locks

end LockAwareWait
