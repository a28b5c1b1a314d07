import JSProCpp.AsyncMutex

/-
Guards over one async mutex. `LockGuard::Lock` sets `own_lock_` before the mutex grants the
lock, so a guard that has to queue claims a lock that another guard holds.
-/
namespace LockGuards
open Transitions

inductive Phase where
  | absent
  | free
  | locking (i : Nat)
  | assigning (u right : Nat)
  | destroyed
  deriving DecidableEq

structure Guard where
  phase : Phase
  -- `own_lock_`, with the call of `Mutex::Lock` for which it was set.
  own : Option Nat
  attached : Bool

structure State where
  mutex : AsyncMutex.State
  guards : Nat → Guard

inductive Label where
  | create (g : Nat)
  | lock (g i : Nat)
  | advance (i : Nat)
  | unlock (g u : Nat)
  | proceed (u : Nat)
  | move (g right : Nat)
  | assign (g right u : Nat)
  | settle (g : Nat)
  | destroy (g u : Nat)
  deriving DecidableEq

def initial : State where
  mutex := AsyncMutex.initial
  guards := fun _ => { phase := .absent, own := none, attached := false }

def State.put (s : State) (g : Nat) (x : Guard) : State :=
  { s with guards := Function.update s.guards g x }

def State.onMutex (s : State) (l : AsyncMutex.Label) : Option State :=
  (AsyncMutex.step s.mutex l).map fun m => { s with mutex := m }

/-- `mutex_->UnLock()` if the flag is set. -/
def State.unLock (s : State) (x : Guard) (u : Nat) : Option State :=
  match x.own with
  | some k => if x.attached then s.onMutex (.unlock u k) else none
  | none => some s

def State.transfer (s : State) (g right : Nat) : State :=
  (s.put g { s.guards right with phase := .free }).put right
    { phase := .free, own := none, attached := false }

def Guard.back (x : Guard) (i : Nat) : Guard :=
  if x.phase = .locking i then { x with phase := .free } else x

/-- `Lock` has returned its promise once the coroutine first suspends or completes. -/
def handedBack : AsyncMutex.Stage → Bool
  | .suspended _ => true
  | .granted => true
  | _ => false

def step (s : State) : Label → Option State
  | .create g =>
      if (s.guards g).phase = .absent then
        some (s.put g { phase := .free, own := none, attached := true })
      else none
  | .lock g i =>
      if (s.guards g).phase = .free ∧ (s.guards g).own = none ∧ (s.guards g).attached then
        (s.put g { phase := .locking i, own := some i, attached := true }).onMutex (.lock i)
      else none
  | .advance i =>
      (s.onMutex (.step i)).map fun t =>
        if handedBack (t.mutex.stage i) then { t with guards := fun g => (t.guards g).back i }
        else t
  | .unlock g u =>
      let x := s.guards g
      if x.phase = .free ∧ x.own ≠ none then (s.put g { x with own := none }).unLock x u
      else none
  | .proceed u => s.onMutex (.proceed u)
  | .move g right =>
      if (s.guards g).phase = .absent ∧ (s.guards right).phase = .free then
        some (s.transfer g right)
      else none
  | .assign g right u =>
      let x := s.guards g
      if x.phase = .free ∧ (s.guards right).phase = .free then
        if g = right then some s
        else if x.own = none then some (s.transfer g right)
        else (s.put g { x with phase := .assigning u right }).unLock x u
      else none
  | .settle g =>
      match (s.guards g).phase with
      | .assigning u right =>
          if s.mutex.unlocks u = .resume [] ∧ (s.guards right).phase = .free then
            some (s.transfer g right)
          else none
      | _ => none
  | .destroy g u =>
      let x := s.guards g
      if x.phase = .free then
        (s.put g { phase := .destroyed, own := none, attached := false }).unLock x u
      else none

/-- `OwnsLock()` returns true; it can be called when no other call on the guard runs. -/
def Reports (s : State) (g i : Nat) : Prop :=
  (s.guards g).phase = .free ∧ (s.guards g).own = some i

/-- Only a guard whose lock was granted and is not released reports it, one at a time; `UnLock`
    is called after the grant and resolves the promise of the caller's own session. -/
structure ReleasesOwn (s : State) : Prop where
  granted : ∀ g i, Reports s g i → s.mutex.stage i = .granted
  exclusive : ∀ g k i j, Reports s g i → Reports s k j → g = k
  after_grant : ∀ u k, s.mutex.unlocks u = .take k → s.mutex.stage k = .ended
  ends_own : ∀ u k j, s.mutex.unlocks u = .resolve k j → k = j

/-- The promise that a `Lock` call is about to await is already resolved. -/
def Unqueued (s : State) : Label → Prop
  | .advance i => ∀ current, s.mutex.stage i = .awaits current → s.mutex.isDone current = true
  | _ => True

section Mutex
variable {m m' : AsyncMutex.State} {i u : Nat}

def InCall : AsyncMutex.Stage → Prop
  | .start => True
  | .awaits _ => True
  | .relock => True
  | .stored => True
  | _ => False

theorem advance_stage (taken : AsyncMutex.step m (.step i) = some m') :
    InCall (m.stage i) ∧ (∀ k, k ≠ i → m'.stage k = m.stage k) ∧
      (InCall (m'.stage i) ∨ m'.stage i = .granted ∨
        ∃ j, m.stage i = .awaits (some j) ∧ m.done j = false ∧ m'.stage i = .suspended j) := by
  have elsewhere : ∀ (n : AsyncMutex.State) stage k, k ≠ i → (n.goto i stage).stage k = n.stage k :=
    fun n stage k other => Function.update_of_ne other _ _
  have here : ∀ (n : AsyncMutex.State) stage, (n.goto i stage).stage i = stage :=
    fun n stage => Function.update_self _ _ _
  simp only [AsyncMutex.step] at taken
  generalize at_ : m.stage i = stage at taken ⊢
  cases stage with
  | start =>
    simp only [AsyncMutex.lockStep, Option.some.injEq] at taken
    subst taken
    exact ⟨trivial, fun k other => elsewhere _ _ k other, .inl (by simp only [here, InCall])⟩
  | awaits current =>
    simp only [AsyncMutex.lockStep] at taken
    split at taken
    · rw [Option.some.injEq] at taken
      subst taken
      exact ⟨trivial, fun k other => elsewhere _ _ k other, .inl (by simp only [here, InCall])⟩
    · rename_i j
      split at taken
      · rw [Option.some.injEq] at taken
        subst taken
        exact ⟨trivial, fun k other => elsewhere _ _ k other, .inl (by simp only [here, InCall])⟩
      · rename_i unresolved
        rw [Option.some.injEq] at taken
        subst taken
        exact ⟨trivial, fun k other => elsewhere _ _ k other,
          .inr (.inr ⟨j, rfl, Bool.eq_false_iff.mpr unresolved, here _ _⟩)⟩
  | relock =>
    simp only [AsyncMutex.lockStep, Option.some.injEq] at taken
    subst taken
    exact ⟨trivial, fun k other => elsewhere _ _ k other, .inl (by simp only [here, InCall])⟩
  | stored =>
    simp only [AsyncMutex.lockStep, Option.some.injEq] at taken
    subst taken
    exact ⟨trivial, fun k other => elsewhere _ _ k other, .inr (.inl (here _ _))⟩
  | _ => simp [AsyncMutex.lockStep] at taken

theorem proceed_stage (taken : AsyncMutex.step m (.proceed u) = some m') (k : Nat) :
    m'.stage k = m.stage k ∨ ∃ waiters, m.unlocks u = .resume (k :: waiters) ∧
      m'.stage k = .relock := by
  simp only [AsyncMutex.step] at taken
  generalize at_ : m.unlocks u = pc at taken
  cases pc with
  | take k =>
    simp only [AsyncMutex.unlockStep] at taken
    split at taken
    · rw [Option.some.injEq] at taken
      exact .inl (taken ▸ rfl)
    · simp at taken
  | resolve k j =>
    simp only [AsyncMutex.unlockStep, Option.some.injEq] at taken
    exact .inl (taken ▸ rfl)
  | flush j =>
    simp only [AsyncMutex.unlockStep, Option.some.injEq] at taken
    exact .inl (taken ▸ rfl)
  | resume waiters =>
    cases waiters with
    | nil => simp [AsyncMutex.unlockStep] at taken
    | cons w waiters =>
      simp only [AsyncMutex.unlockStep, Option.some.injEq] at taken
      by_cases same : k = w
      · subst same
        exact .inr ⟨waiters, rfl, taken ▸ Function.update_self _ _ _⟩
      · exact .inl (taken ▸ Function.update_of_ne same _ _)

theorem resumed_suspended {h : Nat} {won : Bool} (inv : AsyncMutex.Chain m h won)
    {k : Nat} {waiters : List Nat} (at_ : m.unlocks u = .resume (k :: waiters)) :
    ∃ j, m.stage k = .suspended j := by
  have busy : ¬AsyncMutex.Spent m u := by simp [AsyncMutex.Spent, at_]
  obtain ⟨i, _, work, _⟩ := AsyncMutex.busy_head inv busy
  cases work with
  | resume j _ waiting _ _ unlocking _ =>
    rw [at_, AsyncMutex.Unlocking.resume.injEq, List.cons.injEq] at unlocking
    exact ⟨j, unlocking.1 ▸ waiting⟩
  | flush _ _ _ _ _ unlocking _ => simp [at_] at unlocking
  | take _ _ unlocking => simp [at_] at unlocking
  | resolve _ _ unlocking => simp [at_] at unlocking

theorem take_ended {h : Nat} {won : Bool} (inv : AsyncMutex.Chain m h won) {k : Nat}
    (at_ : m.unlocks u = .take k) : m.stage k = .ended := by
  have busy : ¬AsyncMutex.Spent m u := by simp [AsyncMutex.Spent, at_]
  obtain ⟨i, _, work, _⟩ := AsyncMutex.busy_head inv busy
  cases work with
  | take past _ unlocking =>
    rw [at_, AsyncMutex.Unlocking.take.injEq] at unlocking
    exact unlocking ▸ past
  | flush _ _ _ _ _ unlocking _ => simp [at_] at unlocking
  | resume _ _ _ _ _ unlocking _ => simp [at_] at unlocking
  | resolve _ _ unlocking => simp [at_] at unlocking

end Mutex

section Owners
variable {m m' : AsyncMutex.State} {x : Guard} {s t : State} {l : Label}

def Sound (m : AsyncMutex.State) (x : Guard) : Prop :=
  match x.phase with
  | .free => ∀ i, x.own = some i → m.stage i = .granted
  | .locking i => x.own = some i ∧ InCall (m.stage i)
  | .assigning _ _ => ∀ i, x.own = some i → m.stage i = .ended
  | .absent => x.own = none
  | .destroyed => x.own = none

structure Owned (s : State) : Prop where
  chain : ∃ h won, AsyncMutex.Chain s.mutex h won
  sound : ∀ g, Sound s.mutex (s.guards g)
  distinct : ∀ g k i, (s.guards g).own = some i → (s.guards k).own = some i → g = k

theorem sound_frame (sound : Sound m x)
    (stage : ∀ i, x.own = some i → m'.stage i = m.stage i) : Sound m' x := by
  obtain ⟨phase, own, attached⟩ := x
  cases phase with
  | free => exact fun i owns => (stage i owns).trans (sound i owns)
  | locking i =>
    have kept := stage i sound.1
    exact ⟨sound.1, kept ▸ sound.2⟩
  | assigning u right => exact fun i owns => (stage i owns).trans (sound i owns)
  | absent => exact sound
  | destroyed => exact sound

/-- The session of a flag has started, and does not wait in a queue. -/
theorem sound_stage (sound : Sound m x) {i : Nat} (owns : x.own = some i) :
    m.stage i ≠ .idle ∧ ∀ j, m.stage i ≠ .suspended j := by
  obtain ⟨phase, own, attached⟩ := x
  cases phase with
  | free =>
    have at_ := sound i owns
    simp [at_]
  | locking k =>
    obtain ⟨same, running⟩ := sound
    simp only at owns same
    rw [same, Option.some.injEq] at owns
    subst owns
    constructor
    · intro at_
      simp [at_, InCall] at running
    · intro j at_
      simp [at_, InCall] at running
  | assigning u right =>
    have at_ := sound i owns
    simp [at_]
  | absent => exact absurd (sound.symm.trans owns) (by simp)
  | destroyed => exact absurd (sound.symm.trans owns) (by simp)

theorem initial_owned : Owned initial where
  chain := ⟨0, false, AsyncMutex.initial_chain⟩
  sound := fun _ => rfl
  distinct := by simp [initial]

theorem onMutex_some {l : AsyncMutex.Label} (taken : s.onMutex l = some t) :
    ∃ m, AsyncMutex.step s.mutex l = some m ∧ t = { s with mutex := m } := by
  obtain ⟨m, first, rfl⟩ := Option.map_eq_some_iff.mp taken
  exact ⟨m, first, rfl⟩

theorem chain_next {l : AsyncMutex.Label} (inv : ∃ h won, AsyncMutex.Chain m h won)
    (lawful : AsyncMutex.legal m l = true) (taken : AsyncMutex.step m l = some m') :
    ∃ h won, AsyncMutex.Chain m' h won := by
  obtain ⟨h, won, inv⟩ := inv
  refine AsyncMutex.step_chain inv (l := l) ?_
  simp only [AsyncMutex.stepLegal, lawful, if_true, taken]

theorem put_owned {g : Nat} (inv : Owned s) (sound : Sound s.mutex x)
    (own : ∀ k i, x.own = some i → (s.guards k).own = some i → k = g) : Owned (s.put g x) := by
  have here : (s.put g x).guards g = x := Function.update_self _ _ _
  have elsewhere : ∀ k, k ≠ g → (s.put g x).guards k = s.guards k :=
    fun k other => Function.update_of_ne other _ _
  refine ⟨inv.chain, fun k => ?_, fun k j i first second => ?_⟩
  · by_cases same : k = g
    · rw [same, here]
      exact sound
    · rw [elsewhere k same]
      exact inv.sound k
  · by_cases k_same : k = g
    · by_cases j_same : j = g
      · exact k_same.trans j_same.symm
      · rw [k_same, here] at first
        rw [elsewhere j j_same] at second
        exact k_same.trans (own j i first second).symm
    · rw [elsewhere k k_same] at first
      by_cases j_same : j = g
      · rw [j_same, here] at second
        exact (own k i second first).trans j_same.symm
      · rw [elsewhere j j_same] at second
        exact inv.distinct k j i first second

theorem transfer_owned {g right : Nat} (inv : Owned s) (other : g ≠ right)
    (free : (s.guards right).phase = .free) : Owned (s.transfer g right) := by
  have order : s.transfer g right =
      (s.put right { phase := .free, own := none, attached := false }).put g
        { s.guards right with phase := .free } := by
    simp only [State.transfer, State.put]
    rw [Function.update_comm other]
  rw [order]
  have emptied : Owned (s.put right { phase := .free, own := none, attached := false }) := by
    refine put_owned inv ?_ ?_
    · simp [Sound]
    · simp
  refine put_owned emptied ?_ ?_
  · have sound := inv.sound right
    simp only [Sound, free] at sound
    exact sound
  · intro k i owns there
    by_cases same : k = right
    · simp [State.put, same] at there
    · have kept : (s.put right { phase := .free, own := none, attached := false }).guards k =
          s.guards k := Function.update_of_ne same _ _
      rw [kept] at there
      exact absurd (inv.distinct k right i there owns) same

/-- A guard that owns the lock starts to release it. -/
theorem unLock_owned {g u k : Nat} {y : Guard} (inv : Owned s) (free : (s.guards g).phase = .free)
    (owns : (s.guards g).own = some k) (sound : ∀ m, m.stage k = .ended → Sound m y)
    (own : ∀ i, y.own = some i → i = k)
    (taken : (s.put g y).unLock (s.guards g) u = some t) : Owned t := by
  have granted : s.mutex.stage k = .granted := by
    have held := inv.sound g
    simp only [Sound, free] at held
    exact held k owns
  simp only [State.unLock, owns, Option.ite_none_right_eq_some] at taken
  obtain ⟨m, first, rfl⟩ := onMutex_some taken.2
  have lawful : AsyncMutex.legal s.mutex (.unlock u k) = true := by simp [AsyncMutex.legal, granted]
  have chain := chain_next inv.chain lawful first
  simp only [State.put, AsyncMutex.step, granted, if_true, Option.ite_none_right_eq_some,
    Option.some.injEq] at first
  have here : m.stage k = .ended := by
    rw [← first.2]
    exact Function.update_self _ _ _
  have elsewhere : ∀ i, i ≠ k → m.stage i = s.mutex.stage i := by
    intro i other
    rw [← first.2]
    exact Function.update_of_ne other _ _
  refine ⟨chain, fun j => ?_, fun a b i first second => ?_⟩
  · by_cases same : j = g
    · simp only [State.put, same, Function.update_self]
      exact sound m here
    · simp only [State.put]
      rw [Function.update_of_ne same]
      refine sound_frame (inv.sound j) fun i there => elsewhere i ?_
      rintro rfl
      exact same (inv.distinct j g i there owns)
  · have back : ∀ c, ((s.put g y).guards c).own = some i → (s.guards c).own = some i := by
      intro c there
      by_cases same : c = g
      · simp only [State.put, same, Function.update_self] at there
        rw [same, owns, own i there]
      · simp only [State.put] at there
        rwa [Function.update_of_ne same] at there
    exact inv.distinct a b i (back a first) (back b second)

theorem lock_owned {g i : Nat} (inv : Owned s)
    (taken : (s.put g { phase := .locking i, own := some i, attached := true }).onMutex (.lock i) =
      some t) : Owned t := by
  obtain ⟨m, first, rfl⟩ := onMutex_some taken
  have chain := chain_next inv.chain rfl first
  have first' : AsyncMutex.step s.mutex (.lock i) = some m := first
  simp only [AsyncMutex.step, Option.ite_none_right_eq_some, Option.some.injEq] at first'
  obtain ⟨idle, rfl⟩ := first'
  have fresh : ∀ k, (s.guards k).own ≠ some i :=
    fun k owns => (sound_stage (inv.sound k) owns).1 idle
  have kept : ∀ k, k ≠ g →
      ((s.put g { phase := .locking i, own := some i, attached := true }).guards k) = s.guards k :=
    fun k other => Function.update_of_ne other _ _
  refine ⟨chain, fun k => ?_, fun a b j first second => ?_⟩
  · by_cases same : k = g
    · have start : (s.mutex.goto i .start).stage i = .start := Function.update_self _ _ _
      simp only [State.put, same, Function.update_self, Sound, start, InCall, true_and]
    · rw [kept k same]
      refine sound_frame (inv.sound k) fun j owns => Function.update_of_ne ?_ _ _
      rintro rfl
      exact fresh k owns
  · simp only at first second
    by_cases a_same : a = g
    · by_cases b_same : b = g
      · exact a_same.trans b_same.symm
      · rw [kept b b_same] at second
        simp only [State.put, a_same, Function.update_self, Option.some.injEq] at first
        exact absurd (first ▸ second) (fresh b)
    · rw [kept a a_same] at first
      by_cases b_same : b = g
      · simp only [State.put, b_same, Function.update_self, Option.some.injEq] at second
        exact absurd (second ▸ first) (fresh a)
      · rw [kept b b_same] at second
        exact inv.distinct a b j first second

theorem advance_owned {i : Nat} (inv : Owned s) (quick : Unqueued s (.advance i))
    (taken : step s (.advance i) = some t) : Owned t := by
  obtain ⟨u, moved, back⟩ := Option.map_eq_some_iff.mp taken
  obtain ⟨m, first, rfl⟩ := onMutex_some moved
  have chain := chain_next inv.chain rfl first
  obtain ⟨running, elsewhere, here⟩ := advance_stage first
  have locking : ∀ g, (s.guards g).own = some i → (s.guards g).phase = .locking i := by
    intro g owns
    have sound := inv.sound g
    unfold Sound at sound
    split at sound
    · rw [sound i owns] at running
      exact running.elim
    · rename_i k at_
      rw [sound.1, Option.some.injEq] at owns
      exact owns ▸ at_
    · rw [sound i owns] at running
      exact running.elim
    · simp [owns] at sound
    · simp [owns] at sound
  have others : ∀ g, (s.guards g).own ≠ some i → Sound m (s.guards g) := by
    intro g other
    refine sound_frame (inv.sound g) fun k owns => elsewhere k ?_
    rintro rfl
    exact other owns
  rcases here with running' | granted | ⟨j, at_, unresolved, _⟩
  · -- the call goes on
    have inside : handedBack (m.stage i) = false := by
      generalize m.stage i = stage at running'
      cases stage <;> first | rfl | exact running'.elim
    rw [if_neg (by simp [inside])] at back
    subst back
    refine ⟨chain, fun g => ?_, inv.distinct⟩
    by_cases owns : (s.guards g).own = some i
    · simp only [Sound, locking g owns]
      exact ⟨owns, running'⟩
    · exact others g owns
  · -- the call returns with the lock granted
    rw [if_pos (by simp [granted, handedBack])] at back
    subst back
    have same_own : ∀ g, ((s.guards g).back i).own = (s.guards g).own := by
      intro g
      unfold Guard.back
      split <;> rfl
    refine ⟨chain, fun g => ?_, fun g k j first second => ?_⟩
    · by_cases owns : (s.guards g).own = some i
      · simp only [Guard.back, locking g owns, if_true, Sound]
        intro k there
        rw [owns, Option.some.injEq] at there
        exact there ▸ granted
      · have kept : (s.guards g).back i = s.guards g := by
          unfold Guard.back
          rw [if_neg]
          intro at_
          have sound := inv.sound g
          simp only [Sound, at_] at sound
          exact owns sound.1
        simp only [kept]
        exact others g owns
    · simp only [same_own] at first second
      exact inv.distinct g k j first second
  · have resolved := quick (some j) at_
    simp [AsyncMutex.State.isDone, unresolved] at resolved

theorem proceed_owned {u : Nat} (inv : Owned s) (taken : step s (.proceed u) = some t) :
    Owned t := by
  obtain ⟨m, first, rfl⟩ := onMutex_some taken
  have chain := chain_next inv.chain rfl first
  refine ⟨chain, fun g => ?_, inv.distinct⟩
  refine sound_frame (inv.sound g) fun i owns => ?_
  rcases proceed_stage first i with kept | ⟨waiters, at_, _⟩
  · exact kept
  · -- only queued sessions are resumed
    obtain ⟨h, won, current⟩ := inv.chain
    obtain ⟨j, waiting⟩ := resumed_suspended current at_
    exact absurd waiting ((sound_stage (inv.sound g) owns).2 j)

theorem step_owned (inv : Owned s) (quick : Unqueued s l) (taken : step s l = some t) :
    Owned t := by
  cases l with
  | create g =>
    simp only [step, Option.ite_none_right_eq_some, Option.some.injEq] at taken
    rw [← taken.2]
    exact put_owned inv (by simp [Sound]) (by simp)
  | lock g i =>
    simp only [step, Option.ite_none_right_eq_some] at taken
    exact lock_owned inv taken.2
  | advance i => exact advance_owned inv quick taken
  | unlock g u =>
    simp only [step, Option.ite_none_right_eq_some] at taken
    obtain ⟨⟨free, owns⟩, start⟩ := taken
    obtain ⟨k, owns⟩ := Option.ne_none_iff_exists'.mp owns
    exact unLock_owned inv free owns (fun m _ => by simp [Sound, free]) (by simp) start
  | proceed u => exact proceed_owned inv taken
  | move g right =>
    simp only [step, Option.ite_none_right_eq_some, Option.some.injEq] at taken
    obtain ⟨⟨absent, free⟩, rfl⟩ := taken
    refine transfer_owned inv ?_ free
    rintro rfl
    simp [absent] at free
  | assign g right u =>
    simp only [step, Option.ite_none_right_eq_some] at taken
    obtain ⟨⟨free, right_free⟩, taken⟩ := taken
    split at taken
    · rw [Option.some.injEq] at taken
      exact taken ▸ inv
    · rename_i other
      split at taken
      · rw [Option.some.injEq] at taken
        exact taken ▸ transfer_owned inv other right_free
      · rename_i owns
        obtain ⟨k, owns⟩ := Option.ne_none_iff_exists'.mp owns
        refine unLock_owned inv free owns (fun m ended => ?_) (fun i there => ?_) taken
        · simp only [Sound, owns, Option.some.injEq]
          rintro i rfl
          exact ended
        · simp only [owns, Option.some.injEq] at there
          exact there.symm
  | settle g =>
    simp only [step] at taken
    split at taken
    · rename_i u right at_
      simp only [Option.ite_none_right_eq_some, Option.some.injEq] at taken
      obtain ⟨⟨_, free⟩, rfl⟩ := taken
      refine transfer_owned inv ?_ free
      rintro rfl
      simp [at_] at free
    · simp at taken
  | destroy g u =>
    simp only [step, Option.ite_none_right_eq_some] at taken
    obtain ⟨free, start⟩ := taken
    cases owns : (s.guards g).own with
    | none =>
      simp only [State.unLock, owns, Option.some.injEq] at start
      rw [← start]
      exact put_owned inv (by simp [Sound]) (by simp)
    | some k =>
      exact unLock_owned inv free owns (fun m _ => by simp [Sound]) (by simp) start

theorem owned_releases (inv : Owned s) : ReleasesOwn s := by
  obtain ⟨h, won, chain⟩ := inv.chain
  have granted : ∀ g i, Reports s g i → s.mutex.stage i = .granted := by
    rintro g i ⟨free, owns⟩
    have sound := inv.sound g
    simp only [Sound, free] at sound
    exact sound i owns
  refine ⟨granted, fun g k i j first second => ?_, fun u k at_ => take_ended chain at_,
    fun u k j at_ => (AsyncMutex.resolve_chain chain at_).1⟩
  have here := AsyncMutex.at_head chain (.inr (.inr (granted g i first)))
  rw [AsyncMutex.at_head chain (.inr (.inr (granted k j second))), Option.some.injEq] at here
  exact inv.distinct g k i first.2 (here ▸ second.2)

end Owners

section Called
variable {s t : State} {l : Label}

def Early (stage : AsyncMutex.Stage) : Prop :=
  stage = .start ∨ ∃ current, stage = .awaits current

theorem early_before {m m' : AsyncMutex.State} {i : Nat}
    (taken : AsyncMutex.step m (.step i) = some m') (early : Early (m'.stage i)) :
    Early (m.stage i) := by
  have here : ∀ (n : AsyncMutex.State) stage, (n.goto i stage).stage i = stage :=
    fun n stage => Function.update_self _ _ _
  simp only [AsyncMutex.step] at taken
  generalize at_ : m.stage i = stage at taken ⊢
  cases stage with
  | start => exact .inl rfl
  | awaits current => exact .inr ⟨current, rfl⟩
  | relock =>
    simp only [AsyncMutex.lockStep, Option.some.injEq] at taken
    simp [← taken, here, Early] at early
  | stored =>
    simp only [AsyncMutex.lockStep, Option.some.injEq] at taken
    simp [← taken, here, Early] at early
  | _ => simp [AsyncMutex.lockStep] at taken

/-- A session that has not come past its await is inside some guard's `Lock`. -/
def Called (s : State) : Prop :=
  ∀ i, Early (s.mutex.stage i) →
    ∃ g, (s.guards g).phase = .locking i ∧ (s.guards g).own = some i

theorem called_frame (inv : Called s)
    (stage : ∀ i, Early (t.mutex.stage i) → Early (s.mutex.stage i))
    (guards : ∀ g i, (s.guards g).phase = .locking i → t.guards g = s.guards g) : Called t := by
  intro i early
  obtain ⟨g, at_, owns⟩ := inv i (stage i early)
  refine ⟨g, ?_⟩
  rw [guards g i at_]
  exact ⟨at_, owns⟩

theorem put_elsewhere {g : Nat} {x : Guard} (outside : ∀ i, (s.guards g).phase ≠ .locking i)
    (k i : Nat) (at_ : (s.guards k).phase = .locking i) : (s.put g x).guards k = s.guards k := by
  refine Function.update_of_ne ?_ _ _
  rintro rfl
  exact outside i at_

theorem transfer_called {g right : Nat} (inv : Called s)
    (outside : ∀ i, (s.guards g).phase ≠ .locking i) (free : (s.guards right).phase = .free) :
    Called (s.transfer g right) := by
  refine called_frame inv (fun _ early => early) fun k i at_ => ?_
  have first : k ≠ g := by
    rintro rfl
    exact outside i at_
  have second : k ≠ right := by
    rintro rfl
    simp [free] at at_
  exact (Function.update_of_ne second _ _).trans (Function.update_of_ne first _ _)

theorem unLock_called {g u : Nat} {x y : Guard} (inv : Called s)
    (free : (s.guards g).phase = .free) (taken : (s.put g y).unLock x u = some t) : Called t := by
  have outside : ∀ i, (s.guards g).phase ≠ .locking i := by simp [free]
  unfold State.unLock at taken
  split at taken
  · rename_i k _
    rw [Option.ite_none_right_eq_some] at taken
    obtain ⟨m, first, rfl⟩ := onMutex_some taken.2
    refine called_frame inv (fun i early => ?_) fun j i at_ => put_elsewhere outside j i at_
    have first' : AsyncMutex.step s.mutex (.unlock u k) = some m := first
    simp only [AsyncMutex.step, Option.ite_none_right_eq_some, Option.some.injEq] at first'
    obtain ⟨_, rfl⟩ := first'
    by_cases granted : s.mutex.stage k = .granted
    · simp only [granted, if_true, AsyncMutex.State.unlocking, AsyncMutex.State.goto] at early
      by_cases same : i = k
      · simp [same, Early] at early
      · rwa [Function.update_of_ne same] at early
    · simpa only [granted, if_false, AsyncMutex.State.unlocking] using early
  · rw [Option.some.injEq] at taken
    rw [← taken]
    exact called_frame inv (fun _ early => early) fun j i at_ => put_elsewhere outside j i at_

theorem step_called (inv : Called s) (taken : step s l = some t) : Called t := by
  cases l with
  | create g =>
    simp only [step, Option.ite_none_right_eq_some, Option.some.injEq] at taken
    obtain ⟨absent, rfl⟩ := taken
    exact called_frame inv (fun _ early => early) (put_elsewhere (by simp [absent]))
  | lock g i =>
    simp only [step, Option.ite_none_right_eq_some] at taken
    obtain ⟨⟨free, _⟩, locks⟩ := taken
    obtain ⟨m, first, rfl⟩ := onMutex_some locks
    have first' : AsyncMutex.step s.mutex (.lock i) = some m := first
    simp only [AsyncMutex.step, Option.ite_none_right_eq_some, Option.some.injEq] at first'
    obtain ⟨_, rfl⟩ := first'
    intro k early
    by_cases same : k = i
    · refine ⟨g, ?_⟩
      simp only [State.put, Function.update_self, same, and_self]
    · have kept : (s.mutex.goto i .start).stage k = s.mutex.stage k :=
        Function.update_of_ne same _ _
      obtain ⟨c, at_, owns⟩ := inv k (kept ▸ early)
      have other : c ≠ g := by
        rintro rfl
        simp [free] at at_
      refine ⟨c, ?_⟩
      simp only [State.put]
      rw [Function.update_of_ne other]
      exact ⟨at_, owns⟩
  | advance i =>
    obtain ⟨u, moved, back⟩ := Option.map_eq_some_iff.mp taken
    obtain ⟨m, first, rfl⟩ := onMutex_some moved
    obtain ⟨_, elsewhere, _⟩ := advance_stage first
    have kept : Called { s with mutex := m } := by
      refine called_frame inv (fun k early => ?_) fun _ _ _ => rfl
      by_cases same : k = i
      · subst same
        exact early_before first early
      · exact elsewhere k same ▸ early
    split at back
    · rename_i returned
      subst back
      refine fun k early => ?_
      obtain ⟨g, at_, owns⟩ := kept k early
      have other : k ≠ i := by
        rintro rfl
        have early' : Early (m.stage k) := early
        rcases early' with start | ⟨current, awaits⟩
        · simp [start, handedBack] at returned
        · simp [awaits, handedBack] at returned
      have at' : (s.guards g).phase = .locking k := at_
      have same : (s.guards g).back i = s.guards g := if_neg (by simpa [at'] using other)
      refine ⟨g, ?_⟩
      simp only [same]
      exact ⟨at_, owns⟩
    · exact back ▸ kept
  | unlock g u =>
    simp only [step, Option.ite_none_right_eq_some] at taken
    exact unLock_called inv taken.1.1 taken.2
  | proceed u =>
    obtain ⟨m, first, rfl⟩ := onMutex_some taken
    refine called_frame inv (fun i early => ?_) fun _ _ _ => rfl
    rcases proceed_stage first i with kept | ⟨_, _, resumed⟩
    · exact kept ▸ early
    · simp [resumed, Early] at early
  | move g right =>
    simp only [step, Option.ite_none_right_eq_some, Option.some.injEq] at taken
    obtain ⟨⟨absent, free⟩, rfl⟩ := taken
    exact transfer_called inv (by simp [absent]) free
  | assign g right u =>
    simp only [step, Option.ite_none_right_eq_some] at taken
    obtain ⟨⟨free, right_free⟩, taken⟩ := taken
    split at taken
    · rw [Option.some.injEq] at taken
      exact taken ▸ inv
    · split at taken
      · rw [Option.some.injEq] at taken
        exact taken ▸ transfer_called inv (by simp [free]) right_free
      · exact unLock_called inv free taken
  | settle g =>
    simp only [step] at taken
    split at taken
    · rename_i u right at_
      simp only [Option.ite_none_right_eq_some, Option.some.injEq] at taken
      obtain ⟨⟨_, free⟩, rfl⟩ := taken
      exact transfer_called inv (by simp [at_]) free
    · simp at taken
  | destroy g u =>
    simp only [step, Option.ite_none_right_eq_some] at taken
    exact unLock_called inv taken.1 taken.2

theorem queued_reports (inv : Called s) (taken : step s l = some t) (owns : ReleasesOwn t) :
    Unqueued s l := by
  cases l with
  | advance i =>
    intro current at_
    by_contra unresolved
    obtain ⟨g, locking, own⟩ := inv i (.inr ⟨current, at_⟩)
    obtain ⟨j, rfl⟩ : ∃ j, current = some j := by
      cases current with
      | none => exact absurd rfl unresolved
      | some j => exact ⟨j, rfl⟩
    have pending : s.mutex.done j = false := Bool.eq_false_iff.mpr unresolved
    simp only [step, State.onMutex, AsyncMutex.step, at_, AsyncMutex.lockStep, pending,
      Bool.false_eq_true, if_false, Option.map_some, Option.some.injEq] at taken
    have suspended : t.mutex.stage i = .suspended j := by
      rw [← taken]
      split <;> exact Function.update_self _ _ _
    have returned : (t.guards g) = (s.guards g).back i := by
      rw [← taken, if_pos]
      simp only [AsyncMutex.State.goto, Function.update_self, handedBack]
    have reports : Reports t g i := by
      simp only [Reports, returned, Guard.back, locking, if_true, own, and_self]
    have granted := owns.granted g i reports
    simp [suspended] at granted
  | _ => trivial

end Called

/-- The guards keep to their own locks on exactly the runs on which no guard has to queue. -/
theorem guards_release_own_iff (ls : List Label) :
    Always step ReleasesOwn initial ls ↔ Meets step Unqueued initial ls := by
  constructor
  · intro always
    refine meets_of_always (fun s l t (inv : Called s) taken => step_called inv taken)
      (fun s l t inv taken owns => queued_reports inv taken owns) ?_ always
    rintro i (start | ⟨current, at_⟩)
    · simp [initial, AsyncMutex.initial] at start
    · simp [initial, AsyncMutex.initial] at at_
  · intro meets
    exact always_of_meets
      (fun s l t (inv : Owned s) quick taken => step_owned inv quick taken)
      (fun s inv => owned_releases inv) initial_owned meets

def queued : List Label :=
  [.create 0, .create 1, .lock 0 0, .advance 0, .advance 0, .advance 0, .advance 0, .lock 1 1,
    .advance 1, .advance 1, .destroy 1 0, .proceed 0]

/-- The destructor releases the lock that guard 0 holds and reports. -/
theorem queued_releases_other : ∃ s, run step initial queued = some s ∧
    Reports s 0 0 ∧ s.mutex.unlocks 0 = .resolve 1 0 ∧ ¬ReleasesOwn s := by
  refine ⟨_, rfl, ⟨rfl, rfl⟩, rfl, fun owns => ?_⟩
  exact absurd (owns.ends_own 0 1 0 rfl) (by decide)

end LockGuards
