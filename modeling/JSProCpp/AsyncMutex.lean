import Mathlib.Data.List.Nodup
import JSProCpp.Transitions

/-
The async mutex: `Lock` swaps a fresh promise into `promise_` and awaits the one it found
there; `UnLock` takes `resolve_` and resolves the promise behind it, which resumes the next
locker. A session is one call of `Lock`; its number also names the promise it swaps in.
-/
namespace AsyncMutex
open Transitions

/-- Where the coroutine of a `Lock` call is; `granted` once the returned promise is resolved,
    `ended` once its owner has called `UnLock`. -/
inductive Stage where
  | idle
  | start
  -- About to `co_await` the promise found in `promise_`; `none` is the initial one.
  | awaits (current : Option Nat)
  | suspended (current : Nat)
  | relock
  | stored
  | granted
  | ended
  deriving DecidableEq

/-- A call of `UnLock` for the session `k`: take `resolve_`, store the result behind it, swap
    out the awaiters, resume them. `resume []` is a call that has returned. -/
inductive Unlocking where
  | take (k : Nat)
  | resolve (k j : Nat)
  | flush (j : Nat)
  | resume (waiters : List Nat)
  deriving DecidableEq

structure State where
  stage : Nat → Stage
  done : Nat → Bool
  awaiters : Nat → List Nat
  promise : Option Nat
  resolver : Option Nat
  unlocks : Nat → Unlocking
  swaps : List Nat
  grants : List Nat

inductive Label where
  | lock (i : Nat)
  | step (i : Nat)
  | unlock (u k : Nat)
  | proceed (u : Nat)
  deriving DecidableEq

def initial : State where
  stage := fun _ => .idle
  done := fun _ => false
  awaiters := fun _ => []
  promise := none
  resolver := none
  unlocks := fun _ => .resume []
  swaps := []
  grants := []

def State.goto (s : State) (i : Nat) (stage : Stage) : State :=
  { s with stage := Function.update s.stage i stage }

def State.unlocking (s : State) (u : Nat) (pc : Unlocking) : State :=
  { s with unlocks := Function.update s.unlocks u pc }

def State.isDone (s : State) : Option Nat → Bool
  | none => true
  | some j => s.done j

/-- The coroutine of `Mutex::Lock`. -/
def lockStep (s : State) (i : Nat) : Stage → Option State
  | .start =>
      some ({ s with promise := some i, swaps := s.swaps ++ [i] }.goto i (.awaits s.promise))
  | .awaits current =>
      match current with
      | none => some (s.goto i .relock)
      | some j =>
          if s.done j then some (s.goto i .relock)
          else some ({ s with awaiters := Function.update s.awaiters j (s.awaiters j ++ [i]) }.goto
            i (.suspended j))
  | .relock => some ({ s with resolver := some i }.goto i .stored)
  | .stored => some ({ s with grants := s.grants ++ [i] }.goto i .granted)
  | _ => none

/-- `Mutex::UnLock`; it dereferences `resolve_`. -/
def unlockStep (s : State) (u : Nat) : Unlocking → Option State
  | .take k =>
      match s.resolver with
      | some j => some ({ s with resolver := none }.unlocking u (.resolve k j))
      | none => none
  | .resolve _ j =>
      some ({ s with done := Function.update s.done j true }.unlocking u (.flush j))
  | .flush j =>
      some ({ s with awaiters := Function.update s.awaiters j [] }.unlocking u
        (.resume (s.awaiters j)))
  | .resume (i :: waiters) => some ((s.goto i .relock).unlocking u (.resume waiters))
  | .resume [] => none

def step (s : State) : Label → Option State
  | .lock i => if s.stage i = .idle then some (s.goto i .start) else none
  | .step i => lockStep s i (s.stage i)
  | .unlock u k =>
      if s.unlocks u = .resume [] then
        some ((if s.stage k = .granted then s.goto k .ended else s).unlocking u (.take k))
      else none
  | .proceed u => unlockStep s u (s.unlocks u)

def legal (s : State) : Label → Bool
  | .unlock _ k => s.stage k == .granted
  | _ => true

def stepLegal (s : State) (l : Label) : Option State := if legal s l then step s l else none

abbrev ReachedLegal (s : State) : Prop := Reachable stepLegal (· = initial) s

/-- The call of `UnLock` has nothing left to do: it returned, or it is about to find that
    nobody waits for the promise it resolved. -/
def Spent (s : State) (u : Nat) : Prop :=
  s.unlocks u = .resume [] ∨ ∃ j, s.unlocks u = .flush j ∧ s.done j = true ∧ s.awaiters j = []

def Quiet (s : State) : Prop := ∀ v, Spent s v

def QuietBut (s : State) (u : Nat) : Prop := ∀ v, v ≠ u → Spent s v

/-- The call `u` of `UnLock` works for the session `i` that ends, or wakes the session `i`
    that waited for the promise `prev`. -/
inductive Work (s : State) (prev : Option Nat) (u i : Nat) : Bool → Prop where
  | flush (j : Nat) (after : prev = some j) (at_ : s.stage i = .suspended j)
      (resolver : s.resolver = none) (finished : s.done j = true)
      (unlocking : s.unlocks u = .flush j) (waits : s.awaiters j = [i]) : Work s prev u i false
  | resume (j : Nat) (after : prev = some j) (at_ : s.stage i = .suspended j)
      (resolver : s.resolver = none) (finished : s.done j = true)
      (unlocking : s.unlocks u = .resume [i]) (waits : s.awaiters j = []) :
      Work s prev u i false
  | take (at_ : s.stage i = .ended) (resolver : s.resolver = some i)
      (unlocking : s.unlocks u = .take i) : Work s prev u i true
  | resolve (at_ : s.stage i = .ended) (resolver : s.resolver = none)
      (unlocking : s.unlocks u = .resolve i i) : Work s prev u i true

/-- The session at the head of the chain: the one whose promise is the first not resolved. It
    carries `resolve_`, or a call of `UnLock` ends or wakes it. -/
inductive Head (s : State) (prev : Option Nat) : Option Nat → Bool → Prop where
  | free (resolver : s.resolver = none) (quiet : Quiet s) : Head s prev none false
  | awaits (i : Nat) (at_ : s.stage i = .awaits prev) (resolver : s.resolver = none)
      (quiet : Quiet s) : Head s prev (some i) false
  | relock (i : Nat) (at_ : s.stage i = .relock) (resolver : s.resolver = none)
      (quiet : Quiet s) : Head s prev (some i) false
  | stored (i : Nat) (at_ : s.stage i = .stored) (resolver : s.resolver = some i)
      (quiet : Quiet s) : Head s prev (some i) false
  | granted (i : Nat) (at_ : s.stage i = .granted) (resolver : s.resolver = some i)
      (quiet : Quiet s) : Head s prev (some i) true
  | busy (i u : Nat) (won : Bool) (work : Work s prev u i won) (quiet : QuietBut s u) :
      Head s prev (some i) won

def before (swaps : List Nat) : Nat → Option Nat
  | 0 => none
  | p + 1 => swaps[p]?

structure Chain (s : State) (h : Nat) (won : Bool) : Prop where
  nodup : s.swaps.Nodup
  bound : h ≤ s.swaps.length
  last : s.promise = s.swaps.getLast?
  outside : ∀ i, i ∉ s.swaps →
    (s.stage i = .idle ∨ s.stage i = .start) ∧ s.done i = false ∧ s.awaiters i = []
  served : ∀ p i, p < h → s.swaps[p]? = some i → s.stage i = .ended ∧ s.done i = true
  silent : ∀ p i, p < h → s.swaps[p]? = some i →
    s.awaiters i = [] ∨ p + 1 = h ∧ ∃ k, s.swaps[h]? = some k ∧ s.stage k = .suspended i
  pending : ∀ p i, h ≤ p → s.swaps[p]? = some i → s.done i = false
  tail : ∀ p i j, h ≤ p → s.swaps[p]? = some j → s.swaps[p + 1]? = some i →
    (s.stage i = .awaits (some j) ∧ s.awaiters j = []) ∨
      (s.stage i = .suspended j ∧ s.awaiters j = [i])
  end_ : ∀ p j, h ≤ p → s.swaps[p]? = some j → s.swaps.length = p + 1 → s.awaiters j = []
  head : Head s (before s.swaps h) s.swaps[h]? won
  grants : s.grants = s.swaps.take (if won then h + 1 else h)

theorem initial_chain : Chain initial 0 false where
  nodup := List.nodup_nil
  bound := Nat.le_refl 0
  last := rfl
  outside := fun i _ => ⟨.inl rfl, rfl, rfl⟩
  served := by simp
  silent := by simp
  pending := by simp [initial]
  tail := by simp [initial]
  end_ := by simp [initial]
  head := .free rfl fun _ => .inl rfl
  grants := rfl

section Spent
variable {s t : State} {u v : Nat}

theorem spent_kept (spent : Spent s v) (unlocks : t.unlocks v = s.unlocks v)
    (done : ∀ j, s.done j = true → t.done j = true)
    (awaiters : ∀ j, s.done j = true → s.awaiters j = [] → t.awaiters j = []) : Spent t v := by
  rcases spent with returned | ⟨j, flush, finished, none_⟩
  · exact .inl (unlocks.trans returned)
  · exact .inr ⟨j, unlocks.trans flush, done j finished, awaiters j finished none_⟩

theorem quiet_of_but (quiet : QuietBut s u) (spent : Spent s u) : Quiet s := by
  intro v
  by_cases same : v = u
  · exact same ▸ spent
  · exact quiet v same

theorem only_busy (busy : ¬Spent s u) (quiet : QuietBut s v) : v = u := by
  by_contra other
  exact busy (quiet u fun same => other same.symm)

end Spent

section Positions
variable {s : State} {h : Nat} {won : Bool}

theorem same_position (inv : Chain s h won) {p q i : Nat} (hp : s.swaps[p]? = some i)
    (hq : s.swaps[q]? = some i) : p = q :=
  (List.getElem?_inj (lookup_inside hp) inv.nodup).mp (hp.trans hq.symm)

theorem swapped (inv : Chain s h won) {i : Nat} (idle : s.stage i ≠ .idle)
    (start : s.stage i ≠ .start) : ∃ p : Nat, s.swaps[p]? = some i := by
  by_contra none_
  have absent : i ∉ s.swaps := fun member => none_ (List.mem_iff_getElem?.mp member)
  rcases (inv.outside i absent).1 with at_ | at_
  · exact idle at_
  · exact start at_

/-- The session behind the head waits for the one before it. -/
theorem behind (inv : Chain s h won) {p i : Nat} (here : s.swaps[p]? = some i) (late : h < p) :
    ∃ q j, p = q + 1 ∧ h ≤ q ∧ s.swaps[q]? = some j ∧
      ((s.stage i = .awaits (some j) ∧ s.awaiters j = []) ∨
        (s.stage i = .suspended j ∧ s.awaiters j = [i])) := by
  obtain ⟨q, rfl⟩ : ∃ q, p = q + 1 := ⟨p - 1, by omega⟩
  have inside := lookup_inside here
  have prior : s.swaps[q]? = some s.swaps[q] := List.getElem?_eq_getElem (by omega)
  exact ⟨q, _, rfl, by omega, prior, inv.tail q i _ (by omega) prior here⟩

theorem at_head (inv : Chain s h won) {i : Nat}
    (at_ : s.stage i = .relock ∨ s.stage i = .stored ∨ s.stage i = .granted) :
    s.swaps[h]? = some i := by
  have started : s.stage i ≠ .idle ∧ s.stage i ≠ .start := by
    rcases at_ with at_ | at_ | at_ <;> simp [at_]
  obtain ⟨p, here⟩ := swapped inv started.1 started.2
  rcases Nat.lt_trichotomy p h with early | rfl | late
  · have past := (inv.served p i early here).1
    rcases at_ with at_ | at_ | at_ <;> simp [at_] at past
  · exact here
  · obtain ⟨q, j, _, _, _, ⟨wait, _⟩ | ⟨wait, _⟩⟩ := behind inv here late <;>
      rcases at_ with at_ | at_ | at_ <;> simp [at_] at wait

theorem head_started (inv : Chain s h won) {i : Nat} (here : s.swaps[h]? = some i) :
    s.stage i ≠ .idle ∧ s.stage i ≠ .start := by
  have head := inv.head
  rw [here] at head
  cases head with
  | busy i u won work quiet => cases work <;> simp [*]
  | _ => simp [*]

theorem unswapped (inv : Chain s h won) {i : Nat}
    (at_ : s.stage i = .idle ∨ s.stage i = .start) : i ∉ s.swaps := by
  intro member
  obtain ⟨p, here⟩ := List.mem_iff_getElem?.mp member
  rcases Nat.lt_trichotomy p h with early | rfl | late
  · have past := (inv.served p i early here).1
    rcases at_ with at_ | at_ <;> simp [at_] at past
  · have started := head_started inv here
    rcases at_ with at_ | at_
    · exact started.1 at_
    · exact started.2 at_
  · obtain ⟨q, j, _, _, _, ⟨wait, _⟩ | ⟨wait, _⟩⟩ := behind inv here late <;>
      rcases at_ with at_ | at_ <;> simp [at_] at wait

end Positions

section Frames
variable {s t : State} {h : Nat} {won : Bool} {prev o : Option Nat} {u i : Nat}

theorem work_busy (work : Work s prev u i won) : ¬Spent s u := by
  rintro (returned | ⟨j, flush, _, silent⟩)
  · cases work <;> simp_all
  · cases work <;> simp_all

theorem work_frame (work : Work s prev u i won) (stage : t.stage i = s.stage i)
    (resolver : t.resolver = s.resolver) (unlocks : t.unlocks u = s.unlocks u)
    (done : ∀ j, s.done j = true → t.done j = true)
    (awaiters : ∀ j, s.done j = true → t.awaiters j = s.awaiters j) : Work t prev u i won := by
  cases work with
  | flush j after at_ none_ finished unlocking waits =>
    exact .flush j after (stage.trans at_) (resolver.trans none_) (done j finished)
      (unlocks.trans unlocking) ((awaiters j finished).trans waits)
  | resume j after at_ none_ finished unlocking waits =>
    exact .resume j after (stage.trans at_) (resolver.trans none_) (done j finished)
      (unlocks.trans unlocking) ((awaiters j finished).trans waits)
  | take at_ held unlocking =>
    exact .take (stage.trans at_) (resolver.trans held) (unlocks.trans unlocking)
  | resolve at_ none_ unlocking =>
    exact .resolve (stage.trans at_) (resolver.trans none_) (unlocks.trans unlocking)

theorem head_frame (head : Head s prev o won) (stage : ∀ k, o = some k → t.stage k = s.stage k)
    (resolver : t.resolver = s.resolver) (unlocks : ∀ v, ¬Spent s v → t.unlocks v = s.unlocks v)
    (spent : ∀ v, Spent s v → Spent t v) (done : ∀ j, s.done j = true → t.done j = true)
    (awaiters : ∀ j, s.done j = true → t.awaiters j = s.awaiters j) : Head t prev o won := by
  cases head with
  | free none_ quiet => exact .free (resolver.trans none_) fun v => spent v (quiet v)
  | awaits i at_ none_ quiet =>
    exact .awaits i ((stage i rfl).trans at_) (resolver.trans none_) fun v => spent v (quiet v)
  | relock i at_ none_ quiet =>
    exact .relock i ((stage i rfl).trans at_) (resolver.trans none_) fun v => spent v (quiet v)
  | stored i at_ held quiet =>
    exact .stored i ((stage i rfl).trans at_) (resolver.trans held) fun v => spent v (quiet v)
  | granted i at_ held quiet =>
    exact .granted i ((stage i rfl).trans at_) (resolver.trans held) fun v => spent v (quiet v)
  | busy i u won work quiet =>
    exact .busy i u won
      (work_frame work (stage i rfl) resolver (unlocks u (work_busy work)) done awaiters)
      fun v other => spent v (quiet v other)

theorem busy_head (inv : Chain s h won) (busy : ¬Spent s u) :
    ∃ i, s.swaps[h]? = some i ∧ Work s (before s.swaps h) u i won ∧ QuietBut s u := by
  have head := inv.head
  generalize s.swaps[h]? = o at head ⊢
  cases head with
  | free resolver quiet => exact absurd (quiet u) busy
  | awaits i at_ resolver quiet => exact absurd (quiet u) busy
  | relock i at_ resolver quiet => exact absurd (quiet u) busy
  | stored i at_ resolver quiet => exact absurd (quiet u) busy
  | granted i at_ resolver quiet => exact absurd (quiet u) busy
  | busy i v won work quiet =>
    have same := only_busy busy quiet
    subst same
    exact ⟨i, rfl, work, quiet⟩

/-- A step that moves the head on, and nothing but awaiters of the promise before it. -/
theorem head_chain {won' : Bool} (inv : Chain s h won) (here : s.swaps[h]? = some i)
    (stage : ∀ k, k ≠ i → t.stage k = s.stage k) (done : t.done = s.done)
    (awaiters : ∀ k, before s.swaps h ≠ some k → t.awaiters k = s.awaiters k)
    (silent : ∀ j, before s.swaps h = some j → t.awaiters j = [] ∨ t.stage i = .suspended j)
    (promise : t.promise = s.promise) (swaps : t.swaps = s.swaps)
    (head : Head t (before s.swaps h) (some i) won')
    (grants : t.grants = s.swaps.take (if won' then h + 1 else h)) : Chain t h won' := by
  have differs : ∀ (p k : Nat), s.swaps[p]? = some k → p ≠ h → k ≠ i := by
    rintro p k there other rfl
    exact other (same_position inv there here)
  have later : ∀ p k, s.swaps[p]? = some k → p + 1 ≠ h → t.awaiters k = s.awaiters k := by
    intro p k there other
    refine awaiters k fun prior => ?_
    cases h with
    | zero => simp [before] at prior
    | succ q => exact other (congrArg (· + 1) (same_position inv there prior))
  refine ⟨swaps ▸ inv.nodup, swaps ▸ inv.bound, ?_, ?_, ?_, ?_, ?_, ?_, ?_, ?_, ?_⟩
  · rw [promise, swaps]
    exact inv.last
  · intro k absent
    rw [swaps] at absent
    have other : k ≠ i := by
      rintro rfl
      exact absent (List.mem_of_getElem? here)
    have prior : before s.swaps h ≠ some k := by
      intro prior
      cases h with
      | zero => simp [before] at prior
      | succ q => exact absent (List.mem_of_getElem? prior)
    rw [stage k other, done, awaiters k prior]
    exact inv.outside k absent
  · intro p k early there
    rw [swaps] at there
    rw [stage k (differs p k there (by omega)), done]
    exact inv.served p k early there
  · intro p k early there
    rw [swaps] at there ⊢
    by_cases last : p + 1 = h
    · subst last
      rcases silent k there with none_ | waits
      · exact .inl none_
      · exact .inr ⟨rfl, i, here, waits⟩
    · rw [later p k there last]
      rcases inv.silent p k early there with none_ | ⟨last', _⟩
      · exact .inl none_
      · exact absurd last' last
  · intro p k late there
    rw [swaps] at there
    rw [done]
    exact inv.pending p k late there
  · intro p k j late prior there
    rw [swaps] at prior there
    rw [stage k (differs (p + 1) k there (by omega)), later p j prior (by omega)]
    exact inv.tail p k j late prior there
  · intro p j late there length
    rw [swaps] at there length
    rw [later p j there (by omega)]
    exact inv.end_ p j late there length
  · rw [swaps, here]
    exact head
  · rw [swaps]
    exact grants

end Frames

section Locks
variable {s : State} {h : Nat} {won : Bool} {i : Nat}

theorem getLast_before (swaps : List Nat) : swaps.getLast? = before swaps swaps.length := by
  rw [List.getLast?_eq_getElem?]
  cases swaps with
  | nil => rfl
  | cons k rest => rfl

theorem before_append {swaps : List Nat} {h : Nat} (inside : h ≤ swaps.length) (i : Nat) :
    before (swaps ++ [i]) h = before swaps h := by
  cases h with
  | zero => rfl
  | succ p => exact List.getElem?_append_left inside

theorem prior_silent (inv : Chain s h won) (here : s.swaps[h]? = some i)
    (moving : ∀ j, s.stage i ≠ .suspended j) :
    ∀ j, before s.swaps h = some j → s.awaiters j = [] := by
  intro j prior
  cases h with
  | zero => simp [before] at prior
  | succ p =>
    rcases inv.silent p j (by omega) prior with none_ | ⟨_, k, there, waits⟩
    · exact none_
    · rw [here, Option.some.injEq] at there
      exact absurd waits (there ▸ moving j)

theorem lock_chain (inv : Chain s h won) (idle : s.stage i = .idle) :
    Chain (s.goto i .start) h won := by
  have absent := unswapped inv (.inl idle)
  have differs : ∀ (p k : Nat), s.swaps[p]? = some k → (s.goto i .start).stage k = s.stage k := by
    intro p k there
    have other : k ≠ i := by
      rintro rfl
      exact absent (List.mem_of_getElem? there)
    exact Function.update_of_ne other _ _
  refine ⟨inv.nodup, inv.bound, inv.last, ?_, ?_, ?_, inv.pending, ?_, inv.end_, ?_, inv.grants⟩
  · intro k out
    obtain ⟨at_, rest⟩ := inv.outside k out
    by_cases same : k = i
    · subst same
      exact ⟨.inr (Function.update_self _ _ _), rest⟩
    · have kept : (s.goto i .start).stage k = s.stage k := Function.update_of_ne same _ _
      rw [kept]
      exact ⟨at_, rest⟩
  · intro p k early there
    rw [differs p k there]
    exact inv.served p k early there
  · intro p k early there
    rcases inv.silent p k early there with none_ | ⟨last, j, next, waits⟩
    · exact .inl none_
    · exact .inr ⟨last, j, next, (differs h j next).trans waits⟩
  · intro p k j late prior there
    rw [differs (p + 1) k there]
    exact inv.tail p k j late prior there
  · exact head_frame inv.head (fun k there => differs h k there) rfl (fun _ _ => rfl)
      (fun _ spent => spent) (fun _ finished => finished) fun _ _ => rfl

theorem start_chain (inv : Chain s h won) (at_ : s.stage i = .start) :
    Chain ({ s with promise := some i, swaps := s.swaps ++ [i] }.goto i (.awaits s.promise))
      h won := by
  have absent := unswapped inv (.inr at_)
  have differs : ∀ (p k : Nat), s.swaps[p]? = some k → k ≠ i := by
    rintro p k there rfl
    exact absent (List.mem_of_getElem? there)
  have kept : ∀ k, k ≠ i → Function.update s.stage i (.awaits s.promise) k = s.stage k :=
    fun k other => Function.update_of_ne other _ _
  have bound := inv.bound
  obtain ⟨_, unresolved, nobody⟩ := inv.outside i absent
  refine ⟨?_, ?_, ?_, ?_, ?_, ?_, ?_, ?_, ?_, ?_, ?_⟩
  · exact inv.nodup.append (List.nodup_singleton i) (by simpa using absent)
  · simp only [State.goto, List.length_append]
    omega
  · exact List.getLast?_concat.symm
  · intro k out
    simp only [State.goto, List.mem_append, List.mem_singleton, not_or] at out ⊢
    rw [kept k out.2]
    exact inv.outside k out.1
  · intro p k early there
    simp only [State.goto] at there ⊢
    rw [List.getElem?_append_left (by omega)] at there
    rw [kept k (differs p k there)]
    exact inv.served p k early there
  · intro p k early there
    simp only [State.goto] at there ⊢
    rw [List.getElem?_append_left (by omega)] at there
    rcases inv.silent p k early there with none_ | ⟨last, j, next, waits⟩
    · exact .inl none_
    · exact .inr ⟨last, j, lookup_append next _, (kept j (differs h j next)).trans waits⟩
  · intro p k late there
    rcases append_lookup there with ⟨_, rfl⟩ | old
    · exact unresolved
    · exact inv.pending p k late old
  · intro p k j late prior there
    have inside := lookup_inside there
    simp only [State.goto, List.length_append, List.length_singleton] at inside prior there ⊢
    rw [List.getElem?_append_left (by omega)] at prior
    rcases append_lookup there with ⟨last, rfl⟩ | old
    · -- the new entry found the promise of the last one
      have found : s.promise = some j := by
        rw [inv.last, getLast_before, ← last]
        exact prior
      rw [Function.update_self, found]
      exact .inl ⟨rfl, inv.end_ p j late prior last.symm⟩
    · rw [kept k (differs (p + 1) k old)]
      exact inv.tail p k j late prior old
  · intro p j late there length
    simp only [State.goto, List.length_append, List.length_singleton] at length there ⊢
    rcases append_lookup there with ⟨_, rfl⟩ | old
    · exact nobody
    · have inside := lookup_inside old
      omega
  · simp only [State.goto]
    rw [before_append bound]
    have head := inv.head
    by_cases fresh : h = s.swaps.length
    · subst fresh
      rw [List.getElem?_eq_none (Nat.le_refl _)] at head
      rw [List.getElem?_concat_length]
      cases head with
      | free resolver quiet =>
        have at_ : Function.update s.stage i (.awaits s.promise) i =
            .awaits (before s.swaps s.swaps.length) := by
          rw [Function.update_self, inv.last, getLast_before]
        exact .awaits i at_ resolver quiet
    · rw [List.getElem?_append_left (by omega)]
      exact head_frame head (fun k there => kept k (differs h k there)) rfl (fun _ _ => rfl)
        (fun _ spent => spent) (fun _ finished => finished) fun _ _ => rfl
  · simp only [State.goto]
    rw [inv.grants, List.take_append_of_le_length]
    have head := inv.head
    cases won with
    | false => exact bound
    | true =>
      generalize there : s.swaps[h]? = o at head
      cases head with
      | granted k _ _ _ => exact lookup_inside there
      | busy k _ _ _ _ => exact lookup_inside there

theorem prior_done (inv : Chain s h won) : s.isDone (before s.swaps h) = true := by
  cases h with
  | zero => rfl
  | succ p =>
    have inside := inv.bound
    have there : s.swaps[p]? = some s.swaps[p] := List.getElem?_eq_getElem (by omega)
    simp only [before, there, State.isDone]
    exact (inv.served p _ (Nat.lt_succ_self p) there).2

theorem about_to_await {current : Option Nat} (inv : Chain s h won)
    (at_ : s.stage i = .awaits current) :
    (s.swaps[h]? = some i ∧ current = before s.swaps h ∧ won = false ∧ s.resolver = none ∧
        Quiet s) ∨
      ∃ q j, current = some j ∧ h ≤ q ∧ s.swaps[q]? = some j ∧ s.swaps[q + 1]? = some i ∧
        s.awaiters j = [] ∧ s.done j = false := by
  have started : s.stage i ≠ .idle ∧ s.stage i ≠ .start := by simp [at_]
  obtain ⟨p, here⟩ := swapped inv started.1 started.2
  rcases Nat.lt_trichotomy p h with early | rfl | late
  · have past := (inv.served p i early here).1
    simp [at_] at past
  · have head := inv.head
    rw [here] at head
    cases head with
    | awaits _ at' resolver quiet =>
      rw [at_, Stage.awaits.injEq] at at'
      exact .inl ⟨here, at', rfl, resolver, quiet⟩
    | relock _ at' _ _ => simp [at_] at at'
    | stored _ at' _ _ => simp [at_] at at'
    | granted _ at' _ _ => simp [at_] at at'
    | busy _ u _ work _ => cases work <;> simp_all
  · obtain ⟨q, j, rfl, bound, prior, ⟨wait, nobody⟩ | ⟨wait, _⟩⟩ := behind inv here late
    · rw [at_, Stage.awaits.injEq] at wait
      exact .inr ⟨q, j, wait, bound, prior, here, nobody, inv.pending q j bound prior⟩
    · simp [at_] at wait

theorem awaits_chain {current : Option Nat} (inv : Chain s h won)
    (at_ : s.stage i = .awaits current) (resolved : s.isDone current = true) :
    Chain (s.goto i .relock) h won := by
  rcases about_to_await inv at_ with
    ⟨here, _, rfl, resolver, quiet⟩ | ⟨q, j, rfl, _, _, _, _, unresolved⟩
  · have silent := prior_silent inv here (by simp [at_])
    exact head_chain inv here (fun k other => Function.update_of_ne other _ _) rfl
      (fun _ _ => rfl) (fun j prior => .inl (silent j prior)) rfl rfl
      (.relock i (Function.update_self _ _ _) resolver quiet) inv.grants
  · simp [State.isDone, unresolved] at resolved

theorem suspend_chain {j : Nat} (inv : Chain s h won) (at_ : s.stage i = .awaits (some j))
    (unresolved : s.done j = false) :
    Chain ({ s with awaiters := Function.update s.awaiters j (s.awaiters j ++ [i]) }.goto i
      (.suspended j)) h won := by
  rcases about_to_await inv at_ with
    ⟨_, front, _⟩ | ⟨q, j', wait, bound, prior, here, nobody, _⟩
  · have past := prior_done inv
    rw [← front] at past
    simp [State.isDone, unresolved] at past
  · rw [Option.some.injEq] at wait
    subst wait
    have kept : ∀ (r k : Nat), s.swaps[r]? = some k → r ≠ q + 1 →
        Function.update s.stage i (.suspended j) k = s.stage k := by
      rintro r k there other
      refine Function.update_of_ne ?_ _ _
      rintro rfl
      exact other (same_position inv there here)
    have same : ∀ (r k : Nat), s.swaps[r]? = some k → r ≠ q →
        Function.update s.awaiters j (s.awaiters j ++ [i]) k = s.awaiters k := by
      rintro r k there other
      refine Function.update_of_ne ?_ _ _
      rintro rfl
      exact other (same_position inv there prior)
    refine ⟨inv.nodup, inv.bound, inv.last, ?_, ?_, ?_, inv.pending, ?_, ?_, ?_, inv.grants⟩
    · intro k out
      have other : k ≠ i ∧ k ≠ j := by
        constructor
        · rintro rfl
          exact out (List.mem_of_getElem? here)
        · rintro rfl
          exact out (List.mem_of_getElem? prior)
      simp only [State.goto]
      rw [Function.update_of_ne other.1, Function.update_of_ne other.2]
      exact inv.outside k out
    · intro r k early there
      simp only [State.goto]
      rw [kept r k there (by omega)]
      exact inv.served r k early there
    · intro r k early there
      simp only [State.goto]
      rw [same r k there (by omega)]
      rcases inv.silent r k early there with none_ | ⟨last, k', next, waits⟩
      · exact .inl none_
      · exact .inr ⟨last, k', next, (kept h k' next (by omega)).trans waits⟩
    · intro r k k' low prior' there
      simp only [State.goto] at prior' there ⊢
      by_cases this_ : r = q
      · subst this_
        rw [here, Option.some.injEq] at there
        rw [prior, Option.some.injEq] at prior'
        subst there prior'
        rw [Function.update_self, Function.update_self, nobody]
        exact .inr ⟨rfl, rfl⟩
      · rw [kept (r + 1) k there (by omega), same r k' prior' this_]
        exact inv.tail r k k' low prior' there
    · intro r k low there length
      simp only [State.goto] at there length ⊢
      have inside := lookup_inside here
      rw [same r k there (by omega)]
      exact inv.end_ r k low there length
    · refine head_frame inv.head (fun k there => kept h k there (by omega)) rfl
        (fun _ _ => rfl) (fun v spent => ?_) (fun _ finished => finished) ?_
      · refine spent_kept spent rfl (fun _ finished => finished) fun k finished none_ => ?_
        have other : k ≠ j := by
          rintro rfl
          simp [finished] at unresolved
        exact (Function.update_of_ne other _ _).trans none_
      · intro k finished
        have other : k ≠ j := by
          rintro rfl
          simp [finished] at unresolved
        exact Function.update_of_ne other _ _

theorem relock_chain (inv : Chain s h won) (at_ : s.stage i = .relock) :
    s.resolver = none ∧ Chain ({ s with resolver := some i }.goto i .stored) h won := by
  have here := at_head inv (.inl at_)
  have silent := prior_silent inv here (by simp [at_])
  have head := inv.head
  rw [here] at head
  cases head with
  | relock _ _ resolver quiet =>
    exact ⟨resolver, head_chain inv here (fun k other => Function.update_of_ne other _ _) rfl
      (fun _ _ => rfl) (fun j prior => .inl (silent j prior)) rfl rfl
      (.stored i (Function.update_self _ _ _) rfl quiet) inv.grants⟩
  | awaits _ at' _ _ => simp [at_] at at'
  | stored _ at' _ _ => simp [at_] at at'
  | granted _ at' _ _ => simp [at_] at at'
  | busy _ u _ work _ => cases work <;> simp_all

theorem stored_chain (inv : Chain s h won) (at_ : s.stage i = .stored) :
    Chain ({ s with grants := s.grants ++ [i] }.goto i .granted) h true := by
  have here := at_head inv (.inr (.inl at_))
  have silent := prior_silent inv here (by simp [at_])
  have head := inv.head
  rw [here] at head
  cases head with
  | stored _ _ resolver quiet =>
    refine head_chain inv here (fun k other => Function.update_of_ne other _ _) rfl
      (fun _ _ => rfl) (fun j prior => .inl (silent j prior)) rfl rfl
      (.granted i (Function.update_self _ _ _) resolver quiet) ?_
    simp only [State.goto, inv.grants, if_true, Bool.false_eq_true, if_false]
    rw [List.take_add_one, here, Option.toList_some]
  | awaits _ at' _ _ => simp [at_] at at'
  | relock _ at' _ _ => simp [at_] at at'
  | granted _ at' _ _ => simp [at_] at at'
  | busy _ u _ work _ => cases work <;> simp_all

end Locks

section Unlocks
variable {s : State} {h : Nat} {won : Bool} {u k j : Nat}

theorem quiet_unlocking {pc : Unlocking} (quiet : QuietBut s u) :
    QuietBut (s.unlocking u pc) u := by
  intro v other
  exact spent_kept (quiet v other) (Function.update_of_ne other _ _) (fun _ finished => finished)
    fun _ _ none_ => none_

theorem unlock_chain (inv : Chain s h won) (at_ : s.stage k = .granted) :
    Chain ((s.goto k .ended).unlocking u (.take k)) h won := by
  have here := at_head inv (.inr (.inr at_))
  have silent := prior_silent inv here (by simp [at_])
  have head := inv.head
  rw [here] at head
  cases head with
  | granted _ _ resolver quiet =>
    have work : Work ((s.goto k .ended).unlocking u (.take k)) (before s.swaps h) u k true :=
      .take (Function.update_self _ _ _) resolver (Function.update_self _ _ _)
    have others : QuietBut ((s.goto k .ended).unlocking u (.take k)) u :=
      quiet_unlocking fun v _ => quiet v
    exact head_chain inv here (fun i other => Function.update_of_ne other _ _) rfl
      (fun _ _ => rfl) (fun j prior => .inl (silent j prior)) rfl rfl
      (.busy k u true work others) inv.grants
  | awaits _ at' _ _ => simp [at_] at at'
  | relock _ at' _ _ => simp [at_] at at'
  | stored _ at' _ _ => simp [at_] at at'
  | busy _ v _ work _ => cases work <;> simp_all

theorem take_chain (inv : Chain s h won) (at_ : s.unlocks u = .take k) :
    s.resolver = some k ∧ Chain ({ s with resolver := none }.unlocking u (.resolve k k)) h won := by
  have busy : ¬Spent s u := by simp [Spent, at_]
  obtain ⟨i, here, work, quiet⟩ := busy_head inv busy
  cases work with
  | take past held unlocking =>
    rw [at_, Unlocking.take.injEq] at unlocking
    subst unlocking
    have silent := prior_silent inv here (by simp [past])
    have work : Work ({ s with resolver := none }.unlocking u (.resolve k k))
        (before s.swaps h) u k true := .resolve past rfl (Function.update_self _ _ _)
    have others : QuietBut ({ s with resolver := none }.unlocking u (.resolve k k)) u :=
      quiet_unlocking (s := { s with resolver := none }) quiet
    exact ⟨held, head_chain inv here (fun _ _ => rfl) rfl (fun _ _ => rfl)
      (fun j prior => .inl (silent j prior)) rfl rfl (.busy k u true work others) inv.grants⟩
  | flush _ _ _ _ _ unlocking _ => simp [at_] at unlocking
  | resume _ _ _ _ _ unlocking _ => simp [at_] at unlocking
  | resolve _ _ unlocking => simp [at_] at unlocking

theorem over_chain (inv : Chain s h true) (here : s.swaps[h]? = some k)
    (past : s.stage k = .ended) (resolver : s.resolver = none) (quiet : QuietBut s u) :
    Chain ({ s with done := Function.update s.done k true }.unlocking u (.flush k))
      (h + 1) false := by
  have inside := lookup_inside here
  have self_ : Function.update s.done k true k = true := Function.update_self _ _ _
  have later : ∀ (p i : Nat), s.swaps[p]? = some i → p ≠ h →
      Function.update s.done k true i = s.done i := by
    rintro p i there other
    refine Function.update_of_ne ?_ _ _
    rintro rfl
    exact other (same_position inv there here)
  have grown : ∀ i, s.done i = true → Function.update s.done k true i = true := by
    intro i finished
    by_cases same : i = k
    · exact same ▸ self_
    · exact (Function.update_of_ne same _ _).trans finished
  have others : QuietBut ({ s with done := Function.update s.done k true }.unlocking u
      (.flush k)) u := fun v other =>
    spent_kept (quiet v other) (Function.update_of_ne other _ _) grown fun _ _ none_ => none_
  have next : s.swaps[h + 1]? = none ∧ s.awaiters k = [] ∨ ∃ i, s.swaps[h + 1]? = some i ∧
      ((s.stage i = .awaits (some k) ∧ s.awaiters k = []) ∨
        (s.stage i = .suspended k ∧ s.awaiters k = [i])) := by
    by_cases last : s.swaps.length = h + 1
    · exact .inl ⟨List.getElem?_eq_none (by omega), inv.end_ h k (Nat.le_refl h) here last⟩
    · have there : s.swaps[h + 1]? = some s.swaps[h + 1] := List.getElem?_eq_getElem (by omega)
      exact .inr ⟨_, there, inv.tail h _ k (Nat.le_refl h) here there⟩
  refine ⟨inv.nodup, inside, inv.last, ?_, ?_, ?_, ?_, ?_, ?_, ?_, inv.grants⟩
  · intro i out
    have other : i ≠ k := by
      rintro rfl
      exact out (List.mem_of_getElem? here)
    simp only [State.unlocking]
    rw [Function.update_of_ne other]
    exact inv.outside i out
  · intro p i early there
    by_cases last : p = h
    · subst last
      rw [show s.swaps[p]? = some i from there, Option.some.injEq] at here
      exact ⟨here ▸ past, here ▸ self_⟩
    · obtain ⟨ended, finished⟩ := inv.served p i (by omega) there
      exact ⟨ended, grown i finished⟩
  · intro p i early there
    by_cases last : p = h
    · subst last
      rw [show s.swaps[p]? = some i from there, Option.some.injEq] at here
      subst here
      rcases next with ⟨_, none_⟩ | ⟨j, behind_, ⟨_, none_⟩ | ⟨waits, _⟩⟩
      · exact .inl none_
      · exact .inl none_
      · exact .inr ⟨rfl, j, behind_, waits⟩
    · rcases inv.silent p i (by omega) there with none_ | ⟨_, j, head, waits⟩
      · exact .inl none_
      · rw [here, Option.some.injEq] at head
        simp [← head, past] at waits
  · intro p i late there
    exact (later p i there (by omega)).trans (inv.pending p i (by omega) there)
  · intro p i j late prior there
    exact inv.tail p i j (by omega) prior there
  · intro p j late there length
    exact inv.end_ p j (by omega) there length
  · have before_ : before s.swaps (h + 1) = some k := here
    simp only [State.unlocking]
    rw [before_]
    rcases next with ⟨end_, none_⟩ | ⟨i, there, ⟨at_, none_⟩ | ⟨at_, waits⟩⟩
    · rw [end_]
      exact .free resolver (quiet_of_but others
        (.inr ⟨k, Function.update_self _ _ _, self_, none_⟩))
    · rw [there]
      exact .awaits i at_ resolver (quiet_of_but others
        (.inr ⟨k, Function.update_self _ _ _, self_, none_⟩))
    · rw [there]
      exact .busy i u false (.flush k rfl at_ resolver self_ (Function.update_self _ _ _) waits)
        others

theorem resolve_chain (inv : Chain s h won) (at_ : s.unlocks u = .resolve k j) :
    k = j ∧ Chain ({ s with done := Function.update s.done j true }.unlocking u (.flush j))
      (h + 1) false := by
  have busy : ¬Spent s u := by simp [Spent, at_]
  obtain ⟨i, here, work, quiet⟩ := busy_head inv busy
  cases work with
  | resolve past none_ unlocking =>
    rw [at_, Unlocking.resolve.injEq] at unlocking
    obtain ⟨rfl, rfl⟩ := unlocking
    exact ⟨rfl, over_chain inv here past none_ quiet⟩
  | flush _ _ _ _ _ unlocking _ => simp [at_] at unlocking
  | resume _ _ _ _ _ unlocking _ => simp [at_] at unlocking
  | take _ _ unlocking => simp [at_] at unlocking

theorem flush_chain (inv : Chain s h won) (at_ : s.unlocks u = .flush j) :
    Chain ({ s with awaiters := Function.update s.awaiters j [] }.unlocking u
      (.resume (s.awaiters j))) h won := by
  by_cases spent : Spent s u
  · -- nobody waits: only the call returns
    have nobody : s.awaiters j = [] := by
      rcases spent with returned | ⟨j', flush, _, none_⟩
      · simp [at_] at returned
      · rw [at_, Unlocking.flush.injEq] at flush
        exact flush ▸ none_
    have same : Function.update s.awaiters j [] = s.awaiters :=
      Function.update_eq_self_iff.mpr nobody.symm
    rw [same, nobody]
    refine ⟨inv.nodup, inv.bound, inv.last, inv.outside, inv.served, inv.silent, inv.pending,
      inv.tail, inv.end_,
      head_frame inv.head (fun _ _ => rfl) rfl ?_ ?_ (fun _ finished => finished)
      (fun _ _ => rfl), inv.grants⟩
    · intro v busy
      refine Function.update_of_ne ?_ _ _
      rintro rfl
      exact busy spent
    · intro v other
      by_cases here : v = u
      · exact .inl (here ▸ Function.update_self _ _ _)
      · exact spent_kept other (Function.update_of_ne here _ _) (fun _ finished => finished)
          fun _ _ none_ => none_
  · obtain ⟨i, here, work, quiet⟩ := busy_head inv spent
    cases work with
    | flush j' after waiting resolver finished unlocking waits =>
      rw [at_, Unlocking.flush.injEq] at unlocking
      subst unlocking
      rw [waits]
      have none_ : Function.update s.awaiters j [] j = [] := Function.update_self _ _ _
      have others : QuietBut ({ s with awaiters := Function.update s.awaiters j [] }.unlocking u
          (.resume [i])) u := by
        intro v other
        refine spent_kept (quiet v other) (Function.update_of_ne other _ _)
          (fun _ finished => finished) fun k _ empty => ?_
        by_cases same : k = j
        · exact same ▸ none_
        · exact (Function.update_of_ne same _ _).trans empty
      refine head_chain inv here (fun _ _ => rfl) rfl (fun k other => ?_) (fun k prior => ?_)
        rfl rfl (.busy i u false (.resume j after waiting resolver finished
          (Function.update_self _ _ _) none_) others) inv.grants
      · refine Function.update_of_ne ?_ _ _
        rintro rfl
        exact other after
      · rw [after, Option.some.injEq] at prior
        exact .inl (prior ▸ none_)
    | resume _ _ _ _ _ unlocking _ => simp [at_] at unlocking
    | take _ _ unlocking => simp [at_] at unlocking
    | resolve _ _ unlocking => simp [at_] at unlocking

theorem resume_chain {waiters : List Nat} (inv : Chain s h won)
    (at_ : s.unlocks u = .resume (k :: waiters)) :
    Chain ((s.goto k .relock).unlocking u (.resume waiters)) h won := by
  have busy : ¬Spent s u := by simp [Spent, at_]
  obtain ⟨i, here, work, quiet⟩ := busy_head inv busy
  cases work with
  | resume j after waiting resolver finished unlocking waits =>
    rw [at_, Unlocking.resume.injEq, List.cons.injEq] at unlocking
    obtain ⟨rfl, rfl⟩ := unlocking
    have others : QuietBut ((s.goto k .relock).unlocking u (.resume [])) u :=
      quiet_unlocking (s := s.goto k .relock) quiet
    refine head_chain inv here (fun i other => Function.update_of_ne other _ _) rfl
      (fun _ _ => rfl) (fun j' prior => ?_) rfl rfl (.relock k (Function.update_self _ _ _) resolver
        (quiet_of_but others (.inl (Function.update_self _ _ _)))) inv.grants
    rw [after, Option.some.injEq] at prior
    exact .inl (prior ▸ waits)
  | flush _ _ _ _ _ unlocking _ => simp [at_] at unlocking
  | take _ _ unlocking => simp [at_] at unlocking
  | resolve _ _ unlocking => simp [at_] at unlocking

end Unlocks

theorem step_chain {s t : State} {h : Nat} {won : Bool} {l : Label} (inv : Chain s h won)
    (taken : stepLegal s l = some t) : ∃ h' won', Chain t h' won' := by
  unfold stepLegal at taken
  split at taken
  case isFalse => simp at taken
  rename_i lawful
  cases l with
  | lock i =>
    simp only [step, Option.ite_none_right_eq_some, Option.some.injEq] at taken
    obtain ⟨idle, rfl⟩ := taken
    exact ⟨h, won, lock_chain inv idle⟩
  | step i =>
    simp only [step] at taken
    generalize at_ : s.stage i = stage at taken
    cases stage with
    | start =>
      simp only [lockStep, Option.some.injEq] at taken
      exact taken ▸ ⟨h, won, start_chain inv at_⟩
    | awaits current =>
      simp only [lockStep] at taken
      split at taken
      · rw [Option.some.injEq] at taken
        exact taken ▸ ⟨h, won, awaits_chain inv at_ rfl⟩
      · rename_i j
        split at taken
        · rename_i resolved
          rw [Option.some.injEq] at taken
          exact taken ▸ ⟨h, won, awaits_chain inv at_ resolved⟩
        · rename_i unresolved
          rw [Option.some.injEq] at taken
          exact taken ▸ ⟨h, won, suspend_chain inv at_ (Bool.eq_false_iff.mpr unresolved)⟩
    | relock =>
      simp only [lockStep, Option.some.injEq] at taken
      exact taken ▸ ⟨h, won, (relock_chain inv at_).2⟩
    | stored =>
      simp only [lockStep, Option.some.injEq] at taken
      exact taken ▸ ⟨h, true, stored_chain inv at_⟩
    | _ => simp [lockStep] at taken
  | unlock u k =>
    have granted : s.stage k = .granted := by simpa [legal] using lawful
    simp only [step, granted, if_true, Option.ite_none_right_eq_some, Option.some.injEq] at taken
    exact taken.2 ▸ ⟨h, won, unlock_chain inv granted⟩
  | proceed u =>
    simp only [step] at taken
    generalize at_ : s.unlocks u = pc at taken
    cases pc with
    | take k =>
      obtain ⟨held, kept⟩ := take_chain inv at_
      simp only [unlockStep, held, Option.some.injEq] at taken
      exact taken ▸ ⟨h, won, kept⟩
    | resolve k j =>
      simp only [unlockStep, Option.some.injEq] at taken
      exact taken ▸ ⟨h + 1, false, (resolve_chain inv at_).2⟩
    | flush j =>
      simp only [unlockStep, Option.some.injEq] at taken
      exact taken ▸ ⟨h, won, flush_chain inv at_⟩
    | resume waiters =>
      cases waiters with
      | nil => simp [unlockStep] at taken
      | cons k waiters =>
        simp only [unlockStep, Option.some.injEq] at taken
        exact taken ▸ ⟨h, won, resume_chain inv at_⟩

theorem reached_chain {s : State} (reached : ReachedLegal s) : ∃ h won, Chain s h won := by
  induction reached with
  | start first => exact ⟨0, false, first ▸ initial_chain⟩
  | next _ taken ih =>
    obtain ⟨h, won, inv⟩ := ih
    exact step_chain inv taken

def Holds (s : State) (i : Nat) : Prop :=
  s.stage i = .granted ∨ ∃ u, s.unlocks u = .take i ∨ ∃ j, s.unlocks u = .resolve i j

def Waits (s : State) (i : Nat) : Prop :=
  ∃ j, s.stage i = .suspended j ∨ s.stage i = .awaits (some j) ∧ s.done j = false

def Granting (s : State) (i : Nat) : Prop :=
  s.stage i = .relock ∨ s.stage i = .stored ∨ ∃ j, s.stage i = .awaits j ∧ s.isDone j = true

def Releasing (s : State) (u : Nat) : Prop :=
  match s.unlocks u with
  | .take _ => True
  | .resolve _ _ => True
  | .flush j => s.awaiters j ≠ []
  | .resume waiters => waiters ≠ []

theorem holds_head {s : State} {h : Nat} {won : Bool} {i : Nat} (inv : Chain s h won)
    (holds : Holds s i) : s.swaps[h]? = some i := by
  rcases holds with granted | ⟨u, take | ⟨j, resolve⟩⟩
  · exact at_head inv (.inr (.inr granted))
  · obtain ⟨k, here, work, _⟩ := busy_head inv (u := u) (by simp [Spent, take])
    cases work <;> simp_all
  · obtain ⟨k, here, work, _⟩ := busy_head inv (u := u) (by simp [Spent, resolve])
    cases work <;> simp_all

theorem waits_behind {s : State} {h : Nat} {won : Bool} {i : Nat} (inv : Chain s h won)
    (waits : Waits s i) : ∃ k, s.swaps[h]? = some k := by
  obtain ⟨j, waits⟩ := waits
  have started : s.stage i ≠ .idle ∧ s.stage i ≠ .start := by
    rcases waits with at_ | ⟨at_, _⟩ <;> simp [at_]
  obtain ⟨p, here⟩ := swapped inv started.1 started.2
  have inside := lookup_inside here
  by_cases early : p < h
  · have past := (inv.served p i early here).1
    rcases waits with at_ | ⟨at_, _⟩ <;> simp [at_] at past
  · exact ⟨_, List.getElem?_eq_getElem (show h < s.swaps.length by omega)⟩

theorem no_grant_lost {s : State} {h : Nat} {won : Bool} {i : Nat} (inv : Chain s h won)
    (waits : Waits s i) :
    (∃ k, Holds s k) ∨ (∃ k, Granting s k) ∨ ∃ u, Releasing s u := by
  obtain ⟨k, here⟩ := waits_behind inv waits
  have head := inv.head
  rw [here] at head
  cases head with
  | awaits _ at_ _ _ => exact .inr (.inl ⟨k, .inr (.inr ⟨_, at_, prior_done inv⟩)⟩)
  | relock _ at_ _ _ => exact .inr (.inl ⟨k, .inl at_⟩)
  | stored _ at_ _ _ => exact .inr (.inl ⟨k, .inr (.inl at_)⟩)
  | granted _ at_ _ _ => exact .inl ⟨k, .inl at_⟩
  | busy _ u _ work _ =>
    refine .inr (.inr ⟨u, ?_⟩)
    unfold Releasing
    cases work with
    | flush j _ _ _ _ unlocking waiting => simp [unlocking, waiting]
    | resume j _ _ _ _ unlocking _ => simp [unlocking]
    | take _ _ unlocking => simp [unlocking]
    | resolve _ _ unlocking => simp [unlocking]

/-- While only holders unlock: one holder at a time, grants in the order of the swaps, both
    assertions hold, and nobody waits for a lock that is free. -/
theorem exclusive_and_fair {s : State} (reached : ReachedLegal s) :
    (∀ i k, Holds s i → Holds s k → i = k) ∧ s.grants <+: s.swaps ∧
      (∀ i, s.stage i = .relock → s.resolver = none) ∧
      (∀ u k, s.unlocks u = .take k → s.resolver = some k) ∧
      ∀ i, Waits s i → (∃ k, Holds s k) ∨ (∃ k, Granting s k) ∨ ∃ u, Releasing s u := by
  obtain ⟨h, won, inv⟩ := reached_chain reached
  refine ⟨fun i k first second => ?_, ?_, fun i at_ => (relock_chain inv at_).1,
    fun u k at_ => (take_chain inv at_).1, fun i waits => no_grant_lost inv waits⟩
  · have here := holds_head inv first
    rw [holds_head inv second, Option.some.injEq] at here
    exact here.symm
  · rw [inv.grants]
    exact List.take_prefix _ _

def handover : List Label :=
  [.lock 0, .lock 1, .step 0, .step 1, .step 1, .step 0, .step 0, .step 0, .unlock 0 0,
    .proceed 0, .proceed 0, .proceed 0, .proceed 0, .step 1, .step 1]

theorem exclusive_and_fair_handover : ∃ s, run stepLegal initial handover = some s ∧
    s.grants = [0, 1] ∧ s.grants <+: s.swaps := by
  refine ⟨_, rfl, rfl, ?_⟩
  exact (exclusive_and_fair (run_reachable (.start rfl)
    (show run stepLegal initial handover = some _ from rfl))).2.1

end AsyncMutex
