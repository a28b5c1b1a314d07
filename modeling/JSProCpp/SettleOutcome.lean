import JSProCpp.Completion

/-
What a settling call leaves behind. `resolved_` says that an attempt has won, a non-null value
or `exception_ptr` that there is an outcome. The two part when the stored exception pointer is
null, and when the value cannot be built after the flag was taken.
-/
namespace SettleOutcome
open Transitions SharedPromise SettleOnce StateOwners Completion
variable {V E H F : Type}

/-- What `await_resume` gives its coroutine; `failed` is its assertion or that of `GetValue`. -/
inductive Resumed (V E : Type) where
  | value (v : V)
  | throws (e : E)
  | failed
  deriving DecidableEq

def awaitResume (s : State V E H F) : Resumed V E :=
  match s.exception with
  | some e => .throws e
  | none =>
      match s.value with
      | some v => .value v
      | none => .failed

def isResolved (s : State V E H F) : Bool := s.value.isSome
def isRejected (s : State V E H F) : Bool := s.exception.isSome

def expected : Payload V E → Option (Resumed V E)
  | .value v => some (.value v)
  | .exception e => e.map .throws

structure Settled (s : State V E H F) (p : Payload V E) : Prop where
  done : s.isDone = true
  one : isResolved s = !isRejected s
  observed : expected p = some (awaitResume s)
  attaches : ∀ f : F, lockedBody s (.await f) = some (s, false)
  suspends : ∀ h : H, lockedBody s (.awaitSuspend h) = some (s, false)

theorem settled_of_holds {s : State V E H F} {p : Payload V E} (holds : Holds s p)
    (real : p ≠ .exception none) : Settled s p := by
  rcases p with v | (_ | e)
  · obtain ⟨value, exception⟩ := holds
    constructor <;> simp [State.isDone, isResolved, isRejected, expected, awaitResume, lockedBody,
      value, exception]
  · exact absurd rfl real
  · obtain ⟨value, exception⟩ := holds
    constructor <;> simp [State.isDone, isResolved, isRejected, expected, awaitResume, lockedBody,
      value, exception]

/-- A settling call that has won, from its store over the awaiters it runs to its return and in
    every later state, has settled the promise exactly if it was not given a null pointer. -/
theorem settle_settles_iff {s : State V E H F} (reached : Reached s) {i : Nat}
    {a : Activation V E H F} {p : Payload V E} (here : s.acts[i]? = some a)
    (payload : a.call.payload = some p) (won : wins a = true) :
    Settled s p ↔ p ≠ .exception none := by
  have holds := (reached_agreement reached).stored i a p here won payload
  constructor
  · rintro settled rfl
    have none_ := settled.observed
    simp [expected] at none_
  · exact settled_of_holds holds

def rejectedWith (e : Option Nat) : List (Label Nat Nat Nat Nat) :=
  [.call (.await 10), .step 0, .step 0, .call (.reject e), .step 1, .step 1, .step 1, .step 1,
    .step 1, .step 1, .step 1, .step 1]

theorem settle_settles_iff_rejected : ∃ s,
    run step (initial false [] fun _ => .pending) (rejectedWith (some 3)) = some s ∧
      Settled s (.exception (some 3)) := by
  refine ⟨_, rfl, ?_⟩
  have reached : Reached (V := Nat) (E := Nat) (H := Nat) (F := Nat) _ :=
    run_reachable (.start ⟨false, [], fun _ => .pending, rfl⟩)
      (show run step (initial false [] fun _ => .pending) (rejectedWith (some 3)) = some _ from rfl)
  exact (settle_settles_iff reached (i := 1) rfl rfl rfl).mpr (by simp)

/-- A null `exception_ptr`: `Reject` returns true, the continuation runs, nothing is settled. -/
theorem settle_null : ∃ s,
    run step (initial false [] fun _ => .pending) (rejectedWith none) = some s ∧
      s.acts[1]? = some ⟨.reject none, .returned true⟩ ∧
      s.invoked.map (·.target) = [.function 10] ∧ s.isDone = false ∧ awaitResume s = .failed ∧
      ¬Settled s (.exception none) := by
  refine ⟨_, rfl, rfl, rfl, rfl, rfl, fun settled => ?_⟩
  exact absurd settled.done (by decide)

/-- The step in which `std::make_unique<T>` of a winning `Resolve` throws. -/
def Throws (s : State V E H F) (l : Label V E H F) : Prop :=
  ∃ (i : Nat) (c : Call V E H F), l = .step i ∧ s.acts[i]? = some ⟨c, .store⟩ ∧ c.throws = true

def Recovers (s : State V E H F) : Prop :=
  ∀ a ∈ s.acts, a.pc = .threw → s.resolved = false ∨ s.isDone = true

theorem throws_payload {c : Call V E H F} (h : c.throws = true) : c.payload.isSome = true := by
  cases c <;> simp_all [Call.throws, Call.payload]

theorem throws_taken {s t : State V E H F} {i : Nat} {c : Call V E H F}
    (here : s.acts[i]? = some ⟨c, .store⟩) (throws : c.throws = true)
    (taken : step s (.step i) = some t) : t = s.unlock.goto i c .threw := by
  obtain ⟨p, payload⟩ := Option.isSome_iff_exists.mp (throws_payload throws)
  simp only [step_act here, advance, payload, settleStep, throws, if_true,
    Option.some.injEq] at taken
  exact taken.symm

theorem threw_step {s t : State V E H F} {l : Label V E H F} {i : Nat} {c : Call V E H F}
    (here : s.acts[i]? = some ⟨c, .threw⟩) (h : step s l = some t) :
    t.acts[i]? = some ⟨c, .threw⟩ := by
  cases step_change h with
  | call d started => cases started <;> exact lookup_append here _
  | step j d pc there move =>
    obtain ⟨pc', acts, _⟩ := move_uses move
    have other : j ≠ i := by
      rintro rfl
      rw [here, Option.some.injEq, Activation.mk.injEq] at there
      rw [← there.2] at move
      cases move
    rw [acts, List.getElem?_set_ne other]
    exact here
  | copy k live same | move k live same | overwrite k live same | other k d later same =>
    subst same
    exact here

theorem threw_run {s t : State V E H F} {ls : List (Label V E H F)} {i : Nat}
    {c : Call V E H F} (here : s.acts[i]? = some ⟨c, .threw⟩) (h : run step s ls = some t) :
    t.acts[i]? = some ⟨c, .threw⟩ := by
  induction ls generalizing s with
  | nil =>
    simp only [run, Option.some.injEq] at h
    exact h ▸ here
  | cons l ls ih =>
    obtain ⟨u, first, rest⟩ := Option.bind_eq_some_iff.mp h
    exact ih (threw_step here first) rest

/-- The flag stays with the attempt that threw: nothing is stored and no attempt wins. -/
theorem threw_stuck {s : State V E H F} (reached : Reached s) {i : Nat} {c : Call V E H F}
    (here : s.acts[i]? = some ⟨c, .threw⟩) (payload : c.payload.isSome = true) :
    s.resolved = true ∧ s.isDone = false ∧ ∀ a ∈ s.acts, wins a = false := by
  have inv := reached_agreement reached
  have claim : claims (⟨c, .threw⟩ : Activation V E H F) = true := by
    simp [claims, early, payload]
  have mine : holdsFlag (⟨c, .threw⟩ : Activation V E H F) = true := by simp [holdsFlag, claim]
  obtain ⟨value, exception⟩ := inv.early i _ here claim
  refine ⟨inv.flagged i _ here mine, by simp [State.isDone, value, exception], ?_⟩
  intro a member
  obtain ⟨j, there⟩ := List.mem_iff_getElem?.mp member
  by_contra won
  rw [Bool.not_eq_false] at won
  have same := inv.unique i j _ a here there mine (by simp [holdsFlag, won])
  subst same
  rw [here, Option.some.injEq] at there
  subst there
  simp [claims_not_wins _ claim] at won

def Total (s : State V E H F) : Prop := ∀ a ∈ s.acts, a.pc ≠ .threw

theorem leave_total (c : Call V E H F) (won : Bool) : c.leave won ≠ (.threw : Pc H F) := by
  cases c <;> simp [Call.leave]

theorem after_total (c : Call V E H F) (site : Site) : c.after site ≠ (.threw : Pc H F) := by
  cases site with
  | settle => exact leave_total c true
  | scopeExit won => simp [Call.after]

theorem move_total {s t : State V E H F} {i : Nat} {c : Call V E H F} {pc : Pc H F}
    (here : s.acts[i]? = some ⟨c, pc⟩) (m : Move s i c pc t)
    (threw : t.acts[i]? = some ⟨c, .threw⟩) : pc = .store ∧ c.throws = true := by
  have entered : ∀ pc', t.acts = s.acts.set i ⟨c, pc'⟩ → pc' = .threw := by
    intro pc' acts
    rw [acts, lookup_set here, Option.some.injEq, Activation.mk.injEq] at threw
    exact threw.2
  cases m with
  | throw throws => exact ⟨rfl, throws⟩
  | lost payload set => exact absurd (entered _ rfl) (leave_total c false)
  | noFlush site live | flushed site saveSelf =>
    exact absurd (entered _ rfl) (after_total c site)
  | store p payload total =>
    exact absurd (entered (.onResolved .settle) (by rw [goto_acts, (put_fields s p).1])) (by simp)
  | body u result run =>
    exact absurd (entered (.returned result) (by rw [goto_acts, State.unlock,
      (lockedBody_keeps run).2.1])) (by simp)
  | _ => exact absurd (entered _ rfl) (by simp)

theorem entry_total (c : Call V E H F) : c.entry ≠ (.threw : Pc H F) := by
  cases c with
  | finalSuspend e => cases e <;> simp [Call.entry, Completion.payload]
  | _ => simp [Call.entry]

theorem total_step {s t : State V E H F} {l : Label V E H F} (total : Total s)
    (met : ¬Throws s l) (h : step s l = some t) : Total t := by
  cases step_change h with
  | call c started =>
    intro a member
    have either : a ∈ s.acts ∨ a = ⟨c, c.entry⟩ := by
      cases started <;> simpa [State.push] using member
    rcases either with old | rfl
    · exact total a old
    · exact entry_total c
  | step i c pc here move =>
    obtain ⟨pc', acts, _⟩ := move_uses move
    intro a member threw
    obtain ⟨j, there⟩ := List.mem_iff_getElem?.mp member
    rw [acts] at there
    rcases set_lookup here there with ⟨_, rfl⟩ | ⟨_, old⟩
    · have now : t.acts[i]? = some ⟨c, .threw⟩ := by
        rw [acts, lookup_set here, ← show pc' = .threw from threw]
      obtain ⟨rfl, throws⟩ := move_total here move now
      exact met ⟨i, c, rfl, here, throws⟩
    · exact total a (List.mem_of_getElem? old) threw
  | copy k live same | move k live same | overwrite k live same | other k c later same =>
    subst same
    exact total

/-- A failed attempt leaves the promise settleable in a run exactly if there is none in it. Once
    there is one, no attempt of any later time succeeds and the promise is pending for ever. -/
theorem failed_resolve_iff {s : State V E H F} (fresh : Initial s)
    (ls : List (Label V E H F)) :
    (Always step Recovers s ls ↔ Meets step (fun s l => ¬Throws s l) s ls) ∧
    ∀ (xs ys : List (Label V E H F)) (l : Label V E H F) (t u v : State V E H F),
      ls = xs ++ l :: ys → run step s xs = some t → Throws t l → step t l = some u →
      run step u ys = some v → v.resolved = true ∧ v.isDone = false ∧
        ∀ a ∈ v.acts, wins a = false := by
  have stuck : ∀ (t u : State V E H F) (l : Label V E H F), Reached t → Throws t l →
      step t l = some u → ∃ (i : Nat) (c : Call V E H F), u.acts[i]? = some ⟨c, .threw⟩ ∧
        c.payload.isSome = true := by
    rintro t u l reached ⟨i, c, rfl, here, throws⟩ taken
    refine ⟨i, c, ?_, throws_payload throws⟩
    rw [throws_taken here throws taken]
    exact lookup_set here
  have breaks : ∀ (t : State V E H F) (l : Label V E H F) (u : State V E H F), Reached t →
      step t l = some u → Recovers u → ¬Throws t l := by
    intro t l u reached taken recovers throws
    obtain ⟨i, c, here, payload⟩ := stuck t u l reached throws taken
    obtain ⟨set, pending, _⟩ := threw_stuck (.next reached taken) here payload
    rcases recovers _ (List.mem_of_getElem? here) rfl with clear | done
    · simp [set] at clear
    · simp [pending] at done
  have clean : Total s := by
    obtain ⟨coroutine, captured, others, rfl⟩ := fresh
    simp [Total, initial]
  refine ⟨⟨fun always => ?_, fun meets => ?_⟩, ?_⟩
  · exact meets_of_always (fun _ _ _ reached taken => .next reached taken) breaks (.start fresh)
      always
  · exact always_of_meets (fun _ _ _ total met taken => total_step total met taken)
      (fun t total a member threw => absurd threw (total a member)) clean meets
  · intro xs ys l t u v _ before throws taken after
    have reached := run_reachable (.start fresh) before
    obtain ⟨i, c, here, payload⟩ := stuck t u l reached throws taken
    exact threw_stuck (run_reachable (.next reached taken) after) (threw_run here after) payload

/-- The callback of `Then` with a value whose copy throws: its handler calls `reject` in vain. -/
def throwingThen : List (Label Nat Nat Nat Nat) :=
  [.call (.await 10), .step 0, .step 0, .call (.resolve 7 true), .step 1, .step 1, .step 1,
    .step 1, .call (.reject (some 3)), .step 2, .step 2]

theorem failed_resolve_iff_rejected : ∃ s,
    run step (initial false [] fun _ => .pending) throwingThen = some s ∧
      s.resolved = true ∧ s.isDone = false ∧ ∀ a ∈ s.acts, wins a = false := by
  refine ⟨_, rfl, ?_⟩
  exact (failed_resolve_iff ⟨false, [], fun _ => .pending, rfl⟩ throwingThen).2
    (throwingThen.take 7) (throwingThen.drop 8) (.step 1) _ _ _ rfl rfl ⟨1, _, rfl, rfl, rfl⟩
    rfl rfl

theorem failed_resolve_pending : ∃ s,
    run step (initial false [] fun _ => .pending) throwingThen = some s ∧
      s.acts[1]? = some ⟨.resolve 7 true, .threw⟩ ∧
      s.acts[2]? = some ⟨.reject (some 3), .returned false⟩ ∧ s.isDone = false ∧
      s.invoked = [] ∧ ¬Recovers s := by
  refine ⟨_, rfl, rfl, rfl, rfl, rfl, fun recovers => ?_⟩
  have broken := recovers _ (List.mem_of_getElem? (i := 1) rfl) rfl
  exact absurd broken (by decide)

end SettleOutcome
