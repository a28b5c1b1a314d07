import JSProCpp.SettleOutcome

/-
What a settling call that returns false tells its caller. The call has found `resolved_` or
`rejected_` set by another one; the outcome is stored later, under `mutex_`, by the call that
has set the flag.
-/
namespace LosingCalls
open Transitions SharedPromise SettleOnce StateOwners Completion SettleOutcome
variable {V E H F : Type}

/-- `Resolve`, `Reject` and the members of `Resolver` that user code calls. -/
def settles : Call V E H F → Bool
  | .resolve _ _ | .reject _ | .resolverReject _ => true
  | _ => false

def Refused (a : Activation V E H F) : Prop := settles a.call = true ∧ a.pc = .returned false

def Told (s : State V E H F) : Prop :=
  ∀ a ∈ s.acts, Refused a → s.isDone = true ∧ awaitResume s ≠ .failed

def Refusing (s : State V E H F) (a : Activation V E H F) : Prop :=
  settles a.call = true ∧
    ((a.pc = .rejected ∧ s.rejected = true) ∨ (a.pc = .exchange ∧ s.resolved = true))

/-- No attempt has come past the store of an outcome: `resolved_` is not taken (a `Reject` may
    be between its two exchanges), or whoever took it is not at its store yet, could not build
    the value, or has stored a null pointer. -/
def Window (s : State V E H F) : Prop :=
  s.resolved = false ∨ ∃ a ∈ s.acts, claims a = true ∨
    (wins a = true ∧ a.call.payload = some (.exception none))

def RefusedLate (s : State V E H F) (l : Label V E H F) : Prop :=
  ∀ (i : Nat) (a : Activation V E H F), l = .step i → s.acts[i]? = some a → Refusing s a →
    ¬Window s

theorem resumed_done {s : State V E H F} (done : s.isDone = true) : awaitResume s ≠ .failed := by
  unfold awaitResume
  cases exception : s.exception with
  | some e => simp
  | none =>
    cases value : s.value with
    | some v => simp
    | none => simp [State.isDone, value, exception] at done

theorem holds_done {s : State V E H F} {p : Payload V E} (holds : Holds s p) :
    s.isDone = true ↔ p ≠ .exception none := by
  constructor
  · intro done null
    subst null
    obtain ⟨value, exception⟩ := holds
    simp [State.isDone, value, exception] at done
  · intro real
    exact (settled_of_holds holds real).done

theorem window_iff {s : State V E H F} (reached : Reached s) : Window s ↔ s.isDone = false := by
  have inv := reached_agreement reached
  have early : s.value = none ∧ s.exception = none → s.isDone = false := by
    intro pending
    simp [State.isDone, pending.1, pending.2]
  constructor
  · intro window
    rcases window with clear | ⟨a, member, open_⟩
    · exact early (inv.unclaimed clear)
    · obtain ⟨i, here⟩ := List.mem_iff_getElem?.mp member
      rcases open_ with claim | ⟨won, null⟩
      · exact early (inv.early i a here claim)
      · exact early (inv.stored i a _ here won null)
  · intro pending
    by_cases set : s.resolved = true
    · obtain ⟨i, a, here, mine⟩ := inv.claimant set
      apply Or.inr
      rcases Bool.or_eq_true_iff.mp mine with claim | won
      · exact ⟨a, List.mem_of_getElem? here, .inl claim⟩
      · obtain ⟨p, payload⟩ := Option.isSome_iff_exists.mp (Bool.and_eq_true_iff.mp won).1
        have stores := inv.stored i a p here won payload
        by_cases null : p = .exception none
        · exact ⟨a, List.mem_of_getElem? here, .inr ⟨won, null ▸ payload⟩⟩
        · have done := (holds_done stores).mpr null
          simp [pending] at done
    · exact .inl (by simpa using set)

/-- A refused call keeps what is stored, and only the two losing branches refuse. -/
theorem refused_move {s t : State V E H F} {i : Nat} {c : Call V E H F} {pc : Pc H F}
    (scope : inScope pc = true → isFinal c = true) (here : s.acts[i]? = some ⟨c, pc⟩)
    (m : Move s i c pc t) (call : settles c = true)
    (now : t.acts[i]? = some ⟨c, .returned false⟩) :
    Refusing s ⟨c, pc⟩ ∧ t.value = s.value ∧ t.exception = s.exception := by
  have plain : isFinal c = false := by cases c <;> simp_all [settles, isFinal]
  have moved : ∀ pc', t.acts = s.acts.set i ⟨c, pc'⟩ → pc' = .returned false := by
    intro pc' acts
    rw [acts, lookup_set here, Option.some.injEq, Activation.mk.injEq] at now
    exact now.2
  have leaves : c.leave true = (.returned true : Pc H F) := by
    cases c <;> simp_all [Call.leave, isFinal]
  have inside : inScope pc = false := by
    by_contra within
    rw [scope (by simpa using within)] at plain
    exact absurd plain (by simp)
  cases m with
  | rejectLost set => exact ⟨⟨call, .inl ⟨rfl, set⟩⟩, rfl, rfl⟩
  | lost payload set => exact ⟨⟨call, .inr ⟨rfl, set⟩⟩, rfl, rfl⟩
  | store p payload total =>
    exact absurd (moved (.onResolved .settle) (by rw [goto_acts, (put_fields s p).1])) (by simp)
  | noFlush site live | flushed site saveSelf =>
    cases site with
    | settle =>
      have there := moved _ rfl
      simp [Call.after, leaves] at there
    | scopeExit won => simp [inScope] at inside
  | body u result run =>
    have none_ := (lockedBody_keeps run).1
    cases c <;> simp_all [settles, Call.payload]
  | scopePending won pending => simp [inScope] at inside
  | _ => exact absurd (moved _ rfl) (by simp)

theorem refusing_move {s t : State V E H F} {i : Nat} {a : Activation V E H F}
    (here : s.acts[i]? = some a) (refusing : Refusing s a) (taken : step s (.step i) = some t) :
    t = s.goto i a.call (.returned false) := by
  obtain ⟨c, pc⟩ := a
  obtain ⟨call, at_⟩ := refusing
  have payload : ∃ p, c.payload = some p := by
    cases c <;> simp_all [settles, Call.payload]
  obtain ⟨p, payload⟩ := payload
  have leaves : c.leave false = (.returned false : Pc H F) := by
    cases c <;> simp_all [Call.leave, settles]
  rw [step_act here] at taken
  rcases at_ with ⟨at_, set⟩ | ⟨at_, set⟩ <;> simp only at at_ <;> subst at_ <;>
    simp only [advance, payload, settleStep, set, if_true, leaves, Option.some.injEq] at taken <;>
    exact taken.symm

theorem entry_waits (c : Call V E H F) : c.entry ≠ (.returned false : Pc H F) := by
  cases c with
  | finalSuspend e => cases e <;> simp [Call.entry, Completion.payload]
  | _ => simp [Call.entry]

theorem told_step {s t : State V E H F} {l : Label V E H F} (reached : Reached s) (told : Told s)
    (met : RefusedLate s l) (h : step s l = some t) : Told t := by
  have kept : s.isDone = true → t.isDone = true ∧ awaitResume t ≠ .failed := by
    intro done
    obtain ⟨value, exception⟩ := outcome_step (reached_agreement reached) done h
    have later : t.isDone = true := by
      rw [State.isDone, value, exception]
      exact done
    exact ⟨later, resumed_done later⟩
  intro a member refused
  by_cases old : a ∈ s.acts
  · exact kept (told a old refused).1
  apply kept
  cases step_change h with
  | call c started =>
    have new : a = ⟨c, c.entry⟩ := by
      have either : a ∈ s.acts ∨ a = ⟨c, c.entry⟩ := by
        cases started <;> simpa [State.push] using member
      exact either.resolve_left old
    subst new
    exact absurd refused.2 (entry_waits c)
  | step i c pc here move =>
    obtain ⟨pc', acts, _⟩ := move_uses move
    obtain ⟨j, there⟩ := List.mem_iff_getElem?.mp member
    have first := there
    rw [acts] at there
    rcases set_lookup here there with ⟨same, which⟩ | ⟨_, before⟩
    · subst same
      subst which
      obtain ⟨call, at_⟩ := refused
      simp only at call at_
      subst at_
      have scope := (reached_finalization reached).scope j _ here
      have refusing := (refused_move scope here move call first).1
      have late := met j _ rfl here refusing
      rw [window_iff reached] at late
      simpa using late
    · exact absurd (List.mem_of_getElem? before) old
  | copy k live same | move k live same | overwrite k live same | other k d later same =>
    subst same
    exact absurd member old

/-- A refused caller can read the outcome in every state of a run exactly if no call of the run
    is refused before the call that took the flag has stored a value or an exception. -/
theorem refused_reads_iff {s : State V E H F} (fresh : Initial s) (ls : List (Label V E H F)) :
    Always step Told s ls ↔ Meets step RefusedLate s ls := by
  have start : Told s := by
    obtain ⟨coroutine, captured, others, rfl⟩ := fresh
    simp [Told, initial]
  constructor
  · intro always
    have breaks : ∀ (t : State V E H F) (l : Label V E H F) (u : State V E H F), Reached t →
        step t l = some u → Told u → RefusedLate t l := by
      intro t l u reached taken told i a which here refusing window
      subst which
      have refused := refusing_move here refusing taken
      have now : (⟨a.call, .returned false⟩ : Activation V E H F) ∈ u.acts := by
        rw [refused, goto_acts]
        exact List.mem_of_getElem? (lookup_set here)
      have done := (told _ now ⟨refusing.1, rfl⟩).1
      rw [window_iff reached] at window
      rw [refused] at done
      exact absurd (window.symm.trans done) (by simp)
    exact meets_of_always (fun _ _ _ reached taken => .next reached taken) breaks (.start fresh)
      always
  · intro meets
    have kept : ∀ (t : State V E H F) (l : Label V E H F) (u : State V E H F),
        Reached t ∧ Told t → RefusedLate t l → step t l = some u → Reached u ∧ Told u := by
      intro t l u inv met taken
      exact ⟨.next inv.1 taken, told_step inv.1 inv.2 met taken⟩
    exact always_of_meets kept (fun _ inv => inv.2) ⟨.start fresh, start⟩ meets

def refusedAfterStore : List (Label Nat Nat Nat Nat) :=
  [.call (.resolve 7 false), .step 0, .step 0, .step 0, .step 0, .call (.resolve 8 false), .step 1]

theorem refused_reads_after :
    Always step Told (initial false [] fun _ => .pending) refusedAfterStore := by
  apply (refused_reads_iff ⟨false, [], fun _ => .pending, rfl⟩ _).mpr
  refine meets_cons rfl ?_ (meets_cons rfl ?_ (meets_cons rfl ?_ (meets_cons rfl ?_
    (meets_cons rfl ?_ (meets_cons rfl ?_ (meets_cons rfl ?_ trivial)))))) <;>
    intro i a which here refusing window <;> cases which <;> cases here
  case refine_7 =>
    have reached : Reached (V := Nat) (E := Nat) (H := Nat) (F := Nat) _ :=
      run_reachable (.start ⟨false, [], fun _ => .pending, rfl⟩)
        (show run step (initial false [] fun _ => .pending) (refusedAfterStore.take 6) = some _
          from rfl)
    exact Bool.noConfusion ((window_iff reached).mp window)
  all_goals
    obtain ⟨_, ⟨at_, set⟩ | ⟨at_, set⟩⟩ := refusing <;> first
      | exact Bool.noConfusion set
      | exact absurd at_ (by decide)

/-- A second call between the first one's exchange on `resolved_` and its store, and a second
    `Reject` between the first one's two exchanges. -/
theorem refused_too_early :
    (∃ s, run step (initial false [] fun _ => .pending)
      [(.call (.resolve 7 false) : Label Nat Nat Nat Nat), .call (.resolve 8 false), .step 0,
        .step 1] = some s ∧
      s.acts[1]? = some ⟨.resolve 8 false, .returned false⟩ ∧ s.isDone = false ∧
      awaitResume s = .failed ∧ ¬Told s) ∧
    ∃ s, run step (initial false [] fun _ => .pending)
      [(.call (.reject (some 1)) : Label Nat Nat Nat Nat), .call (.reject (some 2)), .step 0,
        .step 1] = some s ∧
      s.acts[1]? = some ⟨.reject (some 2), .returned false⟩ ∧ s.resolved = false ∧ ¬Told s := by
  refine ⟨⟨_, rfl, rfl, rfl, rfl, fun told => ?_⟩, ⟨_, rfl, rfl, rfl, fun told => ?_⟩⟩
  · exact Bool.noConfusion (told _ (List.mem_of_getElem? (i := 1) rfl) ⟨rfl, rfl⟩).1
  · exact Bool.noConfusion (told _ (List.mem_of_getElem? (i := 1) rfl) ⟨rfl, rfl⟩).1

end LosingCalls
