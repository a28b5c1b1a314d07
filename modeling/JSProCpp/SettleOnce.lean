import JSProCpp.SharedPromise

/-
At most one settling attempt wins, and its payload stays. An attempt claims `resolved_`
by one exchange and is the only one that ever reaches the stores behind it.
-/
namespace SettleOnce
open Transitions SharedPromise
variable {V E H F : Type}

/-- The payload is stored: the attempt returns true, or `final_suspend` goes on with it. -/
def stored : Pc H F → Bool
  | .onResolved .settle | .flush .settle _ _ | .returned true => true
  | .scopeLock won | .scopeClear won | .scopeDestroy won _ | .scopeWait won _ _ => won
  | .onResolved (.scopeExit won) | .flush (.scopeExit won) _ _ => won
  | _ => false

/-- The exchange on `resolved_` was won, but nothing is stored. -/
def early : Pc H F → Bool
  | .weakLock | .lock | .store | .threw | .expired => true
  | _ => false

def wins (a : Activation V E H F) : Bool := a.call.payload.isSome && stored a.pc
def claims (a : Activation V E H F) : Bool := a.call.payload.isSome && early a.pc

def Holds (s : State V E H F) : Payload V E → Prop
  | .value v => s.value = some v ∧ s.exception = none
  | .exception e => s.value = none ∧ s.exception = e

inductive Effect (s t : State V E H F) : Prop where
  | same (acts : t.acts = s.acts) (flag : t.resolved = s.resolved)
      (value : t.value = s.value) (exception : t.exception = s.exception)
  | push (c : Call V E H F) (acts : t.acts = s.acts ++ [⟨c, c.entry⟩])
      (flag : t.resolved = s.resolved) (value : t.value = s.value)
      (exception : t.exception = s.exception)
  | quiet (i : Nat) (c : Call V E H F) (pc pc' : Pc H F) (here : s.acts[i]? = some ⟨c, pc⟩)
      (acts : t.acts = s.acts.set i ⟨c, pc'⟩)
      (wins : wins ⟨c, pc'⟩ = wins ⟨c, pc⟩) (claims : claims ⟨c, pc'⟩ = claims ⟨c, pc⟩)
      (flag : t.resolved = s.resolved) (value : t.value = s.value)
      (exception : t.exception = s.exception)
  | claim (i : Nat) (c : Call V E H F) (here : s.acts[i]? = some ⟨c, .exchange⟩)
      (payload : c.payload.isSome)
      (acts : t.acts = s.acts.set i ⟨c, .weakLock⟩) (clear : s.resolved = false)
      (flag : t.resolved = true) (value : t.value = s.value)
      (exception : t.exception = s.exception)
  | store (i : Nat) (c : Call V E H F) (p : Payload V E)
      (here : s.acts[i]? = some ⟨c, .store⟩)
      (acts : t.acts = s.acts.set i ⟨c, .onResolved .settle⟩) (payload : c.payload = some p)
      (flag : t.resolved = s.resolved) (value : t.value = (s.put p).value)
      (exception : t.exception = (s.put p).exception)

theorem lockedBody_keeps {s t : State V E H F} {c : Call V E H F} {result : Bool}
    (h : lockedBody s c = some (t, result)) : c.payload = none ∧ t.acts = s.acts ∧
      t.resolved = s.resolved ∧ t.value = s.value ∧ t.exception = s.exception := by
  cases c <;> simp only [lockedBody, reduceCtorEq] at h <;> (try split at h) <;>
    simp only [Option.some.injEq, Prod.mk.injEq] at h <;> obtain ⟨rfl, -⟩ := h <;>
    exact ⟨rfl, rfl, rfl, rfl, rfl⟩

/-- The class of an attempt that leaves `OnResolved` is the one it had inside. -/
theorem after_class (c : Call V E H F) (site : Site) :
    wins ⟨c, c.after site⟩ = wins ⟨c, .onResolved site⟩ ∧
      claims ⟨c, c.after site⟩ = claims ⟨c, .onResolved site⟩ := by
  cases site with
  | settle => cases c <;> simp [Call.after, Call.leave, wins, claims, stored, early]
  | scopeExit won => cases won <;> simp [Call.after, wins, claims, stored, early]

theorem flush_class (c : Call V E H F) (site : Site) (saveSelf : Bool)
    (todo : List (Awaiter H F)) :
    wins ⟨c, .flush site saveSelf todo⟩ = wins ⟨c, .onResolved site⟩ := by
  cases site <;> rfl

theorem leave_lost (c : Call V E H F) :
    wins ⟨c, c.leave false⟩ = false ∧ claims ⟨c, c.leave false⟩ = false := by
  cases c <;> simp [Call.leave, wins, claims, stored, early]

theorem put_fields (s : State V E H F) (p : Payload V E) :
    (s.put p).acts = s.acts ∧ (s.put p).resolved = s.resolved := by
  cases p <;> exact ⟨rfl, rfl⟩

theorem move_effect {s t : State V E H F} {i : Nat} {c : Call V E H F} {pc : Pc H F}
    (here : s.acts[i]? = some ⟨c, pc⟩) (m : Move s i c pc t) : Effect s t := by
  cases m with
  | rejectLost set =>
    exact .quiet i c _ _ here rfl (by simp [wins, stored]) (by simp [claims, early]) rfl rfl rfl
  | lost payload set =>
    have lost := leave_lost c
    exact .quiet i c _ _ here rfl (lost.1.trans (Bool.and_false _).symm)
      (lost.2.trans (Bool.and_false _).symm) rfl rfl rfl
  | claim payload clear => exact .claim i c here payload rfl clear rfl rfl rfl
  | store p payload total =>
    obtain ⟨acts, flag⟩ := put_fields s p
    exact .store i c p here (by simp [acts]) payload flag rfl rfl
  | noFlush site live =>
    have leaving := after_class c site
    exact .quiet i c _ _ here rfl leaving.1 leaving.2 rfl rfl rfl
  | flush site clear => exact .quiet i c _ _ here rfl (flush_class c site _ _) rfl rfl rfl rfl
  | invoke site saveSelf a rest =>
    refine .quiet i c _ _ here rfl ?_ rfl rfl rfl rfl
    rw [flush_class, flush_class]
  | flushed site saveSelf =>
    have leaving := after_class c site
    refine .quiet i c _ _ here rfl ?_ leaving.2 rfl rfl rfl
    rw [flush_class, leaving.1]
  | scopePending won pending =>
    exact .quiet i c _ _ here rfl (by cases won <;> rfl) (by cases won <;> rfl) rfl rfl rfl
  | body t result run =>
    obtain ⟨payload, acts, flag, value, exception⟩ := lockedBody_keeps run
    refine .quiet i c _ (.returned result) here ?_ ?_ ?_ flag value exception
    · simp [State.unlock, acts]
    · simp [wins, payload]
    · simp [claims, payload]
  | destroyDone h call | destroyWoken h call =>
    exact .quiet i c _ _ here rfl (by simp [wins, call, Call.payload])
      (by simp [claims, call, Call.payload]) rfl rfl rfl
  | _ => exact .quiet i c _ _ here rfl rfl rfl rfl rfl rfl

theorem step_effect {s t : State V E H F} {l : Label V E H F} (h : step s l = some t) :
    Effect s t := by
  cases step_change h with
  | call c started => cases started <;> exact .push _ rfl rfl rfl rfl
  | step i c pc here move => exact move_effect here move
  | copy h live same | move h live same | overwrite h live same | other h c later same =>
    subst same
    exact .same rfl rfl rfl rfl

theorem entry_class (c : Call V E H F) :
    claims ⟨c, c.entry⟩ = false ∧ wins ⟨c, c.entry⟩ = false := by
  cases c with
  | finalSuspend e => cases e <;> exact ⟨rfl, rfl⟩
  | _ => exact ⟨rfl, rfl⟩

theorem claims_not_wins (a : Activation V E H F) (h : claims a = true) : wins a = false := by
  obtain ⟨c, pc⟩ := a
  cases pc <;> simp_all [claims, wins, early, stored]

def holdsFlag (a : Activation V E H F) : Bool := claims a || wins a

structure Agreement (s : State V E H F) : Prop where
  unclaimed : s.resolved = false → s.value = none ∧ s.exception = none
  flagged : ∀ (i : Nat) (a : Activation V E H F), s.acts[i]? = some a → holdsFlag a = true →
    s.resolved = true
  claimant : s.resolved = true →
    ∃ (i : Nat) (a : Activation V E H F), s.acts[i]? = some a ∧ holdsFlag a = true
  unique : ∀ (i j : Nat) (a b : Activation V E H F), s.acts[i]? = some a →
    s.acts[j]? = some b → holdsFlag a = true → holdsFlag b = true → i = j
  early : ∀ (i : Nat) (a : Activation V E H F), s.acts[i]? = some a → claims a = true →
    s.value = none ∧ s.exception = none
  stored : ∀ (i : Nat) (a : Activation V E H F) (p : Payload V E), s.acts[i]? = some a →
    wins a = true → a.call.payload = some p → Holds s p

theorem initial_agreement (s : State V E H F) (h : Initial s) : Agreement s := by
  obtain ⟨coroutine, captured, others, rfl⟩ := h
  constructor <;> simp [initial]

theorem holds_congr {s t : State V E H F} (value : t.value = s.value)
    (exception : t.exception = s.exception) (p : Payload V E) (h : Holds s p) : Holds t p := by
  cases p <;> simpa only [Holds, value, exception] using h

theorem put_holds {s t : State V E H F} (p : Payload V E)
    (none_ : s.value = none ∧ s.exception = none) (value : t.value = (s.put p).value)
    (exception : t.exception = (s.put p).exception) : Holds t p := by
  cases p <;> simp_all [Holds, State.put]

section Effects
variable {s t : State V E H F} {c : Call V E H F} {i : Nat}

theorem push_agreement (inv : Agreement s) (acts : t.acts = s.acts ++ [⟨c, c.entry⟩])
    (flag : t.resolved = s.resolved) (value : t.value = s.value)
    (exception : t.exception = s.exception) : Agreement t := by
  have idle := entry_class c
  have old : ∀ (j : Nat) (x : Activation V E H F), t.acts[j]? = some x →
      holdsFlag x = true → s.acts[j]? = some x := by
    intro j x here holds
    rw [acts] at here
    rcases append_lookup here with ⟨_, rfl⟩ | here
    · simp [holdsFlag, idle.1, idle.2] at holds
    · exact here
  refine ⟨by simpa only [flag, value, exception] using inv.unclaimed, ?_, ?_, ?_, ?_, ?_⟩
  · intro j x here holds
    rw [flag]
    exact inv.flagged j x (old j x here holds) holds
  · intro set
    obtain ⟨j, x, here, holds⟩ := inv.claimant (flag ▸ set)
    exact ⟨j, x, by rw [acts]; exact lookup_append here _, holds⟩
  · intro j k x y hx hy px py
    exact inv.unique j k x y (old j x hx px) (old k y hy py) px py
  · intro j x here claim
    rw [value, exception]
    exact inv.early j x (old j x here (by simp [holdsFlag, claim])) claim
  · intro j x p here won payload
    exact holds_congr value exception p
      (inv.stored j x p (old j x here (by simp [holdsFlag, won])) won payload)

theorem quiet_agreement {pc pc' : Pc H F} (inv : Agreement s) (here : s.acts[i]? = some ⟨c, pc⟩)
    (acts : t.acts = s.acts.set i ⟨c, pc'⟩) (sameWins : wins ⟨c, pc'⟩ = wins ⟨c, pc⟩)
    (sameClaims : claims ⟨c, pc'⟩ = claims ⟨c, pc⟩) (flag : t.resolved = s.resolved)
    (value : t.value = s.value) (exception : t.exception = s.exception) : Agreement t := by
  have old : ∀ (j : Nat) (x : Activation V E H F), t.acts[j]? = some x →
      ∃ y, s.acts[j]? = some y ∧ y.call = x.call ∧ wins x = wins y ∧ claims x = claims y := by
    intro j x hx
    rw [acts] at hx
    rcases set_lookup here hx with ⟨rfl, rfl⟩ | ⟨_, hx⟩
    · exact ⟨_, here, rfl, sameWins, sameClaims⟩
    · exact ⟨x, hx, rfl, rfl, rfl⟩
  refine ⟨by simpa only [flag, value, exception] using inv.unclaimed, ?_, ?_, ?_, ?_, ?_⟩
  · intro j x hx holds
    obtain ⟨y, hy, _, w, k⟩ := old j x hx
    rw [flag]
    exact inv.flagged j y hy (by simpa only [holdsFlag, w, k] using holds)
  · intro set
    obtain ⟨j, x, hx, holds⟩ := inv.claimant (flag ▸ set)
    by_cases moved : j = i
    · subst moved
      rw [here, Option.some.injEq] at hx
      subst hx
      refine ⟨j, ⟨c, pc'⟩, by rw [acts]; exact lookup_set here, ?_⟩
      simpa only [holdsFlag, sameWins, sameClaims] using holds
    · exact ⟨j, x, by rw [acts, List.getElem?_set_ne (Ne.symm moved)]; exact hx, holds⟩
  · intro j k x y hx hy px py
    obtain ⟨x', hx', _, wx, kx⟩ := old j x hx
    obtain ⟨y', hy', _, wy, ky⟩ := old k y hy
    exact inv.unique j k x' y' hx' hy' (by simpa only [holdsFlag, wx, kx] using px)
      (by simpa only [holdsFlag, wy, ky] using py)
  · intro j x hx claim
    obtain ⟨y, hy, _, _, k⟩ := old j x hx
    rw [value, exception]
    exact inv.early j y hy (k ▸ claim)
  · intro j x p hx won payload
    obtain ⟨y, hy, call, w, _⟩ := old j x hx
    exact holds_congr value exception p (inv.stored j y p hy (w ▸ won) (call ▸ payload))

theorem claim_agreement (inv : Agreement s) (here : s.acts[i]? = some ⟨c, .exchange⟩)
    (payload : c.payload.isSome) (acts : t.acts = s.acts.set i ⟨c, .weakLock⟩)
    (clear : s.resolved = false) (flag : t.resolved = true) (value : t.value = s.value)
    (exception : t.exception = s.exception) : Agreement t := by
  have only : ∀ (j : Nat) (x : Activation V E H F), t.acts[j]? = some x →
      holdsFlag x = true → j = i ∧ x = ⟨c, .weakLock⟩ := by
    intro j x hx holds
    rw [acts] at hx
    rcases set_lookup here hx with moved | ⟨_, hx⟩
    · exact moved
    · simp [inv.flagged j x hx holds] at clear
  have none_ : t.value = none ∧ t.exception = none := by
    rw [value, exception]
    exact inv.unclaimed clear
  refine ⟨fun _ => none_, fun _ _ _ _ => flag, fun _ => ?_, ?_, fun _ _ _ _ => none_, ?_⟩
  · refine ⟨i, ⟨c, .weakLock⟩, by rw [acts]; exact lookup_set here, ?_⟩
    simp [holdsFlag, claims, SettleOnce.early, payload]
  · intro j k x y hx hy px py
    exact (only j x hx px).1.trans (only k y hy py).1.symm
  · intro j x p hx won payload
    have at_ := (only j x hx (by simp [holdsFlag, won])).2
    simp [at_, wins, SettleOnce.stored] at won

theorem store_agreement {p : Payload V E} (inv : Agreement s)
    (here : s.acts[i]? = some ⟨c, .store⟩)
    (acts : t.acts = s.acts.set i ⟨c, .onResolved .settle⟩) (payload : c.payload = some p)
    (flag : t.resolved = s.resolved) (value : t.value = (s.put p).value)
    (exception : t.exception = (s.put p).exception) : Agreement t := by
  have claimed : claims (⟨c, .store⟩ : Activation V E H F) = true := by
    simp [claims, SettleOnce.early, payload]
  have set := inv.flagged i _ here (by simp [holdsFlag, claimed])
  have only : ∀ (j : Nat) (x : Activation V E H F), t.acts[j]? = some x →
      holdsFlag x = true → j = i ∧ x = ⟨c, .onResolved .settle⟩ := by
    intro j x hx holds
    rw [acts] at hx
    rcases set_lookup here hx with moved | ⟨other, hx⟩
    · exact moved
    · exact absurd (inv.unique j i x _ hx here holds (by simp [holdsFlag, claimed])) other
  refine ⟨fun clear => ?_, fun _ _ _ _ => flag.trans set, fun _ => ?_, ?_, ?_, ?_⟩
  · simp [flag, set] at clear
  · refine ⟨i, ⟨c, .onResolved .settle⟩, by rw [acts]; exact lookup_set here, ?_⟩
    simp [holdsFlag, wins, SettleOnce.stored, payload]
  · intro j k x y hx hy px py
    exact (only j x hx px).1.trans (only k y hy py).1.symm
  · intro j x hx claim
    have at_ := (only j x hx (by simp [holdsFlag, claim])).2
    simp [at_, claims, SettleOnce.early] at claim
  · intro j x q hx won pay
    have at_ := (only j x hx (by simp [holdsFlag, won])).2
    have same : p = q := by simpa [at_, payload] using pay
    exact same ▸ put_holds p (inv.early i _ here claimed) value exception

theorem effect_agreement (inv : Agreement s) (e : Effect s t) : Agreement t := by
  cases e with
  | same acts flag value exception =>
    constructor <;> simp only [acts, flag, value, exception]
    · exact inv.unclaimed
    · exact inv.flagged
    · exact inv.claimant
    · exact inv.unique
    · exact inv.early
    · exact fun i a p here won payload =>
        holds_congr value exception p (inv.stored i a p here won payload)
  | push c acts flag value exception => exact push_agreement inv acts flag value exception
  | quiet i c pc pc' here acts sameWins sameClaims flag value exception =>
    exact quiet_agreement inv here acts sameWins sameClaims flag value exception
  | claim i c here payload acts clear flag value exception =>
    exact claim_agreement inv here payload acts clear flag value exception
  | store i c p here acts payload flag value exception =>
    exact store_agreement inv here acts payload flag value exception

end Effects

theorem reached_agreement {s : State V E H F} (h : Reached s) : Agreement s :=
  reachable_invariant initial_agreement (fun _ _ _ inv taken => effect_agreement inv
    (step_effect taken)) h

theorem winner_step {s t : State V E H F} {l : Label V E H F} {i : Nat}
    {a : Activation V E H F} (inv : Agreement s) (here : s.acts[i]? = some a)
    (won : wins a = true) (h : step s l = some t) :
    (∃ b, t.acts[i]? = some b ∧ b.call = a.call ∧ wins b = true) ∧
      t.value = s.value ∧ t.exception = s.exception := by
  have set := inv.flagged i a here (by simp [holdsFlag, won])
  cases step_effect h with
  | same acts flag value exception => exact ⟨⟨a, acts ▸ here, rfl, won⟩, value, exception⟩
  | push c acts flag value exception =>
    exact ⟨⟨a, by rw [acts]; exact lookup_append here _, rfl, won⟩, value, exception⟩
  | quiet j c pc pc' there acts sameWins sameClaims flag value exception =>
    refine ⟨?_, value, exception⟩
    by_cases moved : i = j
    · subst moved
      rw [there, Option.some.injEq] at here
      subst here
      exact ⟨⟨c, pc'⟩, by rw [acts]; exact lookup_set there, rfl, sameWins.trans won⟩
    · exact ⟨a, by rw [acts, List.getElem?_set_ne (Ne.symm moved)]; exact here, rfl, won⟩
  | claim j c there payload acts clear flag value exception => simp [set] at clear
  | store j c p there acts payload flag value exception =>
    have claimed : claims (⟨c, .store⟩ : Activation V E H F) = true := by
      simp [claims, early, payload]
    have same := inv.unique i j a _ here there (by simp [holdsFlag, won])
      (by simp [holdsFlag, claimed])
    subst same
    rw [there, Option.some.injEq] at here
    subst here
    simp [claims_not_wins _ claimed] at won

theorem winner_run {s t : State V E H F} {ls : List (Label V E H F)} {i : Nat}
    {a : Activation V E H F} (reached : Reached s) (here : s.acts[i]? = some a)
    (won : wins a = true) (h : run step s ls = some t) :
    (∃ b, t.acts[i]? = some b ∧ b.call = a.call ∧ wins b = true) ∧
      t.value = s.value ∧ t.exception = s.exception := by
  induction ls generalizing s a with
  | nil =>
    simp only [run, Option.some.injEq] at h
    subst h
    exact ⟨⟨a, here, rfl, won⟩, rfl, rfl⟩
  | cons l ls ih =>
    obtain ⟨u, first, rest⟩ := Option.bind_eq_some_iff.mp h
    obtain ⟨⟨b, hb, call, wb⟩, value, exception⟩ :=
      winner_step (reached_agreement reached) here won first
    obtain ⟨⟨d, hd, call', wd⟩, value', exception'⟩ := ih (.next reached first) hb wb rest
    exact ⟨⟨d, hd, call'.trans call, wd⟩, value'.trans value, exception'.trans exception⟩

/-- Settle-once agreement over every reachable state and every continuation of it: one
    winner, never two outcomes, the winner's payload for good, and asserts that hold. -/
theorem settle_once {s : State V E H F} (reached : Reached s) :
    (∀ (i j : Nat) (a b : Activation V E H F), s.acts[i]? = some a → s.acts[j]? = some b →
      wins a = true → wins b = true → i = j) ∧
    (s.value = none ∨ s.exception = none) ∧
    (∀ (i : Nat) (a : Activation V E H F) (p : Payload V E), s.acts[i]? = some a →
      wins a = true → a.call.payload = some p → Holds s p ∧
        ∀ (ls : List (Label V E H F)) (t : State V E H F), run step s ls = some t →
          Holds t p) ∧
    (∀ (i : Nat) (a : Activation V E H F), s.acts[i]? = some a → a.call.payload.isSome →
      a.pc = .store → s.value = none ∧ s.exception = none) := by
  have inv := reached_agreement reached
  refine ⟨?_, ?_, ?_, ?_⟩
  · intro i j a b ha hb wa wb
    exact inv.unique i j a b ha hb (by simp [holdsFlag, wa]) (by simp [holdsFlag, wb])
  · by_cases set : s.resolved = true
    · obtain ⟨i, a, here, holds⟩ := inv.claimant set
      rcases Bool.or_eq_true_iff.mp holds with claim | won
      · exact .inl (inv.early i a here claim).1
      · obtain ⟨p, payload⟩ := Option.isSome_iff_exists.mp (Bool.and_eq_true_iff.mp won).1
        have stores := inv.stored i a p here won payload
        cases p with
        | value v => exact .inr stores.2
        | exception e => exact .inl stores.1
    · exact .inl (inv.unclaimed (by simpa using set)).1
  · intro i a p here won payload
    have stores := inv.stored i a p here won payload
    refine ⟨stores, fun ls t taken => ?_⟩
    obtain ⟨_, value, exception⟩ := winner_run reached here won taken
    exact holds_congr value exception p stores
  · intro i a here payload atStore
    exact inv.early i a here (by simp [claims, early, payload, atStore])

/-- A run in which `Resolve`, `Reject` and an unhandled exception race on one promise. -/
def threeAttempts : List (Label Nat Nat Nat Nat) :=
  [.call (.resolve 7 false), .call (.reject (some 1)), .call (.finalSuspend (.threw 2)),
    .step 1, .step 1, .step 0, .step 2, .step 1, .step 1, .step 1]

theorem settle_once_three_attempts :
    ∃ s, run step (initial true [] fun _ => .pending) threeAttempts = some s ∧
      s.value = none ∧ s.exception = some 1 ∧
      ∀ (ls : List (Label Nat Nat Nat Nat)) (t : State Nat Nat Nat Nat),
        run step s ls = some t → t.value = none ∧ t.exception = some 1 := by
  refine ⟨_, rfl, rfl, rfl, ?_⟩
  have reached : Reached (V := Nat) (E := Nat) (H := Nat) (F := Nat) _ :=
    run_reachable (.start ⟨true, [], fun _ => .pending, rfl⟩)
      (show run step (initial true [] fun _ => .pending) threeAttempts = some _ from rfl)
  exact ((settle_once reached).2.2.1 1 _ (.exception (some 1)) rfl rfl rfl).2

end SettleOnce
