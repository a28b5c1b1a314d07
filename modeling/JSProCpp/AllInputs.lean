import JSProCpp.FinalSuspend

/-
`promise::All` over a container: the coroutine that awaits the inputs one after the other,
and its promise, whose stored callable holds the container.
-/
namespace AllInputs
open Transitions SharedPromise StateOwners OrderedDelivery SettleOnce FinalSuspend
variable {V R E H F : Type}

inductive Input (V E : Type) where
  | pending
  | resolved (v : V)
  | rejected (e : E)
  deriving DecidableEq

def Input.isPending : Input V E → Bool
  | .pending => true
  | _ => false

/-- The loop is about to `co_await` input `k`, or suspended there, or the body has ended. -/
inductive Loop (V : Type) where
  | awaits (k : Nat) (results : List V)
  | ended
  deriving DecidableEq

structure AllState (V R E H F : Type) where
  inputs : List (Input V E)
  loop : Loop V
  promise : State R E H F

def pendingAt (inputs : List (Input V E)) (j : Nat) : Bool := inputs[j]?.any Input.isPending

inductive AllLabel (V R E H F : Type) where
  | settle (j : Nat) (o : Input V E)
  | finish (j : Nat)
  | resume
  | own (l : Label R E H F)
  deriving DecidableEq

/-- `All` is called on inputs in any state; `finished j` says that input `j`, if settled, has
    no live coroutine. -/
def allInitial (inputs : List (Input V E)) (finished : Nat → Bool) : AllState V R E H F where
  inputs := inputs
  loop := .awaits 0 []
  promise := initial true (List.range inputs.length) fun j =>
    if pendingAt inputs j then .pending
    else if finished j then .finished else .stored

/-- Nobody but its own coroutine settles the promise of `All`. -/
def outside : Label R E H F → Bool
  | .call c => c.payload.isNone && !isFinal c
  | .other _ _ => false
  | _ => true

/-- The body ends and `final_suspend` starts. -/
def AllState.finish (a : AllState V R E H F) (c : Completion R E) :
    Option (AllState V R E H F) :=
  (step a.promise (.call (.finalSuspend c))).map fun p => { a with loop := .ended, promise := p }

def allStep (pack : List V → R) (a : AllState V R E H F) :
    AllLabel V R E H F → Option (AllState V R E H F)
  | .settle j o =>
      if pendingAt a.inputs j && !o.isPending then
        (step a.promise (.other j .stored)).map fun p =>
          { a with inputs := a.inputs.set j o, promise := p }
      else none
  | .finish j =>
      if pendingAt a.inputs j then none
      else (step a.promise (.other j .finished)).map fun p => { a with promise := p }
  | .resume =>
      match a.loop with
      | .ended => none
      | .awaits k results =>
          match a.inputs[k]? with
          | none => a.finish (.returned (pack results))
          | some .pending => none
          | some (.resolved v) => some { a with loop := .awaits (k + 1) (results ++ [v]) }
          | some (.rejected e) => a.finish (.threw e)
  | .own l => if outside l then (step a.promise l).map fun p => { a with promise := p } else none

structure Waiting (a : AllState V R E H F) (k : Nat) (results : List V) : Prop where
  running : a.promise.running = true
  function : a.promise.function = List.range a.inputs.length
  clear : a.promise.resolved = false
  idle : ∀ (i : Nat) (x : Activation R E H F), a.promise.acts[i]? = some x →
    x.call.payload = none
  before : results.length = k ∧ ∀ j, j < k → ∃ v, a.inputs[j]? = some (.resolved v) ∧
    results[j]? = some v

structure Inputs (a : AllState V R E H F) : Prop where
  reached : Reached a.promise
  sync : ∀ j, a.promise.others j = .pending ↔ pendingAt a.inputs j = true
  waiting : ∀ k results, a.loop = .awaits k results → Waiting a k results

theorem initial_inputs (inputs : List (Input V E)) (finished : Nat → Bool) :
    Inputs (allInitial (R := R) (H := H) (F := F) inputs finished) where
  reached := .start ⟨true, _, _, rfl⟩
  sync := by
    intro j
    simp only [allInitial, initial]
    by_cases pending : pendingAt inputs j = true
    · simp [pending]
    · by_cases done : finished j = true <;> simp [pending, done]
  waiting := by
    intro k results at_
    simp only [allInitial, Loop.awaits.injEq] at at_
    obtain ⟨rfl, rfl⟩ := at_
    refine ⟨rfl, rfl, rfl, by simp [allInitial, initial], rfl, by simp⟩

theorem move_flags {s t : State R E H F} {i : Nat} {c : Call R E H F} {pc : Pc H F}
    (m : Move s i c pc t) :
    t.running = s.running ∧ (t.resolved = s.resolved ∨ c.payload.isSome) := by
  cases m with
  | claim payload clear => exact ⟨rfl, .inr payload⟩
  | store p payload total => cases p <;> exact ⟨rfl, .inl rfl⟩
  | body u result run =>
    exact ⟨(lockedBody_finalization run).2.1, .inl (lockedBody_spared i run).resolved⟩
  | _ => exact ⟨rfl, .inl rfl⟩

theorem outside_step {s t : State R E H F} {l : Label R E H F} (ends : Finalization s)
    (running : s.running = true) (clear : s.resolved = false)
    (idle : ∀ (i : Nat) (x : Activation R E H F), s.acts[i]? = some x → x.call.payload = none)
    (out : outside l = true) (h : step s l = some t) :
    t.running = true ∧ t.function = s.function ∧ t.resolved = false ∧
      ∀ (i : Nat) (x : Activation R E H F), t.acts[i]? = some x → x.call.payload = none := by
  cases step_change h with
  | call c started =>
    obtain ⟨plain, calm⟩ := Bool.and_eq_true_iff.mp out
    have pushed : ∀ (i : Nat) (x : Activation R E H F),
        (s.acts ++ [⟨c, c.entry⟩])[i]? = some x → x.call.payload = none := by
      intro i x hx
      rcases append_lookup hx with ⟨_, rfl⟩ | hx
      · simpa using plain
      · exact idle i x hx
    cases started with
    | final e on => simp [isFinal] at calm
    | close _ k which live => exact ⟨running, rfl, clear, pushed⟩
    | plain _ body => exact ⟨running, rfl, clear, pushed⟩
  | step i c pc here move =>
    obtain ⟨pc', acts, _⟩ := move_uses move
    have none_ := (ends.running running).2 i _ here
    have settles : c.payload = none := idle i _ here
    have acts_idle : ∀ (j : Nat) (x : Activation R E H F), t.acts[j]? = some x →
        x.call.payload = none := by
      intro j x hx
      rw [acts] at hx
      rcases set_lookup here hx with ⟨_, rfl⟩ | ⟨_, hx⟩
      · exact settles
      · exact idle j x hx
    obtain ⟨on, flag⟩ := move_flags move
    have still : t.resolved = s.resolved := by simpa [settles] using flag
    obtain ⟨_, same | ⟨won, rfl⟩⟩ := move_function move
    · exact ⟨on.trans running, same, still.trans clear, acts_idle⟩
    · simp [ends.scope i _ here rfl] at none_
  | copy k live same | move k live same | overwrite k live same =>
    subst same
    exact ⟨running, rfl, clear, idle⟩
  | other j c later same => simp [outside] at out

theorem pendingAt_set (inputs : List (Input V E)) (j k : Nat) {o : Input V E}
    (settled : o.isPending = false) :
    pendingAt (inputs.set j o) k = true ↔ k ≠ j ∧ pendingAt inputs k = true := by
  by_cases same : k = j
  · subst same
    simp only [pendingAt, List.getElem?_set_self']
    cases inputs[k]? <;> simp [settled]
  · simp [pendingAt, List.getElem?_set_ne (Ne.symm same), same]

theorem other_sync {inputs inputs' : List (Input V E)} {others : Nat → Captured} {j : Nat}
    {c : Captured} (sync : ∀ k, others k = .pending ↔ pendingAt inputs k = true)
    (settled : c ≠ .pending)
    (same : ∀ k, pendingAt inputs' k = true ↔ k ≠ j ∧ pendingAt inputs k = true) (k : Nat) :
    Function.update others j c k = .pending ↔ pendingAt inputs' k = true := by
  rw [same k]
  by_cases here : k = j
  · subst here
    simp [settled]
  · simp [here, sync k]

/-- The end of the body: `final_suspend` starts on a promise that nobody has tried to settle. -/
theorem finish_inputs {a b : AllState V R E H F} {c : Completion R E} (inv : Inputs a)
    (h : a.finish c = some b) : Inputs b := by
  obtain ⟨p, taken, rfl⟩ := Option.map_eq_some_iff.mp h
  have others : p.others = a.promise.others := by
    cases step_change taken with
    | call _ started => cases started <;> rfl
  refine ⟨.next inv.reached taken, fun j => ?_, by simp⟩
  rw [others]
  exact inv.sync j

theorem outside_others {s t : State R E H F} {l : Label R E H F} (out : outside l = true)
    (h : step s l = some t) : t.others = s.others := by
  cases step_change h with
  | call c started => cases started <;> rfl
  | step i c pc here move => exact (move_function move).1
  | copy k live same | move k live same | overwrite k live same =>
    subst same
    rfl
  | other j c later same => simp [outside] at out

theorem step_inputs {pack : List V → R} {a b : AllState V R E H F} {l : AllLabel V R E H F}
    (inv : Inputs a) (h : allStep pack a l = some b) : Inputs b := by
  cases l with
  | settle j o =>
    simp only [allStep] at h
    split at h
    · rename_i guard
      obtain ⟨was, settled⟩ := Bool.and_eq_true_iff.mp guard
      rw [Bool.not_eq_true'] at settled
      obtain ⟨p, taken, rfl⟩ := Option.map_eq_some_iff.mp h
      refine ⟨.next inv.reached taken, ?_, ?_⟩
      · cases step_change taken with
        | other _ _ later same =>
          subst same
          exact other_sync inv.sync (by simp) fun k => pendingAt_set a.inputs j k settled
      · intro k results at_
        have waiting := inv.waiting k results at_
        cases step_change taken with
        | other _ _ later same =>
          subst same
          refine ⟨waiting.running, ?_, waiting.clear, waiting.idle, waiting.before.1, ?_⟩
          · rw [List.length_set]
            exact waiting.function
          · intro i below
            obtain ⟨v, here, result⟩ := waiting.before.2 i below
            have other : j ≠ i := by
              rintro rfl
              simp [pendingAt, here, Input.isPending] at was
            exact ⟨v, by rw [List.getElem?_set_ne other]; exact here, result⟩
    · simp at h
  | finish j =>
    simp only [allStep] at h
    split at h
    · simp at h
    · rename_i settled
      obtain ⟨p, taken, rfl⟩ := Option.map_eq_some_iff.mp h
      have reached := Reachable.next inv.reached taken
      cases step_change taken with
      | other _ _ later same =>
        subst same
        refine ⟨reached, ?_, fun k results at_ => { inv.waiting k results at_ with }⟩
        refine other_sync inv.sync (by simp) fun k => ⟨fun pending => ⟨?_, pending⟩, And.right⟩
        rintro rfl
        exact settled pending
  | resume =>
    simp only [allStep] at h
    split at h
    · simp at h
    · rename_i k results at_
      have waiting := inv.waiting k results at_
      split at h
      · exact finish_inputs inv h
      · simp at h
      · rename_i v here
        simp only [Option.some.injEq] at h
        subst h
        refine ⟨inv.reached, inv.sync, ?_⟩
        intro k' results' at'
        simp only [Loop.awaits.injEq] at at'
        obtain ⟨rfl, rfl⟩ := at'
        obtain ⟨length, before⟩ := waiting.before
        refine { waiting with before := ⟨by simp [length], fun j below => ?_⟩ }
        by_cases last : j = k
        · subst last
          exact ⟨v, here, by simp [← length]⟩
        · obtain ⟨w, there, result⟩ := before j (by omega)
          refine ⟨w, there, ?_⟩
          rw [List.getElem?_append_left (by omega)]
          exact result
      · exact finish_inputs inv h
  | own l =>
    simp only [allStep] at h
    split at h
    · rename_i out
      obtain ⟨p, taken, rfl⟩ := Option.map_eq_some_iff.mp h
      refine ⟨.next inv.reached taken, ?_, ?_⟩
      · intro j
        rw [outside_others out taken]
        exact inv.sync j
      · intro k results at_
        have waiting := inv.waiting k results at_
        obtain ⟨running, function, clear, idle⟩ := outside_step
          (reached_finalization inv.reached) waiting.running waiting.clear waiting.idle out taken
        exact ⟨running, function.trans waiting.function, clear, idle, waiting.before⟩
    · simp at h

def AllInitial (a : AllState V R E H F) : Prop :=
  ∃ inputs finished, a = allInitial inputs finished

theorem reached_inputs {pack : List V → R} {a : AllState V R E H F}
    (h : Reachable (allStep pack) AllInitial a) : Inputs a := by
  refine reachable_invariant (fun a fresh => ?_) (fun _ _ _ inv taken => step_inputs inv taken) h
  obtain ⟨inputs, finished, rfl⟩ := fresh
  exact initial_inputs inputs finished

def undisturbed : AllLabel V R E H F → Bool
  | .settle _ _ | .finish _ => false
  | _ => true

theorem ended_run {pack : List V → R} {a b : AllState V R E H F}
    {ls : List (AllLabel V R E H F)} (ended : a.loop = .ended)
    (calm : ∀ l ∈ ls, undisturbed l = true) (h : run (allStep pack) a ls = some b) :
    ∃ ms, (∀ m ∈ ms, Quiet m) ∧ run step a.promise ms = some b.promise := by
  induction ls generalizing a with
  | nil =>
    simp only [run, Option.some.injEq] at h
    exact ⟨[], by simp, by rw [h]; rfl⟩
  | cons l ls ih =>
    obtain ⟨u, first, rest⟩ := Option.bind_eq_some_iff.mp h
    have later : ∀ m ∈ ls, undisturbed m = true :=
      fun m member => calm m (List.mem_cons_of_mem _ member)
    cases l with
    | settle j o | finish j => simpa [undisturbed] using calm _ List.mem_cons_self
    | resume => simp [allStep, ended] at first
    | own m =>
      simp only [allStep] at first
      split at first
      · rename_i out
        obtain ⟨p, taken, rfl⟩ := Option.map_eq_some_iff.mp first
        obtain ⟨ms, quiet, tail⟩ := ih (a := { a with promise := p }) ended later rest
        refine ⟨m :: ms, fun x member => ?_, run_cons taken tail⟩
        rcases List.mem_cons.mp member with rfl | old
        · rintro j c rfl
          simp [outside] at out
        · exact quiet x old
      · simp at first

theorem own_run {pack : List V → R} {a : AllState V R E H F} {p : State R E H F}
    {ms : List (Label R E H F)} (steps : Steps ms) (h : run step a.promise ms = some p) :
    run (allStep pack) a (ms.map .own) = some { a with promise := p } := by
  induction ms generalizing a with
  | nil =>
    simp only [run, Option.some.injEq] at h
    subst h
    rfl
  | cons m ms ih =>
    obtain ⟨u, first, rest⟩ := Option.bind_eq_some_iff.mp h
    obtain ⟨j, rfl⟩ := steps m List.mem_cons_self
    have taken : allStep pack a (.own (.step j)) = some { a with promise := u } := by
      simp [allStep, outside, first]
    have tail := ih (a := { a with promise := u })
      (fun m member => steps m (List.mem_cons_of_mem _ member)) rest
    exact run_cons taken tail

theorem captured_settled {a : AllState V R E H F} {k : Nat} {results : List V} {e : E}
    (inv : Inputs a) (at_ : a.loop = .awaits k results)
    (rejected : a.inputs[k]? = some (.rejected e)) :
    (∀ j ∈ a.promise.function, a.promise.others j ≠ .pending) ↔
      ∀ j, k < j → pendingAt a.inputs j = false := by
  have waiting := inv.waiting k results at_
  rw [waiting.function]
  constructor
  · intro settled j _
    by_cases inside : j < a.inputs.length
    · have done := settled j (List.mem_range.mpr inside)
      rw [ne_eq, inv.sync j] at done
      simpa using done
    · simp [pendingAt, List.getElem?_eq_none (Nat.le_of_not_lt inside)]
  · intro later j _ pending
    have waits := (inv.sync j).mp pending
    by_cases before : j < k
    · obtain ⟨v, here, _⟩ := waiting.before.2 j before
      simp [pendingAt, here, Input.isPending] at waits
    · by_cases here : j = k
      · subst here
        simp [pendingAt, rejected, Input.isPending] at waits
      · simp [later j (by omega)] at waits

theorem all_returns_iff {pack : List V → R} {a : AllState V R E H F} {k : Nat}
    {results : List V} {e : E} (reached : Reachable (allStep pack) AllInitial a)
    (at_ : a.loop = .awaits k results) (rejected : a.inputs[k]? = some (.rejected e))
    (owned : a.promise.owned = true) :
    ∃ b i, allStep pack a .resume = some b ∧
      ((∃ ls c, (∀ l ∈ ls, undisturbed l = true) ∧ run (allStep pack) b ls = some c ∧
          Returned i (.threw e) true c.promise ∧ c.promise.exception = some e ∧
          c.promise.awaiters = []) ↔
        ∀ j, k < j → pendingAt a.inputs j = false) := by
  have inv := reached_inputs reached
  have waiting := inv.waiting k results at_
  let p : State R E H F :=
    ({ a.promise with running := false }).push (.finalSuspend (.threw e))
  let b : AllState V R E H F := { a with loop := .ended, promise := p }
  have started : step a.promise (.call (.finalSuspend (.threw e))) = some p := by
    simp [step, start, waiting.running, p]
  have taken : allStep pack a .resume = some b := by
    simp [allStep, at_, rejected, AllState.finish, started, b]
  have fresh : Reached p := .next inv.reached started
  have here : p.acts[a.promise.acts.length]? = some ⟨.finalSuspend (.threw e),
      (Call.finalSuspend (.threw e) : Call R E H F).entry⟩ := List.getElem?_concat_length
  have settled : (∀ j ∈ p.function, p.others j ≠ .pending) ↔
      ∀ j, k < j → pendingAt a.inputs j = false :=
    captured_settled inv at_ rejected
  refine ⟨b, a.promise.acts.length, taken, ?_⟩
  rw [← settled]
  constructor
  · rintro ⟨ls, c, calm, run_, returned, _⟩
    obtain ⟨ms, quiet, ran⟩ := ended_run rfl calm run_
    exact (returns_iff fresh owned here).mp ⟨ms, c.promise, true, quiet, ran, returned⟩
  · intro ready
    obtain ⟨ms, t, won, steps, ran, returned, wins⟩ := steps_return fresh owned here ready
    have first : won = true := wins waiting.clear rfl
    subst first
    have holds := (reached_agreement (run_reachable fresh ran)).stored _ _
      (.exception (some e)) returned.act rfl rfl
    have done : t.isDone = true := by simp [State.isDone, holds.2]
    refine ⟨ms.map .own, { b with promise := t }, ?_, own_run steps ran, returned, holds.2,
      returned.delivered done⟩
    intro l member
    obtain ⟨m, _, rfl⟩ := List.mem_map.mp member
    rfl

/-- Finalization and other promises: `final_suspend` of a promise completes on its own, and a
    rejection delivered to `All` returns, exactly when no captured promise is pending. -/
theorem finalization_waits_iff (pack : List V → R) :
    (∀ (s : State R E H F) (i : Nat) (c : Completion R E), Reached s → s.owned = true →
      s.acts[i]? = some ⟨.finalSuspend c, (Call.finalSuspend c : Call R E H F).entry⟩ →
      ((∃ ls t won, (∀ l ∈ ls, Quiet l) ∧ run step s ls = some t ∧ Returned i c won t) ↔
        ∀ j ∈ s.function, s.others j ≠ .pending)) ∧
    ∀ (a : AllState V R E H F) (k : Nat) (results : List V) (e : E),
      Reachable (allStep pack) AllInitial a → a.loop = .awaits k results →
      a.inputs[k]? = some (.rejected e) → a.promise.owned = true →
      ∃ b i, allStep pack a .resume = some b ∧
        ((∃ ls c, (∀ l ∈ ls, undisturbed l = true) ∧ run (allStep pack) b ls = some c ∧
            Returned i (.threw e) true c.promise ∧ c.promise.exception = some e ∧
            c.promise.awaiters = []) ↔
          ∀ j, k < j → pendingAt a.inputs j = false) :=
  ⟨fun _ _ _ reached owned here => returns_iff reached owned here,
    fun _ _ _ _ reached at_ rejected owned => all_returns_iff reached at_ rejected owned⟩

def rejectedThenResolved : List (AllLabel Nat (List Nat) Nat Nat Nat) :=
  [.settle 0 (.rejected 9)]

theorem finalization_waits_settled :
    ∃ a, run (allStep id) (allInitial [.pending, .resolved 5] fun _ => true)
        rejectedThenResolved = some a ∧
      ∃ b i, allStep id a .resume = some b ∧
        ∃ ls c, (∀ l ∈ ls, undisturbed l = true) ∧ run (allStep id) b ls = some c ∧
          Returned i (.threw 9) true c.promise ∧ c.promise.exception = some 9 ∧
          c.promise.awaiters = [] := by
  refine ⟨_, rfl, ?_⟩
  have reached : Reachable (allStep (E := Nat) (H := Nat) (F := Nat) (id : List Nat → List Nat))
      AllInitial _ :=
    run_reachable (.start ⟨[.pending, .resolved 5], fun _ => true, rfl⟩)
      (show run (allStep id) (allInitial [.pending, .resolved 5] fun _ => true)
        rejectedThenResolved = some _ from rfl)
  obtain ⟨b, i, taken, returns⟩ := (finalization_waits_iff id).2 _ 0 [] 9 reached rfl rfl rfl
  refine ⟨b, i, taken, returns.mpr fun j later => ?_⟩
  match j, later with
  | 1, _ => rfl
  | j + 2, _ => rfl

def rejectedBeforePending : List (AllLabel Nat (List Nat) Nat Nat Nat) :=
  [.settle 0 (.rejected 9), .resume]

theorem all_waits_pending :
    ∃ b, run (allStep id) (allInitial [.pending, .pending] fun _ => true)
        rejectedBeforePending = some b ∧
      b.promise.acts[0]? = some ⟨.finalSuspend (.threw 9), .exchange⟩ ∧
      ∀ ls c won, (∀ l ∈ ls, undisturbed l = true) → run (allStep id) b ls = some c →
        c.promise.acts[0]? ≠ some ⟨.finalSuspend (.threw 9), .returned won⟩ := by
  refine ⟨_, rfl, rfl, fun ls c won calm taken => ?_⟩
  have reached : Reachable (allStep (E := Nat) (H := Nat) (F := Nat) (id : List Nat → List Nat))
      AllInitial _ :=
    run_reachable (.start ⟨[.pending, .pending], fun _ => true, rfl⟩)
      (show run (allStep id) (allInitial [.pending, .pending] fun _ => true)
        rejectedBeforePending = some _ from rfl)
  obtain ⟨ms, quiet, ran⟩ := ended_run rfl calm taken
  have still := blocked_run (i := 0) (e := .threw 9)
    (reached_finalization (reached_inputs reached).reached)
    (entry_blocked rfl ⟨1, by decide, rfl⟩) quiet ran
  exact blocked_not_returned still won

end AllInputs
