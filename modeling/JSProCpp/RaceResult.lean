import JSProCpp.RaceCall

/- The promise `Race` gives back: it settles, once, with the outcome of an input, and takes the
   registrations of the race on the other inputs back. -/
namespace RaceSettlement
open Transitions Interleaving PromiseCells
variable {V E : Type}

section Rest
variable {r : Race} {s : State V E}

def Target.weight : Target → Nat
  | .handle => 4
  | .finally_ _ _ => 5
  | .other _ _ => 1

def Instr.weight : Instr V E → Nat
  | .settling i => i.weight
  | .callback _ t => t.weight
  | .race _ => 12
  | .skip _ => 1
  | .attach _ => 11
  | .wrap _ _ => 6
  | .func _ _ _ _ => 4

def Awaiter.weight (a : Awaiter) : Nat := a.target.weight

def places (r : Race) (s : State V E) : Finset Pid :=
  r.inputs.toFinset.image .input ∪ (Finset.range (s.stack.length + 1)).image .race

def cost (r : Race) (s : State V E) : Nat := Family.waiting Awaiter.weight (places r s) s.cells

theorem input_place (p : Nat) : .input p ∈ places r s ↔ p ∈ r.inputs := by
  simp [places]

theorem race_place (j : Nat) : .race j ∈ places r s ↔ j ≤ s.stack.length := by
  rw [← Nat.lt_succ_iff]
  simp [places]

theorem put_lower {c : Pid} {x : Cell Awaiter (Option V) E}
    (less : (x.awaiters.map Awaiter.weight).sum ≤ ((s.cells c).awaiters.map Awaiter.weight).sum) :
    cost r (s.put c x) ≤ cost r s := by
  have lower : ∀ d ∈ places r s, ((s.cells.put c x d).awaiters.map Awaiter.weight).sum ≤
      ((s.cells d).awaiters.map Awaiter.weight).sum := by
    intro d _
    rw [Family.put_at]
    split
    · rename_i here
      exact here ▸ less
    · exact Nat.le_refl _
  exact Finset.sum_le_sum lower

theorem wrapped_cost (inv : Inv r s) (p id : Nat) : cost r (s.wrapped p id) = cost r s := by
  have grown : places r (s.wrapped p id) = insert (.race (s.stack.length + 1)) (places r s) := by
    ext c
    rw [Finset.mem_insert]
    cases c with
    | input q => simp [input_place]
    | race j =>
      simp only [race_place, State.wrapped, List.length_append, List.length_singleton,
        Pid.race.injEq]
      omega
  have outside : Pid.race (s.stack.length + 1) ∉ places r s := by
    rw [race_place]
    omega
  have empty : (s.cells (.race (s.stack.length + 1))).awaiters = [] := by
    refine List.eq_nil_iff_forall_not_mem.mpr fun a there => ?_
    obtain ⟨q, n, _, link⟩ := inv.wrappers _ a there
    have inside := lookup_inside link
    omega
  unfold cost Family.waiting
  rw [grown, Finset.sum_insert outside]
  simp [State.wrapped, empty]

theorem unAwait_waiting (x : Cell Awaiter (Option V) E) (id : Nat) :
    ((unAwait x id).awaiters.map Awaiter.weight).sum ≤ (x.awaiters.map Awaiter.weight).sum :=
  (List.eraseP_sublist.map _).sum_le_sum (by simp)

theorem callback_weight_lt (c : Pid) (t : Target) :
    ((callback r s c t).map Instr.weight).sum < (.callback c t : Instr V E).weight := by
  unfold callback
  split
  · split
    · rename_i p _ o done
      have bound := settling_weight_le (Pid.race 0) (r.handled p o)
      simp only [List.map_cons, List.map_nil, List.sum_cons, List.sum_nil]
      exact Nat.lt_succ_of_le bound
    · simp [Instr.weight, Target.weight]
  · split
    · simp [Instr.weight, Target.weight]
    · simp [Instr.weight, Target.weight]
  · cases t <;> simp [Instr.weight, Target.weight]

theorem justified_place {c : Pid} {o : Result V E} (just : Justified r s o c) :
    c ∈ places r s := by
  cases c with
  | input p => exact (input_place p).mpr just.1
  | race j =>
    rw [race_place]
    cases j with
    | zero => omega
    | succ j =>
      obtain ⟨_, p, id, link, _⟩ := just
      have inside := lookup_inside link
      omega

theorem fit_place {i : Settling Pid (Option V) E} (fit : Fit r s (.settling i)) :
    i.cell ∈ places r s := by
  cases i with
  | reject c o => exact justified_place fit
  | claim c o => exact justified_place fit
  | store c o => exact justified_place fit.1
  | clear c =>
    obtain ⟨p, member, rfl⟩ := fit
    exact (input_place p).mpr member

theorem exec_lowers {i : Instr V E} (inv : Inv r s) (fit : Fit r s i) :
    cost r (exec r i s).1 + ((exec r i s).2.map Instr.weight).sum < cost r s + i.weight := by
  cases i with
  | settling i =>
    have change : cost r (s.put i.cell (settle (s.cells i.cell) i).cell) +
        ((settle (s.cells i.cell) i).flushed.map Awaiter.weight).sum = cost r s :=
      Family.waiting_settle _ (places r s) _ i (fit_place fit)
    have next : ((settle (s.cells i.cell) i).next.map
        fun j => (.settling j : Instr V E).weight).sum < (.settling i : Instr V E).weight :=
      next_weight (s.cells i.cell) i
    simp only [exec, List.map_append, List.map_map, List.sum_append, Function.comp_def]
    have callbacks : ((settle (s.cells i.cell) i).flushed.map
        fun a => (.callback i.cell a.target : Instr V E).weight).sum =
        ((settle (s.cells i.cell) i).flushed.map Awaiter.weight).sum := rfl
    omega
  | callback c t =>
    have less := callback_weight_lt (r := r) (s := s) c t
    simp only [exec]
    omega
  | race p =>
    simp only [exec]
    split <;> simp [Instr.weight]
  | skip p =>
    have lower : cost r (s.put (.input p)
        { s.cells (.input p) with useCount := (s.cells (.input p)).useCount + 1 }) ≤ cost r s :=
      put_lower (Nat.le_refl _)
    exact Nat.lt_succ_of_le lower
  | attach p =>
    simp only [exec]
    split
    · rename_i o done
      have bound := settling_weight_le (Pid.race 0) (r.handled p o)
      simp only [List.map_cons, List.map_nil, List.sum_cons, List.sum_nil]
      simp only [Instr.weight]
      omega
    · have change : cost r (s.put (.input p) ((s.cells (.input p)).register (⟨.handle, ·⟩))) =
          cost r s + 4 :=
        Family.waiting_register _ _ _ _ ((input_place p).mpr fit)
      simp only [change, List.map_cons, List.map_nil, List.sum_cons, List.sum_nil, Instr.weight]
      omega
  | wrap p id =>
    have grown := wrapped_cost inv p id
    simp only [exec]
    split
    · simp only [List.map_cons, List.map_nil, List.sum_cons, List.sum_nil, Instr.weight]
      omega
    · have here : .race s.stack.length ∈ places r (s.wrapped p id) := by
        simp [race_place, State.wrapped]
      have change : cost r ((s.wrapped p id).put (.race s.stack.length)
          ((s.cells (.race s.stack.length)).register (⟨.finally_ p id, ·⟩))) =
          cost r (s.wrapped p id) + 5 :=
        Family.waiting_register _ _ _ _ here
      simp only [change, List.map_nil, List.sum_nil, Instr.weight]
      omega
  | func j p id o =>
    have lower := put_lower (r := r) (unAwait_waiting (s.cells (.input p)) id)
    have bound := settling_weight_le (Pid.race (j + 1)) o
    simp only [exec, List.map_cons, List.map_nil, List.sum_cons, List.sum_nil, Instr.weight]
    omega

end Rest

/-- The outcome of the promise `Race` gives back. -/
def result (m : Machine (State V E) (Instr V E)) : Option (Result V E) :=
  m.shared.outcome (.race m.shared.stack.length)

/-- `Race` has walked along all its arguments. -/
def Walked (r : Race) (m : Machine (State V E) (Instr V E)) : Prop :=
  r.inputs.length ≤ m.shared.pos ∧ ∀ i, Has m i → i.walks = false

section Result
variable {r : Race} {m n : Machine (State V E) (Instr V E)}

theorem walked_step {l : Label (Event V E)} (walked : Walked r m)
    (taken : step (program r) m l = some n) :
    Walked r n ∧ n.shared.stack = m.shared.stack := by
  obtain ⟨past, still⟩ := walked
  cases step_change taken with
  | fork => exact ⟨⟨past, fun i has => still i (has_fork.mp has)⟩, rfl⟩
  | start t e s is idle spawned =>
    have other : e ≠ .next := by
      rintro rfl
      simp only [program, spawn, Option.ite_none_right_eq_some, Option.map_eq_some_iff] at spawned
      obtain ⟨_, p, here, _⟩ := spawned
      have inside := lookup_inside here
      omega
    have apart := spawn_apart spawned other
    refine ⟨⟨by rw [apart.pos]; exact past, fun x has => ?_⟩, apart.stack⟩
    rcases has_of_set has with old | new
    · exact still x old
    · exact foreign_still (apart.foreign x new)
  | run t i rest here =>
    have before := still i (has_here here List.mem_cons_self)
    refine ⟨⟨(exec_place (r := r) (s := m.shared) i).1.symm ▸ past, fun x has => ?_⟩,
      exec_stack before⟩
    rcases has_of_set has with old | new
    · exact still x old
    · rcases List.mem_append.mp new with pushed | later
      · by_contra walks
        rw [Bool.not_eq_false] at walks
        have walked := (exec_walks pushed walks).1
        simp [before] at walked
      · exact still x (has_here here (List.mem_cons_of_mem _ later))

theorem result_run {ls : List (Label (Event V E))} (reached : Reached r m) (walked : Walked r m)
    (ran : run (step (program r)) m ls = some n) :
    Walked r n ∧ ∀ o, result m = some o → result n = some o := by
  induction ls generalizing m with
  | nil =>
    simp only [run, Option.some.injEq] at ran
    exact ran ▸ ⟨walked, fun _ done => done⟩
  | cons l ls ih =>
    obtain ⟨u, taken, rest⟩ := Option.bind_eq_some_iff.mp ran
    obtain ⟨walked', stack⟩ := walked_step walked taken
    obtain ⟨last, later⟩ := ih (.next reached taken) walked' rest
    refine ⟨last, fun o done => later o ?_⟩
    unfold result
    rw [stack]
    exact step_outcome reached taken done

theorem result_won (reached : Reached r m) {o : Result V E} (done : result m = some o) :
    ∃ p ∈ r.inputs, m.shared.outcome (.input p) = some o := by
  have inv := (reached_sound reached).inv
  exact inv.justified (.race 0) o (first_done inv done)

theorem before_done (inv : Inv r m.shared) {o : Result V E} {j k : Nat}
    (done : m.shared.outcome (.race k) = some o) (early : j ≤ k) :
    m.shared.outcome (.race j) = some o := by
  induction k with
  | zero =>
    obtain rfl : j = 0 := by omega
    exact done
  | succ k ih =>
    by_cases last : j = k + 1
    · exact last ▸ done
    · exact ih (inv.justified _ o done).1 (by omega)

theorem losers_clean (reached : Reached r m) (walked : Walked r m) (done : result m ≠ none)
    {p : Nat} (pending : m.shared.outcome (.input p) = none) :
    (m.shared.cells (.input p)).awaiters = m.shared.others p := by
  obtain ⟨o, done⟩ := Option.ne_none_iff_exists'.mp done
  have inv := (reached_sound reached).inv
  have others : ∀ a ∈ (m.shared.cells (.input p)).awaiters, a.isOther = true := by
    intro a there
    refine (inv.targets p a there).resolve_right ?_
    rintro ⟨handle, _⟩
    have mine : ⟨.handle, a.id⟩ ∈ (m.shared.cells (.input p)).awaiters := by
      rw [← handle]
      exact there
    have linked : ∃ j : Nat, m.shared.stack[j]? = some (p, a.id) := by
      by_contra unlinked
      obtain ⟨i, has, pays⟩ := reached_covered reached (.wrap p a.id)
        ⟨mine, fun j link => unlinked ⟨j, link⟩⟩
      have walks := walked.2 i has
      simp [show i = .wrap p a.id from pays, Instr.walks] at walks
    obtain ⟨j, link⟩ := linked
    have settled := before_done inv done (Nat.succ_le_of_lt (lookup_inside link))
    obtain ⟨_, q, id, link', absent⟩ := inv.justified (.race (j + 1)) o settled
    rw [link, Option.some.injEq, Prod.mk.injEq] at link'
    obtain ⟨rfl, rfl⟩ := link'
    exact absent mine
  rw [← inv.shadow p pending, List.filter_eq_self.mpr others]

theorem idle_told (reached : Reached r m) (idle : Idle m) {p : Nat}
    (done : m.shared.outcome (.input p) ≠ none) : ¬Waiting m.shared p := by
  have inv := (reached_sound reached).inv
  rintro ⟨a, there, _⟩
  cases held : (m.shared.cells (.input p)).handle with
  | false =>
    rw [inv.emptied p held done] at there
    simp at there
  | true =>
    obtain ⟨o, done⟩ := Option.ne_none_iff_exists'.mp done
    have coroutine := inv.held p held
    have finished := (inv.justified _ o done).2.2 coroutine
    exact nothing_owed (reached_covered reached) idle (.clear p) ⟨coroutine, finished, held⟩

/-- Once all settlements have run to their end, a race with a settled input has settled. -/
theorem idle_settled (reached : Reached r m) (walked : Walked r m) (idle : Idle m) {p : Nat}
    (member : p ∈ r.inputs) (done : m.shared.outcome (.input p) ≠ none) : result m ≠ none := by
  obtain ⟨k, here⟩ := List.mem_iff_getElem?.mp member
  exact heard_settled (reached_covered reached) (fun i has => absurd has (has_idle idle i))
    (Nat.lt_of_lt_of_le (lookup_inside here) walked.1) here (idle_told reached idle done)
    (Nat.le_refl _)

theorem outside (reached : Reached r m) {p : Nat} (other : p ∉ r.inputs) :
    m.shared.outcome (.input p) = none := by
  by_contra done
  obtain ⟨o, done⟩ := Option.ne_none_iff_exists'.mp done
  exact other ((reached_sound reached).inv.justified _ o done).1

/-- What `Race` gives back settles, once, with the outcome of one of its inputs: the first one
    that was settled before the call, when none settles during it; else the first to settle, when
    that settlement has run to its end. Whenever it has settled, what waits for an input that
    is still pending is what other parties registered. -/
theorem race_correct (reached : Reached r m) (walked : Walked r m) :
    (∀ o, result m = some o → ∃ p ∈ r.inputs, m.shared.outcome (.input p) = some o) ∧
    (∀ ls n, run (step (program r)) m ls = some n →
      Walked r n ∧ ∀ o, result m = some o → result n = some o) ∧
    (result m ≠ none → ∀ p ∈ r.inputs, m.shared.outcome (.input p) = none →
      (m.shared.cells (.input p)).awaiters = m.shared.others p) ∧
    (∀ k p o t m₀ m₁ ls, Reached r m₀ → step (program r) m₀ (.start t .call) = some m₁ →
      run (step (program r)) m₁ ls = some m → m.threads[t]? = some [] →
      (∀ q ∈ r.inputs, m.shared.outcome (.input q) = m₀.shared.outcome (.input q)) →
      Leads r m₀.shared k p o → result m = some o) ∧
    (Idle m → ∀ p ∈ r.inputs, m.shared.outcome (.input p) ≠ none → result m ≠ none) ∧
    (Idle m → ∀ p ∈ r.inputs, ∀ o, m.shared.outcome (.input p) = some o →
      (∀ q ∈ r.inputs, q ≠ p → m.shared.outcome (.input q) = none) → result m = some o) ∧
    (∃ bound, ∀ (ts : List Nat) n, run (step (program r)) m (ts.map .run) = some n →
      ts.length ≤ bound) ∧
    ∃ (ts : List Nat) (n : Machine (State V E) (Instr V E)),
      run (step (program r)) m (ts.map .run) = some n ∧ Idle n := by
  have kept : ∀ m n : Machine (State V E) (Instr V E), ∀ l, Reached r m →
      step (program r) m l = some n → Reached r n := fun _ _ _ reached taken => .next reached taken
  have sound : ∀ m : Machine (State V E) (Instr V E), Reached r m → Sound (Inv r) (Fit r) m :=
    fun _ reached => reached_sound reached
  have lowers : ∀ (s : State V E) i, Inv r s → Fit r s i →
      cost r (exec r i s).1 + ((exec r i s).2.map Instr.weight).sum < cost r s + i.weight :=
    fun _ _ inv fit => exec_lowers inv fit
  refine ⟨fun o done => result_won reached done, fun ls n ran => result_run reached walked ran,
    fun done p _ pending => losers_clean reached walked done pending, ?_,
    fun idle p member done => idle_settled reached walked idle member done, ?_, ?_, ?_⟩
  · intro k p o t m₀ m₁ ls reached₀ called ran free same leads
    refine call_first reached₀ called ran walked.1 free (fun q => ?_) leads
    by_cases inside : q ∈ r.inputs
    · exact same q inside
    · rw [outside reached inside, outside reached₀ inside]
  · intro idle p member o done alone
    obtain ⟨o', settled⟩ := Option.ne_none_iff_exists'.mp
      (idle_settled reached walked idle member (by simp [done]))
    obtain ⟨q, inside, won⟩ := result_won reached settled
    by_cases same : q = p
    · rw [settled, ← won, same, done]
    · simp [alone q inside same] at won
  · refine ⟨load Instr.weight (cost r) m, fun ts n ran => ?_⟩
    have bound := rest_bound Instr.weight (cost r) kept sound lowers reached ran
    omega
  · exact comes_to_rest Instr.weight (cost r) kept sound lowers reached

end Result

def pair : Race where
  inputs := [0, 1]
  isVoid := fun _ => false
  coroutine := fun p => p == 1

/-- Thread 0 calls `Race`, then the coroutine of the second input completes on thread 1. -/
def secondFirst : List (Label (Event Nat String)) :=
  [.fork, .fork, .start 0 .call, .start 0 .next, .run 0, .run 0, .run 0, .start 0 .next, .run 0,
    .run 0, .run 0, .start 1 (.complete 1 (.value (some 7)))] ++ List.replicate 14 (.run 1)

theorem race_correct_second : ∃ m, run (step (program pair)) (initial pair) secondFirst = some m ∧
    result m = some (.value (some 7)) ∧ (m.shared.cells (.input 0)).awaiters = [] := by
  have facts : (run (step (program pair)) (initial pair) secondFirst).map (fun m =>
      (m.threads, m.shared.pos, result m, m.shared.outcome (.input 0), m.shared.others 0)) =
      some ([[], []], 2, some (.value (some 7)), none, []) := rfl
  obtain ⟨m, ran, facts⟩ := Option.map_eq_some_iff.mp facts
  simp only [Prod.mk.injEq] at facts
  obtain ⟨threads, pos, settled, pending, others⟩ := facts
  have idle : Idle m := by simp [Idle, threads]
  have walked : Walked pair m := ⟨Nat.le_of_eq pos.symm, fun i has => absurd has (has_idle idle i)⟩
  have correct := race_correct (run_reachable (.start rfl) ran) walked
  refine ⟨m, ran, settled, ?_⟩
  rw [correct.2.2.1 (by simp [settled]) 0 (by simp [pair]) pending, others]

end RaceSettlement
