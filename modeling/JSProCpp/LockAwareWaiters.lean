import JSProCpp.LockAwareWait

/- The waiters of `Wait(guard)` as the `CVPromise` sees them. -/
namespace LockAwareWait
open Transitions Interleaving PromiseCells
variable {E : Type}

def tokens (g : Nat) (k : Token) (m : Machine (CVPromise.State E) (CVPromise.Instr E)) : Nat :=
  load (tokenWeight g k) (tokenCost g k) m

section Waits
variable {m n : Machine (CVPromise.State E) (CVPromise.Instr E)} {a : CVPromise.Action E}
  {g : Nat} {k : Token} {t : Nat}

theorem fork_tokens (taken : Interleaving.step (CVPromise.program quiet) m .fork = some n) :
    tokens g k n = tokens g k m ∧ n.shared = m.shared := by
  cases step_change taken with
  | fork => exact ⟨load_fork _ _, rfl⟩

theorem start_tokens {x : CVPromise.Call E}
    (taken : Interleaving.step (CVPromise.program quiet) m (.start t x) = some n) :
    tokens g k n = tokens g k m + tokenWeight g k (.call [] x) ∧ n.shared = m.shared := by
  cases step_change taken with
  | start t x s is idle spawned =>
    simp only [CVPromise.program, Option.ite_none_left_eq_some, Option.some.injEq, Prod.mk.injEq]
      at spawned
    obtain ⟨_, rfl, rfl⟩ := spawned
    have change := load_start (tokenWeight g k) (tokenCost g k) m.shared [.call [] x] idle
    simp only [List.map_cons, List.map_nil, List.sum_cons, List.sum_nil] at change
    refine ⟨?_, rfl⟩
    unfold tokens
    omega

theorem destroy_tokens (taken : CVPromise.act quiet m (.destroy t) = some n) :
    tokens g k n = tokens g k m ∧ n.shared.promise = m.shared.promise ∧
      n.shared.cells = m.shared.cells := by
  simp only [CVPromise.act, Option.ite_none_right_eq_some, Option.some.injEq] at taken
  obtain ⟨⟨idle, thread, _⟩, rfl⟩ := taken
  have here : m.threads[t]? = some [] := by
    rw [List.getElem?_eq_getElem thread, CVPromise.all_idle idle _ (List.getElem_mem thread)]
  have change := load_start (tokenWeight g k) (tokenCost g k) (CVPromise.destroy m.shared).1
    (CVPromise.destroy m.shared).2 here
  have same : tokenCost g k (CVPromise.destroy m.shared).1 = tokenCost g k m.shared := rfl
  have weight : ((CVPromise.destroy m.shared).2.map (tokenWeight g k)).sum = 0 := rfl
  refine ⟨?_, rfl, rfl⟩
  unfold tokens
  omega

theorem run_tokens {i : CVPromise.Instr E} {rest : List (CVPromise.Instr E)}
    (here : m.threads[t]? = some (i :: rest))
    (usual : ∀ inside n g, i ≠ .call inside (.attach n g))
    (taken : Interleaving.step (CVPromise.program quiet) m (.run t) = some n) :
    tokens g k n + tokenWeight g k i = tokens g k m + atPlace g k (advanced m.shared i) := by
  cases step_change taken with
  | run t j others there =>
    rw [here, Option.some.injEq, List.cons.injEq] at there
    obtain ⟨rfl, rfl⟩ := there
    have change := load_run (tokenWeight g k) (tokenCost g k)
      ((CVPromise.program quiet).exec i m.shared).1
      ((CVPromise.program quiet).exec i m.shared).2 here
    have moved : tokenCost g k ((CVPromise.program quiet).exec i m.shared).1 +
        (((CVPromise.program quiet).exec i m.shared).2.map (tokenWeight g k)).sum =
        tokenCost g k m.shared + atPlace g k (advanced m.shared i) := exec_tokens i usual
    unfold tokens
    omega

theorem signal_promise (inside : List Nat) (o : CVPromise.Signal E) (s : CVPromise.State E) :
    s.promise ≤ (CVPromise.signal inside o s).1.promise := Nat.le_succ _

theorem act_promise {c : CVPromise.Clients E} (taken : CVPromise.act c m a = some n) :
    m.shared.promise ≤ n.shared.promise := by
  cases a with
  | destroy u =>
    simp only [CVPromise.act, Option.ite_none_right_eq_some, Option.some.injEq] at taken
    obtain ⟨_, rfl⟩ := taken
    exact Nat.le_refl _
  | thread l =>
    cases step_change taken with
    | fork => exact Nat.le_refl _
    | start u x s is idle spawned =>
      simp only [CVPromise.program, Option.ite_none_left_eq_some, Option.some.injEq,
        Prod.mk.injEq] at spawned
      obtain ⟨_, rfl, rfl⟩ := spawned
      exact Nat.le_refl _
    | run u i rest here =>
      cases i with
      | call inside x =>
        cases x with
        | wait g => exact Nat.le_refl _
        | notify => exact signal_promise inside .notify _
        | reject e => exact signal_promise inside (.reject e) _
        | attach n g =>
          simp only [CVPromise.program, CVPromise.exec, CVPromise.call]
          split <;> exact Nat.le_refl _
      | attach inside n g =>
        simp only [CVPromise.program, CVPromise.exec]
        split <;> exact Nat.le_refl _
      | resume inside n g =>
        simp only [CVPromise.program, CVPromise.exec]
        split <;> exact Nat.le_refl _
      | _ => exact Nat.le_refl _

end Waits

/-- What the phase of a guard says of the promise that its owner waited for. -/
def Settled (s : CVPromise.State E) : Phase → Prop
  | .woken n => s.outcome n = some (.value ())
  | .relocking n => s.outcome n = some (.value ())
  | .acquired n => s.outcome n = some (.value ())
  | .resolved n => s.outcome n = some (.value ())
  | .rejected n => ∃ e, s.outcome n = some (.exception e)
  | _ => True

/-- The waiters as the `CVPromise` sees them: a call of `Wait` is in one place of it, or in none. -/
structure Waiters (m : Machine (CVPromise.State E) (CVPromise.Instr E)) (guards : Nat → Guard)
    (released : List Release) : Prop where
  reached : CVPromise.Reached quiet m
  tokens : ∀ g k, tokens g k m = if (guards g).phase.token = some k then 1 else 0
  copies : ∀ g n, (guards g).phase.token = some (.attaching n) →
    n = (guards g).copied ∧ n ≤ m.shared.promise
  settled : ∀ g, Settled m.shared (guards g).phase
  released : ∀ r ∈ released,
    r.promise = r.copied ∧ r.copied ≤ r.swapped ∧ r.swapped ≤ m.shared.promise

section Waiters
variable {m n : Machine (CVPromise.State E) (CVPromise.Instr E)} {guards : Nat → Guard}
  {released : List Release} {a : CVPromise.Action E} {g t : Nat} {x : Guard}
  {i : CVPromise.Instr E} {rest : List (CVPromise.Instr E)}

theorem settled_later (reached : CVPromise.Reached quiet m)
    (taken : CVPromise.act quiet m a = some n) {phase : Phase} (settled : Settled m.shared phase) :
    Settled n.shared phase := by
  have kept := (CVPromise.act_later reached taken).2
  unfold Settled at settled ⊢
  split at settled
  · exact kept _ _ settled
  · exact kept _ _ settled
  · exact kept _ _ settled
  · exact kept _ _ settled
  · obtain ⟨e, rejected⟩ := settled
    exact ⟨e, kept _ _ rejected⟩
  · trivial

theorem waiters_put (inv : Waiters m guards released)
    (token : x.phase.token = (guards g).phase.token)
    (copied : x.copied = (guards g).copied) (settled : Settled m.shared x.phase) :
    Waiters m (Function.update guards g x) released := by
  have same : ∀ h, (Function.update guards g x h).phase.token = (guards h).phase.token ∧
      (Function.update guards g x h).copied = (guards h).copied := by
    intro h
    by_cases here : h = g
    · subst here
      rw [Function.update_self]
      exact ⟨token, copied⟩
    · rw [Function.update_of_ne here]
      exact ⟨rfl, rfl⟩
  refine ⟨inv.reached, fun h k => ?_, fun h n => ?_, fun h => ?_, inv.released⟩
  · rw [(same h).1]
    exact inv.tokens h k
  · rw [(same h).1, (same h).2]
    exact inv.copies h n
  · by_cases here : h = g
    · subst here
      rw [Function.update_self]
      exact settled
    · rw [Function.update_of_ne here]
      exact inv.settled h

theorem waiters_moved (inv : Waiters m guards released)
    (taken : CVPromise.act quiet m a = some n)
    (here : ∀ k, tokens g k n = if x.phase.token = some k then 1 else 0)
    (others : ∀ h, h ≠ g → ∀ k, tokens h k n = tokens h k m)
    (copies : ∀ p, x.phase.token = some (.attaching p) → p = x.copied ∧ p ≤ n.shared.promise)
    (settled : Settled n.shared x.phase) : Waiters n (Function.update guards g x) released := by
  have grown := act_promise taken
  refine ⟨.next inv.reached taken, fun h k => ?_, fun h p token => ?_, fun h => ?_,
    fun r member => ?_⟩
  · by_cases same : h = g
    · subst same
      rw [Function.update_self]
      exact here k
    · rw [Function.update_of_ne same, others h same k]
      exact inv.tokens h k
  · by_cases same : h = g
    · subst same
      rw [Function.update_self] at token ⊢
      exact copies p token
    · rw [Function.update_of_ne same] at token ⊢
      obtain ⟨copied, bound⟩ := inv.copies h p token
      exact ⟨copied, Nat.le_trans bound grown⟩
  · by_cases same : h = g
    · subst same
      rw [Function.update_self]
      exact settled
    · rw [Function.update_of_ne same]
      exact settled_later inv.reached taken (inv.settled h)
  · obtain ⟨same, order, bound⟩ := inv.released r member
    exact ⟨same, order, Nat.le_trans bound grown⟩

theorem waiters_kept (inv : Waiters m guards released)
    (taken : CVPromise.act quiet m a = some n) (same : ∀ h k, tokens h k n = tokens h k m) :
    Waiters n guards released := by
  have grown := act_promise taken
  have moved := waiters_moved (g := 0) inv taken (fun k => (same 0 k).trans (inv.tokens 0 k))
    (fun h _ k => same h k) (fun p token => ?_) (settled_later inv.reached taken (inv.settled 0))
  · rw [Function.update_eq_self] at moved
    exact moved
  · obtain ⟨copied, bound⟩ := inv.copies 0 p token
    exact ⟨copied, Nat.le_trans bound grown⟩

theorem token_usual (phase : Phase) : phase.token ≠ some .other := by
  cases phase <;> simp [Phase.token]

theorem token_of_place (inv : Waiters m guards released) (has : Has m i) {k : Token}
    (placed : place i = some (g, k)) : (guards g).phase.token = some k := by
  have bound := weight_le_load (tokenWeight g k) (tokenCost g k) has
  have weight : tokenWeight g k i = 1 := by simp [tokenWeight, atPlace, placed]
  have exact_ := inv.tokens g k
  unfold tokens at exact_
  by_contra other
  rw [if_neg other] at exact_
  omega

theorem instr_usual (inv : Waiters m guards released) (has : Has m i) :
    ∀ inside n g, i ≠ .call inside (.attach n g) := by
  rintro inside n g rfl
  exact token_usual _ (token_of_place inv has rfl)

theorem run_elsewhere (inv : Waiters m guards released) (here : m.threads[t]? = some (i :: rest))
    (taken : Interleaving.step (CVPromise.program quiet) m (.run t) = some n)
    (away : ∀ k, place i ≠ some (g, k)) (k : Token) : tokens g k n = tokens g k m := by
  have moved := run_tokens (g := g) (k := k) here
    (instr_usual inv (has_here here List.mem_cons_self)) taken
  have weight : tokenWeight g k i = 0 := if_neg (away k)
  have next : atPlace g k (advanced m.shared i) = 0 := by
    apply if_neg
    intro arrives
    cases i with
    | call inside x =>
      cases x with
      | wait h =>
        simp only [advanced, Option.some.injEq, Prod.mk.injEq] at arrives
        exact away .copying (by simp [place, arrives.1])
      | _ => simp [advanced] at arrives
    | attach inside p h =>
      simp only [advanced, Option.some.injEq, Prod.mk.injEq] at arrives
      exact away (.attaching p) (by simp [place, arrives.1])
    | _ => simp [advanced] at arrives
  omega

theorem run_here (inv : Waiters m guards released) (here : m.threads[t]? = some (i :: rest))
    (taken : Interleaving.step (CVPromise.program quiet) m (.run t) = some n) {k : Token}
    (placed : place i = some (g, k)) (j : Token) :
    tokens g j n = atPlace g j (advanced m.shared i) := by
  have has := has_here here (x := i) List.mem_cons_self
  have moved := run_tokens (g := g) (k := j) here (instr_usual inv has) taken
  have before := inv.tokens g j
  have weight : tokenWeight g j i = if (guards g).phase.token = some j then 1 else 0 := by
    rw [token_of_place inv has placed]
    simp only [tokenWeight, atPlace, placed, Option.some.injEq, Prod.mk.injEq, true_and]
  omega

/-- An instruction that takes the call of a guard to the place that its new phase says. -/
theorem waiters_run (inv : Waiters m guards released) (here : m.threads[t]? = some (i :: rest))
    (taken : Interleaving.step (CVPromise.program quiet) m (.run t) = some n) {k : Token}
    (placed : place i = some (g, k))
    (token : ∀ j, x.phase.token = some j ↔ advanced m.shared i = some (g, j))
    (copies : ∀ p, x.phase.token = some (.attaching p) → p = x.copied ∧ p ≤ n.shared.promise)
    (settled : Settled n.shared x.phase) : Waiters n (Function.update guards g x) released := by
  refine waiters_moved (a := .thread (.run t)) inv taken (fun j => ?_) (fun h other j => ?_) copies
    settled
  · rw [run_here inv here taken placed]
    simp only [atPlace, token j]
  · refine run_elsewhere inv here taken (fun k' away => ?_) j
    rw [placed, Option.some.injEq, Prod.mk.injEq] at away
    exact other away.1.symm

end Waiters

end LockAwareWait
