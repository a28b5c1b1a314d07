import Mathlib.Data.List.Basic

/- Labelled transition systems given by a partial step function: runs, reachable
   states, invariants and runs whose steps all meet a condition. -/
namespace Transitions
variable {S L : Type}

def run (step : S → L → Option S) : S → List L → Option S
  | s, [] => some s
  | s, l :: ls => (step s l).bind fun t => run step t ls

inductive Reachable (step : S → L → Option S) (init : S → Prop) : S → Prop where
  | start {s : S} (h : init s) : Reachable step init s
  | next {s t : S} {l : L} (h : Reachable step init s) (taken : step s l = some t) :
      Reachable step init t

/-- `P` holds in every state a run passes through, the first and the last included. -/
def Always (step : S → L → Option S) (P : S → Prop) : S → List L → Prop
  | s, [] => P s
  | s, l :: ls => P s ∧ ∀ t, step s l = some t → Always step P t ls

/-- Every step the run takes is taken in a state and under a label that meet `g`. -/
def Meets (step : S → L → Option S) (g : S → L → Prop) : S → List L → Prop
  | _, [] => True
  | s, l :: ls => ∀ t, step s l = some t → g s l ∧ Meets step g t ls

theorem run_append (step : S → L → Option S) (s : S) (xs ys : List L) :
    run step s (xs ++ ys) = (run step s xs).bind fun t => run step t ys := by
  induction xs generalizing s with
  | nil => rfl
  | cons l ls ih =>
    simp only [List.cons_append, run, Option.bind_assoc]
    congr 1
    funext t
    exact ih t

theorem run_cons {step : S → L → Option S} {s t u : S} {l : L} {ls : List L}
    (first : step s l = some t) (rest : run step t ls = some u) :
    run step s (l :: ls) = some u := by
  simp only [run, first, Option.bind_some, rest]

theorem run_reachable {step : S → L → Option S} {init : S → Prop} {s t : S} {ls : List L}
    (h : Reachable step init s) (taken : run step s ls = some t) : Reachable step init t := by
  induction ls generalizing s with
  | nil =>
    simp only [run, Option.some.injEq] at taken
    exact taken ▸ h
  | cons l ls ih =>
    obtain ⟨u, first, rest⟩ := Option.bind_eq_some_iff.mp taken
    exact ih (.next h first) rest

theorem reachable_invariant {step : S → L → Option S} {init : S → Prop} {Inv : S → Prop}
    (initial : ∀ s, init s → Inv s)
    (kept : ∀ s l t, Inv s → step s l = some t → Inv t) {s : S}
    (h : Reachable step init s) : Inv s := by
  induction h with
  | start h => exact initial _ h
  | next _ taken ih => exact kept _ _ _ ih taken

theorem always_of_meets {step : S → L → Option S} {g : S → L → Prop} {Inv P : S → Prop}
    (kept : ∀ s l t, Inv s → g s l → step s l = some t → Inv t)
    (implies : ∀ s, Inv s → P s) {s : S} {ls : List L} (inv : Inv s)
    (meets : Meets step g s ls) : Always step P s ls := by
  induction ls generalizing s with
  | nil => exact implies s inv
  | cons l ls ih =>
    refine ⟨implies s inv, fun t taken => ?_⟩
    obtain ⟨met, rest⟩ := meets t taken
    exact ih (kept s l t inv met taken) rest

theorem meets_cons {step : S → L → Option S} {g : S → L → Prop} {s t : S} {l : L} {ls : List L}
    (taken : step s l = some t) (met : g s l) (rest : Meets step g t ls) :
    Meets step g s (l :: ls) := by
  intro u there
  rw [taken, Option.some.injEq] at there
  exact ⟨met, there ▸ rest⟩

theorem always_head {step : S → L → Option S} {P : S → Prop} {s : S} {ls : List L}
    (h : Always step P s ls) : P s := by
  cases ls with
  | nil => exact h
  | cons l ls => exact h.1

/-- When a step that breaks the condition leads to a state that breaks `P`, a run on which
    `P` always holds met the condition throughout. -/
theorem meets_within {step : S → L → Option S} {g : S → L → Prop} {P Inv : S → Prop}
    (kept : ∀ s l t, Inv s → P s → step s l = some t → P t → Inv t)
    (breaks : ∀ s l t, Inv s → P s → step s l = some t → P t → g s l) {s : S} {ls : List L}
    (inv : Inv s) (always : Always step P s ls) : Meets step g s ls := by
  induction ls generalizing s with
  | nil => trivial
  | cons l ls ih =>
    intro t taken
    have before := always_head always
    have rest := always.2 t taken
    have after := always_head rest
    exact ⟨breaks s l t inv before taken after, ih (kept s l t inv before taken after) rest⟩

theorem meets_of_always {step : S → L → Option S} {g : S → L → Prop} {P Inv : S → Prop}
    (kept : ∀ s l t, Inv s → step s l = some t → Inv t)
    (breaks : ∀ s l t, Inv s → step s l = some t → P t → g s l) {s : S} {ls : List L}
    (inv : Inv s) (always : Always step P s ls) : Meets step g s ls :=
  meets_within (fun s l t inv _ taken _ => kept s l t inv taken)
    (fun s l t inv _ taken after => breaks s l t inv taken after) inv always

section Refinement
variable {S' L' D : Type}

theorem run_refines {step : S → L → Option S} {step' : S' → L → Option S'} {f : S → S'}
    {Inv : S → Prop} (refines : ∀ s l, Inv s → (step s l).map f = step' (f s) l)
    (kept : ∀ s l t, Inv s → step s l = some t → Inv t) {s : S} (inv : Inv s) (ls : List L) :
    (run step s ls).map f = run step' (f s) ls := by
  induction ls generalizing s with
  | nil => rfl
  | cons l ls ih =>
    have first := refines s l inv
    simp only [run, ← first]
    cases taken : step s l with
    | none => rfl
    | some t => exact ih (kept s l t inv taken)

theorem run_simulates {step : S → L → Option S} {step' : S' → L' → Option S'} {f : S → S'}
    {Inv : S → Prop} {events : L → List D} {events' : L' → List D}
    (simulates : ∀ s l t, Inv s → step s l = some t →
      ∃ ks, run step' (f s) ks = some (f t) ∧ ks.flatMap events' = events l)
    (kept : ∀ s l t, Inv s → step s l = some t → Inv t) {s t : S} {ls : List L} (inv : Inv s)
    (ran : run step s ls = some t) :
    ∃ ks, run step' (f s) ks = some (f t) ∧ ks.flatMap events' = ls.flatMap events := by
  induction ls generalizing s with
  | nil =>
    simp only [run, Option.some.injEq] at ran
    exact ⟨[], congrArg (some ∘ f) ran, rfl⟩
  | cons l ls ih =>
    obtain ⟨u, first, rest⟩ := Option.bind_eq_some_iff.mp ran
    obtain ⟨ks, before, same⟩ := simulates s l u inv first
    obtain ⟨ks', after, same'⟩ := ih (kept s l u inv first) rest
    refine ⟨ks ++ ks', ?_, ?_⟩
    · rw [run_append, before]
      exact after
    · rw [List.flatMap_append, List.flatMap_cons, same, same']

end Refinement

section Tables
variable {A : Type} {xs : List A} {i j : Nat} {a b x : A}

theorem lookup_inside (here : xs[i]? = some a) : i < xs.length :=
  (List.getElem?_eq_some_iff.mp here).1

theorem lookup_set (here : xs[i]? = some a) : (xs.set i b)[i]? = some b :=
  List.getElem?_set_self (lookup_inside here)

theorem set_here (here : xs[i]? = some a) : xs.set i a = xs := by
  obtain ⟨inside, rfl⟩ := List.getElem?_eq_some_iff.mp here
  exact List.set_getElem_self inside

theorem lookup_append (here : xs[i]? = some a) (ys : List A) : (xs ++ ys)[i]? = some a := by
  rw [List.getElem?_append_left (lookup_inside here)]
  exact here

/-- An entry of a table after one entry was replaced: the new one, or an old one. -/
theorem set_lookup (here : xs[i]? = some a) (h : (xs.set i b)[j]? = some x) :
    (j = i ∧ x = b) ∨ (j ≠ i ∧ xs[j]? = some x) := by
  by_cases same : j = i
  · subst same
    rw [lookup_set here, Option.some.injEq] at h
    exact .inl ⟨rfl, h.symm⟩
  · rw [List.getElem?_set_ne (Ne.symm same)] at h
    exact .inr ⟨same, h⟩

theorem set_keeps {q : A → Prop} (here : xs[i]? = some a) (hand : q a → q b)
    (h : ∃ (k : Nat) (y : A), xs[k]? = some y ∧ q y) :
    ∃ (k : Nat) (y : A), (xs.set i b)[k]? = some y ∧ q y := by
  obtain ⟨k, y, at_, holds⟩ := h
  by_cases same : k = i
  · subst same
    rw [here, Option.some.injEq] at at_
    subst at_
    exact ⟨k, b, lookup_set here, hand holds⟩
  · exact ⟨k, y, by rw [List.getElem?_set_ne (Ne.symm same)]; exact at_, holds⟩

theorem append_lookup (h : (xs ++ [b])[j]? = some x) :
    (j = xs.length ∧ x = b) ∨ xs[j]? = some x := by
  rw [List.getElem?_append] at h
  split at h
  · exact .inr h
  · rename_i outside
    have last := lookup_inside h
    simp only [List.length_cons, List.length_nil] at last
    have here : j = xs.length := by omega
    subst here
    exact .inl ⟨rfl, by simpa using h.symm⟩

theorem set_any_same {p : A → Bool} (here : xs[i]? = some a) (same : p b = p a) :
    (xs.set i b).any p = xs.any p := by
  have inside := lookup_inside here
  conv_rhs => rw [← set_here here]
  simp only [List.set_eq_take_append_cons_drop, if_pos inside, List.any_append, List.any_cons, same]

theorem set_any_only {p : A → Bool} (here : xs[i]? = some a)
    (others : ∀ (j : Nat) (x : A), xs[j]? = some x → j ≠ i → p x = false) :
    (xs.set i b).any p = p b := by
  cases new : p b with
  | true =>
    exact List.any_eq_true.mpr ⟨b, List.mem_of_getElem? (lookup_set here), new⟩
  | false =>
    rw [List.any_eq_false]
    intro x member
    obtain ⟨j, there⟩ := List.mem_iff_getElem?.mp member
    rcases set_lookup here there with ⟨_, rfl⟩ | ⟨other, there⟩
    · simp [new]
    · simp [others j x there other]

theorem any_only {p : A → Bool} (here : xs[i]? = some a)
    (others : ∀ (j : Nat) (x : A), xs[j]? = some x → j ≠ i → p x = false) : xs.any p = p a := by
  rw [← set_any_only here others, set_any_same here rfl]

end Tables

end Transitions
