import JSProCpp.ChainOutcomes

/- The value types of a chain: what the operators store has the type that `ThenReturn`,
   `CatchReturn` and `FinallyReturn` give their promise, and the value of a `Catch` tells whether
   its handler has run. -/
namespace ChainLinks
open Transitions Interleaving PromiseCells
variable {K V E : Type}

section Values
variable (b : Nat → V → Bool)

def Val.hasType : Ty → Val V → Bool
  | .void, .void => true
  | .base n, .base v => b n v
  | .optional _, .nullopt => true
  | .optional t, .some_ x => Val.hasType t x
  | .variant t2 _, .first x => Val.hasType t2 x
  | .variant _ t, .second x => Val.hasType t x
  | _, _ => false

def typed (t : Ty) : Result V E → Bool
  | .value v => v.hasType b t
  | .exception _ => true

/-- The continuation takes the values of the promise it is attached to and returns its own. -/
def Link.WellTyped (t : Ty) (l : Link K V E) : Prop :=
  match l.op with
  | .then_ f => ∀ v : Val V, v.hasType b t = true → typed b l.type (l.returned (f v)) = true
  | .catch_ _ h => ∀ e, typed b l.type (l.returned (h e)) = true
  | .finally_ _ => True

def Chain.WellTyped (c : Chain K V E) : Prop :=
  ∀ (i : Nat) (l : Link K V E), c.links[i]? = some l → l.WellTyped b (c.typeAt i)

variable {b} {t t2 : Ty} {v w : Val V}

theorem applyValue_typed (source : v.hasType b t = true) :
    (applyValue t t2 v).hasType b (catchReturn t t2) = true := by
  unfold applyValue catchReturn
  by_cases void : t = .void
  · by_cases void2 : t2 = .void
    · simp [void, void2, Val.hasType]
    · simp [void, void2, Val.hasType]
  · by_cases void2 : t2 = .void
    · simp [void, void2, Val.hasType, source]
    · by_cases same : t = t2
      · subst same
        simp [void, source]
      · simp [void, void2, same, Val.hasType, source]

theorem applyHandled_typed (handler : w.hasType b t2 = true) :
    (applyHandled t t2 w).hasType b (catchReturn t t2) = true := by
  unfold applyHandled catchReturn
  by_cases void2 : t2 = .void
  · by_cases void : t = .void
    · simp [void, void2, Val.hasType]
    · simp [void, void2, Val.hasType]
  · by_cases void : t = .void
    · simp [void, void2, Val.hasType, handler]
    · by_cases same : t = t2
      · subst same
        simp [void, handler]
      · simp [void, void2, same, Val.hasType, handler]

/-- Unless both have one type, no value a promise passes on is one a handler gives. -/
theorem catch_apart (other : t ≠ t2) : applyValue t t2 v ≠ applyHandled t t2 w := by
  unfold applyValue applyHandled
  by_cases void : t = .void
  · have value : t2 ≠ .void := fun void2 => other (void.trans void2.symm)
    simp [void, value]
  · by_cases void2 : t2 = .void
    · simp [void, void2]
    · simp [void, void2, other]

theorem handled_typed {r : Result V E} (handler : typed b t2 r = true) :
    typed b (catchReturn t t2) (handled t t2 r) = true := by
  cases r with
  | exception e => rfl
  | value w => exact applyHandled_typed handler

theorem link_typed {x : Exceptions K E} {seen : Argument K → E → E} {l : Link K V E}
    {o : Result V E} (well : l.WellTyped b t) (source : typed b t o = true) :
    typed b (l.resultType t) (l.outcome x seen t o) = true := by
  unfold Link.WellTyped at well
  unfold Link.resultType Link.outcome
  cases op : l.op with
  | then_ f =>
    rw [op] at well
    cases o with
    | exception e => rfl
    | value v => exact well v source
  | catch_ a h =>
    rw [op] at well
    cases o with
    | value v => exact applyValue_typed source
    | exception e =>
      dsimp only
      split
      · exact handled_typed (well _)
      · rfl
  | finally_ g =>
    cases g with
    | none => exact source
    | some e => rfl

end Values

section Chains
variable {b : Nat → V → Bool} {c : Chain K V E} {o : Result V E} {i : Nat} {l : Link K V E}

theorem typeAt_succ (here : c.links[i]? = some l) :
    c.typeAt (i + 1) = l.resultType (c.typeAt i) := by
  unfold Chain.typeAt
  rw [List.take_add_one, here]
  simp

theorem coded_typed (well : c.WellTyped b) (source : typed b c.type o = true)
    (inside : i ≤ c.links.length) : typed b (c.typeAt i) (c.coded o i) = true := by
  induction i with
  | zero => exact source
  | succ i ih =>
    have here : c.links[i]? = some c.links[i] := List.getElem?_eq_getElem (by omega)
    rw [typeAt_succ here, coded_step here]
    exact link_typed (well i _ here) (ih (by omega))

theorem catch_cases {x : Exceptions K E} {seen : Argument K → E → E} {t : Ty} {a : Argument K}
    {h : E → Result V E} {u : Val V} (op : l.op = .catch_ a h)
    (gives : l.outcome x seen t o = .value u) :
    (l.calls x o = true ∧ ∃ e w, o = .exception e ∧ l.returned (h (seen a e)) = .value w ∧
      u = applyHandled t l.type w) ∨
    (l.calls x o = false ∧ ∃ v, o = .value v ∧ u = applyValue t l.type v) := by
  unfold Link.outcome at gives
  unfold Link.calls
  rw [op] at gives ⊢
  cases o with
  | value v =>
    rw [Outcome.value.injEq] at gives
    exact .inr ⟨rfl, v, rfl, gives.symm⟩
  | exception e =>
    left
    dsimp only at gives ⊢
    split at gives
    · rename_i caught
      cases returned : l.returned (h (seen a e)) with
      | exception e' => simp [returned, handled] at gives
      | value w =>
        rw [returned] at gives
        simp only [handled, Outcome.value.injEq] at gives
        exact ⟨caught, e, w, rfl, returned, gives.symm⟩
    · simp at gives

end Chains

/-- In every run of a chain whose continuations have their types, every link's promise holds a
    value of its type; and where a `Catch` handler has another type than the promise, the value of
    the link's promise tells whether the handler was called. -/
theorem chain_typed {b : Nat → V → Bool} {c : Chain K V E} {m : Machine (State V E) (Instr V E)}
    (well : c.WellTyped b) (reached : c.Reached m)
    (source : ∀ v, m.shared.outcome (.promise 0) = some (.value v) → v.hasType b c.type = true) :
    (∀ i ≤ c.links.length, ∀ v, m.shared.outcome (.promise i) = some (.value v) →
      v.hasType b (c.typeAt i) = true) ∧
    ∀ i l a h u, c.links[i]? = some l → l.op = .catch_ a h → c.typeAt i ≠ l.type →
      m.shared.outcome (.promise (i + 1)) = some (.value u) →
      (m.shared.calls i = 1 ↔ ∃ w, u = applyHandled (c.typeAt i) l.type w) ∧
      (m.shared.calls i = 0 ↔ ∃ v, u = applyValue (c.typeAt i) l.type v) := by
  have inv := (reached_sound reached).inv
  constructor
  · intro i inside v done
    obtain ⟨o, first⟩ := Option.ne_none_iff_exists'.mp
      (source_first inv (i := i) (by simp [done]))
    have first_typed : typed b c.type o = true := by
      cases o with
      | exception e => rfl
      | value u => exact source u first
    have after := coded_typed well first_typed inside
    rw [← coded_outcome inv first done] at after
    exact after
  · intro i l a h u here op other done
    obtain ⟨l', o, ran, gives⟩ := inv.justified _ _ done
    have same := ran.here
    rw [here, Option.some.injEq] at same
    subst same
    rcases catch_cases op gives.symm with ⟨calls, e, w, _, _, value⟩ | ⟨calls, v, _, value⟩
    · have once := ran.calls
      simp only [calls, if_true] at once
      refine ⟨⟨fun _ => ⟨w, value⟩, fun _ => once⟩, fun none => ?_, ?_⟩
      · omega
      · rintro ⟨v, value'⟩
        exact absurd (value'.symm.trans value) (catch_apart other)
    · have never := ran.calls
      simp only [calls, Bool.false_eq_true, if_false] at never
      refine ⟨⟨fun once => ?_, ?_⟩, fun _ => ⟨v, value⟩, fun _ => never⟩
      · omega
      · rintro ⟨w, value'⟩
        exact absurd (value.symm.trans value') (catch_apart other)

/-- A handler that answers an exception with a value of another type. -/
def recovered : Chain Unit Nat Nat where
  exceptions := ⟨fun _ _ => true, fun _ e => e⟩
  kind := .created
  type := .base 0
  links := [⟨.catch_ .pointer fun e => .value (.base e), .sync, .base 1⟩]

theorem chain_typed_recovered : ∃ m,
    run (step recovered.program) recovered.initial
      ([.fork, .start 0 (.settle (.exception 5)), .run 0, .run 0, .run 0, .start 0 .attach] ++
        List.replicate 5 (.run 0)) = some m ∧
    m.shared.outcome (.promise 1) = some (.value (.first (.base 5))) ∧
    (∃ w, Val.first (.base 5) = applyHandled (.base 0) (.base 1) w) := by
  have facts : (run (step recovered.program) recovered.initial
      ([.fork, .start 0 (.settle (.exception 5)), .run 0, .run 0, .run 0, .start 0 .attach] ++
        List.replicate 5 (.run 0))).map (fun m => (m.shared.outcome (.promise 0),
          m.shared.outcome (.promise 1), m.shared.calls 0)) =
      some (some (.exception 5), some (.value (.first (.base 5))), 1) := rfl
  obtain ⟨m, ran, facts⟩ := Option.map_eq_some_iff.mp facts
  simp only [Prod.mk.injEq] at facts
  obtain ⟨source, done, once⟩ := facts
  have well : recovered.WellTyped fun _ _ => true := by
    intro i l here
    cases i with
    | zero =>
      obtain rfl : _ = l := by simpa [recovered] using here
      intro e
      rfl
    | succ i => simp [recovered] at here
  have typed := chain_typed well (run_reachable (.start rfl) ran) (by simp [source])
  refine ⟨m, ran, done, ((typed.2 0 _ .pointer _ _ rfl rfl ?_ done).1).mp once⟩
  decide

end ChainLinks
