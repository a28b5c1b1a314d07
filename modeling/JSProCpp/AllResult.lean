import JSProCpp.AllProgress

/- The promise `All` gives back, once its promises have settled. -/
namespace AllSettlement
open Transitions Interleaving PromiseCells
variable {V E : Type}

def Settled (s : State V E) (p : Nat) : Prop :=
  s.outcome (.input p) ≠ none ∧ (s.cells (.input p)).handle = false

section Rest
variable {a : All} {s : State V E}

/-- More than what the coroutine leads to when it has `k` results. -/
def All.budget (a : All) (k : Nat) : Nat :=
  10 * (a.elements.length - k) + 2 * a.elements.length + 5

def Target.weight (a : All) : Target V → Nat
  | .link _ => 4
  | .frame ds => a.budget (ds.length + 1) + 2
  | .other _ => 1

def Instr.weight (a : All) : Instr V E → Nat
  | .settling i => i.weight
  | .callback _ t => t.weight a
  | .next ds => a.budget ds.length
  | .attach _ _ ds => a.budget (ds.length + 1) + 9
  | .ready _ ds => a.budget (ds.length + 1) + 4
  | .suspend _ ds => a.budget (ds.length + 1) + 3
  | .resume _ ds => a.budget (ds.length + 1) + 1
  | .drop ps => 2 * ps.length + 1
  | .waitDone _ ps => 2 * ps.length + 2

def places (a : All) : Finset Pid :=
  a.elements.toFinset.image .input ∪ (Finset.range a.elements.length).image .chain ∪ {.all}

def cost (a : All) (s : State V E) : Nat :=
  Family.waiting (fun x => x.target.weight a) (places a) s.cells

theorem budget_step {k : Nat} (inside : k < a.elements.length) :
    a.budget k = a.budget (k + 1) + 10 := by
  unfold All.budget
  omega

theorem input_place {p : Nat} (member : p ∈ a.elements) : .input p ∈ places a := by
  simp [places, member]

theorem chain_place {j p : Nat} (element : a.elements[j]? = some p) : .chain j ∈ places a := by
  simp [places, lookup_inside element]

theorem justified_place {c : Pid} {o : Result V E} (just : Justified a s o c) : c ∈ places a := by
  cases c with
  | input p => exact input_place just.1
  | chain j =>
    obtain ⟨p, _, element, _⟩ := just
    exact chain_place element
  | all => simp [places]

theorem fit_place {i : Settling Pid (Data V) E} (fit : Fit a s (.settling i)) :
    i.cell ∈ places a := by
  cases i with
  | reject c o => exact justified_place fit
  | claim c o => exact justified_place fit
  | store c o => exact justified_place fit.1
  | clear c =>
    rcases fit with rfl | ⟨p, member, rfl⟩
    · simp [places, Settling.cell]
    · exact input_place member

theorem source_place {j k p : Nat} (turn : a.turn k = some (j, p)) : a.source j p ∈ places a := by
  unfold All.source
  split
  · exact chain_place (turn_iff.mp turn).2
  · exact input_place (turn_member turn)

theorem ending_weight_le (k : Nat) (o : Result V E) :
    ((ending .all (a.captured k) (some o)).map (Instr.weight a)).sum ≤
      2 * a.elements.length + 4 := by
  have bound := a.captured_length k
  simp only [ending, List.map_cons, List.map_nil, List.sum_cons, List.sum_nil, Instr.weight,
    Settling.weight]
  omega

theorem callback_weight_lt (c : Pid) (u : Target V) :
    ((callback s c u : List (Instr V E)).map (Instr.weight a)).sum <
      (.callback c u : Instr V E).weight a := by
  cases u with
  | link j =>
    simp only [callback]
    split
    · rename_i o done
      have bound := settling_weight_le (Pid.chain j) (tupled o)
      simp only [List.map_cons, List.map_nil, List.sum_cons, List.sum_nil, Instr.weight,
        Target.weight]
      omega
    · simp [Instr.weight, Target.weight]
  | frame ds => simp [callback, Instr.weight, Target.weight]
  | other n => simp [callback, Instr.weight, Target.weight]

/-- Once the promises have settled, every instruction makes progress. -/
theorem exec_lowers {i : Instr V E} (settled : ∀ p ∈ a.elements, Settled s p) (fit : Fit a s i) :
    cost a (exec a i s).1 + ((exec a i s).2.map (Instr.weight a)).sum < cost a s + i.weight a := by
  cases i with
  | settling i =>
    have change := Family.waiting_settle (fun x : Awaiter V => x.target.weight a) (places a)
      s.cells i (fit_place fit)
    have next : ((settle (s.cells i.cell) i).next.map
        fun j => (.settling j : Instr V E).weight a).sum < (.settling i : Instr V E).weight a :=
      next_weight (s.cells i.cell) i
    simp only [exec, cost, List.map_append, List.map_map, List.sum_append, Function.comp_def]
    have callbacks : ((settle (s.cells i.cell) i).flushed.map
        fun x => (.callback i.cell x.target : Instr V E).weight a).sum =
        ((settle (s.cells i.cell) i).flushed.map fun x => x.target.weight a).sum := rfl
    omega
  | callback c u =>
    have less := callback_weight_lt (a := a) (s := s) c u
    simp only [exec]
    omega
  | next ds =>
    simp only [exec]
    split
    · rename_i j p turn
      have step := budget_step (turn_inside turn)
      split
      · simp only [List.map_cons, List.map_nil, List.sum_cons, List.sum_nil, Instr.weight]
        omega
      · simp only [List.map_cons, List.map_nil, List.sum_cons, List.sum_nil, Instr.weight]
        omega
    · have same : cost a (s.ended .all) = cost a s := rfl
      have bound := ending_weight_le (a := a) (E := E) ds.length (.value (a.finish ds))
      rw [same]
      simp only [Instr.weight, All.budget]
      omega
  | attach j p ds =>
    simp only [exec]
    split
    · rename_i o done
      have bound := settling_weight_le (Pid.chain j) (tupled o)
      have same : cost a { s with made := Function.update s.made j true } = cost a s := rfl
      simp only [List.map_cons, List.map_nil, List.sum_cons, List.sum_nil, same]
      simp only [Instr.weight]
      omega
    · have change : cost a { s with
          made := Function.update s.made j true
          cells := s.cells.register (.input p) (⟨.link j, ·⟩) } = cost a s + 4 :=
        Family.waiting_register _ _ _ _ (input_place (turn_member fit.2.1))
      simp only [change, List.map_cons, List.map_nil, List.sum_cons, List.sum_nil, Instr.weight]
      omega
  | ready c ds =>
    simp only [exec]
    split
    · simp [Instr.weight]
    · simp [Instr.weight]
  | suspend c ds =>
    obtain ⟨_, j, p, turn, rfl, _⟩ := fit
    simp only [exec]
    split
    · simp [Instr.weight]
    · have change : cost a { s with cells := s.cells.register (a.source j p) (⟨.frame ds, ·⟩) } =
          cost a s + (a.budget (ds.length + 1) + 2) :=
        Family.waiting_register _ _ _ _ (source_place turn)
      simp only [change, List.map_nil, List.sum_nil, Instr.weight]
      omega
  | resume c ds =>
    obtain ⟨o, done⟩ := Option.ne_none_iff_exists'.mp fit.1
    have here : (s.cells c).outcome = some o := done
    simp only [exec, here]
    cases o with
    | value d => simp [Instr.weight]
    | exception e =>
      have same : cost a (s.ended .all) = cost a s := rfl
      have bound := ending_weight_le (a := a) (V := V) (ds.length + 1) (.exception e)
      dsimp only
      rw [same]
      simp only [Instr.weight, All.budget]
      omega
  | drop ps =>
    cases ps with
    | nil => simp [exec, Instr.weight]
    | cons p ps =>
      have done := (settled p (fit p List.mem_cons_self)).1
      have here : (s.cells (.input p)).outcome.isSome = true := Option.isSome_iff_ne_none.mpr done
      simp only [exec, here, if_true, List.map_cons, List.map_nil, List.sum_cons, List.sum_nil,
        Instr.weight, List.length_cons]
      omega
  | waitDone p ps =>
    obtain ⟨done, free⟩ := settled p (fit p List.mem_cons_self)
    have here : (s.cells (.input p)).outcome.isSome = true := Option.isSome_iff_ne_none.mpr done
    simp only [exec, here, free, Bool.not_false, Bool.and_self, if_true, List.map_cons,
      List.map_nil, List.sum_cons, List.sum_nil, Instr.weight]
    omega

end Rest

/-- What `All` gives for promises that have all settled. -/
structure Answers (a : All) (s : State V E) : Prop where
  void : a.form = .container true →
    (∀ p ∈ a.elements, ∃ d, s.outcome (.input p) = some (.value d)) →
    s.outcome .all = some (.value .void)
  list : a.form = .container false →
    (∀ p ∈ a.elements, ∃ d, s.outcome (.input p) = some (.value d)) →
    ∃ vs : List V, a.elements.map (s.outcome ∘ .input) = vs.map (some ∘ .value ∘ .value) ∧
      s.outcome .all = some (.value (.list vs))
  exception : a.chained = false → ∀ (k p : Nat) (e : E), a.elements[k]? = some p →
    s.outcome (.input p) = some (.exception e) →
    (∀ i < k, ∀ q, a.elements[i]? = some q → ∃ d, s.outcome (.input q) = some (.value d)) →
    s.outcome .all = some (.exception e)
  tuple : a.chained = true → (∀ p ∈ a.elements, ∃ d, s.outcome (.input p) = some (.value d)) →
    ∃ us : List (Option V),
      a.elements.map (s.outcome ∘ .input) = us.map (fun u => some (.value (u.elim .void .value))) ∧
      s.outcome .all = some (.value (.list (us.filterMap id)))
  rejected : ∀ p ∈ a.elements, ∀ e, s.outcome (.input p) = some (.exception e) →
    ∃ q ∈ a.elements, ∃ e', s.outcome (.input q) = some (.exception e') ∧
      s.outcome .all = some (.exception e')

section Answer
variable {a : All} {s : State V E}

theorem list_values {A B W : Type} {f : A → W} {g : B → W} {xs : List A}
    (values : ∀ x ∈ xs, ∃ y, f x = g y) : ∃ ys : List B, xs.map f = ys.map g := by
  induction xs with
  | nil => exact ⟨[], rfl⟩
  | cons x xs ih =>
    obtain ⟨y, here⟩ := values x List.mem_cons_self
    obtain ⟨ys, rest⟩ := ih fun z there => values z (List.mem_cons_of_mem _ there)
    exact ⟨y :: ys, by simp [here, rest]⟩

/-- The coroutine has come to its end: it has the value of every promise. -/
theorem taken_all {ds : List (Data V)} (taken : Taken a s ds) (past : a.turn ds.length = none)
    {j p : Nat} (element : a.elements[j]? = some p) :
    ∃ (k : Nat) (d : Data V), (a.form.order a.elements.length)[k]? = some j ∧
      ds[k]? = some (a.passed d) ∧ s.outcome (.input p) = some (.value d) := by
  have inside := lookup_inside element
  have member := a.once.symm.subset (List.mem_range.mpr inside)
  obtain ⟨k, position⟩ := List.mem_iff_getElem?.mp member
  have turn : a.turn k = some (j, p) := turn_iff.mpr ⟨position, element⟩
  have early : k < ds.length := Nat.lt_of_lt_of_le (turn_inside turn) (turn_over past)
  obtain ⟨j', p', d, turn', done, passed⟩ := taken k ds[k] (List.getElem?_eq_getElem early)
  rw [turn, Option.some.injEq, Prod.mk.injEq] at turn'
  obtain ⟨rfl, rfl⟩ := turn'
  refine ⟨k, d, position, ?_, done⟩
  rw [List.getElem?_eq_getElem early, passed]

theorem taken_length {ds : List (Data V)} (taken : Taken a s ds) (past : a.turn ds.length = none) :
    ds.length = a.elements.length := by
  have enough := turn_over past
  by_contra more
  have early : a.elements.length < ds.length := by omega
  obtain ⟨j, p, _, turn, _⟩ := taken _ _ (List.getElem?_eq_getElem early)
  exact Nat.lt_irrefl _ (turn_inside turn)

theorem container_turn {k j p : Nat} (container : a.chained = false) :
    a.turn k = some (j, p) ↔ j = k ∧ a.elements[k]? = some p := by
  have order : a.form.order a.elements.length = List.range a.elements.length := by
    unfold All.chained at container
    split at container
    · rename_i form
      rw [form]
      rfl
    · simp at container
  rw [turn_iff, order]
  constructor
  · rintro ⟨position, element⟩
    have inside := lookup_inside position
    rw [List.getElem?_eq_getElem inside, List.getElem_range, Option.some.injEq] at position
    subst position
    exact ⟨rfl, element⟩
  · rintro ⟨rfl, element⟩
    refine ⟨?_, element⟩
    rw [List.getElem?_range (lookup_inside element)]

theorem container_results {ds : List (Data V)} (container : a.chained = false)
    (taken : Taken a s ds) (past : a.turn ds.length = none) {vs : List V}
    (values : a.elements.map (s.outcome ∘ .input) = vs.map (some ∘ .value ∘ .value)) :
    ds = vs.map .value := by
  apply List.ext_getElem?
  intro k
  have same : vs.length = a.elements.length := by
    have lengths := congrArg List.length values
    simpa using lengths.symm
  by_cases inside : k < a.elements.length
  · obtain ⟨p, element⟩ : ∃ p, a.elements[k]? = some p := ⟨_, List.getElem?_eq_getElem inside⟩
    obtain ⟨i, d, position, result, done⟩ := taken_all taken past element
    have turn : a.turn i = some (k, p) := turn_iff.mpr ⟨position, element⟩
    obtain ⟨rfl, _⟩ := (container_turn container).mp turn
    have here := congrArg (·[k]?) values
    simp only [List.getElem?_map, element, Option.map_some, Function.comp_apply, done] at here
    obtain ⟨v, there, value⟩ := Option.map_eq_some_iff.mp here.symm
    simp only [Function.comp_apply, Option.some.injEq, Outcome.value.injEq] at value
    rw [result, List.getElem?_map, there, All.passed, if_neg (by simp [container]), ← value]
    rfl
  · have short := taken_length taken past
    rw [List.getElem?_eq_none (by omega), List.getElem?_eq_none (by simp; omega)]

theorem items_values (vs : List V) : (vs.map Data.value).flatMap Data.items = vs := by
  induction vs with
  | nil => rfl
  | cons v vs ih =>
    rw [List.map_cons, List.flatMap_cons, ih]
    rfl

theorem flatMap_range {us : List (Option V)} {f : Nat → List V}
    (each : ∀ (j : Nat) (u : Option V), us[j]? = some u → f j = u.toList) :
    (List.range us.length).flatMap f = us.filterMap id := by
  induction us generalizing f with
  | nil => rfl
  | cons u us ih =>
    have first := each 0 u rfl
    have rest := ih (f := fun j => f (j + 1)) fun j x there => each (j + 1) x there
    rw [List.length_cons, List.range_succ_eq_map, List.flatMap_cons, List.flatMap_map, first]
    cases u with
    | none => simpa using rest
    | some v => simpa using rest

theorem tuple_results {ds : List (Data V)} {void lvalue : Nat → Bool} {order : List Nat}
    (form : a.form = .variadic void lvalue order) (taken : Taken a s ds)
    (past : a.turn ds.length = none) {us : List (Option V)}
    (values : a.elements.map (s.outcome ∘ .input) =
      us.map fun u => some (.value (u.elim .void .value))) :
    a.finish ds = .list (us.filterMap id) := by
  have chained : a.chained = true := by rw [All.chained, form]
  have order_ : a.form.order a.elements.length = order := by rw [form]; rfl
  have distinct : order.Nodup := by
    rw [← order_]
    exact a.once.nodup_iff.mpr List.nodup_range
  have same : us.length = a.elements.length := by
    have lengths := congrArg List.length values
    simpa using lengths.symm
  rw [All.finish, form]
  simp only [Data.list.injEq]
  rw [← same]
  apply flatMap_range
  intro j u there
  have inside : j < a.elements.length := same ▸ lookup_inside there
  obtain ⟨p, element⟩ : ∃ p, a.elements[j]? = some p := ⟨_, List.getElem?_eq_getElem inside⟩
  obtain ⟨k, d, position, result, done⟩ := taken_all taken past element
  rw [order_] at position
  have place : order.idxOf j = k := by
    have bound := lookup_inside position
    rw [List.getElem?_eq_getElem bound, Option.some.injEq] at position
    rw [← position]
    exact List.Nodup.idxOf_getElem distinct k bound
  have here := congrArg (·[j]?) values
  simp only [List.getElem?_map, element, Option.map_some, Function.comp_apply, done, there,
    Option.some.injEq, Outcome.value.injEq] at here
  rw [place, result, All.passed, if_pos chained, here]
  cases u <;> rfl

theorem typed_value {p : Nat} {d : Data V} (inv : Inv a s)
    (done : s.outcome (.input p) = some (.value d)) :
    (a.isVoid p = true ∧ d = .void) ∨ (a.isVoid p = false ∧ ∃ v, d = .value v) := by
  have fits := (inv.justified _ _ done).2
  cases d with
  | void => exact .inl ⟨fits, rfl⟩
  | value v => exact .inr ⟨by simpa [All.fits] using fits, v, rfl⟩
  | list vs => simp [All.fits] at fits

theorem justified_answers (inv : Inv a s) {o : Result V E} (done : s.outcome .all = some o) :
    Answers a s := by
  obtain ⟨ds, taken, ⟨past, rfl⟩ | ⟨j, p, e, turn, thrown, rfl⟩⟩ := inv.justified _ _ done
  · -- every promise has resolved
    have resolved : ∀ p ∈ a.elements, ∃ d, s.outcome (.input p) = some (.value d) := by
      intro p member
      obtain ⟨j, element⟩ := List.mem_iff_getElem?.mp member
      obtain ⟨_, d, _, _, value⟩ := taken_all taken past element
      exact ⟨d, value⟩
    constructor
    · intro form _
      rw [done, All.finish, form]
    · intro form _
      have chained : a.chained = false := by rw [All.chained, form]
      have typed : ∀ p, a.isVoid p = false := by
        intro p
        rw [All.isVoid, form]
      obtain ⟨vs, values⟩ : ∃ vs : List V,
          a.elements.map (s.outcome ∘ .input) = vs.map (some ∘ .value ∘ .value) := by
        apply list_values
        intro p member
        obtain ⟨d, value⟩ := resolved p member
        rcases typed_value inv value with ⟨void, _⟩ | ⟨_, v, rfl⟩
        · simp [typed p] at void
        · exact ⟨v, value⟩
      refine ⟨vs, values, ?_⟩
      rw [done, All.finish, form, container_results chained taken past values, items_values]
    · intro _ k p e element exception _
      obtain ⟨d, value⟩ := resolved p (List.mem_of_getElem? element)
      simp [exception] at value
    · intro chained _
      obtain ⟨us, values⟩ : ∃ us : List (Option V), a.elements.map (s.outcome ∘ .input) =
          us.map fun u => some (.value (u.elim .void .value)) := by
        apply list_values
        intro p member
        obtain ⟨d, value⟩ := resolved p member
        rcases typed_value inv value with ⟨_, rfl⟩ | ⟨_, v, rfl⟩
        · exact ⟨none, value⟩
        · exact ⟨some v, value⟩
      refine ⟨us, values, ?_⟩
      cases form : a.form with
      | container void => simp [All.chained, form] at chained
      | variadic void lvalue order => rw [done, tuple_results form taken past values]
    · intro p member e exception
      obtain ⟨d, value⟩ := resolved p member
      simp [exception] at value
  · have member := turn_member turn
    have unresolved : ¬∀ p ∈ a.elements, ∃ d, s.outcome (.input p) = some (.value d) := by
      intro resolved
      obtain ⟨d, value⟩ := resolved p member
      simp [thrown] at value
    constructor
    · exact fun _ resolved => absurd resolved unresolved
    · exact fun _ resolved => absurd resolved unresolved
    · intro container k q e' element exception earlier
      obtain ⟨rfl, here⟩ := (container_turn container).mp turn
      have same : k = ds.length := by
        by_contra other
        rcases Nat.lt_or_gt_of_ne other with before | after
        · obtain ⟨j, q', d, turn', value, _⟩ := taken k _ (List.getElem?_eq_getElem before)
          obtain ⟨_, element'⟩ := (container_turn container).mp turn'
          rw [element, Option.some.injEq] at element'
          subst element'
          simp [exception] at value
        · obtain ⟨d, value⟩ := earlier _ after p here
          simp [thrown] at value
      subst same
      rw [element, Option.some.injEq] at here
      subst here
      rw [done, ← thrown, exception]
    · exact fun _ resolved => absurd resolved unresolved
    · exact fun _ _ _ _ => ⟨p, member, e, thrown, done⟩

end Answer

section Settled
variable {a : All} {m n : Machine (State V E) (Instr V E)}

theorem idle_answered (reached : Reached a m) (idle : Idle m) (called : m.shared.called = true)
    (settled : ∀ p ∈ a.elements, Settled m.shared p) : m.shared.outcome .all ≠ none := by
  have owes := nothing_owed (reached_covered reached) idle
  have inv := (reached_sound reached).inv
  have empty : ∀ p ∈ a.elements, (m.shared.cells (.input p)).awaiters = [] :=
    fun p member => inv.tidy.emptied _ (settled p member).2 (settled p member).1
  have resolved : (m.shared.cells .all).resolved = true := by
    by_contra unresolved
    rw [Bool.not_eq_true] at unresolved
    apply owes .run
    refine ⟨called, unresolved, fun c x there frame => ?_⟩
    -- the promise that the coroutine waits for is done, or a link to it is owed
    have waits := inv.waits c x there
    cases target : x.target with
    | link j => simp [target, Target.isFrame] at frame
    | other k => simp [target, Target.isFrame] at frame
    | frame ds =>
      rw [target] at waits
      obtain ⟨_, j, p, turn, source, made⟩ := waits
      have member := turn_member turn
      cases chained : a.chained with
      | false =>
        rw [All.source, if_neg (by simp [chained])] at source
        rw [source, empty p member] at there
        simp at there
      | true =>
        rw [All.source, if_pos chained] at source
        subst source
        have pending : m.shared.outcome (.chain j) = none := by
          by_contra done
          rw [inv.tidy.emptied _ (inv.chains j) done] at there
          simp at there
        have fresh : (m.shared.cells (.chain j)).resolved = false := by
          by_contra set
          exact owes (.store (.chain j)) ⟨Bool.not_eq_false _ ▸ set, pending⟩
        have free : (m.shared.cells (.chain j)).rejected = false := by
          by_contra set
          exact owes (.claim (.chain j)) ⟨Bool.not_eq_false _ ▸ set, fresh⟩
        apply owes (.link j)
        refine ⟨made chained, ⟨fresh, free⟩, fun d y here linked => ?_⟩
        have place := inv.waits d y here
        rw [linked] at place
        obtain ⟨q, rfl, element⟩ := place
        rw [empty q (List.mem_of_getElem? element)] at here
        simp at here
  intro pending
  exact owes (.store .all) ⟨resolved, pending⟩

theorem exec_cells (i : Instr V E) (s : State V E) : (exec a i s).1.called = s.called ∧
    ((exec a i s).1.cells = s.cells ∨
      (∃ c u, (exec a i s).1.cells = s.cells.register c (⟨u, ·⟩)) ∨
      ∃ j, i = .settling j ∧ (exec a i s).1.cells = s.cells.settle j) := by
  cases i with
  | settling j => exact ⟨rfl, .inr (.inr ⟨j, rfl, rfl⟩)⟩
  | callback c u => exact ⟨rfl, .inl rfl⟩
  | next ds =>
    simp only [exec]
    split
    · split <;> exact ⟨rfl, .inl rfl⟩
    · exact ⟨rfl, .inl rfl⟩
  | attach j p ds =>
    simp only [exec]
    split
    · exact ⟨rfl, .inl rfl⟩
    · exact ⟨rfl, .inr (.inl ⟨_, _, rfl⟩)⟩
  | ready c ds =>
    simp only [exec]
    split <;> exact ⟨rfl, .inl rfl⟩
  | suspend c ds =>
    simp only [exec]
    split
    · exact ⟨rfl, .inl rfl⟩
    · exact ⟨rfl, .inr (.inl ⟨_, _, rfl⟩)⟩
  | resume c ds =>
    simp only [exec]
    split <;> exact ⟨rfl, .inl rfl⟩
  | drop ps =>
    cases ps with
    | nil => exact ⟨rfl, .inl rfl⟩
    | cons p ps =>
      simp only [exec]
      split <;> exact ⟨rfl, .inl rfl⟩
  | waitDone p ps =>
    simp only [exec]
    split <;> exact ⟨rfl, .inl rfl⟩

theorem spawn_cells {e : Event V E} {s s' : State V E} {is : List (Instr V E)}
    (spawned : spawn a e s = some (s', is)) : (s.called = true → s'.called = true) ∧
      (s'.cells = s.cells ∨ ∃ c u, s'.cells = s.cells.register c (⟨u, ·⟩)) := by
  cases e with
  | call =>
    simp only [spawn, Option.ite_none_left_eq_some, Option.some.injEq, Prod.mk.injEq] at spawned
    obtain ⟨_, rfl, rfl⟩ := spawned
    exact ⟨fun _ => rfl, .inl rfl⟩
  | settle p o =>
    simp only [spawn, Option.ite_none_right_eq_some, Option.some.injEq, Prod.mk.injEq] at spawned
    obtain ⟨_, rfl, rfl⟩ := spawned
    exact ⟨id, .inl rfl⟩
  | complete p o =>
    simp only [spawn, Option.ite_none_right_eq_some, Option.some.injEq, Prod.mk.injEq] at spawned
    obtain ⟨_, rfl, rfl⟩ := spawned
    exact ⟨id, .inl rfl⟩
  | await p k =>
    simp only [spawn, Option.ite_none_right_eq_some, Option.some.injEq, Prod.mk.injEq] at spawned
    obtain ⟨_, rfl, rfl⟩ := spawned
    exact ⟨id, .inr ⟨_, _, rfl⟩⟩

def Stays (s t : State V E) : Prop :=
  ∀ c, Grows (s.cells c) (t.cells c) ∧ ((s.cells c).handle = false → (t.cells c).handle = false)

theorem register_stays {s t : State V E} {c : Pid} {u : Target V}
    (cells : t.cells = s.cells.register c (⟨u, ·⟩)) : Stays s t := by
  intro d
  rw [cells, Family.register_handle]
  exact ⟨Family.grows_register d, id⟩

theorem same_stays {s t : State V E} (cells : t.cells = s.cells) : Stays s t := by
  intro d
  rw [cells]
  exact ⟨grows_refl _, id⟩

theorem step_stays {l : Label (Event V E)} (reached : Reached a m)
    (taken : step (program a) m l = some n) :
    (m.shared.called = true → n.shared.called = true) ∧ Stays m.shared n.shared := by
  cases step_change taken with
  | fork => exact ⟨id, same_stays rfl⟩
  | start t e s is idle spawned =>
    obtain ⟨called, same | ⟨c, u, registered⟩⟩ := spawn_cells spawned
    · exact ⟨called, same_stays same⟩
    · exact ⟨called, register_stays registered⟩
  | run t i rest here =>
    obtain ⟨called, same | ⟨c, u, registered⟩ | ⟨j, rfl, settled⟩⟩ := exec_cells (a := a) i m.shared
    · exact ⟨fun before => called.trans before, same_stays same⟩
    · exact ⟨fun before => called.trans before, register_stays registered⟩
    · have fresh := reached_fresh reached (has_here here List.mem_cons_self)
      refine ⟨fun before => called.trans before, fun c => ⟨?_, fun free => ?_⟩⟩
      · exact Family.grows_settle fresh c
      · by_contra held
        have before := (Family.handle_settle (Bool.not_eq_false _ ▸ held)).1
        simp [free] at before

theorem run_stays {ls : List (Label (Event V E))} (reached : Reached a m)
    (ran : run (step (program a)) m ls = some n) :
    (m.shared.called = true → n.shared.called = true) ∧ Stays m.shared n.shared := by
  induction ls generalizing m with
  | nil =>
    simp only [run, Option.some.injEq] at ran
    exact ran ▸ ⟨id, same_stays rfl⟩
  | cons l ls ih =>
    obtain ⟨u, taken, rest⟩ := Option.bind_eq_some_iff.mp ran
    obtain ⟨called, first⟩ := step_stays reached taken
    obtain ⟨called', later⟩ := ih (.next reached taken) rest
    refine ⟨fun before => called' (called before), fun c => ⟨?_, fun free => ?_⟩⟩
    · exact grows_trans (first c).1 (later c).1
    · exact (later c).2 ((first c).2 free)

theorem stays_settled {s t : State V E} {p : Nat} (stays : Stays s t) (settled : Settled s p) :
    t.outcome (.input p) = s.outcome (.input p) ∧ Settled t p := by
  obtain ⟨done, free⟩ := settled
  obtain ⟨o, done⟩ := Option.ne_none_iff_exists'.mp done
  have still : t.outcome (.input p) = some o := (stays (.input p)).1.outcome o done
  refine ⟨still.trans done.symm, ?_, (stays (.input p)).2 free⟩
  simp [still]

/-- Once all promises have settled, and the coroutines among them have ended, `All` gives, in
    every later state at rest, what the outcomes of its promises say, whatever the order in which
    they came; and the threads come to rest within a bound. -/
theorem all_sequence (reached : Reached a m) (called : m.shared.called = true)
    (settled : ∀ p ∈ a.elements, Settled m.shared p) :
    (∀ ls n, run (step (program a)) m ls = some n →
      (∀ p ∈ a.elements, n.shared.outcome (.input p) = m.shared.outcome (.input p)) ∧
      (Idle n → Answers a n.shared)) ∧
    (∃ bound, ∀ (ts : List Nat) n, run (step (program a)) m (ts.map .run) = some n →
      ts.length ≤ bound) ∧
    ∃ (ts : List Nat) (n : Machine (State V E) (Instr V E)),
      run (step (program a)) m (ts.map .run) = some n ∧ Idle n := by
  have kept : ∀ m n : Machine (State V E) (Instr V E), ∀ l,
      (Reached a m ∧ ∀ p ∈ a.elements, Settled m.shared p) → step (program a) m l = some n →
      Reached a n ∧ ∀ p ∈ a.elements, Settled n.shared p := by
    intro m n l known taken
    refine ⟨.next known.1 taken, fun p member => ?_⟩
    exact (stays_settled (step_stays known.1 taken).2 (known.2 p member)).2
  have sound : ∀ m : Machine (State V E) (Instr V E),
      (Reached a m ∧ ∀ p ∈ a.elements, Settled m.shared p) →
      Sound (fun s => ∀ p ∈ a.elements, Settled s p) (Fit a) m :=
    fun m known => ⟨known.2, (reached_sound known.1).fit⟩
  have lowers : ∀ (s : State V E) i, (∀ p ∈ a.elements, Settled s p) → Fit a s i →
      cost a (exec a i s).1 + ((exec a i s).2.map (Instr.weight a)).sum < cost a s + i.weight a :=
    fun _ _ settled fit => exec_lowers settled fit
  constructor
  · intro ls n ran
    obtain ⟨called', stays⟩ := run_stays reached ran
    refine ⟨fun p member => (stays_settled stays (settled p member)).1, fun idle => ?_⟩
    have later : Reached a n := run_reachable reached ran
    obtain ⟨o, done⟩ := Option.ne_none_iff_exists'.mp (idle_answered later idle (called' called)
      fun p member => (stays_settled stays (settled p member)).2)
    exact justified_answers (reached_sound later).inv done
  constructor
  · refine ⟨load (Instr.weight a) (cost a) m, fun ts n ran => ?_⟩
    have bound := rest_bound (Instr.weight a) (cost a) kept sound lowers ⟨reached, settled⟩ ran
    omega
  · exact comes_to_rest (Instr.weight a) (cost a) kept sound lowers ⟨reached, settled⟩

end Settled

def twice : All where
  elements := [0, 1, 0]
  coroutine := fun p => p == 1
  form := .container false
  once := List.Perm.refl _

/-- Thread 0 calls `All`, which waits for the first promise; then the coroutine of the second one
    completes, and the first one is resolved. -/
def secondFirst : List (Label (Event Nat String)) :=
  [.fork, .fork, .start 0 .call] ++ List.replicate 3 (.run 0) ++
    [.start 1 (.complete 1 (some (.value (.value 5))))] ++ List.replicate 4 (.run 1) ++
    [.start 0 (.settle 0 (.value (.value 7)))] ++ List.replicate 18 (.run 0)

theorem all_sequence_twice : ∃ m, run (step (program twice)) (initial twice) secondFirst = some m ∧
    m.shared.outcome .all = some (.value (.list [7, 5, 7])) := by
  have facts : (run (step (program twice)) (initial twice) secondFirst).map (fun m =>
      (m.threads, m.shared.called, m.shared.outcome (.input 0), m.shared.outcome (.input 1),
        (m.shared.cells (.input 0)).handle, (m.shared.cells (.input 1)).handle)) =
      some ([[], []], true, some (.value (.value 7)), some (.value (.value 5)), false, false) := rfl
  obtain ⟨m, ran, facts⟩ := Option.map_eq_some_iff.mp facts
  simp only [Prod.mk.injEq] at facts
  obtain ⟨threads, called, first, second, free, free'⟩ := facts
  have settled : ∀ p ∈ twice.elements, Settled m.shared p := by
    simp [twice, Settled, first, second, free, free']
  have idle : Idle m := by simp [Idle, threads]
  have sequence := all_sequence (run_reachable (.start rfl) ran) called settled
  have answers := (sequence.1 [] m rfl).2 idle
  obtain ⟨vs, values, list⟩ := answers.list rfl (by simp [twice, first, second])
  have injective : Function.Injective
      ((some ∘ .value ∘ .value) : Nat → Option (Result Nat String)) := by
    intro x y same
    simpa using same
  have same : vs = [7, 5, 7] :=
    List.map_injective_iff.mpr injective (values.symm.trans (by simp [twice, first, second]))
  exact ⟨m, ran, same ▸ list⟩

def resolver : All where
  elements := [0]
  coroutine := fun _ => true
  form := .container false
  once := List.Perm.refl _

/-- `All` waits for a promise that is then resolved by its resolver while its coroutine goes on:
    the flush is left to the end of that coroutine. -/
theorem all_deferred : ∃ m, run (step (program resolver)) (initial resolver)
      ([.fork, .start 0 .call, .run 0, .run 0, .run 0,
        .start 0 (.settle 0 (.value (.value 7))), .run 0, .run 0] :
        List (Label (Event Nat String))) = some m ∧
    Idle m ∧ m.shared.called = true ∧
    (∀ p ∈ resolver.elements, m.shared.outcome (.input p) = some (.value (.value 7))) ∧
    m.shared.outcome .all = none := by
  refine ⟨_, rfl, ?_, rfl, ?_, rfl⟩
  · intro t member
    exact List.mem_singleton.mp member
  · intro p member
    rw [List.mem_singleton.mp member]
    rfl

end AllSettlement
