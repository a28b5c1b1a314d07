import JSProCpp.AllSettlement

/- What holds of a call of `All` in every reachable state: which values its coroutine has, what
   it waits for and where its outcome comes from. -/
namespace AllSettlement
open Transitions Interleaving PromiseCells
variable {V E : Type}

section Turns
variable {a : All} {j k p : Nat}

theorem turn_iff :
    a.turn k = some (j, p) ↔
      (a.form.order a.elements.length)[k]? = some j ∧ a.elements[j]? = some p := by
  simp only [All.turn, Option.bind_eq_some_iff, Option.map_eq_some_iff, Prod.mk.injEq]
  constructor
  · rintro ⟨j', order, p', element, rfl, rfl⟩
    exact ⟨order, element⟩
  · rintro ⟨order, element⟩
    exact ⟨j, order, p, element, rfl, rfl⟩

theorem turn_member (turn : a.turn k = some (j, p)) : p ∈ a.elements :=
  List.mem_of_getElem? (turn_iff.mp turn).2

theorem order_length (a : All) : (a.form.order a.elements.length).length = a.elements.length := by
  rw [a.once.length_eq, List.length_range]

theorem turn_inside (turn : a.turn k = some (j, p)) : k < a.elements.length := by
  rw [← order_length a]
  exact lookup_inside (turn_iff.mp turn).1

theorem turn_defined (inside : k < a.elements.length) : ∃ j p, a.turn k = some (j, p) := by
  have bound : k < (a.form.order a.elements.length).length := by
    rw [order_length a]
    exact inside
  have position := List.getElem?_eq_getElem bound
  have member := a.once.subset (List.getElem_mem bound)
  have element := List.getElem?_eq_getElem (List.mem_range.mp member)
  exact ⟨_, _, turn_iff.mpr ⟨position, element⟩⟩

theorem turn_over (past : a.turn k = none) : a.elements.length ≤ k := by
  by_contra inside
  obtain ⟨j, p, turn⟩ := turn_defined (Nat.lt_of_not_le inside)
  simp [turn] at past

end Turns

def All.passed (a : All) (d : Data V) : Data V := if a.chained then .list d.items else d

/-- The results are the values of the promises that the coroutine came to, in its order. -/
def Taken (a : All) (s : State V E) (ds : List (Data V)) : Prop :=
  ∀ (k : Nat) (d : Data V), ds[k]? = some d → ∃ j p d', a.turn k = some (j, p) ∧
    s.outcome (.input p) = some (.value d') ∧ d = a.passed d'

/-- The awaiter has its place in the list of the promise. -/
def Waits (a : All) (s : State V E) (c : Pid) : Target V → Prop
  | .link j => ∃ p, c = .input p ∧ a.elements[j]? = some p
  | .frame ds => Taken a s ds ∧ ∃ j p, a.turn ds.length = some (j, p) ∧ c = a.source j p ∧
      (a.chained = true → s.made j = true)
  | .other _ => ∃ p, c = .input p

def Justified (a : All) (s : State V E) (o : Result V E) : Pid → Prop
  | .input p => p ∈ a.elements ∧ a.fits p o = true
  | .chain j => ∃ p o', a.elements[j]? = some p ∧ s.outcome (.input p) = some o' ∧ o = tupled o'
  | .all => ∃ ds, Taken a s ds ∧
      ((a.turn ds.length = none ∧ o = .value (a.finish ds)) ∨
        ∃ j p e, a.turn ds.length = some (j, p) ∧ s.outcome (.input p) = some (.exception e) ∧
          o = .exception e)

structure Inv (a : All) (s : State V E) : Prop where
  tidy : s.cells.Tidy
  justified : ∀ c o, s.outcome c = some o → Justified a s o c
  waits : ∀ c, ∀ x ∈ (s.cells c).awaiters, Waits a s c x.target
  chains : ∀ j, (s.cells (.chain j)).handle = false

def Fit (a : All) (s : State V E) : Instr V E → Prop
  | .settling (.reject c o) => Justified a s o c
  | .settling (.claim c o) => Justified a s o c
  | .settling (.store c o) => Justified a s o c ∧ (s.cells c).resolved = true
  | .settling (.clear c) => c = .all ∨ ∃ p ∈ a.elements, c = .input p
  | .callback c t => s.outcome c ≠ none ∧ Waits a s c t
  | .next ds => Taken a s ds
  | .attach j p ds => a.chained = true ∧ a.turn ds.length = some (j, p) ∧ Taken a s ds
  | .ready c ds => Waits a s c (.frame ds)
  | .suspend c ds => Waits a s c (.frame ds)
  | .resume c ds => s.outcome c ≠ none ∧ Waits a s c (.frame ds)
  | .drop ps => ∀ p ∈ ps, p ∈ a.elements
  | .waitDone p ps => ∀ q ∈ p :: ps, q ∈ a.elements

structure Later (s t : State V E) : Prop where
  cells : ∀ c, Grows (s.cells c) (t.cells c)
  made : ∀ j, s.made j = true → t.made j = true

section Later
variable {a : All} {s t : State V E}

theorem later_outcome (later : Later s t) {c : Pid} {o : Result V E}
    (done : s.outcome c = some o) : t.outcome c = some o :=
  (later.cells c).outcome o done

theorem later_done (later : Later s t) {c : Pid} (done : s.outcome c ≠ none) :
    t.outcome c ≠ none := by
  obtain ⟨o, done⟩ := Option.ne_none_iff_exists'.mp done
  simp [later_outcome later done]

theorem later_taken (later : Later s t) {ds : List (Data V)} (taken : Taken a s ds) :
    Taken a t ds := by
  intro k d here
  obtain ⟨j, p, d', turn, done, passed⟩ := taken k d here
  exact ⟨j, p, d', turn, later_outcome later done, passed⟩

theorem later_waits (later : Later s t) {c : Pid} {u : Target V} (waits : Waits a s c u) :
    Waits a t c u := by
  cases u with
  | link j => exact waits
  | other n => exact waits
  | frame ds =>
    obtain ⟨taken, j, p, turn, source, made⟩ := waits
    exact ⟨later_taken later taken, j, p, turn, source, fun chained => later.made j (made chained)⟩

theorem later_justified (later : Later s t) {c : Pid} {o : Result V E}
    (just : Justified a s o c) : Justified a t o c := by
  cases c with
  | input p => exact just
  | chain j =>
    obtain ⟨p, o', element, done, outcome⟩ := just
    exact ⟨p, o', element, later_outcome later done, outcome⟩
  | all =>
    obtain ⟨ds, taken, past | ⟨j, p, e, turn, done, outcome⟩⟩ := just
    · exact ⟨ds, later_taken later taken, .inl past⟩
    · exact ⟨ds, later_taken later taken, .inr ⟨j, p, e, turn, later_outcome later done, outcome⟩⟩

theorem later_fit (later : Later s t) {i : Instr V E} (fit : Fit a s i) : Fit a t i := by
  cases i with
  | settling i =>
    cases i with
    | reject c o => exact later_justified later fit
    | claim c o => exact later_justified later fit
    | store c o => exact ⟨later_justified later fit.1, (later.cells c).resolved fit.2⟩
    | clear c => exact fit
  | callback c u => exact ⟨later_done later fit.1, later_waits later fit.2⟩
  | next ds => exact later_taken later fit
  | attach j p ds => exact ⟨fit.1, fit.2.1, later_taken later fit.2.2⟩
  | ready c ds => exact later_waits (u := .frame ds) later fit
  | suspend c ds => exact later_waits (u := .frame ds) later fit
  | resume c ds => exact ⟨later_done later fit.1, later_waits later fit.2⟩
  | drop ps => exact fit
  | waitDone p ps => exact fit

end Later

section Steps
variable {a : All} {s t : State V E}

/-- Nothing but the marks of the coroutines has changed. -/
theorem same_inv (inv : Inv a s) (cells : t.cells = s.cells)
    (made : ∀ j, s.made j = true → t.made j = true) : Inv a t ∧ Later s t := by
  have later : Later s t := by
    constructor
    · intro c
      rw [cells]
      exact grows_refl _
    · exact made
  have outcome : ∀ c, t.outcome c = s.outcome c := by
    intro c
    rw [State.outcome, cells, State.outcome]
  refine ⟨⟨cells ▸ inv.tidy, fun c o done => ?_, fun c x there => ?_, ?_⟩, later⟩
  · exact later_justified later (inv.justified c o (outcome c ▸ done))
  · rw [cells] at there
    exact later_waits later (inv.waits c x there)
  · rw [cells]
    exact inv.chains

theorem register_inv {c : Pid} {u : Target V} (inv : Inv a s)
    (cells : t.cells = s.cells.register c (⟨u, ·⟩)) (pending : s.outcome c = none)
    (made : ∀ j, s.made j = true → t.made j = true) (waits : Waits a t c u) :
    Inv a t ∧ Later s t := by
  have later : Later s t := by
    constructor
    · intro d
      rw [cells]
      exact Family.grows_register d
    · exact made
  refine ⟨⟨?_, fun d o done => ?_, fun d x there => ?_, fun j => ?_⟩, later⟩
  · rw [cells]
    exact Family.tidy_register inv.tidy pending
  · rw [State.outcome, cells, Family.register_outcome] at done
    exact later_justified later (inv.justified d o done)
  · rw [cells] at there
    rcases Family.register_awaiters there with old | ⟨rfl, rfl⟩
    · exact later_waits later (inv.waits d x old)
    · exact waits
  · rw [cells, Family.register_handle]
    exact inv.chains j

theorem fit_settling {c : Pid} {o : Result V E} (just : Justified a s o c) :
    Fit a s (.settling (settling c o)) := by
  cases o with
  | value d => exact just
  | exception e => exact just

theorem settling_kept {i : Settling Pid (Data V) E} (inv : Inv a s) (fit : Fit a s (.settling i))
    (fresh : Fresh (s.cells i.cell) i) :
    Kept (Inv a) (Fit a) s (exec a (.settling i) s).1 (exec a (.settling i) s).2 := by
  have later : Later s { s with cells := s.cells.settle i } :=
    ⟨fun c => Family.grows_settle fresh c, fun _ made => made⟩
  constructor
  · refine ⟨Family.tidy_settle inv.tidy ?_, fun c o done => ?_, fun c x there => ?_, fun j => ?_⟩
    · intro c o store
      subst store
      exact fit.2
    · rcases Family.outcome_settle done with old | store
      · exact later_justified later (inv.justified c o old)
      · subst store
        exact later_justified later fit.1
    · exact later_waits later (inv.waits c x (Family.settle_sub there))
    · by_contra held
      rw [Bool.not_eq_false] at held
      have before := (Family.handle_settle held).1
      simp [inv.chains j] at before
  · exact fun x fit => later_fit later fit
  · intro x new
    rcases List.mem_append.mp new with next | flushed
    · obtain ⟨k, there, rfl⟩ := List.mem_map.mp next
      rw [settle_next] at there
      cases i with
      | reject c o =>
        simp only at there
        split at there
        · simp at there
        · rw [List.mem_singleton.mp there]
          exact later_justified later fit
      | claim c o =>
        simp only at there
        split at there
        · simp at there
        · rw [List.mem_singleton.mp there]
          exact ⟨later_justified later fit, Family.settle_claimed s.cells c o⟩
      | store c o => simp at there
      | clear c => simp at there
    · obtain ⟨y, there, rfl⟩ := List.mem_map.mp flushed
      refine ⟨Family.flushed_done there, later_waits later ?_⟩
      exact inv.waits _ y (flushed_sub there)

theorem fit_ending (k : Nat) (o : Result V E) (just : Justified a s o .all) :
    ∀ x ∈ ending .all (a.captured k) (some o), Fit a s x := by
  intro x new
  simp only [ending, List.mem_cons, List.not_mem_nil, or_false] at new
  rcases new with rfl | rfl | rfl
  · exact just
  · exact fun p => All.captured_sub
  · exact .inl rfl

/-- The promise that the coroutine awaits has its outcome: the coroutine goes on with the value
    or ends with the exception. -/
theorem awaited_outcome {c : Pid} {ds : List (Data V)} (inv : Inv a s)
    (waits : Waits a s c (.frame ds)) {o : Result V E} (done : s.outcome c = some o) :
    (∀ d, o = .value d → Taken a s (ds ++ [d])) ∧
      ∀ e, o = .exception e → Justified a s (.exception e) .all := by
  obtain ⟨taken, j, p, turn, source, _⟩ := waits
  have origin : ∃ o', s.outcome (.input p) = some o' ∧
      (∀ d, o' = .value d → o = .value (a.passed d)) ∧
      ∀ e, o' = .exception e → o = .exception e := by
    cases chained : a.chained with
    | false =>
      simp only [All.source, chained, Bool.false_eq_true, if_false] at source
      subst source
      refine ⟨o, done, ?_⟩
      cases o <;> simp [All.passed, chained]
    | true =>
      simp only [All.source, chained, if_true] at source
      subst source
      obtain ⟨q, o', element, first, rfl⟩ := inv.justified _ o done
      rw [(turn_iff.mp turn).2, Option.some.injEq] at element
      subst element
      refine ⟨o', first, ?_⟩
      cases o' <;> simp [tupled, All.passed, chained]
  obtain ⟨o', first, passes, throws⟩ := origin
  constructor
  · intro d value
    cases o' with
    | exception e => simp [throws e rfl] at value
    | value d' =>
      simp only [passes d' rfl, Outcome.value.injEq] at value
      intro k x here
      rcases append_lookup here with ⟨rfl, rfl⟩ | old
      · exact ⟨j, p, d', turn, first, value.symm⟩
      · exact taken k x old
  · intro e exception
    cases o' with
    | value d' => simp [passes d' rfl] at exception
    | exception e' =>
      simp only [throws e' rfl, Outcome.exception.injEq] at exception
      subst exception
      exact ⟨ds, taken, .inr ⟨j, p, e', turn, first, rfl⟩⟩

theorem attach_kept {j p : Nat} {ds : List (Data V)} (inv : Inv a s)
    (fit : Fit a s (.attach j p ds : Instr V E)) :
    Kept (Inv a) (Fit a) s (exec a (.attach j p ds) s).1 (exec a (.attach j p ds) s).2 := by
  obtain ⟨chained, turn, taken⟩ := fit
  have made : ∀ k, s.made k = true → Function.update s.made j true k = true := by
    intro k before
    rw [Function.update_apply]
    split
    · rfl
    · exact before
  have source : Pid.chain j = a.source j p := by
    rw [All.source, chained]
    rfl
  simp only [exec]
  split
  · rename_i o done
    obtain ⟨after, later⟩ := same_inv inv
      (t := { s with made := Function.update s.made j true }) rfl made
    refine ⟨after, fun x fit => later_fit later fit, fun x new => ?_⟩
    simp only [List.mem_cons, List.not_mem_nil, or_false] at new
    rcases new with rfl | rfl
    · exact fit_settling ⟨p, o, (turn_iff.mp turn).2, done, rfl⟩
    · exact ⟨later_taken later taken, j, p, turn, source, fun _ => Function.update_self _ _ _⟩
  · rename_i pending
    obtain ⟨after, later⟩ := register_inv inv (c := .input p) (u := .link j)
      (t := { s with
        made := Function.update s.made j true
        cells := s.cells.register (.input p) (⟨.link j, ·⟩) }) rfl pending made
      ⟨p, rfl, (turn_iff.mp turn).2⟩
    refine ⟨after, fun x fit => later_fit later fit, fun x new => ?_⟩
    rw [List.mem_singleton.mp new]
    exact ⟨later_taken later taken, j, p, turn, source, fun _ => Function.update_self _ _ _⟩

theorem ends_kept {k : Nat} {o : Result V E} (inv : Inv a s) (just : Justified a s o .all) :
    Kept (Inv a) (Fit a) s (s.ended .all) (ending .all (a.captured k) (some o)) := by
  obtain ⟨after, later⟩ := same_inv inv (t := s.ended .all) rfl fun _ made => made
  exact ⟨after, fun x fit => later_fit later fit,
    fun x new => later_fit later (fit_ending k o just x new)⟩

theorem callback_kept {c : Pid} {u : Target V} (inv : Inv a s)
    (fit : Fit a s (.callback c u : Instr V E)) : Kept (Inv a) (Fit a) s s (callback s c u) := by
  obtain ⟨done, waits⟩ := fit
  cases u with
  | other n => exact ⟨inv, fun _ => id, by simp [callback]⟩
  | frame ds => exact kept_one (Instr.resume c ds) inv ⟨done, waits⟩
  | link j =>
    obtain ⟨o, done⟩ := Option.ne_none_iff_exists'.mp done
    obtain ⟨p, rfl, element⟩ := waits
    have here : (s.cells (.input p)).outcome = some o := done
    simp only [callback, here]
    exact kept_one _ inv (fit_settling ⟨p, o, element, done, rfl⟩)

theorem next_kept {ds : List (Data V)} (inv : Inv a s) (taken : Taken a s ds) :
    Kept (Inv a) (Fit a) s (exec a (.next ds) s).1 (exec a (.next ds) s).2 := by
  simp only [exec]
  split
  · rename_i j p turn
    split
    · rename_i chained
      exact kept_one (Instr.attach j p ds) inv ⟨chained, turn, taken⟩
    · rename_i container
      refine kept_one (Instr.ready (.input p) ds) inv
        ⟨taken, j, p, turn, ?_, fun chained => absurd chained container⟩
      rw [All.source, if_neg container]
  · rename_i past
    exact ends_kept inv ⟨ds, taken, .inl ⟨past, rfl⟩⟩

theorem suspend_kept {c : Pid} {ds : List (Data V)} (inv : Inv a s)
    (waits : Waits a s c (.frame ds)) :
    Kept (Inv a) (Fit a) s (exec a (.suspend c ds) s).1 (exec a (.suspend c ds) s).2 := by
  simp only [exec]
  split
  · rename_i done
    exact kept_one (Instr.resume c ds) inv ⟨Option.isSome_iff_ne_none.mp done, waits⟩
  · rename_i pending
    rw [Bool.not_eq_true, Option.isSome_eq_false_iff, Option.isNone_iff_eq_none] at pending
    have later : Later s { s with cells := s.cells.register c (⟨.frame ds, ·⟩) } :=
      ⟨fun _ => Family.grows_register _, fun _ made => made⟩
    obtain ⟨after, _⟩ := register_inv inv (u := .frame ds)
      (t := { s with cells := s.cells.register c (⟨.frame ds, ·⟩) }) rfl pending
      (fun _ made => made) (later_waits (u := .frame ds) later waits)
    exact ⟨after, fun x fit => later_fit later fit, by simp⟩

theorem resume_kept {c : Pid} {ds : List (Data V)} (inv : Inv a s) (done : s.outcome c ≠ none)
    (waits : Waits a s c (.frame ds)) :
    Kept (Inv a) (Fit a) s (exec a (.resume c ds) s).1 (exec a (.resume c ds) s).2 := by
  obtain ⟨o, done⟩ := Option.ne_none_iff_exists'.mp done
  obtain ⟨value, exception⟩ := awaited_outcome inv waits done
  have here : (s.cells c).outcome = some o := done
  simp only [exec, here]
  cases o with
  | value d => exact kept_one (Instr.next (ds ++ [d])) inv (value d rfl)
  | exception e => exact ends_kept inv (exception e rfl)

theorem exec_kept {i : Instr V E} (inv : Inv a s) (fit : Fit a s i)
    (fresh : ∀ j, i = .settling j → Fresh (s.cells j.cell) j) :
    Kept (Inv a) (Fit a) s (exec a i s).1 (exec a i s).2 := by
  cases i with
  | settling i => exact settling_kept inv fit (fresh i rfl)
  | attach j p ds => exact attach_kept inv fit
  | callback c u => exact callback_kept inv fit
  | next ds => exact next_kept inv fit
  | ready c ds =>
    simp only [exec]
    split
    · rename_i done
      exact kept_one (Instr.resume c ds) inv ⟨Option.isSome_iff_ne_none.mp done, fit⟩
    · exact kept_one (Instr.suspend c ds) inv fit
  | suspend c ds => exact suspend_kept inv fit
  | resume c ds => exact resume_kept inv fit.1 fit.2
  | drop ps =>
    cases ps with
    | nil => exact ⟨inv, fun _ => id, by simp [exec]⟩
    | cons p ps =>
      simp only [exec]
      split
      · exact kept_one (Instr.drop ps) inv fun q there => fit q (List.mem_cons_of_mem _ there)
      · exact kept_one (Instr.waitDone p ps) inv fit
  | waitDone p ps =>
    simp only [exec]
    split
    · exact kept_one (Instr.drop ps) inv fun q there => fit q (List.mem_cons_of_mem _ there)
    · exact kept_one (Instr.waitDone p ps) inv fit

theorem spawn_kept {e : Event V E} {s' : State V E} {is : List (Instr V E)}
    (inv : Inv a s) (spawned : spawn a e s = some (s', is)) :
    Kept (Inv a) (Fit a) s s' is := by
  cases e with
  | call =>
    simp only [spawn, Option.ite_none_left_eq_some, Option.some.injEq, Prod.mk.injEq] at spawned
    obtain ⟨_, rfl, rfl⟩ := spawned
    obtain ⟨after, later⟩ := same_inv inv (t := { s with called := true }) rfl fun _ made => made
    refine ⟨after, fun x fit => later_fit later fit, fun x new => ?_⟩
    rw [List.mem_singleton.mp new]
    intro k d here
    simp at here
  | settle p o =>
    simp only [spawn, Option.ite_none_right_eq_some, Option.some.injEq, Prod.mk.injEq] at spawned
    obtain ⟨fits, rfl, rfl⟩ := spawned
    refine ⟨inv, fun _ fit => fit, fun x new => ?_⟩
    rw [List.mem_singleton.mp new]
    exact fit_settling fits
  | complete p o =>
    simp only [spawn, Option.ite_none_right_eq_some, Option.some.injEq, Prod.mk.injEq] at spawned
    obtain ⟨⟨member, _, fits⟩, rfl, rfl⟩ := spawned
    obtain ⟨after, later⟩ := same_inv inv (t := s.ended (.input p)) rfl fun _ made => made
    refine ⟨after, fun x fit => later_fit later fit, fun x new => ?_⟩
    cases o with
    | none =>
      simp only [ending, List.mem_cons, List.not_mem_nil, or_false] at new
      rcases new with rfl | rfl
      · simp [Fit]
      · exact .inr ⟨p, member, rfl⟩
    | some o =>
      simp only [ending, List.mem_cons, List.not_mem_nil, or_false] at new
      rcases new with rfl | rfl | rfl
      · exact ⟨member, by simpa using fits⟩
      · simp [Fit]
      · exact .inr ⟨p, member, rfl⟩
  | await p n =>
    simp only [spawn, Option.ite_none_right_eq_some, Option.some.injEq, Prod.mk.injEq] at spawned
    obtain ⟨⟨_, pending⟩, rfl, rfl⟩ := spawned
    obtain ⟨after, later⟩ := register_inv inv (u := .other n)
      (t := { s with cells := s.cells.register (.input p) (⟨.other n, ·⟩) }) rfl pending
      (fun _ made => made) ⟨p, rfl⟩
    exact ⟨after, fun x fit => later_fit later fit, by simp⟩

theorem initial_sound (a : All) :
    Sound (Inv a) (Fit a) (initial a : Machine (State V E) (Instr V E)) := by
  constructor
  · constructor
    · constructor <;> simp [initial, created]
    · simp [initial, created, State.outcome]
    · simp [initial, created]
    · intro j
      rfl
  · rintro i ⟨t, member, _⟩
    simp [initial] at member

theorem reached_sound {m : Machine (State V E) (Instr V E)} (reached : Reached a m) :
    Sound (Inv a) (Fit a) m := by
  induction reached with
  | start first => exact first ▸ initial_sound a
  | next reached taken ih =>
    refine sound_step (fun s i inv fit known => exec_kept inv fit known)
      (fun _ e s s' is inv spawned => spawn_kept inv spawned) (fun i has j same => ?_) ih taken
    subst same
    exact reached_fresh reached has

end Steps

end AllSettlement
