import JSProCpp.RaceSettlement

/- What holds of a race in every reachable state: where its outcome comes from, which
   registrations it still has and what every waiting instruction relies on. -/
namespace RaceSettlement
open Transitions Interleaving PromiseCells
variable {V E : Type}

def State.outcome (s : State V E) (c : Pid) : Option (Result V E) := (s.cells c).outcome

/-- No `handle` of the race with this id waits for the input. -/
def Absent (s : State V E) (p id : Nat) : Prop :=
  ⟨.handle, id⟩ ∉ (s.cells (.input p)).awaiters

def Own (s : State V E) (p id : Nat) : Prop :=
  ∀ a ∈ (s.cells (.input p)).awaiters, a.id = id → a.target = .handle

def Won (r : Race) (s : State V E) (o : Result V E) : Prop :=
  ∃ p ∈ r.inputs, s.outcome (.input p) = some o

/-- `race j` has the outcome, and the `Finally` on it has run its callable. -/
def Unwrapped (s : State V E) (j : Nat) (o : Result V E) : Prop :=
  s.outcome (.race j) = some o ∧ ∃ p id, s.stack[j]? = some (p, id) ∧ Absent s p id

def Justified (r : Race) (s : State V E) (o : Result V E) : Pid → Prop
  | .input p => p ∈ r.inputs ∧ r.fits p o = true ∧
      (r.coroutine p = true → s.running p = false)
  | .race 0 => Won r s o
  | .race (j + 1) => Unwrapped s j o

structure Inv (r : Race) (s : State V E) : Prop where
  resolved : ∀ c, s.outcome c ≠ none → (s.cells c).resolved = true
  justified : ∀ c o, s.outcome c = some o → Justified r s o c
  ids : ∀ p, ((s.cells (.input p)).awaiters.map (·.id)).Nodup
  bound : ∀ p, ∀ a ∈ (s.cells (.input p)).awaiters, a.id ≤ (s.cells (.input p)).useCount
  stackIds : ∀ (j p id : Nat), s.stack[j]? = some (p, id) →
    id ≤ (s.cells (.input p)).useCount ∧ Own s p id
  targets : ∀ p, ∀ a ∈ (s.cells (.input p)).awaiters,
    a.isOther = true ∨ (a.target = .handle ∧ p ∈ r.inputs)
  wrappers : ∀ j, ∀ a ∈ (s.cells (.race j)).awaiters,
    ∃ p id, a.target = .finally_ p id ∧ s.stack[j]? = some (p, id)
  linked : ∀ (j p id : Nat), s.stack[j]? = some (p, id) → s.outcome (.race j) = none →
    ∃ a ∈ (s.cells (.race j)).awaiters, a.target = .finally_ p id
  made : ∀ j, (s.cells (.race j)).handle = false
  shadow : ∀ p, s.outcome (.input p) = none →
    (s.cells (.input p)).awaiters.filter (·.isOther) = s.others p
  emptied : ∀ p, (s.cells (.input p)).handle = false → s.outcome (.input p) ≠ none →
    (s.cells (.input p)).awaiters = []
  held : ∀ p, (s.cells (.input p)).handle = true → r.coroutine p = true

def Fit (r : Race) (s : State V E) : Instr V E → Prop
  | .settling (.reject c o) => Justified r s o c
  | .settling (.claim c o) => Justified r s o c
  | .settling (.store c o) => Justified r s o c ∧ (s.cells c).resolved = true
  | .settling (.clear c) => ∃ p ∈ r.inputs, c = .input p
  | .callback (.input p) t => t = .handle → p ∈ r.inputs ∧ s.outcome (.input p) ≠ none
  | .callback (.race j) t => s.outcome (.race j) ≠ none ∧
      ∃ p id, t = .finally_ p id ∧ s.stack[j]? = some (p, id)
  | .race p => p ∈ r.inputs
  | .skip p => p ∈ r.inputs
  | .attach p => p ∈ r.inputs
  | .wrap p id => p ∈ r.inputs ∧ id ≤ (s.cells (.input p)).useCount ∧ Own s p id
  | .func j p id o => s.outcome (.race j) = some o ∧ s.stack[j]? = some (p, id)

structure Later (s t : State V E) : Prop where
  cells : ∀ c, Grows (s.cells c) (t.cells c)
  stack : ∀ (j p id : Nat), s.stack[j]? = some (p, id) → t.stack[j]? = some (p, id)
  awaiters : ∀ p, ∀ a ∈ (t.cells (.input p)).awaiters, a.id ≤ (s.cells (.input p)).useCount →
    a ∈ (s.cells (.input p)).awaiters
  running : ∀ p, s.running p = false → t.running p = false

section Later
variable {r : Race} {s t : State V E}

theorem later_outcome (later : Later s t) {c : Pid} {o : Result V E}
    (done : s.outcome c = some o) : t.outcome c = some o :=
  (later.cells c).outcome o done

theorem later_done (later : Later s t) {c : Pid} (done : s.outcome c ≠ none) :
    t.outcome c ≠ none := by
  obtain ⟨o, done⟩ := Option.ne_none_iff_exists'.mp done
  simp [later_outcome later done]

theorem later_absent (later : Later s t) {p id : Nat}
    (bound : id ≤ (s.cells (.input p)).useCount) (absent : Absent s p id) : Absent t p id :=
  fun there => absent (later.awaiters p _ there bound)

theorem later_own (later : Later s t) {p id : Nat} (bound : id ≤ (s.cells (.input p)).useCount)
    (own : Own s p id) : Own t p id := by
  intro a there same
  exact own a (later.awaiters p a there (same ▸ bound)) same

theorem later_justified (inv : Inv r s) (later : Later s t) {c : Pid} {o : Result V E}
    (just : Justified r s o c) : Justified r t o c := by
  cases c with
  | input p => exact ⟨just.1, just.2.1, fun coroutine => later.running p (just.2.2 coroutine)⟩
  | race j =>
    cases j with
    | zero =>
      obtain ⟨p, member, done⟩ := just
      exact ⟨p, member, later_outcome later done⟩
    | succ j =>
      obtain ⟨done, p, id, link, absent⟩ := just
      exact ⟨later_outcome later done, p, id, later.stack j p id link,
        later_absent later (inv.stackIds j p id link).1 absent⟩

theorem later_fit (inv : Inv r s) (later : Later s t) {i : Instr V E} (fit : Fit r s i) :
    Fit r t i := by
  cases i with
  | settling i =>
    cases i with
    | reject c o => exact later_justified inv later fit
    | claim c o => exact later_justified inv later fit
    | store c o => exact ⟨later_justified inv later fit.1, (later.cells c).resolved fit.2⟩
    | clear c => exact fit
  | callback c target =>
    cases c with
    | input p => exact fun handle => ⟨(fit handle).1, later_done later (fit handle).2⟩
    | race j =>
      obtain ⟨done, p, id, target_, link⟩ := fit
      exact ⟨later_done later done, p, id, target_, later.stack j p id link⟩
  | race p => exact fit
  | skip p => exact fit
  | attach p => exact fit
  | wrap p id =>
    exact ⟨fit.1, Nat.le_trans fit.2.1 (later.cells (.input p)).useCount,
      later_own later fit.2.1 fit.2.2⟩
  | func j p id o => exact ⟨later_outcome later fit.1, later.stack j p id fit.2⟩

end Later

section Put
variable {r : Race} {s : State V E}

/-- What a new content of an input's cell has to meet; `os` is the history of the other
    parties after it. -/
structure InputFits (r : Race) (s : State V E) (p : Nat) (x : Cell Awaiter (Option V) E)
    (os : List Awaiter) : Prop where
  grows : Grows (s.cells (.input p)) x
  resolved : x.outcome ≠ none → x.resolved = true
  justified : ∀ o, x.outcome = some o → Justified r s o (.input p)
  ids : (x.awaiters.map (·.id)).Nodup
  bound : ∀ a ∈ x.awaiters, a.id ≤ x.useCount
  targets : ∀ a ∈ x.awaiters, a.isOther = true ∨ (a.target = .handle ∧ p ∈ r.inputs)
  old : ∀ a ∈ x.awaiters, a.id ≤ (s.cells (.input p)).useCount →
    a ∈ (s.cells (.input p)).awaiters
  shadow : x.outcome = none → x.awaiters.filter (·.isOther) = os
  emptied : x.handle = false → x.outcome ≠ none → x.awaiters = []
  held : x.handle = true → r.coroutine p = true

theorem input_later {p : Nat} {x : Cell Awaiter (Option V) E} {os : List Awaiter}
    (fits : InputFits r s p x os) :
    Later s { s.put (.input p) x with others := Function.update s.others p os } := by
  have here : (s.put (.input p) x).cells (.input p) = x := Family.put_here
  refine ⟨fun c => ?_, fun j q id link => link, fun q a there bound => ?_, fun q done => done⟩
  · by_cases same : c = .input p
    · subst same
      simp only [here]
      exact fits.grows
    · simp only [put_cells, Family.put_away same]
      exact grows_refl _
  · by_cases same : q = p
    · subst same
      simp only [here] at there
      exact fits.old a there bound
    · have kept : (s.put (.input p) x).cells (.input q) = s.cells (.input q) :=
        Family.put_away (by simpa using same)
      simp only [kept] at there
      exact there

theorem input_inv (inv : Inv r s) {p : Nat} {x : Cell Awaiter (Option V) E} {os : List Awaiter}
    (fits : InputFits r s p x os) :
    Inv r { s.put (.input p) x with others := Function.update s.others p os } := by
  have later := input_later fits
  have races : ∀ j, (s.put (.input p) x).cells (.race j) = s.cells (.race j) := by
    intro j
    rw [put_cells, Family.put_away (by simp)]
  have others : ∀ q, q ≠ p → (s.put (.input p) x).cells (.input q) = s.cells (.input q) := by
    intro q other
    rw [put_cells, Family.put_away (by simpa using other)]
  have here : (s.put (.input p) x).cells (.input p) = x := Family.put_here
  refine ⟨fun c done => ?_, fun c o done => ?_, fun q => ?_, fun q => ?_, fun j q id link => ?_,
    fun q => ?_, fun j => ?_, fun j q id link pending => ?_, fun j => ?_, fun q => ?_, fun q => ?_,
    fun q => ?_⟩
  · by_cases same : c = .input p
    · subst same
      simp only [State.outcome, here] at done ⊢
      exact fits.resolved done
    · simp only [State.outcome, put_cells, Family.put_away same] at done ⊢
      exact inv.resolved c done
  · by_cases same : c = .input p
    · subst same
      simp only [State.outcome, here] at done
      exact later_justified inv later (fits.justified o done)
    · simp only [State.outcome, put_cells, Family.put_away same] at done
      exact later_justified inv later (inv.justified c o done)
  · by_cases same : q = p
    · simp only [same, here]
      exact fits.ids
    · simp only [others q same]
      exact inv.ids q
  · by_cases same : q = p
    · simp only [same, here]
      exact fits.bound
    · simp only [others q same]
      exact inv.bound q
  · have known := inv.stackIds j q id link
    exact ⟨Nat.le_trans known.1 (later.cells (.input q)).useCount, later_own later known.1 known.2⟩
  · by_cases same : q = p
    · simp only [same, here]
      exact fits.targets
    · simp only [others q same]
      exact inv.targets q
  · simp only [races j]
    exact inv.wrappers j
  · simp only [State.outcome, races j] at pending ⊢
    exact inv.linked j q id link pending
  · simp only [races j]
    exact inv.made j
  · by_cases same : q = p
    · simp only [same, State.outcome, here, Function.update_self]
      exact fits.shadow
    · simp only [State.outcome, others q same, Function.update_of_ne same]
      exact inv.shadow q
  · by_cases same : q = p
    · simp only [same, State.outcome, here]
      exact fits.emptied
    · simp only [State.outcome, others q same]
      exact inv.emptied q
  · by_cases same : q = p
    · simp only [same, here]
      exact fits.held
    · simp only [others q same]
      exact inv.held q

theorem others_same (p : Nat) (x : Cell Awaiter (Option V) E) :
    { s.put (.input p) x with others := Function.update s.others p (s.others p) } =
      s.put (.input p) x := by
  rw [Function.update_eq_self]
  rfl

/-- Steps of the race itself leave the history of the other parties alone. -/
theorem put_kept (inv : Inv r s) {p : Nat} {x : Cell Awaiter (Option V) E}
    (fits : InputFits r s p x (s.others p)) :
    Inv r (s.put (.input p) x) ∧ Later s (s.put (.input p) x) := by
  rw [← others_same]
  exact ⟨input_inv inv fits, input_later fits⟩

structure RaceFits (r : Race) (s : State V E) (j : Nat) (x : Cell Awaiter (Option V) E) :
    Prop where
  grows : Grows (s.cells (.race j)) x
  resolved : x.outcome ≠ none → x.resolved = true
  justified : ∀ o, x.outcome = some o → Justified r s o (.race j)
  wrappers : ∀ a ∈ x.awaiters, ∃ p id, a.target = .finally_ p id ∧ s.stack[j]? = some (p, id)
  linked : ∀ p id, s.stack[j]? = some (p, id) → x.outcome = none →
    ∃ a ∈ x.awaiters, a.target = .finally_ p id
  made : x.handle = false

theorem race_later {j : Nat} {x : Cell Awaiter (Option V) E} (fits : RaceFits r s j x) :
    Later s (s.put (.race j) x) := by
  refine ⟨fun c => ?_, fun k q id link => link, fun q a there _ => ?_, fun q done => done⟩
  · by_cases here : c = .race j
    · rw [here, put_cells, Family.put_here]
      exact fits.grows
    · rw [put_cells, Family.put_away here]
      exact grows_refl _
  · rw [put_cells, Family.put_away (by simp)] at there
    exact there

theorem race_inv (inv : Inv r s) {j : Nat} {x : Cell Awaiter (Option V) E}
    (fits : RaceFits r s j x) : Inv r (s.put (.race j) x) := by
  have later := race_later fits
  have inputs : ∀ p, (s.put (.race j) x).cells (.input p) = s.cells (.input p) := by
    intro p
    rw [put_cells, Family.put_away (by simp)]
  have others : ∀ k, k ≠ j → (s.put (.race j) x).cells (.race k) = s.cells (.race k) := by
    intro k other
    rw [put_cells, Family.put_away (by simpa using other)]
  have here : (s.put (.race j) x).cells (.race j) = x := Family.put_here
  refine ⟨fun c done => ?_, fun c o done => ?_, fun p => ?_, fun p => ?_, fun k p id link => ?_,
    fun p => ?_, fun k => ?_, fun k p id link pending => ?_, fun k => ?_, fun p => ?_, fun p => ?_,
    fun p => ?_⟩
  · by_cases same : c = .race j
    · subst same
      rw [State.outcome, here] at done
      rw [here]
      exact fits.resolved done
    · rw [State.outcome, put_cells, Family.put_away same] at done
      rw [put_cells, Family.put_away same]
      exact inv.resolved c done
  · by_cases same : c = .race j
    · subst same
      rw [State.outcome, here] at done
      exact later_justified inv later (fits.justified o done)
    · rw [State.outcome, put_cells, Family.put_away same] at done
      exact later_justified inv later (inv.justified c o done)
  · rw [inputs p]
    exact inv.ids p
  · rw [inputs p]
    exact inv.bound p
  · have known := inv.stackIds k p id link
    exact ⟨Nat.le_trans known.1 (later.cells (.input p)).useCount, later_own later known.1 known.2⟩
  · rw [inputs p]
    exact inv.targets p
  · by_cases same : k = j
    · rw [same, here]
      exact fits.wrappers
    · rw [others k same]
      exact inv.wrappers k
  · by_cases same : k = j
    · subst same
      rw [State.outcome, here] at pending
      rw [here]
      exact fits.linked p id link pending
    · rw [State.outcome, others k same] at pending
      rw [others k same]
      exact inv.linked k p id link pending
  · by_cases same : k = j
    · rw [same, here]
      exact fits.made
    · rw [others k same]
      exact inv.made k
  · rw [State.outcome, inputs p]
    exact inv.shadow p
  · rw [State.outcome, inputs p]
    exact inv.emptied p
  · rw [inputs p]
    exact inv.held p

end Put

section Cells
variable {r : Race} {s : State V E}

theorem settling_justified {c : Pid} {i : Settling Pid (Option V) E} (fit : Fit r s (.settling i))
    (inv : Inv r s) (here : i.cell = c) {o : Result V E}
    (done : (settle (s.cells c) i).cell.outcome = some o) : Justified r s o c := by
  rw [settle_outcome] at done
  cases i with
  | store d o' =>
    rw [Option.some.injEq] at done
    rw [← here, ← done]
    exact fit.1
  | reject d o' => exact inv.justified c o done
  | claim d o' => exact inv.justified c o done
  | clear d => exact inv.justified c o done

theorem settling_resolved {c : Pid} {i : Settling Pid (Option V) E}
    (fit : Fit r s (.settling i)) (inv : Inv r s) (here : i.cell = c)
    (done : (settle (s.cells c) i).cell.outcome ≠ none) :
    (settle (s.cells c) i).cell.resolved = true := by
  refine settle_resolves _ i (inv.resolved c) (fun d o store => ?_) done
  subst store
  exact here ▸ fit.2

theorem settle_input {p : Nat} {i : Settling Pid (Option V) E} (inv : Inv r s)
    (fit : Fit r s (.settling i)) (fresh : Fresh (s.cells (.input p)) i)
    (here : i.cell = .input p) :
    InputFits r s p (settle (s.cells (.input p)) i).cell (s.others p) := by
  have sub : ∀ a ∈ (settle (s.cells (.input p)) i).cell.awaiters,
      a ∈ (s.cells (.input p)).awaiters := fun _ => settle_sub
  refine ⟨settle_grows _ i fresh, settling_resolved fit inv here,
    fun o done => settling_justified fit inv here done, ?_, ?_, ?_, fun a there _ => sub a there,
    ?_, ?_, ?_⟩
  · rw [settle_awaiters]
    split
    · simp
    · exact inv.ids p
  · rw [settle_useCount]
    exact fun a there => inv.bound p a (sub a there)
  · exact fun a there => inv.targets p a (sub a there)
  · intro pending
    have kept := settle_quiet _ i pending
    rw [settle_awaiters, kept.1]
    exact inv.shadow p kept.2
  · intro free done
    rw [settle_handle] at free
    rw [settle_outcome] at done
    rw [settle_awaiters]
    split
    · rfl
    · rename_i quiet
      cases i with
      | store c o => exact absurd (by simp [flushes, free]) quiet
      | clear c =>
        obtain ⟨o, done⟩ := Option.ne_none_iff_exists'.mp done
        exact absurd (by simp [flushes, done]) quiet
      | reject c o => exact inv.emptied p free done
      | claim c o => exact inv.emptied p free done
  · intro held
    rw [settle_handle] at held
    cases i with
    | clear c => simp at held
    | reject c o => exact inv.held p held
    | claim c o => exact inv.held p held
    | store c o => exact inv.held p held

theorem settle_race {j : Nat} {i : Settling Pid (Option V) E} (inv : Inv r s)
    (fit : Fit r s (.settling i)) (fresh : Fresh (s.cells (.race j)) i)
    (here : i.cell = .race j) : RaceFits r s j (settle (s.cells (.race j)) i).cell := by
  have sub : ∀ a ∈ (settle (s.cells (.race j)) i).cell.awaiters, a ∈ (s.cells (.race j)).awaiters :=
    fun _ => settle_sub
  refine ⟨settle_grows _ i fresh, settling_resolved fit inv here,
    fun o done => settling_justified fit inv here done,
    fun a there => inv.wrappers j a (sub a there), fun p id link pending => ?_, ?_⟩
  · have kept := settle_quiet _ i pending
    rw [settle_awaiters, kept.1]
    exact inv.linked j p id link kept.2
  · rw [settle_handle]
    split
    · rfl
    · exact inv.made j

theorem same_input {p : Nat} (inv : Inv r s) {x : Cell Awaiter (Option V) E}
    (grows : Grows (s.cells (.input p)) x) (awaiters : x.awaiters = (s.cells (.input p)).awaiters)
    (outcome : x.outcome = s.outcome (.input p))
    (handle : x.handle = (s.cells (.input p)).handle) : InputFits r s p x (s.others p) := by
  refine ⟨grows, fun done => grows.resolved (inv.resolved _ (outcome ▸ done)),
    fun o done => inv.justified _ o (outcome ▸ done), awaiters ▸ inv.ids p,
    fun a there => ?_, awaiters ▸ inv.targets p, fun a there _ => awaiters ▸ there,
    fun pending => ?_, fun free done => ?_, fun held => inv.held p (handle ▸ held)⟩
  · exact Nat.le_trans (inv.bound p a (awaiters ▸ there)) grows.useCount
  · rw [awaiters]
    exact inv.shadow p (outcome ▸ pending)
  · rw [awaiters]
    exact inv.emptied p (handle ▸ free) (outcome ▸ done)

theorem register_ids (inv : Inv r s) (p : Nat) (t : Target) :
    (((s.cells (.input p)).register (⟨t, ·⟩)).awaiters.map (·.id)).Nodup := by
  simp only [Cell.register, List.map_append, List.map_cons, List.map_nil]
  refine (inv.ids p).append (List.nodup_singleton _) fun id old new => ?_
  obtain ⟨a, there, rfl⟩ := List.mem_map.mp old
  have bound := inv.bound p a there
  rw [List.mem_singleton.mp new] at bound
  omega

theorem register_bound (inv : Inv r s) (p : Nat) (t : Target) :
    ∀ a ∈ ((s.cells (.input p)).register (⟨t, ·⟩)).awaiters,
      a.id ≤ ((s.cells (.input p)).register (⟨t, ·⟩)).useCount := by
  intro a there
  simp only [Cell.register, List.mem_append, List.mem_singleton] at there ⊢
  rcases there with old | rfl
  · exact Nat.le_succ_of_le (inv.bound p a old)
  · exact Nat.le_refl _

theorem register_old (p : Nat) (t : Target) :
    ∀ a ∈ ((s.cells (.input p)).register (⟨t, ·⟩)).awaiters,
      a.id ≤ (s.cells (.input p)).useCount → a ∈ (s.cells (.input p)).awaiters := by
  intro a there bound
  simp only [Cell.register, List.mem_append, List.mem_singleton] at there
  rcases there with old | rfl
  · exact old
  · exact absurd bound (by simp)

theorem register_handle {p : Nat} (inv : Inv r s) (member : p ∈ r.inputs)
    (pending : s.outcome (.input p) = none) :
    InputFits r s p ((s.cells (.input p)).register (⟨.handle, ·⟩)) (s.others p) := by
  refine ⟨register_grows _ _, inv.resolved _, fun o done => inv.justified _ o done,
    register_ids inv p _,
    register_bound inv p _, fun a there => ?_, register_old p _, fun _ => ?_, fun _ done => ?_,
    inv.held p⟩
  · simp only [Cell.register, List.mem_append, List.mem_singleton] at there
    rcases there with old | rfl
    · exact inv.targets p a old
    · exact .inr ⟨rfl, member⟩
  · simp only [Cell.register, List.filter_append]
    rw [inv.shadow p pending]
    simp [Awaiter.isOther]
  · exact absurd pending done

theorem unAwait_sub (x : Cell Awaiter (Option V) E) (id : Nat) :
    ∀ a ∈ (unAwait x id).awaiters, a ∈ x.awaiters :=
  fun _ there => List.eraseP_subset there

theorem unAwait_absent {x : Cell Awaiter (Option V) E} {id : Nat}
    (ids : (x.awaiters.map (·.id)).Nodup) : ⟨.handle, id⟩ ∉ (unAwait x id).awaiters := by
  simp only [unAwait]
  generalize x.awaiters = as at ids
  induction as with
  | nil => simp
  | cons a as ih =>
    simp only [List.map_cons, List.nodup_cons] at ids
    by_cases match_ : Awaiter.found id a = true
    · rw [List.eraseP_cons_of_pos match_]
      intro there
      simp only [Awaiter.found, Bool.and_eq_true, beq_iff_eq] at match_
      exact ids.1 (List.mem_map.mpr ⟨_, there, match_.2.symm⟩)
    · rw [List.eraseP_cons_of_neg match_]
      intro there
      rcases List.mem_cons.mp there with here | rest
      · exact match_ (by simp [← here, Awaiter.found, Awaiter.isFunction])
      · exact ih ids.2 rest

theorem unAwait_others {x : Cell Awaiter (Option V) E} {id : Nat}
    (own : ∀ a ∈ x.awaiters, a.id = id → a.target = .handle) :
    (unAwait x id).awaiters.filter (·.isOther) = x.awaiters.filter (·.isOther) := by
  simp only [unAwait]
  generalize x.awaiters = as at own
  induction as with
  | nil => rfl
  | cons a as ih =>
    by_cases match_ : Awaiter.found id a = true
    · rw [List.eraseP_cons_of_pos match_]
      simp only [Awaiter.found, Bool.and_eq_true, beq_iff_eq] at match_
      have mine := own a List.mem_cons_self match_.2
      rw [List.filter_cons_of_neg (by simp [Awaiter.isOther, mine])]
    · rw [List.eraseP_cons_of_neg match_, List.filter_cons, List.filter_cons]
      rw [ih fun b there => own b (List.mem_cons_of_mem _ there)]

theorem unAwait_grows (x : Cell Awaiter (Option V) E) (id : Nat) : Grows x (unAwait x id) :=
  ⟨fun h => h, fun h => h, fun _ h => h, Nat.le_refl _⟩

theorem unAwait_input {p : Nat} (id : Nat) (os : List Awaiter) (inv : Inv r s)
    (shadow : s.outcome (.input p) = none →
      (unAwait (s.cells (.input p)) id).awaiters.filter (·.isOther) = os) :
    InputFits r s p (unAwait (s.cells (.input p)) id) os := by
  have sub := unAwait_sub (s.cells (.input p)) id
  refine ⟨unAwait_grows _ id, inv.resolved _, fun o done => inv.justified _ o done, ?_,
    fun a there => inv.bound p a (sub a there), fun a there => inv.targets p a (sub a there),
    fun a there _ => sub a there, shadow, fun free done => ?_, inv.held p⟩
  · exact (inv.ids p).sublist (List.eraseP_sublist.map _)
  · simp only [unAwait, inv.emptied p free done, List.eraseP_nil]

end Cells

section Steps
variable {r : Race} {s : State V E}

def Known (s : State V E) (i : Instr V E) : Prop :=
  ∀ j, i = .settling j → Fresh (s.cells j.cell) j

theorem fit_settling {c : Pid} {o : Result V E} (just : Justified r s o c) :
    Fit r s (.settling (settling c o)) := by
  cases o with
  | value v => exact just
  | exception e => exact just

theorem handled_eq {p : Nat} {o : Result V E} (member : p ∈ r.inputs) (fits : r.fits p o = true) :
    r.handled p o = o := by
  cases o with
  | exception e => rfl
  | value v =>
    simp only [Race.fits, bne_iff_ne, ne_eq] at fits
    simp only [Race.handled]
    have void : r.isVoid p = true → v = none := by
      intro void
      cases v with
      | none => rfl
      | some v => simp [void] at fits
    split
    · rename_i all
      rw [void (List.all_eq_true.mp all p member)]
    · split
      · rename_i here
        rw [void here]
      · rfl

theorem handled_justified {p : Nat} {o : Result V E} (inv : Inv r s) (member : p ∈ r.inputs)
    (done : s.outcome (.input p) = some o) : Justified r s (r.handled p o) (.race 0) := by
  rw [handled_eq member (inv.justified _ o done).2.1]
  exact ⟨p, member, done⟩

theorem settle_fit {t : State V E} {i : Settling Pid (Option V) E} (inv : Inv r s)
    (later : Later s t) (fit : Fit r s (.settling i))
    (here : t.cells i.cell = (settle (s.cells i.cell) i).cell) :
    ∀ j ∈ (settle (s.cells i.cell) i).next, Fit r t (.settling j) := by
  intro j there
  rw [settle_next] at there
  cases i with
  | reject c o =>
    dsimp only at there
    split at there
    · simp at there
    · rw [List.mem_singleton.mp there]
      exact later_justified inv later fit
  | claim c o =>
    dsimp only at there
    split at there
    · simp at there
    · rw [List.mem_singleton.mp there]
      refine ⟨later_justified inv later fit, ?_⟩
      rw [show t.cells c = _ from here, settle_resolved]
  | store c o => simp at there
  | clear c => simp at there

theorem settling_kept {i : Settling Pid (Option V) E} (inv : Inv r s)
    (fit : Fit r s (.settling i)) (fresh : Fresh (s.cells i.cell) i) :
    Kept (Inv r) (Fit r) s (exec r (.settling i) s).1 (exec r (.settling i) s).2 := by
  simp only [exec]
  have next := fun later =>
    settle_fit (t := s.put i.cell (settle (s.cells i.cell) i).cell) inv later fit Family.put_here
  generalize here : i.cell = c at fresh next ⊢
  have sub : ∀ a ∈ (settle (s.cells c) i).flushed, a ∈ (s.cells c).awaiters :=
    fun _ => flushed_sub
  have done : ∀ a ∈ (settle (s.cells c) i).flushed,
      (s.put c (settle (s.cells c) i).cell).outcome c ≠ none := by
    intro a there
    rw [State.outcome, put_cells, Family.put_here]
    exact flushed_done there
  cases c with
  | input p =>
    obtain ⟨after, later⟩ := put_kept inv (settle_input inv fit fresh here)
    refine ⟨after, fun x fit => later_fit inv later fit, fun x new => ?_⟩
    rcases List.mem_append.mp new with pushed | flushed
    · obtain ⟨j, there, rfl⟩ := List.mem_map.mp pushed
      exact next later j there
    · obtain ⟨a, there, rfl⟩ := List.mem_map.mp flushed
      intro handle
      rcases inv.targets p a (sub a there) with other | ⟨_, member⟩
      · simp [Awaiter.isOther, handle] at other
      · exact ⟨member, done a there⟩
  | race j =>
    have fits := settle_race inv fit fresh here
    have later := race_later fits
    refine ⟨race_inv inv fits, fun x fit => later_fit inv later fit, fun x new => ?_⟩
    rcases List.mem_append.mp new with pushed | flushed
    · obtain ⟨k, there, rfl⟩ := List.mem_map.mp pushed
      exact next later k there
    · obtain ⟨a, there, rfl⟩ := List.mem_map.mp flushed
      exact ⟨done a there, inv.wrappers j a (sub a there)⟩

/-- A further `Finally`: its callable waits in the promise it wraps, or that one is done. -/
theorem wrap_inv {p id : Nat} {x : Cell Awaiter (Option V) E} (inv : Inv r s)
    (fit : Fit r s (.wrap p id)) (grows : Grows (s.cells (.race s.stack.length)) x)
    (outcome : x.outcome = s.outcome (.race s.stack.length))
    (handle : x.handle = false)
    (awaiters : ∀ a ∈ x.awaiters,
      a ∈ (s.cells (.race s.stack.length)).awaiters ∨ a.target = .finally_ p id)
    (linked : x.outcome = none → ∃ a ∈ x.awaiters, a.target = .finally_ p id) :
    Inv r ((s.wrapped p id).put (.race s.stack.length) x) ∧
      Later s ((s.wrapped p id).put (.race s.stack.length) x) := by
  generalize wrapped :
    (s.wrapped p id).put (.race s.stack.length) x = t
  have stack : t.stack = s.stack ++ [(p, id)] := by
    rw [← wrapped]
    rfl
  have running : t.running = s.running := by
    rw [← wrapped]
    rfl
  have others_ : t.others = s.others := by
    rw [← wrapped]
    rfl
  have here : t.cells (.race s.stack.length) = x := by
    rw [← wrapped]
    exact Family.put_here
  have away : ∀ c, c ≠ .race s.stack.length → t.cells c = s.cells c := by
    intro c other
    rw [← wrapped]
    exact Family.put_away other
  have inputs : ∀ q, t.cells (.input q) = s.cells (.input q) := fun q => away _ (by simp)
  have later : Later s t := by
    refine ⟨fun c => ?_, fun j q n link => ?_, fun q a there _ => ?_, fun q done => ?_⟩
    · by_cases same : c = .race s.stack.length
      · rw [same, here]
        exact grows
      · rw [away c same]
        exact grows_refl _
    · rw [stack]
      exact lookup_append link _
    · rw [inputs q] at there
      exact there
    · rw [running]
      exact done
  have known : ∀ (j q n : Nat), t.stack[j]? = some (q, n) →
      n ≤ (s.cells (.input q)).useCount ∧ Own s q n := by
    intro j q n link
    rw [stack] at link
    rcases append_lookup link with ⟨_, new⟩ | old
    · rw [Prod.mk.injEq] at new
      obtain ⟨rfl, rfl⟩ := new
      exact fit.2
    · exact inv.stackIds j q n old
  have before : ∀ c, t.outcome c = s.outcome c := by
    intro c
    by_cases same : c = .race s.stack.length
    · rw [same, State.outcome, here, outcome]
    · rw [State.outcome, away c same, State.outcome]
  refine ⟨⟨fun c done => ?_, fun c o done => ?_, fun q => ?_, fun q => ?_, fun j q n link => ?_,
    fun q => ?_, fun j a there => ?_, fun j q n link pending => ?_, fun j => ?_, fun q => ?_,
    fun q => ?_, fun q => ?_⟩, later⟩
  · exact (later.cells c).resolved (inv.resolved c (before c ▸ done))
  · exact later_justified inv later (inv.justified c o (before c ▸ done))
  · rw [inputs q]
    exact inv.ids q
  · rw [inputs q]
    exact inv.bound q
  · obtain ⟨bound, own⟩ := known j q n link
    rw [inputs q]
    exact ⟨bound, later_own later bound own⟩
  · rw [inputs q]
    exact inv.targets q
  · by_cases same : j = s.stack.length
    · subst same
      rw [here] at there
      rcases awaiters a there with old | new
      · obtain ⟨q, n, _, link⟩ := inv.wrappers _ a old
        exact absurd (lookup_inside link) (Nat.lt_irrefl _)
      · exact ⟨p, id, new, by rw [stack]; exact List.getElem?_concat_length⟩
    · rw [away _ (by simpa using same)] at there
      obtain ⟨q, n, target, link⟩ := inv.wrappers j a there
      exact ⟨q, n, target, later.stack j q n link⟩
  · rw [stack] at link
    rcases append_lookup link with ⟨last, new⟩ | old
    · rw [Prod.mk.injEq] at new
      obtain ⟨rfl, rfl⟩ := new
      subst last
      rw [State.outcome, here] at pending
      rw [here]
      exact linked pending
    · have other : j ≠ s.stack.length := Nat.ne_of_lt (lookup_inside old)
      rw [State.outcome, away _ (by simpa using other)] at pending
      rw [away _ (by simpa using other)]
      exact inv.linked j q n old pending
  · by_cases same : j = s.stack.length
    · rw [same, here]
      exact handle
    · rw [away _ (by simpa using same)]
      exact inv.made j
  · rw [State.outcome, inputs q, others_]
    exact inv.shadow q
  · rw [State.outcome, inputs q]
    exact inv.emptied q
  · rw [inputs q]
    exact inv.held q

theorem exec_kept {i : Instr V E} (inv : Inv r s) (fit : Fit r s i) (known : Known s i) :
    Kept (Inv r) (Fit r) s (exec r i s).1 (exec r i s).2 := by
  cases i with
  | settling i => exact settling_kept inv fit (known i rfl)
  | callback c target =>
    refine ⟨inv, fun _ fit => fit, fun x new => ?_⟩
    simp only [exec, callback] at new
    split at new
    · rename_i p
      split at new
      · rename_i o done
        rw [List.mem_singleton.mp new]
        exact fit_settling (handled_justified inv (fit rfl).1 done)
      · simp at new
    · rename_i j p id
      split at new
      · rename_i o done
        rw [List.mem_singleton.mp new]
        obtain ⟨_, q, n, target_, link⟩ := fit
        rw [Target.finally_.injEq] at target_
        obtain ⟨rfl, rfl⟩ := target_
        exact ⟨done, link⟩
      · simp at new
    · simp at new
  | race p =>
    simp only [exec]
    split
    · refine ⟨inv, fun _ fit => fit, fun x new => ?_⟩
      rw [List.mem_singleton.mp new]
      exact fit
    · refine ⟨inv, fun _ fit => fit, fun x new => ?_⟩
      rw [List.mem_singleton.mp new]
      exact fit
  | skip p =>
    obtain ⟨after, later⟩ := put_kept inv (same_input (p := p)
      (x := { s.cells (.input p) with useCount := (s.cells (.input p)).useCount + 1 }) inv
      ⟨fun h => h, fun h => h, fun _ h => h, Nat.le_succ _⟩ rfl rfl rfl)
    exact ⟨after, fun x fit => later_fit inv later fit, by simp [exec]⟩
  | attach p =>
    simp only [exec]
    split
    · rename_i o done
      refine ⟨inv, fun _ fit => fit, fun x new => ?_⟩
      rw [List.mem_singleton.mp new]
      exact fit_settling (handled_justified inv fit done)
    · rename_i pending
      obtain ⟨after, later⟩ := put_kept inv (register_handle inv fit pending)
      refine ⟨after, fun x fit => later_fit inv later fit, fun x new => ?_⟩
      rw [List.mem_singleton.mp new]
      refine ⟨fit, ?_, fun a there same => ?_⟩
      · rw [put_cells, Family.put_here]
        exact Nat.le_refl _
      · rw [put_cells, Family.put_here] at there
        simp only [Cell.register, List.mem_append, List.mem_singleton] at there
        rcases there with old | rfl
        · have bound := inv.bound p a old
          omega
        · rfl
  | wrap p id =>
    simp only [exec]
    split
    · rename_i o done
      obtain ⟨after, later⟩ := wrap_inv inv fit (grows_refl _) rfl (inv.made _)
        (fun a there => .inl there) (fun pending => by simp [done] at pending)
      have same : (s.wrapped p id).put (.race s.stack.length) (s.cells (.race s.stack.length)) =
          s.wrapped p id := by
        simp only [State.put, State.wrapped, Family.put, Function.update_eq_self]
      rw [same] at after later
      refine ⟨after, fun x fit => later_fit inv later fit, fun x new => ?_⟩
      rw [List.mem_singleton.mp new]
      exact ⟨done, List.getElem?_concat_length⟩
    · rename_i pending
      obtain ⟨after, later⟩ := wrap_inv
        (x := (s.cells (.race s.stack.length)).register (⟨.finally_ p id, ·⟩)) inv fit
        (register_grows _ _) rfl (inv.made _) (fun a there => by
          simp only [Cell.register, List.mem_append, List.mem_singleton] at there
          rcases there with old | rfl
          · exact .inl old
          · exact .inr rfl)
        (fun _ => ⟨_, List.mem_append_right _ (List.mem_singleton.mpr rfl), rfl⟩)
      exact ⟨after, fun x fit => later_fit inv later fit, by simp⟩
  | func j p id o =>
    have own := (inv.stackIds j p id fit.2).2
    obtain ⟨after, later⟩ := put_kept inv (unAwait_input _ _ inv fun pending =>
      (unAwait_others own).trans (inv.shadow p pending))
    refine ⟨after, fun x fit => later_fit inv later fit, fun x new => ?_⟩
    simp only [exec, List.mem_singleton] at new
    rw [new]
    refine fit_settling ⟨later_outcome later fit.1, p, id, later.stack j p id fit.2, ?_⟩
    unfold Absent
    simp only [exec, put_cells, Family.put_here]
    exact unAwait_absent (inv.ids p)

theorem register_other {p : Nat} (coroutine : Bool) (n : Nat) (inv : Inv r s)
    (pending : s.outcome (.input p) = none) :
    InputFits r s p ((s.cells (.input p)).register (⟨.other coroutine n, ·⟩))
      (s.others p ++ [⟨.other coroutine n, (s.cells (.input p)).useCount + 1⟩]) := by
  refine ⟨register_grows _ _, inv.resolved _, fun o done => inv.justified _ o done,
    register_ids inv p _,
    register_bound inv p _, fun a there => ?_, register_old p _, fun _ => ?_, fun _ done => ?_,
    inv.held p⟩
  · simp only [Cell.register, List.mem_append, List.mem_singleton] at there
    rcases there with old | rfl
    · exact inv.targets p a old
    · exact .inl rfl
  · simp only [Cell.register, List.filter_append]
    rw [inv.shadow p pending]
    simp [Awaiter.isOther]
  · exact absurd pending done

theorem unAwait_filter {as : List Awaiter} {id : Nat} (ids : (as.map (·.id)).Nodup)
    (found : as.any (fun a => a.isOther && a.found id) = true) :
    (as.eraseP (Awaiter.found id)).filter (·.isOther) =
      (as.filter (·.isOther)).eraseP (Awaiter.found id) := by
  induction as with
  | nil => rfl
  | cons a as ih =>
    simp only [List.map_cons, List.nodup_cons] at ids
    by_cases match_ : Awaiter.found id a = true
    · have mine : a.isOther = true := by
        simp only [List.any_cons, Bool.or_eq_true, Bool.and_eq_true] at found
        rcases found with ⟨mine, _⟩ | later
        · exact mine
        · obtain ⟨b, there, both⟩ := List.any_eq_true.mp later
          simp only [Awaiter.found, Bool.and_eq_true, beq_iff_eq] at both match_
          exact absurd (List.mem_map.mpr ⟨b, there, both.2.2.trans match_.2.symm⟩) ids.1
      rw [List.eraseP_cons_of_pos match_, List.filter_cons_of_pos mine,
        List.eraseP_cons_of_pos match_]
    · have later : as.any (fun a => a.isOther && a.found id) = true := by
        simpa [List.any_cons, match_] using found
      rw [List.eraseP_cons_of_neg match_, List.filter_cons, List.filter_cons, ih ids.2 later]
      split
      · rw [List.eraseP_cons_of_neg match_]
      · rfl

theorem spawn_kept {t : Nat} {e : Event V E} {s' : State V E} {is : List (Instr V E)}
    (inv : Inv r s) (spawned : spawn r t e s = some (s', is)) :
    Kept (Inv r) (Fit r) s s' is := by
  cases e with
  | call =>
    simp only [spawn, Option.ite_none_right_eq_some, Option.some.injEq, Prod.mk.injEq] at spawned
    obtain ⟨_, rfl, rfl⟩ := spawned
    have later : Later s { s with caller := some t } :=
      ⟨fun c => grows_refl _, fun _ _ _ link => link, fun _ _ there _ => there, fun _ done => done⟩
    refine ⟨⟨inv.resolved, fun c o done => later_justified inv later (inv.justified c o done),
      inv.ids, inv.bound, inv.stackIds, inv.targets, inv.wrappers, inv.linked, inv.made, inv.shadow,
      inv.emptied, inv.held⟩, fun x fit => later_fit inv later fit, by simp⟩
  | next =>
    simp only [spawn, Option.ite_none_right_eq_some, Option.map_eq_some_iff, Prod.mk.injEq]
      at spawned
    obtain ⟨_, p, here, rfl, rfl⟩ := spawned
    have later : Later s { s with pos := s.pos + 1 } :=
      ⟨fun c => grows_refl _, fun _ _ _ link => link, fun _ _ there _ => there, fun _ done => done⟩
    refine ⟨⟨inv.resolved, fun c o done => later_justified inv later (inv.justified c o done),
      inv.ids, inv.bound, inv.stackIds, inv.targets, inv.wrappers, inv.linked, inv.made, inv.shadow,
      inv.emptied, inv.held⟩, fun x fit => later_fit inv later fit, fun x new => ?_⟩
    rw [List.mem_singleton.mp new]
    exact List.mem_of_getElem? here
  | settle p o =>
    simp only [spawn, Option.ite_none_right_eq_some, Option.some.injEq, Prod.mk.injEq] at spawned
    obtain ⟨⟨_, member, plain, fits⟩, rfl, rfl⟩ := spawned
    refine ⟨inv, fun _ fit => fit, fun x new => ?_⟩
    rw [List.mem_singleton.mp new]
    exact fit_settling ⟨member, fits, fun coroutine => by simp [plain] at coroutine⟩
  | complete p o =>
    simp only [spawn, Option.ite_none_right_eq_some, Option.some.injEq, Prod.mk.injEq] at spawned
    obtain ⟨⟨_, member, _, fits⟩, rfl, rfl⟩ := spawned
    have later : Later s { s with running := Function.update s.running p false } := by
      refine ⟨fun c => grows_refl _, fun _ _ _ link => link, fun _ _ there _ => there,
        fun q done => ?_⟩
      simp only [Function.update_apply]
      split
      · rfl
      · exact done
    refine ⟨⟨inv.resolved, fun c o done => later_justified inv later (inv.justified c o done),
      inv.ids, inv.bound, inv.stackIds, inv.targets, inv.wrappers, inv.linked, inv.made, inv.shadow,
      inv.emptied, inv.held⟩, fun x fit => later_fit inv later fit, fun x new => ?_⟩
    simp only [List.mem_cons, List.not_mem_nil, or_false] at new
    rcases new with rfl | rfl
    · exact ⟨member, fits, fun _ => Function.update_self _ _ _⟩
    · exact ⟨p, member, rfl⟩
  | await p coroutine n =>
    simp only [spawn, Option.ite_none_right_eq_some, Option.some.injEq, Prod.mk.injEq] at spawned
    obtain ⟨⟨_, _, pending⟩, rfl, rfl⟩ := spawned
    have fits := register_other coroutine n inv pending
    exact ⟨input_inv inv fits, fun x fit => later_fit inv (input_later fits) fit, by simp⟩
  | unAwait p id =>
    simp only [spawn, Option.ite_none_right_eq_some, Option.some.injEq, Prod.mk.injEq] at spawned
    obtain ⟨⟨_, _, found⟩, rfl, rfl⟩ := spawned
    have fits := unAwait_input id ((s.others p).eraseP (Awaiter.found id)) inv
      fun pending => by
        rw [← inv.shadow p pending]
        exact unAwait_filter (inv.ids p) found
    exact ⟨input_inv inv fits, fun x fit => later_fit inv (input_later fits) fit, by simp⟩

theorem initial_sound (r : Race) :
    Sound (Inv r) (Fit r) (initial r : Machine (State V E) (Instr V E)) := by
  refine ⟨⟨fun c done => ?_, fun c o done => ?_, fun p => ?_, fun p a there => ?_, ?_,
    fun p a there => ?_, fun j a there => ?_, ?_, fun j => rfl, fun p _ => rfl, fun p _ _ => rfl,
    fun p held => held⟩, ?_⟩
  · cases c <;> simp [State.outcome, initial, created] at done
  · cases c <;> simp [State.outcome, initial, created] at done
  · simp [initial, created]
  · simp [initial, created] at there
  · simp [initial]
  · simp [initial, created] at there
  · simp [initial, created] at there
  · simp [initial]
  · rintro i ⟨t, member, _⟩
    simp [initial] at member

theorem reached_sound {m : Machine (State V E) (Instr V E)} (reached : Reached r m) :
    Sound (Inv r) (Fit r) m := by
  induction reached with
  | start first => exact first ▸ initial_sound r
  | next reached taken ih =>
    refine sound_step (fun s i inv fit known => exec_kept inv fit known)
      (fun t e s s' is inv spawned => spawn_kept inv spawned) (fun i has j same => ?_) ih taken
    subst same
    exact reached_fresh reached has

end Steps

end RaceSettlement
