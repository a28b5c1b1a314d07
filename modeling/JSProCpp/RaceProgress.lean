import JSProCpp.RaceOutcome

/- Nothing the race still has to do is forgotten: whatever the shared state owes, a waiting
   instruction pays. -/
namespace RaceSettlement
open Transitions Interleaving PromiseCells
variable {V E : Type}

inductive Debt where
  | store (c : Pid)
  | claim (c : Pid)
  | link (j : Nat)
  | entry (k : Nat)
  | clear (p : Nat)
  | wrap (p id : Nat)

/-- A `handle` of the race waits for the input. -/
def Waiting (s : State V E) (p : Nat) : Prop :=
  ∃ a ∈ (s.cells (.input p)).awaiters, a.target = .handle

abbrev Untouched (s : State V E) (c : Pid) : Prop := (s.cells c).untouched

def Owed (r : Race) (s : State V E) : Debt → Prop
  | .store c => (s.cells c).storing
  | .claim c => (s.cells c).rejecting
  | .link j => j < s.stack.length ∧ s.outcome (.race j) ≠ none ∧ Untouched s (.race (j + 1))
  | .entry k => k < s.pos ∧ (∃ p, r.inputs[k]? = some p ∧ ¬Waiting s p) ∧ Untouched s (.race 0)
  | .clear p => r.coroutine p = true ∧ s.running p = false ∧ (s.cells (.input p)).handle = true
  | .wrap p id => ⟨.handle, id⟩ ∈ (s.cells (.input p)).awaiters ∧
      ∀ j : Nat, s.stack[j]? ≠ some (p, id)

def Pays (r : Race) : Debt → Instr V E → Prop
  | .store c, i => ∃ o, i = .settling (.store c o)
  | .claim c, i => ∃ o, i = .settling (.claim c o)
  | .link j, i => Enters Instr.settling (.race (j + 1)) i ∨ (∃ p id o, i = .func j p id o) ∨
      ∃ t, i = .callback (.race j) t
  | .entry k, i => Enters Instr.settling (.race 0) i ∨ ∃ p, r.inputs[k]? = some p ∧
      (i = .race p ∨ i = .attach p ∨ i = .callback (.input p) .handle)
  | .clear p, i => i = .settling (.clear (.input p))
  | .wrap p id, i => i = .wrap p id

section Frames
variable {r : Race} {s t : State V E}

/-- The outcome of a race promise was the first one's before. -/
theorem first_done (inv : Inv r s) {j : Nat} {o : Result V E}
    (done : s.outcome (.race j) = some o) : s.outcome (.race 0) = some o := by
  induction j with
  | zero => exact done
  | succ j ih => exact ih (inv.justified _ o done).1

theorem first_touched (inv : Inv r s) {j : Nat} (done : s.outcome (.race j) ≠ none) :
    ¬Untouched s (.race 0) := by
  intro untouched
  obtain ⟨o, done⟩ := Option.ne_none_iff_exists'.mp done
  have resolved := inv.resolved (.race 0) (by simp [first_done inv done])
  simp [untouched.1] at resolved

/-- What a new list of awaiters of an input can make the race owe. -/
theorem input_owed {p : Nat} {x : Cell Awaiter (Option V) E} {os : List Awaiter}
    (flags : x.resolved = (s.cells (.input p)).resolved ∧
      x.rejected = (s.cells (.input p)).rejected ∧ x.outcome = s.outcome (.input p) ∧
      x.handle = (s.cells (.input p)).handle)
    (waiting : Waiting s p → Untouched s (.race 0) → ∃ a ∈ x.awaiters, a.target = .handle)
    {d : Debt}
    (owed : Owed r { s.put (.input p) x with others := Function.update s.others p os } d) :
    Owed r s d ∨ ∃ id, d = .wrap p id ∧ ⟨.handle, id⟩ ∈ x.awaiters ∧
      ⟨.handle, id⟩ ∉ (s.cells (.input p)).awaiters := by
  have here : (s.put (.input p) x).cells (.input p) = x := Family.put_here
  have races : ∀ j, (s.put (.input p) x).cells (.race j) = s.cells (.race j) := by
    intro j
    rw [put_cells, Family.put_away (by simp)]
  have others : ∀ q, q ≠ p → (s.put (.input p) x).cells (.input q) = s.cells (.input q) := by
    intro q other
    rw [put_cells, Family.put_away (by simpa using other)]
  cases d with
  | store c =>
    refine .inl ?_
    by_cases same : c = .input p
    · subst same
      simp only [Owed, Cell.storing, here, flags.1, flags.2.2.1] at owed
      exact owed
    · simp only [Owed, Cell.storing, put_cells, Family.put_away same] at owed
      exact owed
  | claim c =>
    refine .inl ?_
    by_cases same : c = .input p
    · subst same
      simp only [Owed, Cell.rejecting, here, flags.1, flags.2.1] at owed
      exact owed
    · simp only [Owed, Cell.rejecting, put_cells, Family.put_away same] at owed
      exact owed
  | link j =>
    simp only [Owed, State.outcome, Untouched, races] at owed
    exact .inl owed
  | entry k =>
    obtain ⟨early, ⟨q, position, quiet⟩, untouched⟩ := owed
    simp only [Untouched, races] at untouched
    refine .inl ⟨early, ⟨q, position, fun waits => quiet ?_⟩, untouched⟩
    by_cases same : q = p
    · subst same
      simp only [Waiting, here]
      exact waiting waits untouched
    · simp only [Waiting, others q same]
      exact waits
  | clear q =>
    refine .inl ⟨owed.1, owed.2.1, ?_⟩
    have held := owed.2.2
    by_cases same : q = p
    · subst same
      simp only [here, flags.2.2.2] at held
      exact held
    · simp only [others q same] at held
      exact held
  | wrap q id =>
    obtain ⟨there, unlinked⟩ := owed
    by_cases same : q = p
    · subst same
      simp only [here] at there
      by_cases old : ⟨.handle, id⟩ ∈ (s.cells (.input q)).awaiters
      · exact .inl ⟨old, unlinked⟩
      · exact .inr ⟨id, rfl, there, old⟩
    · simp only [others q same] at there
      exact .inl ⟨there, unlinked⟩

end Frames

section Payments
variable {r : Race} {s : State V E}

theorem next_runs {i j : Settling Pid (Option V) E} (there : j ∈ (settle (s.cells i.cell) i).next) :
    .settling j ∈ (exec r (.settling i) s).2 :=
  List.mem_append_left _ (List.mem_map_of_mem there)

theorem flushed_runs {i : Settling Pid (Option V) E} {a : Awaiter}
    (there : a ∈ (settle (s.cells i.cell) i).flushed) :
    .callback i.cell a.target ∈ (exec r (.settling i) s).2 :=
  List.mem_append_right _ (List.mem_map.mpr ⟨a, there, rfl⟩)

/-- What an instruction that settles leaves owed, it owed before and does not pay, or one of the
    instructions it leads to pays. -/
def Paid (r : Race) (s : State V E) (i : Settling Pid (Option V) E) (d : Debt) : Prop :=
  Owed r (exec r (.settling i) s).1 d →
    (∃ x ∈ (exec r (.settling i) s).2, Pays r d x) ∨ (Owed r s d ∧ ¬Pays r d (.settling i))

variable {i : Settling Pid (Option V) E}

theorem settling_injective : Function.Injective (.settling : _ → Instr V E) :=
  fun _ _ => Instr.settling.inj

theorem store_paid (c : Pid) : Paid r s i (.store c) := by
  intro owed
  rcases Family.store_owed settling_injective owed with ⟨j, new, o, same⟩ | kept
  · exact .inl ⟨_, next_runs new, o, same⟩
  · exact .inr kept

theorem claim_paid (c : Pid) : Paid r s i (.claim c) := by
  intro owed
  rcases Family.claim_owed settling_injective owed with ⟨j, new, o, same⟩ | kept
  · exact .inl ⟨_, next_runs new, o, same⟩
  · exact .inr kept

theorem link_flushed (inv : Inv r s) {j p id : Nat} (link : s.stack[j]? = some (p, id))
    (before : s.outcome (.race j) = none) (done : (s.cells.settle i (.race j)).outcome ≠ none) :
    ∃ t, .callback (.race j) t ∈ (exec r (.settling i) s).2 := by
  obtain ⟨a, there, target⟩ := inv.linked j p id link before
  have gone : a ∉ (s.cells.settle i (.race j)).awaiters := by
    obtain ⟨o, done⟩ := Option.ne_none_iff_exists'.mp done
    rcases Family.outcome_settle done with old | store
    · have old : s.outcome (.race j) = some o := old
      simp [before] at old
    · intro still
      rw [store, Family.settle_at, if_pos (by rfl), settle_awaiters] at still
      simp [flushes, inv.made j] at still
  obtain ⟨cell, moved⟩ := Family.settle_gone there gone
  exact ⟨a.target, cell ▸ flushed_runs moved⟩

theorem link_paid (inv : Inv r s) (fresh : Fresh (s.cells i.cell) i) (j : Nat) :
    Paid r s i (.link j) := by
  rintro ⟨inside, done, untouched⟩
  by_cases before : s.outcome (.race j) = none
  · obtain ⟨t, there⟩ := link_flushed inv (List.getElem?_eq_getElem inside) before done
    exact .inl ⟨_, there, .inr (.inr ⟨t, rfl⟩)⟩
  · refine .inr ⟨⟨inside, before, untouched_before (Family.grows_settle fresh _) untouched⟩, ?_⟩
    rintro (enters | ⟨_, _, _, func⟩ | ⟨_, callback⟩)
    · exact Family.entered_touched settling_injective untouched enters
    · simp at func
    · simp at callback

theorem entry_paid (fresh : Fresh (s.cells i.cell) i) (k : Nat) : Paid r s i (.entry k) := by
  rintro ⟨early, ⟨p, position, quiet⟩, untouched⟩
  by_cases waits : Waiting s p
  · -- the flush hands on the race's `handle`
    obtain ⟨a, there, handle⟩ := waits
    obtain ⟨cell, moved⟩ := Family.settle_gone there fun still => quiet ⟨a, still, handle⟩
    refine .inl ⟨_, flushed_runs moved, .inr ⟨p, position, .inr (.inr ?_)⟩⟩
    rw [← cell, handle]
  · have before := untouched_before (Family.grows_settle fresh _) untouched
    refine .inr ⟨⟨early, ⟨p, position, waits⟩, before⟩, ?_⟩
    rintro (enters | ⟨_, _, race | attach | callback⟩)
    · exact Family.entered_touched settling_injective untouched enters
    · simp at race
    · simp at attach
    · simp at callback

theorem clear_paid (p : Nat) : Paid r s i (.clear p) := by
  rintro ⟨coroutine, finished, held⟩
  obtain ⟨before, other⟩ := Family.handle_settle held
  refine .inr ⟨⟨coroutine, finished, before⟩, fun clears => ?_⟩
  rw [Pays, Instr.settling.injEq] at clears
  exact other clears

theorem wrap_paid (p id : Nat) : Paid r s i (.wrap p id) := by
  rintro ⟨there, unlinked⟩
  exact .inr ⟨⟨Family.settle_sub there, unlinked⟩, by simp [Pays]⟩

theorem settling_pays (inv : Inv r s) (fresh : Fresh (s.cells i.cell) i) (d : Debt) :
    Paid r s i d := by
  cases d with
  | store c => exact store_paid c
  | claim c => exact claim_paid c
  | link j => exact link_paid inv fresh j
  | entry k => exact entry_paid fresh k
  | clear p => exact clear_paid p
  | wrap p id => exact wrap_paid p id

theorem put_owed {p : Nat} {x : Cell Awaiter (Option V) E}
    (waiting : Waiting s p → Untouched s (.race 0) → ∃ a ∈ x.awaiters, a.target = .handle)
    {d : Debt} (owed : Owed r (s.put (.input p) x) d)
    (flags : x.resolved = (s.cells (.input p)).resolved ∧
      x.rejected = (s.cells (.input p)).rejected ∧ x.outcome = s.outcome (.input p) ∧
      x.handle = (s.cells (.input p)).handle) :
    Owed r s d ∨ ∃ id, d = .wrap p id ∧ ⟨.handle, id⟩ ∈ x.awaiters ∧
      ⟨.handle, id⟩ ∉ (s.cells (.input p)).awaiters := by
  rw [← others_same] at owed
  exact input_owed flags waiting owed

theorem pays_callback {c : Pid} {u : Target} {d : Debt}
    (pays : Pays r d (.callback c u : Instr V E)) :
    (∃ j, d = .link j ∧ c = .race j) ∨
      ∃ k p, d = .entry k ∧ r.inputs[k]? = some p ∧ c = .input p ∧ u = .handle := by
  cases d with
  | link j =>
    rcases pays with ⟨_, enters | enters⟩ | ⟨_, _, _, func⟩ | ⟨_, here⟩
    · simp at enters
    · simp at enters
    · simp at func
    · rw [Instr.callback.injEq] at here
      exact .inl ⟨j, rfl, here.1⟩
  | entry k =>
    rcases pays with ⟨_, enters | enters⟩ | ⟨p, position, race | attach | here⟩
    · simp at enters
    · simp at enters
    · simp at race
    · simp at attach
    · rw [Instr.callback.injEq] at here
      exact .inr ⟨k, p, rfl, position, here⟩
  | store c => simp [Pays] at pays
  | claim c => simp [Pays] at pays
  | clear p => simp [Pays] at pays
  | wrap p id => simp [Pays] at pays

theorem pays_race {p : Nat} {d : Debt}
    (pays : Pays r d (.race p : Instr V E) ∨ Pays r d (.attach p : Instr V E)) :
    ∃ k, d = .entry k ∧ r.inputs[k]? = some p := by
  cases d with
  | entry k =>
    rcases pays with pays | pays
    · rcases pays with ⟨_, enters | enters⟩ | ⟨q, position, here | attach | callback⟩
      · simp at enters
      · simp at enters
      · rw [Instr.race.injEq] at here
        exact ⟨k, rfl, here ▸ position⟩
      · simp at attach
      · simp at callback
    · rcases pays with ⟨_, enters | enters⟩ | ⟨q, position, race | here | callback⟩
      · simp at enters
      · simp at enters
      · simp at race
      · rw [Instr.attach.injEq] at here
        exact ⟨k, rfl, here ▸ position⟩
      · simp at callback
  | store c => simp [Pays] at pays
  | claim c => simp [Pays] at pays
  | link j => simp [Pays, Enters] at pays
  | clear p => simp [Pays] at pays
  | wrap p id => simp [Pays] at pays

theorem pays_func {j p id : Nat} {o : Result V E} {d : Debt} (pays : Pays r d (.func j p id o)) :
    d = .link j := by
  cases d with
  | link k =>
    rcases pays with ⟨_, enters | enters⟩ | ⟨_, _, _, here⟩ | ⟨_, callback⟩
    · simp at enters
    · simp at enters
    · rw [Instr.func.injEq] at here
      rw [here.1]
    · simp at callback
  | store c => simp [Pays] at pays
  | claim c => simp [Pays] at pays
  | entry k => simp [Pays, Enters] at pays
  | clear q => simp [Pays] at pays
  | wrap q n => simp [Pays] at pays

theorem callback_pays {c : Pid} {u : Target} (fit : Fit r s (.callback c u)) {d : Debt}
    (owed : Owed r s d) :
    (∃ x ∈ (callback r s c u : List (Instr V E)), Pays r d x) ∨
      (Owed r s d ∧ ¬Pays r d (.callback c u : Instr V E)) := by
  by_cases pays : Pays r d (.callback c u : Instr V E)
  · refine .inl ?_
    rcases pays_callback pays with ⟨j, rfl, rfl⟩ | ⟨k, p, rfl, _, rfl, rfl⟩
    · obtain ⟨done, p, id, rfl, _⟩ := fit
      obtain ⟨o, done⟩ := Option.ne_none_iff_exists'.mp done
      have done' : (s.cells (.race j)).outcome = some o := done
      exact ⟨.func j p id o, by simp [callback, done'], .inr (.inl ⟨p, id, o, rfl⟩)⟩
    · obtain ⟨o, done⟩ := Option.ne_none_iff_exists'.mp (fit rfl).2
      have done' : (s.cells (.input p)).outcome = some o := done
      exact ⟨_, by simp only [callback, done', List.mem_singleton],
        .inl (enters_settling Instr.settling (Pid.race 0) (r.handled p o))⟩
  · exact .inr ⟨owed, pays⟩

theorem attach_pays {p : Nat} {d : Debt} (owed : Owed r (exec r (.attach p) s).1 d) :
    (∃ x ∈ (exec r (.attach p) s).2, Pays r d x) ∨
      (Owed r s d ∧ ¬Pays r d (.attach p : Instr V E)) := by
  simp only [exec] at owed ⊢
  split at owed
  · rename_i o done
    by_cases pays : Pays r d (.attach p : Instr V E)
    · obtain ⟨k, rfl, _⟩ := pays_race (.inr pays)
      exact .inl ⟨_, List.mem_singleton.mpr rfl, .inl (enters_settling _ _ _)⟩
    · exact .inr ⟨owed, pays⟩
  · rename_i pending
    have quiet : ¬Pays r d (.attach p : Instr V E) := by
      intro pays
      obtain ⟨k, rfl, position⟩ := pays_race (.inr pays)
      obtain ⟨_, ⟨q, position', quiet⟩, _⟩ := owed
      rw [position, Option.some.injEq] at position'
      subst position'
      refine quiet ⟨⟨.handle, (s.cells (.input p)).useCount + 1⟩, ?_, rfl⟩
      rw [put_cells, Family.put_here]
      exact List.mem_append_right _ (List.mem_singleton.mpr rfl)
    rcases put_owed (by
        rintro ⟨a, there, handle⟩ _
        exact ⟨a, List.mem_append_left _ there, handle⟩) owed
      ⟨rfl, rfl, rfl, rfl⟩ with old | ⟨id, rfl, new, old⟩
    · exact .inr ⟨old, quiet⟩
    · refine .inl ⟨_, List.mem_singleton.mpr rfl, ?_⟩
      simp only [Cell.register, List.mem_append, List.mem_singleton, Awaiter.mk.injEq,
        true_and] at new
      rcases new with there | rfl
      · exact absurd there old
      · rfl

theorem wrap_owed (t : State V E) {p id : Nat} (stack : t.stack = s.stack ++ [(p, id)])
    (pos : t.pos = s.pos) (running : t.running = s.running)
    (flags : ∀ c, (t.cells c).resolved = (s.cells c).resolved ∧
      (t.cells c).rejected = (s.cells c).rejected ∧ t.outcome c = s.outcome c)
    (inputs : ∀ q, t.cells (.input q) = s.cells (.input q)) {d : Debt} (owed : Owed r t d) :
    (d = .link s.stack.length ∧ s.outcome (.race s.stack.length) ≠ none) ∨
      (Owed r s d ∧ ¬Pays r d (.wrap p id : Instr V E)) := by
  have untouched : ∀ c, Untouched t c → Untouched s c := by
    intro c after
    exact ⟨(flags c).1 ▸ after.1, (flags c).2.1 ▸ after.2⟩
  cases d with
  | store c =>
    obtain ⟨resolved, pending⟩ := owed
    exact .inr ⟨⟨(flags c).1 ▸ resolved, (flags c).2.2.symm.trans pending⟩, by simp [Pays]⟩
  | claim c =>
    obtain ⟨rejected, unresolved⟩ := owed
    exact .inr ⟨⟨(flags c).2.1 ▸ rejected, (flags c).1 ▸ unresolved⟩, by simp [Pays]⟩
  | link j =>
    obtain ⟨inside, done, open_⟩ := owed
    rw [stack, List.length_append, List.length_singleton] at inside
    rw [(flags _).2.2] at done
    by_cases last : j = s.stack.length
    · exact .inl ⟨by rw [last], last ▸ done⟩
    · exact .inr ⟨⟨by omega, done, untouched _ open_⟩, by simp [Pays, Enters]⟩
  | entry k =>
    obtain ⟨early, ⟨q, position, quiet⟩, open_⟩ := owed
    refine .inr ⟨⟨pos ▸ early, ⟨q, position, fun waits => quiet ?_⟩, untouched _ open_⟩,
      by simp [Pays, Enters]⟩
    rw [Waiting, inputs q]
    exact waits
  | clear q =>
    obtain ⟨coroutine, finished, held⟩ := owed
    rw [inputs q] at held
    exact .inr ⟨⟨coroutine, running ▸ finished, held⟩, by simp [Pays]⟩
  | wrap q n =>
    obtain ⟨there, unlinked⟩ := owed
    rw [inputs q] at there
    refine .inr ⟨⟨there, fun j link => unlinked j ?_⟩, fun pays => ?_⟩
    · rw [stack]
      exact lookup_append link _
    · simp only [Pays, Instr.wrap.injEq] at pays
      obtain ⟨rfl, rfl⟩ := pays
      refine unlinked s.stack.length ?_
      rw [stack]
      exact List.getElem?_concat_length

theorem put_flags {x : Cell Awaiter (Option V) E} {c : Pid} (d : Pid)
    (same : x.resolved = (s.cells c).resolved ∧ x.rejected = (s.cells c).rejected ∧
      x.outcome = s.outcome c) :
    ((s.put c x).cells d).resolved = (s.cells d).resolved ∧
      ((s.put c x).cells d).rejected = (s.cells d).rejected ∧
      (s.put c x).outcome d = s.outcome d := by
  by_cases here : d = c
  · rw [State.outcome, here, put_cells, Family.put_here]
    exact same
  · rw [State.outcome, put_cells, Family.put_away here]
    exact ⟨rfl, rfl, rfl⟩

theorem wrap_pays {p id : Nat} {d : Debt} (owed : Owed r (exec r (.wrap p id) s).1 d) :
    (∃ x ∈ (exec r (.wrap p id) s).2, Pays r d x) ∨
      (Owed r s d ∧ ¬Pays r d (.wrap p id : Instr V E)) := by
  simp only [exec] at owed ⊢
  split at owed
  · rename_i o done
    rcases wrap_owed (s.wrapped p id) (s := s) rfl rfl rfl (fun _ => ⟨rfl, rfl, rfl⟩)
      (fun _ => rfl) owed with ⟨rfl, _⟩ | old
    · exact .inl ⟨_, List.mem_singleton.mpr rfl, .inr (.inl ⟨p, id, o, rfl⟩)⟩
    · exact .inr old
  · rename_i pending
    rcases wrap_owed ((s.wrapped p id).put (.race s.stack.length)
      ((s.cells (.race s.stack.length)).register (⟨.finally_ p id, ·⟩))) (s := s) rfl rfl rfl
      (fun c => put_flags (s := s.wrapped p id) c ⟨rfl, rfl, rfl⟩)
      (fun q => by rw [put_cells, Family.put_away (by simp)]; rfl) owed with ⟨_, done⟩ | old
    · exact absurd pending done
    · exact .inr old

theorem exec_pays {i : Instr V E} (inv : Inv r s) (fit : Fit r s i) (known : Known s i) {d : Debt}
    (owed : Owed r (exec r i s).1 d) :
    (∃ x ∈ (exec r i s).2, Pays r d x) ∨ (Owed r s d ∧ ¬Pays r d i) := by
  cases i with
  | settling i => exact settling_pays inv (known i rfl) d owed
  | callback c u => exact callback_pays fit owed
  | race p =>
    by_cases pays : Pays r d (.race p : Instr V E)
    · obtain ⟨k, rfl, position⟩ := pays_race (.inl pays)
      simp only [exec] at owed ⊢
      split at owed
      · rename_i done
        obtain ⟨o, done⟩ := Option.isSome_iff_exists.mp done
        have done' : s.outcome (.race s.stack.length) ≠ none := by simp [State.outcome, done]
        exact absurd owed.2.2 (first_touched inv done')
      · rename_i pending
        rw [if_neg pending]
        exact .inl ⟨_, List.mem_singleton.mpr rfl, .inr ⟨p, position, .inr (.inl rfl)⟩⟩
    · refine .inr ⟨?_, pays⟩
      simp only [exec] at owed
      split at owed <;> exact owed
  | skip p =>
    refine .inr ⟨?_, by cases d <;> simp [Pays, Enters]⟩
    simp only [exec] at owed
    rcases put_owed
      (x := { s.cells (.input p) with useCount := (s.cells (.input p)).useCount + 1 })
      (fun waits _ => waits) owed ⟨rfl, rfl, rfl, rfl⟩ with old | ⟨_, _, new, old⟩
    · exact old
    · exact absurd new old
  | attach p => exact attach_pays owed
  | wrap p id => exact wrap_pays owed
  | func j p id o =>
    have done : s.outcome (.race j) ≠ none := by simp [fit.1]
    by_cases pays : Pays r d (.func j p id o)
    · obtain rfl := pays_func pays
      exact .inl ⟨_, List.mem_singleton.mpr rfl, .inl (enters_settling _ _ _)⟩
    · refine .inr ⟨?_, pays⟩
      rcases put_owed (fun _ untouched => absurd untouched (first_touched inv done)) owed
        ⟨rfl, rfl, rfl, rfl⟩ with old | ⟨n, _, new, old⟩
      · exact old
      · exact absurd (unAwait_sub _ _ _ new) old

theorem unAwait_keeps {as : List Awaiter} {id : Nat} (ids : (as.map (·.id)).Nodup)
    (found : as.any (fun a => a.isOther && a.found id) = true) {a : Awaiter} (there : a ∈ as)
    (mine : a.isOther = false) : a ∈ as.eraseP (Awaiter.found id) := by
  rw [List.mem_eraseP_of_neg]
  · exact there
  · intro same
    obtain ⟨b, member, both⟩ := List.any_eq_true.mp found
    simp only [Awaiter.found, Bool.and_eq_true, beq_iff_eq] at both same
    have equal : a = b := List.inj_on_of_nodup_map ids there member (same.2.trans both.2.2.symm)
    simp [← equal, mine] at both

theorem spawn_pays {t : Nat} {e : Event V E} {s' : State V E} {is : List (Instr V E)}
    (inv : Inv r s) (spawned : spawn r t e s = some (s', is)) {d : Debt} (owed : Owed r s' d) :
    (∃ x ∈ is, Pays r d x) ∨ Owed r s d := by
  cases e with
  | call =>
    simp only [spawn, Option.ite_none_right_eq_some, Option.some.injEq, Prod.mk.injEq] at spawned
    obtain ⟨_, rfl, rfl⟩ := spawned
    exact .inr (by cases d <;> exact owed)
  | next =>
    simp only [spawn, Option.ite_none_right_eq_some, Option.map_eq_some_iff, Prod.mk.injEq]
      at spawned
    obtain ⟨_, p, here, rfl, rfl⟩ := spawned
    cases d with
    | entry k =>
      obtain ⟨early, quiet, untouched⟩ := owed
      by_cases last : k = s.pos
      · exact .inl ⟨_, List.mem_singleton.mpr rfl, .inr ⟨p, last ▸ here, .inl rfl⟩⟩
      · simp only at early
        exact .inr ⟨by omega, quiet, untouched⟩
    | store c => exact .inr owed
    | claim c => exact .inr owed
    | link j => exact .inr owed
    | clear q => exact .inr owed
    | wrap q id => exact .inr owed
  | settle p o =>
    simp only [spawn, Option.ite_none_right_eq_some, Option.some.injEq, Prod.mk.injEq] at spawned
    obtain ⟨_, rfl, rfl⟩ := spawned
    exact .inr owed
  | complete p o =>
    simp only [spawn, Option.ite_none_right_eq_some, Option.some.injEq, Prod.mk.injEq] at spawned
    obtain ⟨_, rfl, rfl⟩ := spawned
    cases d with
    | clear q =>
      by_cases same : q = p
      · subst same
        exact .inl ⟨.settling (.clear (.input q)), by simp, rfl⟩
      · obtain ⟨coroutine, finished, held⟩ := owed
        simp only [Function.update_of_ne same] at finished
        exact .inr ⟨coroutine, finished, held⟩
    | store c => exact .inr owed
    | claim c => exact .inr owed
    | link j => exact .inr owed
    | entry k => exact .inr owed
    | wrap q id => exact .inr owed
  | await p coroutine n =>
    simp only [spawn, Option.ite_none_right_eq_some, Option.some.injEq, Prod.mk.injEq] at spawned
    obtain ⟨_, rfl, rfl⟩ := spawned
    have waiting : Waiting s p → Untouched s (.race 0) →
        ∃ a ∈ ((s.cells (.input p)).register (⟨.other coroutine n, ·⟩)).awaiters,
          a.target = .handle := by
      rintro ⟨a, there, handle⟩ _
      exact ⟨a, List.mem_append_left _ there, handle⟩
    rcases input_owed (s := s) (p := p)
      (x := (s.cells (.input p)).register (⟨.other coroutine n, ·⟩))
      ⟨rfl, rfl, rfl, rfl⟩ waiting owed with old | ⟨id, _, new, old⟩
    · exact .inr old
    · simp only [Cell.register, List.mem_append, List.mem_singleton, Awaiter.mk.injEq,
        reduceCtorEq, false_and, or_false] at new
      exact absurd new old
  | unAwait p id =>
    simp only [spawn, Option.ite_none_right_eq_some, Option.some.injEq, Prod.mk.injEq] at spawned
    obtain ⟨⟨_, _, found⟩, rfl, rfl⟩ := spawned
    have waiting : Waiting s p → Untouched s (.race 0) →
        ∃ a ∈ (unAwait (s.cells (.input p)) id).awaiters, a.target = .handle := by
      rintro ⟨a, there, handle⟩ _
      refine ⟨a, unAwait_keeps (inv.ids p) found there ?_, handle⟩
      simp [Awaiter.isOther, handle]
    rcases input_owed (s := s) (p := p) (x := unAwait (s.cells (.input p)) id)
      ⟨rfl, rfl, rfl, rfl⟩ waiting owed with old | ⟨n, _, new, old⟩
    · exact .inr old
    · exact absurd (unAwait_sub _ _ _ new) old

theorem reached_known {m : Machine (State V E) (Instr V E)} (reached : Reached r m)
    (i : Instr V E) (has : Has m i) : Known m.shared i := by
  rintro j rfl
  exact reached_fresh reached has

theorem reached_covered {m : Machine (State V E) (Instr V E)} (reached : Reached r m) :
    Covered (Owed r) (Pays r) m := by
  induction reached with
  | start first =>
    subst first
    rintro d owed
    refine absurd owed ?_
    cases d with
    | store c => cases c <;> simp [Owed, Cell.storing, initial, created]
    | claim c => cases c <;> simp [Owed, Cell.rejecting, initial, created]
    | link j => simp [Owed, initial]
    | entry k => simp [Owed, initial]
    | clear p => simp +contextual [Owed, initial]
    | wrap p id => simp [Owed, initial, created]
  | next reached taken ih =>
    exact covered_step (fun s i d inv fit known owed => exec_pays inv fit known owed)
      (fun t e s s' is d inv spawned owed => spawn_pays inv spawned owed) (reached_known reached)
      (reached_sound reached) ih taken

end Payments

end RaceSettlement
