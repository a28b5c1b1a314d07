import Mathlib.Algebra.Order.BigOperators.Group.Finset
import JSProCpp.PromiseCells

/- A family of promises of which an instruction changes one cell. -/
namespace PromiseCells
variable {C A V E : Type} [DecidableEq C]

abbrev Family (C A V E : Type) := C → Cell A V E

namespace Family

def put (cells : Family C A V E) (c : C) (x : Cell A V E) : Family C A V E :=
  Function.update cells c x

def settle (cells : Family C A V E) (i : Settling C V E) : Family C A V E :=
  cells.put i.cell (PromiseCells.settle (cells i.cell) i).cell

def register (cells : Family C A V E) (c : C) (a : Nat → A) : Family C A V E :=
  cells.put c ((cells c).register a)

/-- A done promise is resolved and, once its `handle_` is null, has been flushed. -/
structure Tidy (cells : Family C A V E) : Prop where
  resolved : ∀ c, (cells c).outcome ≠ none → (cells c).resolved = true
  emptied : ∀ c, (cells c).handle = false → (cells c).outcome ≠ none → (cells c).awaiters = []

section Put
variable {cells : Family C A V E} {c d : C} {x : Cell A V E} {i : Settling C V E} {a : Nat → A}

@[simp] theorem put_here : cells.put c x c = x := Function.update_self _ _ _

theorem put_away (other : d ≠ c) : cells.put c x d = cells d := Function.update_of_ne other _ _

theorem put_at (d : C) : cells.put c x d = if d = c then x else cells d :=
  Function.update_apply _ _ _ _

theorem settle_here : cells.settle i i.cell = (PromiseCells.settle (cells i.cell) i).cell :=
  put_here

theorem settle_away (other : d ≠ i.cell) : cells.settle i d = cells d := put_away other

theorem settle_at (c : C) :
    cells.settle i c = if c = i.cell then (PromiseCells.settle (cells c) i).cell else cells c := by
  split
  · rename_i here
    subst here
    exact settle_here
  · rename_i other
    exact settle_away other

theorem register_at (d : C) :
    cells.register c a d = if d = c then (cells c).register a else cells d := put_at d

theorem put_grows (grows : Grows (cells c) x) (d : C) : Grows (cells d) (cells.put c x d) := by
  by_cases here : d = c
  · subst here
    simpa using grows
  · rw [put_away here]
    exact grows_refl _

theorem grows_settle (fresh : Fresh (cells i.cell) i) (c : C) :
    Grows (cells c) (cells.settle i c) :=
  put_grows (settle_grows _ i fresh) c

theorem grows_register (d : C) : Grows (cells d) (cells.register c a d) :=
  put_grows (register_grows _ a) d

theorem register_outcome (d : C) : (cells.register c a d).outcome = (cells d).outcome := by
  rw [register_at]
  split
  · rename_i here
    rw [here]
    rfl
  · rfl

theorem register_handle (d : C) : (cells.register c a d).handle = (cells d).handle := by
  rw [register_at]
  split
  · rename_i here
    rw [here]
    rfl
  · rfl

theorem register_flags (d : C) : (cells.register c a d).resolved = (cells d).resolved ∧
    (cells.register c a d).rejected = (cells d).rejected := by
  rw [register_at]
  split
  · rename_i here
    rw [here]
    exact ⟨rfl, rfl⟩
  · exact ⟨rfl, rfl⟩

theorem register_awaiters {b : A} (there : b ∈ (cells.register c a d).awaiters) :
    b ∈ (cells d).awaiters ∨ (d = c ∧ b = a ((cells c).useCount + 1)) := by
  rw [register_at] at there
  split at there
  · rename_i here
    subst here
    rcases List.mem_append.mp there with old | new
    · exact .inl old
    · exact .inr ⟨rfl, List.mem_singleton.mp new⟩
  · exact .inl there

theorem register_keeps {b : A} (there : b ∈ (cells d).awaiters) :
    b ∈ (cells.register c a d).awaiters := by
  rw [register_at]
  split
  · rename_i here
    exact List.mem_append_left _ (here ▸ there)
  · exact there

theorem register_new : a ((cells c).useCount + 1) ∈ (cells.register c a c).awaiters := by
  rw [register_at, if_pos rfl]
  exact List.mem_append_right _ (List.mem_singleton.mpr rfl)

end Put

section Settle
variable {cells : Family C A V E} {i : Settling C V E} {c : C}

theorem settle_sub {b : A} (there : b ∈ (cells.settle i c).awaiters) : b ∈ (cells c).awaiters := by
  rw [settle_at] at there
  split at there
  · exact PromiseCells.settle_sub there
  · exact there

theorem settle_gone {b : A} (before : b ∈ (cells c).awaiters)
    (after : b ∉ (cells.settle i c).awaiters) :
    c = i.cell ∧ b ∈ (PromiseCells.settle (cells i.cell) i).flushed := by
  rw [settle_at] at after
  split at after
  · rename_i here
    subst here
    exact ⟨rfl, flushed_gone before after⟩
  · exact absurd before after

theorem flushed_done {b : A} (there : b ∈ (PromiseCells.settle (cells i.cell) i).flushed) :
    (cells.settle i i.cell).outcome ≠ none := by
  rw [settle_here]
  exact PromiseCells.flushed_done there

theorem outcome_settle {o : Outcome V E} (done : (cells.settle i c).outcome = some o) :
    (cells c).outcome = some o ∨ (i = .store c o) := by
  rw [settle_at] at done
  split at done
  · rename_i here
    rw [settle_outcome] at done
    cases i with
    | store d o' =>
      rw [Option.some.injEq] at done
      rw [here, done]
      exact .inr rfl
    | reject d o' => exact .inl done
    | claim d o' => exact .inl done
    | clear d => exact .inl done
  · exact .inl done

theorem settle_claimed (cells : Family C A V E) (c : C) (o : Outcome V E) :
    (cells.settle (.claim c o) c).resolved = true := by
  rw [settle_at]
  split
  · rw [settle_resolved]
  · rename_i other
    exact absurd rfl other

theorem settle_stored (cells : Family C A V E) (c : C) (o : Outcome V E) :
    (cells.settle (.store c o) c).outcome = some o := by
  rw [settle_at]
  split
  · rw [settle_outcome]
  · rename_i other
    exact absurd rfl other

theorem settle_entered (cells : Family C A V E) (c : C) (o : Outcome V E) :
    (cells.settle (.reject c o) c).rejected = true := by
  rw [settle_at]
  split
  · rw [settle_rejected]
  · rename_i other
    exact absurd rfl other

theorem handle_settle (held : (cells.settle i c).handle = true) :
    (cells c).handle = true ∧ i ≠ .clear c := by
  rw [settle_at] at held
  split at held
  · rw [settle_handle] at held
    cases i with
    | clear d => simp at held
    | reject d o => exact ⟨held, by simp⟩
    | claim d o => exact ⟨held, by simp⟩
    | store d o => exact ⟨held, by simp⟩
  · rename_i other
    refine ⟨held, fun clears => ?_⟩
    subst clears
    exact other rfl

theorem storing_settle (storing : (cells.settle i c).storing) :
    (∃ o, .store c o ∈ (PromiseCells.settle (cells i.cell) i).next) ∨
      ((cells c).storing ∧ ∀ o, i ≠ .store c o) := by
  rw [settle_at] at storing
  split at storing
  · rename_i here
    subst here
    rcases settle_storing _ i storing with new | ⟨old, other⟩
    · exact .inl new
    · exact .inr ⟨old, other _⟩
  · rename_i other
    refine .inr ⟨storing, fun o store => ?_⟩
    subst store
    exact other rfl

theorem rejecting_settle (rejecting : (cells.settle i c).rejecting) :
    (∃ o, .claim c o ∈ (PromiseCells.settle (cells i.cell) i).next) ∨
      ((cells c).rejecting ∧ ∀ o, i ≠ .claim c o) := by
  rw [settle_at] at rejecting
  split at rejecting
  · rename_i here
    subst here
    rcases settle_rejecting _ i rejecting with new | ⟨old, other⟩
    · exact .inl new
    · exact .inr ⟨old, other _⟩
  · rename_i other
    refine .inr ⟨rejecting, fun o claim => ?_⟩
    subst claim
    exact other rfl

section Debts
variable {I : Type} {f : Settling C V E → I}

theorem store_owed (injective : Function.Injective f) (storing : (cells.settle i c).storing) :
    (∃ j ∈ (PromiseCells.settle (cells i.cell) i).next, ∃ o, f j = f (.store c o)) ∨
      ((cells c).storing ∧ ¬∃ o, f i = f (.store c o)) := by
  rcases storing_settle storing with ⟨o, new⟩ | ⟨old, other⟩
  · exact .inl ⟨_, new, o, rfl⟩
  · exact .inr ⟨old, fun store => store.elim fun o same => other o (injective same)⟩

theorem claim_owed (injective : Function.Injective f) (rejecting : (cells.settle i c).rejecting) :
    (∃ j ∈ (PromiseCells.settle (cells i.cell) i).next, ∃ o, f j = f (.claim c o)) ∨
      ((cells c).rejecting ∧ ¬∃ o, f i = f (.claim c o)) := by
  rcases rejecting_settle rejecting with ⟨o, new⟩ | ⟨old, other⟩
  · exact .inl ⟨_, new, o, rfl⟩
  · exact .inr ⟨old, fun claim => claim.elim fun o same => other o (injective same)⟩

/-- A promise that nobody has entered after the instruction is not entered by it. -/
theorem entered_touched (injective : Function.Injective f) (after : (cells.settle i c).untouched) :
    ¬Enters f c (f i) := by
  rintro ⟨o, same | same⟩
  · obtain rfl := injective same
    exact absurd (settle_entered cells c o) (Bool.eq_false_iff.mp after.2)
  · obtain rfl := injective same
    exact absurd (settle_claimed cells c o) (Bool.eq_false_iff.mp after.1)

end Debts

theorem tidy_settle (tidy : cells.Tidy)
    (claimed : ∀ c o, i = .store c o → (cells c).resolved = true) : (cells.settle i).Tidy := by
  constructor
  · intro c done
    rw [settle_at] at done ⊢
    split at done
    · rename_i here
      rw [if_pos here]
      refine settle_resolves _ i (tidy.resolved c) (fun d o store => ?_) done
      subst store
      exact here ▸ claimed d o rfl
    · rename_i other
      rw [if_neg other]
      exact tidy.resolved c done
  · intro c free done
    rw [settle_at] at free done ⊢
    split at free
    · rename_i here
      rw [if_pos here] at done ⊢
      rw [settle_handle] at free
      rw [settle_outcome] at done
      rw [settle_awaiters]
      cases i with
      | reject d o => exact tidy.emptied c free done
      | claim d o => exact tidy.emptied c free done
      | store d o => simp [flushes, free]
      | clear d =>
        obtain ⟨o, done⟩ := Option.ne_none_iff_exists'.mp done
        simp [flushes, done]
    · rename_i other
      rw [if_neg other] at done ⊢
      exact tidy.emptied c free done

theorem tidy_register {a : Nat → A} (tidy : cells.Tidy) (pending : (cells c).outcome = none) :
    (cells.register c a).Tidy := by
  constructor
  · intro d done
    rw [register_outcome] at done
    rw [(register_flags d).1]
    exact tidy.resolved d done
  · intro d free done
    rw [register_handle] at free
    rw [register_outcome] at done
    rw [register_at]
    split
    · rename_i here
      subst here
      exact absurd pending done
    · exact tidy.emptied d free done

end Settle

section Waiting
variable (w : A → Nat) (places : Finset C) (cells : Family C A V E)

def waiting : Nat := ∑ c ∈ places, ((cells c).awaiters.map w).sum

theorem waiting_put {c : C} (x : Cell A V E) (here : c ∈ places) :
    waiting w places (cells.put c x) + ((cells c).awaiters.map w).sum =
      waiting w places cells + (x.awaiters.map w).sum := by
  unfold waiting
  rw [← Finset.add_sum_erase _ _ here, ← Finset.add_sum_erase _ _ here]
  have others : ∑ d ∈ places.erase c, ((cells.put c x d).awaiters.map w).sum =
      ∑ d ∈ places.erase c, ((cells d).awaiters.map w).sum := by
    refine Finset.sum_congr rfl fun d other => ?_
    rw [put_away (Finset.ne_of_mem_erase other)]
  rw [others, put_here]
  omega

theorem waiting_settle (i : Settling C V E) (here : i.cell ∈ places) :
    waiting w places (cells.settle i) +
      ((PromiseCells.settle (cells i.cell) i).flushed.map w).sum = waiting w places cells := by
  have change := waiting_put w places cells (PromiseCells.settle (cells i.cell) i).cell here
  have flushed : ((PromiseCells.settle (cells i.cell) i).cell.awaiters.map w).sum +
      ((PromiseCells.settle (cells i.cell) i).flushed.map w).sum =
      ((cells i.cell).awaiters.map w).sum := by
    rw [settle_awaiters, settle_flushed]
    split <;> simp
  unfold settle
  omega

theorem waiting_register {c : C} (a : Nat → A) (here : c ∈ places) :
    waiting w places (cells.register c a) =
      waiting w places cells + w (a ((cells c).useCount + 1)) := by
  have change := waiting_put w places cells ((cells c).register a) here
  unfold register
  simp only [Cell.register, List.map_append, List.map_cons, List.map_nil, List.sum_append,
    List.sum_cons, List.sum_nil] at change ⊢
  omega

theorem waiting_insert (c : C) :
    waiting w places cells ≤ waiting w (insert c places) cells :=
  Finset.sum_le_sum_of_subset (Finset.subset_insert c places)

theorem waiting_settle_le (i : Settling C V E) :
    waiting w places (cells.settle i) +
      ((PromiseCells.settle (cells i.cell) i).flushed.map w).sum ≤
      waiting w (insert i.cell places) cells := by
  have more := waiting_insert w places (cells.settle i) i.cell
  have change := waiting_settle w (insert i.cell places) cells i (Finset.mem_insert_self _ _)
  omega

theorem waiting_register_le (c : C) (a : Nat → A) :
    waiting w places (cells.register c a) ≤
      waiting w (insert c places) cells + w (a ((cells c).useCount + 1)) := by
  have more := waiting_insert w places (cells.register c a) c
  have change := waiting_register w (insert c places) cells a (Finset.mem_insert_self c _)
  omega

end Waiting

section Held
/- What waits in the cells, as a collection. -/
variable {W : Type} (w : C → A → W) (places : Finset C) (cells : Family C A V E)

def held : Multiset W := ∑ c ∈ places, (((cells c).awaiters.map (w c) : List W) : Multiset W)

end Held

section Stores
variable {cells : Family C A V E}

theorem storeCost_put {c : C} {x : Cell A V E} (d : C)
    (same : x.storeCost = (cells c).storeCost) :
    (cells.put c x d).storeCost = (cells d).storeCost := by
  by_cases here : d = c
  · subst here
    rw [put_here, same]
  · rw [put_away here]

theorem storeCost_register {c : C} {a : Nat → A} (d : C) :
    (cells.register c a d).storeCost = (cells d).storeCost :=
  storeCost_put d rfl

/-- An instruction and what it leads to never raise the load of any cell. -/
theorem storeCost_settle (i : Settling C V E) (c : C) :
    (cells.settle i c).storeCost +
      ((PromiseCells.settle (cells i.cell) i).next.map (storeWeight c)).sum ≤
      (cells c).storeCost + storeWeight c i := by
  by_cases here : c = i.cell
  · subst here
    rw [settle_here]
    exact settle_cost (cells i.cell) i
  · rw [settle_elsewhere _ i here, settle_away here]
    omega

theorem markCost_put {k : Mark} {c : C} {x : Cell A V E} (d : C)
    (same : markCost k x = markCost k (cells c)) :
    markCost k (cells.put c x d) = markCost k (cells d) := by
  by_cases here : d = c
  · subst here
    rw [put_here, same]
  · rw [put_away here]

theorem markCost_register (cells : Family C A V E) (k : Mark) (c : C) (a : Nat → A) (d : C) :
    markCost k (cells.register c a d) = markCost k (cells d) :=
  markCost_put d (by cases k <;> rfl)

theorem markCost_settle (cells : Family C A V E) (k : Mark) (i : Settling C V E) (c : C) :
    markCost k (cells.settle i c) +
      ((PromiseCells.settle (cells i.cell) i).next.map (markWeight k c)).sum ≤
      markCost k (cells c) + markWeight k c i := by
  by_cases here : c = i.cell
  · subst here
    rw [settle_here]
    exact settle_marks k (cells i.cell) i
  · rw [marks_elsewhere k _ i here, settle_away here]
    omega

end Stores

end Family

end PromiseCells
