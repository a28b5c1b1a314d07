import Mathlib.Logic.Relation
import JSProCpp.CoroutineOutcomes

/- Coroutines at rest: no schedule goes on for ever, nobody is forgotten, and the outcomes do not
   depend on the schedule. -/
namespace Coroutines
open Transitions Interleaving PromiseCells
variable {B V E : Type} {code : Code B V E}

section Work
variable {s t : State B V E} {i : Instr B V E} {is : List (Instr B V E)}

/-- The instructions of a settlement, below all bodies; a body, and how far it is. -/
abbrev Item (B V E : Type) := Nat ⊕ ((B ⊕ (Outcome V E → B)) × Nat)

def waits (_ : Pid) (a : Awaiter B V E) : Item B V E := .inr (.inr a.resume, 0)

def item : Instr B V E → Item B V E
  | .settling (.reject _ _) => .inl 2
  | .settling (.claim _ _) => .inl 1
  | .settling _ => .inl 0
  | .go _ _ b => .inr (.inl b, 0)
  | .suspend _ a => .inr (.inr a.resume, 1)
  | .resume p a | .waitDone p a => waits p a

def Instr.blocked (s : State B V E) : Instr B V E → Bool
  | .waitDone p _ => !s.finished p
  | _ => false

def Holds (s : State B V E) (w : Multiset (Item B V E)) : Prop :=
  ∃ places : Finset Pid, (∀ p ∉ places, (s.cells p).awaiters = []) ∧
    w = Family.held waits places s.cells

end Work

inductive Debt where
  | store (p : Pid)
  -- the coroutine has ended and has yet to settle its promise, or to clear `handle_`
  | finish (q : Pid)
  | clear (q : Pid)
  -- the coroutine is not suspended
  | go (q : Pid)

def Debt.pid : Debt → Pid
  | .store p | .finish p | .clear p | .go p => p

def Owed (s : State B V E) : Debt → Prop
  | .store p => (s.cells p).storing
  | .finish q =>
      q.handled = false ∧ s.made q ≠ none ∧ s.running q = false ∧ (s.cells q).resolved = false
  | .clear q => s.made q ≠ none ∧ s.running q = false ∧ (s.cells q).handle = true
  | .go q => s.running q = true ∧ ∀ p, ∀ a ∈ (s.cells p).awaiters, a.coroutine ≠ q

def Instr.pid : Instr B V E → Pid
  | .settling i => i.cell
  | .go q _ _ => q
  | .suspend _ a | .resume _ a | .waitDone _ a => a.coroutine

inductive Pays : Debt → Instr B V E → Prop where
  | store (p : Pid) (o : Outcome V E) : Pays (.store p) (.settling (.store p o))
  | finish (q : Pid) (o : Outcome V E) : Pays (.finish q) (.settling (.claim q o))
  | clear (q : Pid) : Pays (.clear q) (.settling (.clear q))
  | go (q : Pid) (i : Nat) (b : B) : Pays (.go q) (.go q i b)
  | suspend (p : Pid) (a : Awaiter B V E) : Pays (.go a.coroutine) (.suspend p a)
  | resume (p : Pid) (a : Awaiter B V E) : Pays (.go a.coroutine) (.resume p a)
  | waitDone (p : Pid) (a : Awaiter B V E) : Pays (.go a.coroutine) (.waitDone p a)

section Debts
variable {s t : State B V E} {i : Instr B V E} {is : List (Instr B V E)} {d : Debt}

theorem settle_pays {i : Settling Pid V E}
    (owed : Owed { s with cells := s.cells.settle i } d) :
    (∃ x ∈ (settle (s.cells i.cell) i).next.map Instr.settling ++
      (settle (s.cells i.cell) i).flushed.map fun a => .resume i.cell a, Pays d x) ∨
      (Owed s d ∧ ¬Pays d (.settling i : Instr B V E)) := by
  cases d with
  | store p =>
    rcases Family.storing_settle owed with ⟨o, new⟩ | ⟨old, other⟩
    · exact .inl ⟨_, List.mem_append_left _ (List.mem_map_of_mem new), .store p o⟩
    · refine .inr ⟨old, fun pays => ?_⟩
      cases pays with
      | store _ o => exact other o rfl
  | finish q =>
    obtain ⟨plain, made, ended, open_⟩ := owed
    right
    simp only [Family.settle_at] at open_
    split at open_
    · rename_i here
      subst here
      rw [settle_resolved] at open_
      cases i with
      | claim p o => simp at open_
      | reject p o => exact ⟨⟨plain, made, ended, open_⟩, fun pays => by cases pays⟩
      | store p o => exact ⟨⟨plain, made, ended, open_⟩, fun pays => by cases pays⟩
      | clear p => exact ⟨⟨plain, made, ended, open_⟩, fun pays => by cases pays⟩
    · rename_i other
      refine ⟨⟨plain, made, ended, open_⟩, fun pays => ?_⟩
      cases pays with
      | finish _ o => exact other rfl
  | clear q =>
    obtain ⟨made, ended, held⟩ := owed
    obtain ⟨held, other⟩ := Family.handle_settle held
    refine .inr ⟨⟨made, ended, held⟩, fun pays => ?_⟩
    cases pays with
    | clear => exact other rfl
  | go q =>
    obtain ⟨running, nowhere⟩ := owed
    by_cases waits : ∃ p, ∃ a ∈ (s.cells p).awaiters, a.coroutine = q
    · obtain ⟨p, a, there, rfl⟩ := waits
      obtain ⟨rfl, flushed⟩ := Family.settle_gone there fun still => nowhere p a still rfl
      exact .inl ⟨_, List.mem_append_right _ (List.mem_map_of_mem flushed), .resume _ a⟩
    · refine .inr ⟨⟨running, fun p a there same => waits ⟨p, a, there, same⟩⟩, fun pays => ?_⟩
      cases pays

theorem ending_pays (q : Pid) (r : Outcome V E) :
    (∃ x ∈ ending (B := B) q r, Pays (.clear q) x) ∧
      (q.handled = false → ∃ x ∈ ending (B := B) q r, Pays (.finish q) x) := by
  cases r with
  | value v =>
    cases handled : q.handled with
    | true => exact ⟨⟨.settling (.clear q), by simp [ending, handled], .clear q⟩, by simp⟩
    | false =>
      exact ⟨⟨.settling (.clear q), by simp [ending, handled], .clear q⟩,
        fun _ => ⟨.settling (.claim q (.value v)), by simp [ending, handled], .finish q _⟩⟩
  | exception e =>
    exact ⟨⟨.settling (.clear q), by simp [ending], .clear q⟩,
      fun _ => ⟨.settling (.claim q (.exception e)), by simp [ending], .finish q _⟩⟩

theorem ended_pays {q : Pid} {n : Nat} {b : B} {r : Outcome V E} (owed : Owed (s.ended q) d) :
    (∃ x ∈ ending (B := B) q r, Pays d x) ∨ (Owed s d ∧ ¬Pays d (.go q n b : Instr B V E)) := by
  have stays : ∀ p, p ≠ q → (s.ended q).running p = s.running p :=
    fun p other => Function.update_of_ne other _ _
  obtain ⟨clears, finishes⟩ := ending_pays (B := B) q r
  cases d with
  | store p => exact .inr ⟨owed, fun pays => by cases pays⟩
  | finish p =>
    obtain ⟨plain, made, ended, open_⟩ := owed
    by_cases here : p = q
    · subst here
      exact .inl (finishes plain)
    · exact .inr ⟨⟨plain, made, (stays p here).symm.trans ended, open_⟩, fun pays => by cases pays⟩
  | clear p =>
    obtain ⟨made, ended, held⟩ := owed
    by_cases here : p = q
    · subst here
      exact .inl clears
    · exact .inr ⟨⟨made, (stays p here).symm.trans ended, held⟩, fun pays => by cases pays⟩
  | go p =>
    obtain ⟨running, nowhere⟩ := owed
    have other : p ≠ q := by
      rintro rfl
      simp [State.ended] at running
    refine .inr ⟨⟨(stays p other).symm.trans running, nowhere⟩, fun pays => ?_⟩
    cases pays with
    | go => exact other rfl

theorem make_owed {p : Pid} {b : B} (owed : Owed (s.make p b) d) :
    d = .go p ∨ Owed s d := by
  cases d with
  | store q =>
    right
    obtain ⟨resolved, pending⟩ := owed
    rw [make_cell] at resolved pending
    split at resolved <;> split at pending <;> exact ⟨resolved, pending⟩
  | finish q =>
    obtain ⟨plain, made, ended, open_⟩ := owed
    rw [make_running] at ended
    split at ended
    · simp at ended
    · rename_i other
      rw [make_made, if_neg other] at made
      rw [make_cell, if_neg other] at open_
      exact .inr ⟨plain, made, ended, open_⟩
  | clear q =>
    obtain ⟨made, ended, held⟩ := owed
    rw [make_running] at ended
    split at ended
    · simp at ended
    · rename_i other
      rw [make_made, if_neg other] at made
      rw [make_cell, if_neg other] at held
      exact .inr ⟨made, ended, held⟩
  | go q =>
    obtain ⟨running, nowhere⟩ := owed
    by_cases here : q = p
    · exact .inl (by rw [here])
    · rw [make_running, if_neg here] at running
      refine .inr ⟨running, fun c a there => nowhere c a ?_⟩
      rw [make_cell]
      split <;> exact there

/-- An instruction that changes nothing hands its debt on. -/
theorem passes {x : Instr B V E} (same : ∀ d, Pays d i → Pays d x) (there : x ∈ is)
    (owed : Owed s d) : (∃ x ∈ is, Pays d x) ∨ (Owed s d ∧ ¬Pays d i) := by
  by_cases pays : Pays d i
  · exact .inl ⟨x, there, same d pays⟩
  · exact .inr ⟨owed, pays⟩

theorem did_pays (fit : Fit code s i) (did : Did code s i t is) (owed : Owed t d) :
    (∃ x ∈ is, Pays d x) ∨ (Owed s d ∧ ¬Pays d i) := by
  cases did with
  | settling i => exact settle_pays owed
  | done q n b r => exact ended_pays owed
  | ready q p n b k awaits done =>
    refine passes (fun d pays => ?_) List.mem_cons_self owed
    cases pays with
    | go => exact .resume p ⟨q, n, k⟩
  | unready q p n b k =>
    refine passes (fun d pays => ?_) List.mem_cons_self owed
    cases pays with
    | go => exact .suspend p ⟨q, n, k⟩
  | dropped q p n b k =>
    refine passes (fun d pays => ?_) List.mem_cons_self owed
    cases pays with
    | go => exact .go q n k
  | undropped q p n b k =>
    refine passes (fun d pays => ?_) List.mem_cons_self owed
    cases pays with
    | go => exact .waitDone p ⟨q, n, fun _ => k⟩
  | make q n r b c k =>
    rcases make_owed owed with rfl | old
    · exact .inl ⟨_, List.mem_cons_self, .go _ 0 _⟩
    · refine passes (fun d pays => ?_) (List.mem_cons_of_mem _ List.mem_cons_self) old
      cases pays with
      | go => exact .go q (n + 1) _
  | call q n b h o k =>
    refine passes (fun d pays => ?_) (List.mem_cons_of_mem _ List.mem_cons_self) owed
    cases pays with
    | go => exact .go q n k
  | through p a done =>
    refine passes (fun d pays => ?_) List.mem_cons_self owed
    cases pays with
    | suspend => exact .resume p a
  | register p a pending =>
    right
    cases d with
    | store q =>
      obtain ⟨resolved, open_⟩ := owed
      exact ⟨⟨(Family.register_flags q).1.symm.trans resolved,
        (Family.register_outcome q).symm.trans open_⟩, fun pays => by cases pays⟩
    | finish q =>
      obtain ⟨plain, made, ended, open_⟩ := owed
      have open_ : (s.cells q).resolved = false := (Family.register_flags q).1.symm.trans open_
      exact ⟨⟨plain, made, ended, open_⟩, fun pays => by cases pays⟩
    | clear q =>
      obtain ⟨made, ended, held⟩ := owed
      exact ⟨⟨made, ended, (Family.register_handle q).symm.trans held⟩, fun pays => by cases pays⟩
    | go q =>
      obtain ⟨running, nowhere⟩ := owed
      refine ⟨⟨running, fun c a' there => nowhere c a' (Family.register_keeps there)⟩, ?_⟩
      intro pays
      cases pays with
      | suspend => exact nowhere p a Family.register_new rfl
  | resume p a o done =>
    refine passes (fun d pays => ?_) List.mem_cons_self owed
    cases pays with
    | resume => exact .go _ _ _
  | missing p a pending => exact absurd pending fit.1
  | waited p a o done =>
    refine passes (fun d pays => ?_) List.mem_cons_self owed
    cases pays with
    | waitDone => exact .go _ _ _
  | blocked p a => exact passes (fun _ => id) List.mem_cons_self owed

theorem spawn_pays {e : Event V E} (spawned : spawn code e s = some (t, is)) (owed : Owed t d) :
    (∃ x ∈ is, Pays d x) ∨ Owed s d := by
  cases spawn_spawned spawned with
  | make n r fresh =>
    rcases make_owed owed with rfl | old
    · exact .inl ⟨_, List.mem_cons_self, .go _ 0 _⟩
    · exact .inr old
  | call h o => exact .inr owed

end Debts

section Rest
variable {m : Machine (State B V E) (Instr B V E)}

theorem reached_covered (reached : Reached code m) : Covered Owed Pays m := by
  induction reached with
  | start first =>
    subst first
    intro d owed
    cases d with
    | store p => simp [Owed, initial, Cell.storing, created] at owed
    | finish q => simp [Owed, initial] at owed
    | clear q => simp [Owed, initial] at owed
    | go q => simp [Owed, initial] at owed
  | next reached taken ih =>
    exact covered_step (fun s i d _ fit _ owed => did_pays fit (exec_did i) owed)
      (fun _ e s t is d _ spawned owed => spawn_pays spawned owed)
      (reached_known reached) (reached_sound reached) ih taken

/-- Every coroutine but those held up has ended, or is in the awaiter list of a promise. -/
structure Rested (code : Code B V E) (held : Pid → Prop) (s : State B V E) : Prop where
  inv : Inv code s
  owed : ∀ d, Owed s d → held d.pid

variable {s : State B V E} {held : Pid → Prop} {p q : Pid}

theorem rested_ended (rested : Rested code held s) (made : s.made q ≠ none)
    (ended : s.running q = false) :
    held q ∨ ((s.cells q).handle = false ∧ (q.handled = false → s.outcome q ≠ none)) := by
  refine or_iff_not_imp_left.mpr fun free => ⟨?_, fun plain pending => ?_⟩
  · by_contra holds
    exact free (rested.owed (.clear q) ⟨made, ended, by simpa using holds⟩)
  · cases resolved : (s.cells q).resolved with
    | true => exact free (rested.owed (.store q) ⟨resolved, pending⟩)
    | false => exact free (rested.owed (.finish q) ⟨plain, made, ended, resolved⟩)

theorem rested_suspended (rested : Rested code held s) (running : s.running q = true) :
    held q ∨ ∃ p, ∃ a ∈ (s.cells p).awaiters, a.coroutine = q := by
  refine or_iff_not_imp_right.mpr fun nowhere => rested.owed (.go q) ⟨running, ?_⟩
  exact fun p a there same => nowhere ⟨p, a, there, same⟩

theorem rested_awaited (rested : Rested code held s) {a : Awaiter B V E}
    (there : a ∈ (s.cells p).awaiters) :
    s.outcome p = none ∨ (p.handled = true ∧ s.running p = true) ∨ held p := by
  by_cases pending : s.outcome p = none
  · exact .inl pending
  · right
    have handle : (s.cells p).handle = true := by
      by_contra free
      simp [rested.inv.tidy.emptied p (by simpa using free) pending] at there
    cases running : s.running p with
    | false => exact .inr (rested.owed (.clear p) ⟨rested.inv.handle p handle, running, handle⟩)
    | true =>
      refine .inl ⟨?_, rfl⟩
      by_contra plain
      have ended := rested.inv.resolved p (by simpa using plain)
        (rested.inv.tidy.resolved p pending)
      simp [running] at ended

end Rest

end Coroutines
