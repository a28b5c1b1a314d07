import JSProCpp.RaceProgress

/- The call of `Race` itself: what its thread does while no input settles, and which input the
   race then follows. -/
namespace RaceSettlement
open Transitions Interleaving PromiseCells
variable {V E : Type}

def Pid.isRace : Pid → Bool
  | .input _ => false
  | .race _ => true

def Instr.ours : Instr V E → Bool
  | .settling i => i.cell.isRace
  | .callback (.input _) (.other _ _) => false
  | _ => true

/-- The thread is between two inputs of its walk along the arguments of `Race`. -/
def Instr.walks : Instr V E → Bool
  | .race _ => true
  | .skip _ => true
  | .attach _ => true
  | .wrap _ _ => true
  | _ => false

section Walk
variable {r : Race} {s : State V E}

theorem callback_walks {c : Pid} {t : Target} {x : Instr V E} (new : x ∈ callback r s c t) :
    x.walks = false := by
  unfold callback at new
  split at new
  · split at new
    · rw [List.mem_singleton.mp new]
      rfl
    · simp at new
  · split at new
    · rw [List.mem_singleton.mp new]
      rfl
    · simp at new
  · simp at new

theorem settling_walks {i : Settling Pid (Option V) E} {x : Instr V E}
    (new : x ∈ (exec r (.settling i) s).2) : x.walks = false := by
  simp only [exec, List.mem_append, List.mem_map] at new
  rcases new with ⟨j, _, rfl⟩ | ⟨a, _, rfl⟩ <;> rfl

theorem exec_walks {i x : Instr V E} (new : x ∈ (exec r i s).2) (walks : x.walks = true) :
    i.walks = true ∧ (exec r i s).2 = [x] := by
  cases i with
  | settling i => simp [settling_walks new] at walks
  | callback c t => simp [callback_walks new] at walks
  | race p =>
    refine ⟨rfl, ?_⟩
    simp only [exec] at new ⊢
    split at new
    · rename_i done
      rw [if_pos done, List.mem_singleton.mp new]
    · rename_i pending
      rw [if_neg pending, List.mem_singleton.mp new]
  | skip p => simp [exec] at new
  | attach p =>
    refine ⟨rfl, ?_⟩
    simp only [exec] at new ⊢
    split at new
    · rw [List.mem_singleton.mp new] at walks
      simp [Instr.walks] at walks
    · rw [List.mem_singleton.mp new]
  | wrap p id =>
    simp only [exec] at new
    split at new
    · rw [List.mem_singleton.mp new] at walks
      simp [Instr.walks] at walks
    · simp at new
  | func j p id o =>
    simp only [exec, List.mem_singleton] at new
    rw [new] at walks
    simp [Instr.walks] at walks

theorem exec_place (i : Instr V E) :
    (exec r i s).1.pos = s.pos ∧ (exec r i s).1.caller = s.caller := by
  cases i with
  | race p =>
    simp only [exec]
    split <;> exact ⟨rfl, rfl⟩
  | attach p =>
    simp only [exec]
    split <;> exact ⟨rfl, rfl⟩
  | wrap p id =>
    simp only [exec]
    split <;> exact ⟨rfl, rfl⟩
  | _ => exact ⟨rfl, rfl⟩

theorem exec_stack {i : Instr V E} (still : i.walks = false) :
    (exec r i s).1.stack = s.stack := by
  cases i with
  | settling i => rfl
  | callback c t => rfl
  | func j p id o => rfl
  | race p => simp [Instr.walks] at still
  | skip p => simp [Instr.walks] at still
  | attach p => simp [Instr.walks] at still
  | wrap p id => simp [Instr.walks] at still

end Walk

structure Apart (s t : State V E) (is : List (Instr V E)) : Prop where
  foreign : ∀ x ∈ is, x.ours = false
  waiting : ∀ p, Waiting t p → Waiting s p
  races : ∀ j, t.outcome (.race j) = s.outcome (.race j)
  stack : t.stack = s.stack
  pos : t.pos = s.pos

section Apart
variable {r : Race} {s : State V E}

theorem foreign_still {i : Instr V E} (foreign : i.ours = false) : i.walks = false := by
  cases i <;> first | rfl | simp [Instr.ours] at foreign

theorem put_waiting {p q : Nat} {x : Cell Awaiter (Option V) E}
    (sub : ∀ a ∈ x.awaiters, a.target = .handle → a ∈ (s.cells (.input p)).awaiters)
    (waits : Waiting (s.put (.input p) x) q) : Waiting s q := by
  obtain ⟨a, there, handle⟩ := waits
  by_cases same : q = p
  · subst same
    rw [put_cells, Family.put_here] at there
    exact ⟨a, sub a there handle, handle⟩
  · rw [put_cells, Family.put_away (by simpa using same)] at there
    exact ⟨a, there, handle⟩

theorem put_races {p : Nat} (x : Cell Awaiter (Option V) E) (j : Nat) :
    (s.put (.input p) x).outcome (.race j) = s.outcome (.race j) := by
  rw [State.outcome, put_cells, Family.put_away (by simp)]
  rfl

theorem exec_apart {i : Instr V E} (inv : Inv r s) (foreign : i.ours = false)
    (quiet : ∀ p, Waiting s p → (exec r i s).1.outcome (.input p) = none) :
    Apart s (exec r i s).1 (exec r i s).2 := by
  cases i with
  | settling i =>
    obtain ⟨p, here⟩ : ∃ p, i.cell = .input p := by
      cases here : i.cell with
      | input p => exact ⟨p, rfl⟩
      | race j => simp [Instr.ours, here, Pid.isRace] at foreign
    simp only [exec] at quiet ⊢
    rw [here] at quiet ⊢
    have sub : ∀ a ∈ (settle (s.cells (.input p)) i).cell.awaiters,
        a ∈ (s.cells (.input p)).awaiters := fun _ => settle_sub
    refine ⟨fun x new => ?_, fun q => put_waiting fun a there _ => sub a there, put_races _, rfl,
      rfl⟩
    rcases List.mem_append.mp new with next | flushed
    · obtain ⟨j, there, rfl⟩ := List.mem_map.mp next
      have cell : j.cell = i.cell := by
        rw [settle_next] at there
        cases i with
        | reject c o =>
          dsimp only at there
          split at there
          · simp at there
          · rw [List.mem_singleton.mp there]
            rfl
        | claim c o =>
          dsimp only at there
          split at there
          · simp at there
          · rw [List.mem_singleton.mp there]
            rfl
        | store c o => simp at there
        | clear c => simp at there
      simp [Instr.ours, Pid.isRace, cell, here]
    · obtain ⟨a, there, rfl⟩ := List.mem_map.mp flushed
      have member := flushed_sub there
      rcases inv.targets p a member with other | ⟨handle, _⟩
      · simp only [Awaiter.isOther] at other
        split at other
        · rename_i target
          simp [Instr.ours, target]
        · simp at other
      · have pending := quiet p ⟨a, member, handle⟩
        rw [State.outcome, put_cells, Family.put_here] at pending
        rw [settle_flushed, (settle_quiet _ i pending).1] at there
        simp at there
  | callback c t =>
    cases c with
    | race j => simp [Instr.ours] at foreign
    | input p =>
      cases t with
      | other coroutine n =>
        exact ⟨by simp [exec, callback], fun _ waits => waits, fun _ => rfl, rfl, rfl⟩
      | handle => simp [Instr.ours] at foreign
      | finally_ q id => simp [Instr.ours] at foreign
  | race p => simp [Instr.ours] at foreign
  | skip p => simp [Instr.ours] at foreign
  | attach p => simp [Instr.ours] at foreign
  | wrap p id => simp [Instr.ours] at foreign
  | func j p id o => simp [Instr.ours] at foreign

theorem settling_ours (p : Nat) (o : Result V E) :
    (.settling (settling (.input p) o) : Instr V E).ours = false := by
  cases o <;> rfl

theorem spawn_apart {t : Nat} {e : Event V E} {s' : State V E} {is : List (Instr V E)}
    (spawned : spawn r t e s = some (s', is)) (other : e ≠ .next) : Apart s s' is := by
  cases e with
  | next => exact absurd rfl other
  | call =>
    simp only [spawn, Option.ite_none_right_eq_some, Option.some.injEq, Prod.mk.injEq] at spawned
    obtain ⟨_, rfl, rfl⟩ := spawned
    exact ⟨by simp, fun _ waits => waits, fun _ => rfl, rfl, rfl⟩
  | settle p o =>
    simp only [spawn, Option.ite_none_right_eq_some, Option.some.injEq, Prod.mk.injEq] at spawned
    obtain ⟨_, rfl, rfl⟩ := spawned
    refine ⟨fun x new => ?_, fun _ waits => waits, fun _ => rfl, rfl, rfl⟩
    rw [List.mem_singleton.mp new]
    exact settling_ours p o
  | complete p o =>
    simp only [spawn, Option.ite_none_right_eq_some, Option.some.injEq, Prod.mk.injEq] at spawned
    obtain ⟨_, rfl, rfl⟩ := spawned
    refine ⟨fun x new => ?_, fun _ waits => waits, fun _ => rfl, rfl, rfl⟩
    simp only [List.mem_cons, List.not_mem_nil, or_false] at new
    rcases new with rfl | rfl <;> rfl
  | await p coroutine n =>
    simp only [spawn, Option.ite_none_right_eq_some, Option.some.injEq, Prod.mk.injEq] at spawned
    obtain ⟨_, rfl, rfl⟩ := spawned
    refine ⟨by simp, fun q waits => ?_, fun j => put_races (s := s) (p := p)
      ((s.cells (.input p)).register (⟨.other coroutine n, ·⟩)) j, rfl, rfl⟩
    refine put_waiting (s := s) (p := p) (fun a there handle => ?_) waits
    simp only [Cell.register, List.mem_append, List.mem_singleton] at there
    rcases there with old | rfl
    · exact old
    · simp at handle
  | unAwait p id =>
    simp only [spawn, Option.ite_none_right_eq_some, Option.some.injEq, Prod.mk.injEq] at spawned
    obtain ⟨_, rfl, rfl⟩ := spawned
    exact ⟨by simp, fun q waits => put_waiting (s := s) (p := p)
      (fun a there _ => unAwait_sub _ _ a there) waits,
      fun j => put_races (s := s) (p := p) (unAwait (s.cells (.input p)) id) j, rfl, rfl⟩

theorem spawn_caller {t u : Nat} {e : Event V E} {s' : State V E} {is : List (Instr V E)}
    (spawned : spawn r u e s = some (s', is)) (called : s.caller = some t) :
    s'.caller = some t ∧ (e = .next → u = t) := by
  cases e with
  | call =>
    simp only [spawn, Option.ite_none_right_eq_some] at spawned
    simp [called] at spawned
  | next =>
    simp only [spawn, Option.ite_none_right_eq_some, Option.map_eq_some_iff, Prod.mk.injEq]
      at spawned
    obtain ⟨mine, p, _, rfl, _⟩ := spawned
    rw [called, Option.some.injEq] at mine
    exact ⟨called, fun _ => mine.symm⟩
  | settle p o =>
    simp only [spawn, Option.ite_none_right_eq_some, Option.some.injEq, Prod.mk.injEq] at spawned
    obtain ⟨_, rfl, _⟩ := spawned
    exact ⟨called, by simp⟩
  | complete p o =>
    simp only [spawn, Option.ite_none_right_eq_some, Option.some.injEq, Prod.mk.injEq] at spawned
    obtain ⟨_, rfl, _⟩ := spawned
    exact ⟨called, by simp⟩
  | await p coroutine n =>
    simp only [spawn, Option.ite_none_right_eq_some, Option.some.injEq, Prod.mk.injEq] at spawned
    obtain ⟨_, rfl, _⟩ := spawned
    exact ⟨called, by simp⟩
  | unAwait p id =>
    simp only [spawn, Option.ite_none_right_eq_some, Option.some.injEq, Prod.mk.injEq] at spawned
    obtain ⟨_, rfl, _⟩ := spawned
    exact ⟨called, by simp⟩

end Apart

section Rest
variable {r : Race} {s : State V E} {m n : Machine (State V E) (Instr V E)}

theorem chain_settled (stores : ∀ j, ¬Owed r s (.store (.race j)))
    (claims : ∀ j, ¬Owed r s (.claim (.race j))) (links : ∀ j, ¬Owed r s (.link j))
    (touched : ¬Untouched s (.race 0)) {j : Nat} (inside : j ≤ s.stack.length) :
    s.outcome (.race j) ≠ none := by
  have settles : ∀ j, ¬Untouched s (.race j) → s.outcome (.race j) ≠ none := by
    intro j touched pending
    by_cases resolved : (s.cells (.race j)).resolved = true
    · exact stores j ⟨resolved, pending⟩
    · rw [Bool.not_eq_true] at resolved
      by_cases rejected : (s.cells (.race j)).rejected = true
      · exact claims j ⟨rejected, resolved⟩
      · exact touched ⟨resolved, by simpa using rejected⟩
  induction j with
  | zero => exact settles 0 touched
  | succ j ih =>
    have before := ih (by omega)
    refine settles (j + 1) fun untouched => links j ⟨by omega, before, untouched⟩

def Debt.ours : Debt → Bool
  | .store c => c.isRace
  | .claim c => c.isRace
  | .link _ => true
  | .entry _ => true
  | .clear _ => false
  | .wrap _ _ => true

theorem enters_ours {c : Pid} {i : Instr V E} (race : c.isRace = true)
    (enters : Enters Instr.settling c i) : i.ours = true := by
  rcases enters with ⟨o, rfl | rfl⟩ <;> exact race

theorem pays_ours {d : Debt} {i : Instr V E} (ours : d.ours = true) (pays : Pays r d i) :
    i.ours = true := by
  cases d with
  | store c =>
    obtain ⟨o, rfl⟩ := pays
    exact ours
  | claim c =>
    obtain ⟨o, rfl⟩ := pays
    exact ours
  | link j =>
    rcases pays with enters | ⟨p, id, o, rfl⟩ | ⟨t, rfl⟩
    · exact enters_ours rfl enters
    · rfl
    · rfl
  | entry k =>
    rcases pays with enters | ⟨p, _, rfl | rfl | rfl⟩
    · exact enters_ours rfl enters
    · rfl
    · rfl
    · rfl
  | clear p => simp [Debt.ours] at ours
  | wrap p id =>
    rw [pays]
    rfl

theorem heard_settled (covered : Covered (Owed r) (Pays r) m)
    (rest : ∀ i, Has m i → i.ours = false) {k p : Nat} (passed : k < m.shared.pos)
    (here : r.inputs[k]? = some p) (quiet : ¬Waiting m.shared p) {j : Nat}
    (inside : j ≤ m.shared.stack.length) : m.shared.outcome (.race j) ≠ none := by
  have paid : ∀ d : Debt, d.ours = true → ¬Owed r m.shared d := by
    intro d ours owed
    obtain ⟨i, has, pays⟩ := covered d owed
    have mine := pays_ours ours pays
    simp [rest i has] at mine
  refine chain_settled (r := r) (fun j => paid _ rfl) (fun j => paid _ rfl) (fun j => paid _ rfl)
    (fun untouched => paid (.entry k) rfl ⟨passed, ⟨p, here, quiet⟩, untouched⟩) inside

structure Unstarted (m : Machine (State V E) (Instr V E)) : Prop where
  foreign : ∀ i, Has m i → i.ours = false
  nobody : ∀ p, ¬Waiting m.shared p
  pending : m.shared.outcome (.race 0) = none
  pos : m.shared.pos = 0

theorem apart_unstarted {t : Nat} {old is : List (Instr V E)} (rest : List (Instr V E))
    {s' : State V E} (unstarted : Unstarted m) (here : m.threads[t]? = some old)
    (sub : ∀ x ∈ rest, x ∈ old)
    (apart : Apart m.shared s' is) : Unstarted ⟨s', m.threads.set t (is ++ rest)⟩ := by
  refine ⟨fun x has => ?_, fun p waits => unstarted.nobody p (apart.waiting p waits),
    (apart.races 0).trans unstarted.pending, apart.pos.trans unstarted.pos⟩
  rcases has_of_set has with before | new
  · exact unstarted.foreign x before
  · rcases List.mem_append.mp new with pushed | later
    · exact apart.foreign x pushed
    · exact unstarted.foreign x (has_here here (sub x later))

theorem reached_unstarted (reached : Reached r m) (uncalled : m.shared.caller = none) :
    Unstarted m := by
  induction reached with
  | start first =>
    subst first
    refine ⟨?_, fun p => ?_, rfl, rfl⟩
    · rintro i ⟨t, member, _⟩
      simp [initial] at member
    · rintro ⟨a, there, _⟩
      simp [initial, created] at there
  | next reached taken ih =>
    have sound := reached_sound reached
    cases step_change taken with
    | fork =>
      have before := ih uncalled
      exact ⟨fun i has => before.foreign i (has_fork.mp has), before.nobody, before.pending,
        before.pos⟩
    | start t e s is idle spawned =>
      rename_i k
      cases called : k.shared.caller with
      | some u =>
        have still := (spawn_caller spawned called).1
        exact absurd (uncalled.symm.trans still) (by simp)
      | none =>
        by_cases walks : e = .next
        · subst walks
          simp [program, spawn, called] at spawned
        · have after := apart_unstarted [] (ih called) idle (by simp)
            (spawn_apart spawned walks)
          rwa [List.append_nil] at after
    | run t i rest here =>
      have before := ih ((exec_place i).2.symm.trans uncalled)
      have foreign := before.foreign i (has_here here List.mem_cons_self)
      exact apart_unstarted rest before here (fun x later => List.mem_cons_of_mem _ later)
        (exec_apart sound.inv foreign fun p waits => absurd waits (before.nobody p))

end Rest

/-- The input at position `k` is the first settled one among the arguments. -/
structure Leads (r : Race) (s : State V E) (k p : Nat) (o : Result V E) : Prop where
  here : r.inputs[k]? = some p
  done : s.outcome (.input p) = some o
  before : ∀ (j q : Nat), j < k → r.inputs[j]? = some q → s.outcome (.input q) = none

def Heading (r : Race) (s : State V E) (k : Nat) (o : Result V E) : Instr V E → Prop
  | .settling i => ∀ c o', c = .race 0 →
      (i = .reject c o' ∨ i = .claim c o' ∨ i = .store c o') → o' = o
  | .callback (.input _) t => t ≠ .handle
  | .race p => r.inputs[s.pos - 1]? = some p ∧
      (s.pos ≤ k + 1 ∨ s.outcome (.race s.stack.length) ≠ none)
  | .attach p => r.inputs[s.pos - 1]? = some p ∧ s.pos ≤ k + 1
  | _ => True

/-- The call of `Race` on thread `t` while no input settles. -/
structure Calm (r : Race) (k : Nat) (o : Result V E) (t : Nat)
    (m : Machine (State V E) (Instr V E)) : Prop where
  caller : m.shared.caller = some t
  mine : ∀ (u : Nat) (l : List (Instr V E)), m.threads[u]? = some l → u ≠ t →
    ∀ i ∈ l, i.ours = false
  alone : ∀ l, m.threads[t]? = some l → ∀ i ∈ l, i.walks = true → l = [i]
  quiet : ∀ p, Waiting m.shared p → m.shared.outcome (.input p) = none
  first : ∀ o', m.shared.outcome (.race 0) = some o' → o' = o
  heading : ∀ i, Has m i → Heading r m.shared k o i

section Calm
variable {r : Race} {s : State V E} {m n : Machine (State V E) (Instr V E)} {k p t : Nat}
  {o : Result V E}

theorem foreign_heading {i : Instr V E} (foreign : i.ours = false) : Heading r s k o i := by
  cases i with
  | settling i =>
    rintro c o' rfl same
    rcases same with rfl | rfl | rfl <;> simp [Instr.ours, Pid.isRace, Settling.cell] at foreign
  | callback c t =>
    cases c with
    | input p =>
      rintro rfl
      simp [Instr.ours] at foreign
    | race j => trivial
  | race p => simp [Instr.ours] at foreign
  | attach p => simp [Instr.ours] at foreign
  | _ => trivial

theorem still_heading {s' : State V E} {i : Instr V E} (still : i.walks = false)
    (heading : Heading r s k o i) : Heading r s' k o i := by
  cases i with
  | race p => simp [Instr.walks] at still
  | attach p => simp [Instr.walks] at still
  | settling i => exact heading
  | callback c t => cases c <;> exact heading
  | _ => trivial

theorem exec_waiting {i : Instr V E} {q : Nat} (waits : Waiting (exec r i s).1 q) :
    Waiting s q ∨ s.outcome (.input q) = none := by
  cases i with
  | settling i =>
    refine .inl ?_
    obtain ⟨a, there, handle⟩ := waits
    simp only [exec, put_cells, Family.put_at] at there
    split at there
    · rename_i here
      refine ⟨a, ?_, handle⟩
      rw [here]
      exact settle_sub there
    · exact ⟨a, there, handle⟩
  | callback c t => exact .inl waits
  | race p =>
    simp only [exec] at waits
    split at waits <;> exact .inl waits
  | skip p =>
    exact .inl (put_waiting (s := s) (p := p)
      (x := { s.cells (.input p) with useCount := (s.cells (.input p)).useCount + 1 })
      (fun _ there _ => there) waits)
  | attach p =>
    simp only [exec] at waits
    split at waits
    · exact .inl waits
    · rename_i pending
      by_cases same : q = p
      · subst same
        exact .inr pending
      · obtain ⟨a, there, handle⟩ := waits
        rw [put_cells, Family.put_away (by simpa using same)] at there
        exact .inl ⟨a, there, handle⟩
  | wrap p id =>
    simp only [exec] at waits
    split at waits
    · exact .inl waits
    · obtain ⟨a, there, handle⟩ := waits
      rw [put_cells, Family.put_away (by simp)] at there
      exact .inl ⟨a, there, handle⟩
  | func j p id o =>
    exact .inl (put_waiting (s := s) (p := p) (fun a there _ => unAwait_sub _ _ a there) waits)

theorem exec_outcome (i : Instr V E) (c : Pid) :
    (exec r i s).1.outcome c = s.outcome c ∨
      ∃ o, i = .settling (.store c o) ∧ (exec r i s).1.outcome c = some o := by
  cases i with
  | settling i =>
    simp only [exec, State.outcome, put_cells, Family.put_at]
    split
    · rename_i here
      rw [settle_outcome]
      cases i with
      | store d o => exact .inr ⟨o, by rw [here]; rfl, rfl⟩
      | reject d o => exact .inl (by rw [here])
      | claim d o => exact .inl (by rw [here])
      | clear d => exact .inl (by rw [here])
    · exact .inl rfl
  | callback d t => exact .inl rfl
  | race p =>
    simp only [exec]
    split <;> exact .inl rfl
  | skip p =>
    exact .inl (put_flags (s := s) (c := .input p)
      (x := { s.cells (.input p) with useCount := (s.cells (.input p)).useCount + 1 }) c
      ⟨rfl, rfl, rfl⟩).2.2
  | attach p =>
    simp only [exec]
    split
    · exact .inl rfl
    · exact .inl (put_flags (s := s) (c := .input p)
        (x := (s.cells (.input p)).register (⟨.handle, ·⟩)) c ⟨rfl, rfl, rfl⟩).2.2
  | wrap p id =>
    simp only [exec]
    split
    · exact .inl rfl
    · exact .inl (put_flags (s := s.wrapped p id) (c := .race s.stack.length)
        (x := (s.cells (.race s.stack.length)).register (⟨.finally_ p id, ·⟩)) c
        ⟨rfl, rfl, rfl⟩).2.2
  | func j p id o =>
    exact .inl (put_flags (s := s) (c := .input p) (x := unAwait (s.cells (.input p)) id) c
      ⟨rfl, rfl, rfl⟩).2.2

theorem settling_heading {c : Pid} {o' : Result V E} (same : c = .race 0 → o' = o) :
    Heading r s k o (.settling (settling c o')) := by
  rintro d o'' rfl brings
  cases o' with
  | value v =>
    simp only [settling, reduceCtorEq, Settling.claim.injEq, false_or, or_false] at brings
    rw [← brings.2]
    exact same brings.1
  | exception e =>
    simp only [settling, reduceCtorEq, Settling.reject.injEq, or_false] at brings
    rw [← brings.2]
    exact same brings.1

theorem exec_heading {i : Instr V E} (inv : Inv r s) (leads : Leads r s k p o)
    (heading : Heading r s k o i)
    (quiet : ∀ q, Waiting s q → (exec r i s).1.outcome (.input q) = none) :
    ∀ x ∈ (exec r i s).2, Heading r (exec r i s).1 k o x := by
  intro x new
  by_cases foreign : i.ours = false
  · exact foreign_heading ((exec_apart inv foreign quiet).foreign x new)
  · cases i with
    | settling i =>
      simp only [exec, List.mem_append, List.mem_map] at new
      rcases new with ⟨j, there, rfl⟩ | ⟨a, _, rfl⟩
      · rw [settle_next] at there
        rintro c o' rfl brings
        cases i with
        | reject c o'' =>
          dsimp only at there
          split at there
          · simp at there
          · rw [List.mem_singleton.mp there] at brings
            simp only [reduceCtorEq, Settling.claim.injEq, false_or, or_false] at brings
            exact heading c o' brings.1 (.inl (by rw [brings.2]))
        | claim c o'' =>
          dsimp only at there
          split at there
          · simp at there
          · rw [List.mem_singleton.mp there] at brings
            simp only [reduceCtorEq, Settling.store.injEq, false_or] at brings
            exact heading c o' brings.1 (.inr (.inl (by rw [brings.2])))
        | store c o'' => simp at there
        | clear c => simp at there
      · cases race : i.cell with
        | race j => trivial
        | input q => simp [Instr.ours, race, Pid.isRace] at foreign
    | callback c t =>
      simp only [exec, callback] at new
      split at new
      · exact absurd rfl heading
      · split at new
        · rw [List.mem_singleton.mp new]
          trivial
        · simp at new
      · simp at new
    | race q =>
      simp only [exec] at new ⊢
      split at new
      · rw [List.mem_singleton.mp new]
        trivial
      · rename_i pending
        rw [List.mem_singleton.mp new, if_neg pending]
        refine ⟨heading.1, heading.2.resolve_right fun done => pending ?_⟩
        exact Option.isSome_iff_ne_none.mpr done
    | skip q => simp [exec] at new
    | attach q =>
      obtain ⟨position, early⟩ := heading
      simp only [exec] at new ⊢
      split at new
      · rename_i o' done
        rw [List.mem_singleton.mp new]
        refine settling_heading fun _ => ?_
        have last : s.pos - 1 = k := by
          by_contra other
          have pending := leads.before (s.pos - 1) q (by omega) position
          rw [State.outcome, done] at pending
          simp at pending
        rw [last, leads.here, Option.some.injEq] at position
        subst position
        rw [handled_eq (List.mem_of_getElem? leads.here) (inv.justified _ o' done).2.1]
        exact Option.some.inj (done.symm.trans leads.done)
      · rw [List.mem_singleton.mp new]
        trivial
    | wrap q id =>
      simp only [exec] at new
      split at new
      · rw [List.mem_singleton.mp new]
        trivial
      · simp at new
    | func j q id o' =>
      simp only [exec, List.mem_singleton] at new
      rw [new]
      exact settling_heading (by simp)

theorem apart_heading {s' : State V E} {is : List (Instr V E)} (apart : Apart s s' is)
    {i : Instr V E} (heading : Heading r s k o i) : Heading r s' k o i := by
  cases i with
  | settling i => exact heading
  | callback c t => cases c <;> exact heading
  | race p =>
    simp only [Heading, apart.pos, apart.stack, apart.races]
    exact heading
  | attach p =>
    simp only [Heading, apart.pos]
    exact heading
  | _ => trivial

/-- The call stays calm when thread `t` goes on as it should and the other threads keep apart. -/
theorem put_calm {u : Nat} {old : List (Instr V E)} (s' : State V E) (is rest : List (Instr V E))
    (calm : Calm r k o t m) (here : m.threads[u]? = some old) (sub : ∀ x ∈ rest, x ∈ old)
    (caller : s'.caller = some t) (quiet : ∀ p, Waiting s' p → s'.outcome (.input p) = none)
    (first : ∀ o', s'.outcome (.race 0) = some o' → o' = o)
    (apart : u ≠ t → Apart m.shared s' is)
    (still : u = t → ∀ x ∈ rest, x.walks = false)
    (alone : u = t → ∀ x ∈ is, x.walks = true → is ++ rest = [x])
    (headings : u = t → ∀ x ∈ is, Heading r s' k o x) :
    Calm r k o t ⟨s', m.threads.set u (is ++ rest)⟩ := by
  refine ⟨caller, fun v l there away x inside => ?_, fun l there x inside walks => ?_, quiet, first,
    fun x has => ?_⟩
  · rcases set_lookup here there with ⟨rfl, rfl⟩ | ⟨_, same⟩
    · rcases List.mem_append.mp inside with new | later
      · exact (apart away).foreign x new
      · exact calm.mine v old here away x (sub x later)
    · exact calm.mine v l same away x inside
  · rcases set_lookup here there with ⟨rfl, rfl⟩ | ⟨_, same⟩
    · rcases List.mem_append.mp inside with new | later
      · exact alone rfl x new walks
      · simp [still rfl x later] at walks
    · exact calm.alone l same x inside walks
  · obtain ⟨l, member, inside⟩ := has
    obtain ⟨v, there⟩ := List.mem_iff_getElem?.mp member
    rcases set_lookup here there with ⟨rfl, rfl⟩ | ⟨elsewhere, same⟩
    · by_cases mine : v = t
      · rcases List.mem_append.mp inside with new | later
        · exact headings mine x new
        · exact still_heading (still mine x later) (calm.heading x (has_here here (sub x later)))
      · rcases List.mem_append.mp inside with new | later
        · exact foreign_heading ((apart mine).foreign x new)
        · exact foreign_heading (calm.mine v old here mine x (sub x later))
    · have heading := calm.heading x (has_here same inside)
      by_cases mine : u = t
      · have foreign := calm.mine v l same (mine ▸ elsewhere) x inside
        exact foreign_heading foreign
      · exact apart_heading (apart mine) heading

theorem spawn_outcome {u : Nat} {e : Event V E} {s' : State V E} {is : List (Instr V E)}
    (spawned : spawn r u e s = some (s', is)) (c : Pid) : s'.outcome c = s.outcome c := by
  cases e with
  | call =>
    simp only [spawn, Option.ite_none_right_eq_some, Option.some.injEq, Prod.mk.injEq] at spawned
    obtain ⟨_, rfl, _⟩ := spawned
    rfl
  | next =>
    simp only [spawn, Option.ite_none_right_eq_some, Option.map_eq_some_iff, Prod.mk.injEq]
      at spawned
    obtain ⟨_, p, _, rfl, _⟩ := spawned
    rfl
  | settle p o =>
    simp only [spawn, Option.ite_none_right_eq_some, Option.some.injEq, Prod.mk.injEq] at spawned
    obtain ⟨_, rfl, _⟩ := spawned
    rfl
  | complete p o =>
    simp only [spawn, Option.ite_none_right_eq_some, Option.some.injEq, Prod.mk.injEq] at spawned
    obtain ⟨_, rfl, _⟩ := spawned
    rfl
  | await p coroutine n =>
    simp only [spawn, Option.ite_none_right_eq_some, Option.some.injEq, Prod.mk.injEq] at spawned
    obtain ⟨_, rfl, _⟩ := spawned
    exact (put_flags (s := s) (c := .input p)
      (x := (s.cells (.input p)).register (⟨.other coroutine n, ·⟩)) c ⟨rfl, rfl, rfl⟩).2.2
  | unAwait p id =>
    simp only [spawn, Option.ite_none_right_eq_some, Option.some.injEq, Prod.mk.injEq] at spawned
    obtain ⟨_, rfl, _⟩ := spawned
    exact (put_flags (s := s) (c := .input p) (x := unAwait (s.cells (.input p)) id) c
      ⟨rfl, rfl, rfl⟩).2.2

theorem start_calm {u : Nat} {e : Event V E} {s' : State V E} {is : List (Instr V E)}
    (reached : Reached r m) (leads : Leads r m.shared k p o) (calm : Calm r k o t m)
    (idle : m.threads[u]? = some []) (spawned : spawn r u e m.shared = some (s', is)) :
    Calm r k o t ⟨s', m.threads.set u is⟩ := by
  obtain ⟨caller, mine⟩ := spawn_caller spawned calm.caller
  by_cases walks : e = .next
  · obtain rfl := mine walks
    subst walks
    have covered := reached_covered reached
    have rest : ∀ i, Has m i → i.ours = false := by
      rintro i ⟨l, member, inside⟩
      obtain ⟨v, there⟩ := List.mem_iff_getElem?.mp member
      by_cases same : v = u
      · rw [same, idle, Option.some.injEq] at there
        simp [← there] at inside
      · exact calm.mine v l there same i inside
    simp only [spawn, Option.ite_none_right_eq_some, Option.map_eq_some_iff, Prod.mk.injEq]
      at spawned
    obtain ⟨_, q, here, rfl, rfl⟩ := spawned
    have after :=
      put_calm { m.shared with pos := m.shared.pos + 1 } [.race q] [] calm idle (by simp)
      calm.caller calm.quiet calm.first (fun other => absurd rfl other) (by simp)
      (fun _ x new _ => by rw [List.mem_singleton.mp new, List.append_nil]) fun _ x new => by
        rw [List.mem_singleton.mp new]
        refine ⟨here, ?_⟩
        by_cases early : m.shared.pos ≤ k
        · exact .inl (Nat.succ_le_succ early)
        · refine .inr (heard_settled covered rest (k := k) (p := p) (by omega) leads.here
            (fun waits => ?_) (Nat.le_refl _))
          have pending := calm.quiet p waits
          rw [leads.done] at pending
          simp at pending
    rwa [List.append_nil] at after
  · have apart := spawn_apart spawned walks
    have after := put_calm s' is [] calm idle (by simp) caller
      (fun q waits => (spawn_outcome spawned _).trans (calm.quiet q (apart.waiting q waits)))
      (fun o' done => calm.first o' ((apart.races 0).symm.trans done)) (fun _ => apart) (by simp)
      (fun _ x new walks => by simp [foreign_still (apart.foreign x new)] at walks)
      (fun _ x new => foreign_heading (apart.foreign x new))
    rwa [List.append_nil] at after

theorem run_calm {u : Nat} {i : Instr V E} {rest : List (Instr V E)} (inv : Inv r m.shared)
    (leads : Leads r m.shared k p o) (calm : Calm r k o t m)
    (here : m.threads[u]? = some (i :: rest))
    (same : ∀ q, (exec r i m.shared).1.outcome (.input q) = m.shared.outcome (.input q)) :
    Calm r k o t
      ⟨(exec r i m.shared).1, m.threads.set u ((exec r i m.shared).2 ++ rest)⟩ := by
  have has := has_here here List.mem_cons_self
  have quiet : ∀ q, Waiting m.shared q → (exec r i m.shared).1.outcome (.input q) = none :=
    fun q waits => (same q).trans (calm.quiet q waits)
  have still : u = t → ∀ x ∈ rest, x.walks = false := by
    rintro rfl x later
    by_contra walks
    rw [Bool.not_eq_false] at walks
    have single := calm.alone _ here x (List.mem_cons_of_mem _ later) walks
    rw [List.cons.injEq] at single
    simp [single.2] at later
  refine put_calm _ _ rest calm here (fun x later => List.mem_cons_of_mem _ later)
    ((exec_place i).2.trans calm.caller) (fun q waits => ?_) (fun o' done => ?_)
    (fun other => exec_apart inv (calm.mine u _ here other i List.mem_cons_self) quiet) still
    (fun mine x new walks => ?_) (fun _ => exec_heading inv leads (calm.heading i has) quiet)
  · rcases exec_waiting waits with before | pending
    · exact quiet q before
    · exact (same q).trans pending
  · rcases exec_outcome i (.race 0) with before | ⟨o'', rfl, stored⟩
    · exact calm.first o' (before.symm.trans done)
    · rw [stored, Option.some.injEq] at done
      exact calm.heading _ has (.race 0) o' rfl (.inr (.inr (by rw [done])))
  · obtain ⟨before, single⟩ := exec_walks new walks
    subst mine
    have alone := calm.alone _ here i List.mem_cons_self before
    rw [List.cons.injEq] at alone
    rw [single, alone.2, List.append_nil]

theorem step_calm {l : Label (Event V E)} (reached : Reached r m)
    (leads : Leads r m.shared k p o) (calm : Calm r k o t m)
    (taken : step (program r) m l = some n)
    (same : ∀ q, n.shared.outcome (.input q) = m.shared.outcome (.input q)) :
    Calm r k o t n := by
  cases step_change taken with
  | fork =>
    refine ⟨calm.caller, fun u l there away => ?_, fun l there i inside => ?_, calm.quiet,
      calm.first, fun i has => calm.heading i (has_fork.mp has)⟩
    · rcases append_lookup there with ⟨_, rfl⟩ | old
      · simp
      · exact calm.mine u l old away
    · rcases append_lookup there with ⟨_, rfl⟩ | old
      · simp at inside
      · exact calm.alone l old i inside
  | start u e s is idle spawned => exact start_calm reached leads calm idle spawned
  | run u i rest here => exact run_calm (reached_sound reached).inv leads calm here same

theorem step_outcome {l : Label (Event V E)} {c : Pid} {o' : Result V E} (reached : Reached r m)
    (taken : step (program r) m l = some n) (done : m.shared.outcome c = some o') :
    n.shared.outcome c = some o' := by
  cases step_change taken with
  | fork => exact done
  | start u e s is idle spawned => exact (spawn_outcome spawned c).trans done
  | run u i rest here =>
    rcases exec_outcome (r := r) (s := m.shared) i c with same | ⟨o'', rfl, _⟩
    · exact same.trans done
    · have fresh := reached_fresh reached (has_here here List.mem_cons_self)
      have pending : m.shared.outcome c = none := fresh
      simp [pending] at done

theorem run_outcome {ls : List (Label (Event V E))} {c : Pid} {o' : Result V E}
    (reached : Reached r m) (ran : run (step (program r)) m ls = some n)
    (done : m.shared.outcome c = some o') : n.shared.outcome c = some o' := by
  induction ls generalizing m with
  | nil =>
    simp only [run, Option.some.injEq] at ran
    exact ran ▸ done
  | cons l ls ih =>
    obtain ⟨u, taken, rest⟩ := Option.bind_eq_some_iff.mp ran
    exact ih (.next reached taken) rest (step_outcome reached taken done)

/-- Between two states with the same settled inputs no input settles. -/
theorem between {l : Label (Event V E)} {ls : List (Label (Event V E))}
    {u : Machine (State V E) (Instr V E)} (reached : Reached r m)
    (taken : step (program r) m l = some u) (ran : run (step (program r)) u ls = some n)
    (same : ∀ q, n.shared.outcome (.input q) = m.shared.outcome (.input q)) (q : Nat) :
    u.shared.outcome (.input q) = m.shared.outcome (.input q) := by
  cases done : u.shared.outcome (.input q) with
  | some o' =>
    have still := run_outcome (.next reached taken) ran done
    exact still.symm.trans (same q)
  | none =>
    cases before : m.shared.outcome (.input q) with
    | none => rfl
    | some o' =>
      have still := step_outcome reached taken before
      exact done.symm.trans still

theorem calm_run {ls : List (Label (Event V E))} (reached : Reached r m)
    (leads : Leads r m.shared k p o) (calm : Calm r k o t m)
    (ran : run (step (program r)) m ls = some n)
    (same : ∀ q, n.shared.outcome (.input q) = m.shared.outcome (.input q)) :
    Calm r k o t n ∧ Leads r n.shared k p o := by
  induction ls generalizing m with
  | nil =>
    simp only [run, Option.some.injEq] at ran
    exact ran ▸ ⟨calm, leads⟩
  | cons l ls ih =>
    obtain ⟨u, taken, rest⟩ := Option.bind_eq_some_iff.mp ran
    have first := between reached taken rest same
    refine ih (.next reached taken)
      ⟨leads.here, (first p).trans leads.done, fun j q early here => ?_⟩
      (step_calm reached leads calm taken first) rest fun q => (same q).trans (first q).symm
    exact (first q).trans (leads.before j q early here)

theorem call_first {ls : List (Label (Event V E))} {u : Machine (State V E) (Instr V E)}
    (reached : Reached r m) (called : step (program r) m (.start t .call) = some u)
    (ran : run (step (program r)) u ls = some n) (past : r.inputs.length ≤ n.shared.pos)
    (free : n.threads[t]? = some [])
    (same : ∀ q, n.shared.outcome (.input q) = m.shared.outcome (.input q))
    (leads : Leads r m.shared k p o) :
    n.shared.outcome (.race n.shared.stack.length) = some o := by
  have calm : Calm r k o t u := by
    cases step_change called with
    | start _ _ s is idle spawned =>
      simp only [program, spawn, Option.ite_none_right_eq_some, Option.some.injEq, Prod.mk.injEq]
        at spawned
      obtain ⟨uncalled, rfl, rfl⟩ := spawned
      have unstarted := reached_unstarted reached uncalled
      have foreign : ∀ i, Has ⟨{ m.shared with caller := some t }, m.threads.set t []⟩ i →
          i.ours = false := by
        intro i has
        rcases has_of_set has with old | new
        · exact unstarted.foreign i old
        · simp at new
      refine ⟨rfl, fun v l there _ i inside => foreign i ⟨l, List.mem_of_getElem? there, inside⟩,
        fun l there i inside walks => ?_, fun q waits => absurd waits (unstarted.nobody q),
        fun o' done => ?_, fun i has => foreign_heading (foreign i has)⟩
      · have other := foreign_still (foreign i ⟨l, List.mem_of_getElem? there, inside⟩)
        exact absurd (walks.symm.trans other) (by simp)
      · have pending := unstarted.pending
        exact absurd (pending.symm.trans done) (by simp)
  have first := between reached called ran same
  have reached' : Reached r u := .next reached called
  have leads' : Leads r u.shared k p o := ⟨leads.here, (first p).trans leads.done,
    fun j q early here => (first q).trans (leads.before j q early here)⟩
  obtain ⟨calm, leads⟩ := calm_run reached' leads' calm ran fun q => (same q).trans (first q).symm
  have last := run_reachable reached' ran
  have rest : ∀ i, Has n i → i.ours = false := by
    rintro i ⟨l, member, inside⟩
    obtain ⟨v, there⟩ := List.mem_iff_getElem?.mp member
    by_cases mine : v = t
    · rw [mine, free, Option.some.injEq] at there
      simp [← there] at inside
    · exact calm.mine v l there mine i inside
  have quiet : ¬Waiting n.shared p := by
    intro waits
    have pending := calm.quiet p waits
    rw [leads.done] at pending
    simp at pending
  have settled := heard_settled (reached_covered last) rest
    (Nat.lt_of_lt_of_le (lookup_inside leads.here) past) leads.here quiet
    (Nat.le_refl n.shared.stack.length)
  obtain ⟨o', done⟩ := Option.ne_none_iff_exists'.mp settled
  rw [done, calm.first o' (first_done (reached_sound last).inv done)]

end Calm

end RaceSettlement
