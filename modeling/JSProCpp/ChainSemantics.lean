import JSProCpp.ChainProgress

/- The outcomes of a chain do not depend on the order in which its links are attached and its
   promises are settled, and no order keeps a link from settling. -/
namespace ChainLinks
open Transitions Interleaving PromiseCells
variable {K V E : Type}

section Runs
variable {c : Chain K V E} {m n : Machine (State V E) (Instr V E)} {s t : State V E}
  {is : List (Instr V E)} {p : Pid}

theorem step_ahead {l : Label (Event V E)} (reached : c.Reached m)
    (taken : step c.program m l = some n) : Ahead c m.shared n.shared := by
  have sound := reached_sound reached
  cases step_change taken with
  | fork => exact ahead_refl c _
  | start t e s is idle spawned => exact (spawn_steps sound.inv spawned).moved.ahead
  | run t x rest here =>
    have has := has_here here List.mem_cons_self
    exact (did_steps sound.inv (sound.fit x has) (reached_known reached has)
      (exec_did x)).moved.ahead

def Chain.Leads (c : Chain K V E) (m n : Machine (State V E) (Instr V E)) : Prop :=
  ∃ ls, run (step c.program) m ls = some n

theorem leads_refl (c : Chain K V E) (m : Machine (State V E) (Instr V E)) : c.Leads m m :=
  ⟨[], rfl⟩

theorem leads_trans {u : Machine (State V E) (Instr V E)} (first : c.Leads m n)
    (second : c.Leads n u) : c.Leads m u := by
  obtain ⟨ls, ran⟩ := first
  obtain ⟨ks, later⟩ := second
  refine ⟨ls ++ ks, ?_⟩
  rw [run_append, ran]
  exact later

theorem leads_reached (reached : c.Reached m) (leads : c.Leads m n) : c.Reached n := by
  obtain ⟨ls, ran⟩ := leads
  exact run_reachable reached ran

theorem leads_keeps (Kept : State V E → Prop)
    (steps : ∀ m n l, c.Reached m → step c.program m l = some n → Kept m.shared → Kept n.shared)
    (reached : c.Reached m) (leads : c.Leads m n) (before : Kept m.shared) : Kept n.shared := by
  obtain ⟨ls, ran⟩ := leads
  induction ls generalizing m with
  | nil =>
    simp only [run, Option.some.injEq] at ran
    exact ran ▸ before
  | cons l ls ih =>
    obtain ⟨u, taken, rest⟩ := Option.bind_eq_some_iff.mp ran
    exact ih (.next reached taken) (steps m u l reached taken before) rest

theorem leads_outcome (reached : c.Reached m) (leads : c.Leads m n) {r : Result V E}
    (done : m.shared.outcome p = some r) : n.shared.outcome p = some r :=
  leads_keeps (fun s => s.outcome p = some r)
    (fun _ _ _ reached taken done => ahead_outcome (step_ahead reached taken) done)
    reached leads done

theorem leads_asked (reached : c.Reached m) (leads : c.Leads m n) {i : Nat} {x : Pid × Result V E}
    (asked : m.shared.asked i = some x) : n.shared.asked i = some x :=
  leads_keeps (fun s => s.asked i = some x)
    (fun _ _ _ reached taken asked => (step_ahead reached taken).asked i x asked)
    reached leads asked

def Held (s : State V E) (p : Pid) : Prop := p = .promise 0 ∨ ∃ i r, s.asked i = some (p, r)

theorem ask_ended {i : Nat} {q : Pid} {r : Result V E} (free : s.asked i = none)
    (place : q = .promise (i + 1) ∨ q = .reply i) (inv : Inv c s) (held : Held s p)
    (ended : s.running p = false) : (s.ask i q r).running p = false := by
  have other : p ≠ q := by
    rintro rfl
    rcases held with rfl | ⟨j, r', asked⟩
    · simp at place
    · have same : j = i := by
        rcases (inv.asked j p r' asked).place with rfl | ⟨rfl, _⟩
        · simpa using place
        · simpa using place
      subst same
      simp [free] at asked
  rw [show (s.ask i q r).running p = s.running p from Function.update_of_ne other _ _]
  exact ended

theorem called_same (i : Nat) (l : Link K V E) (o : Result V E) :
    (s.called i l c.exceptions o).running = s.running ∧
      (s.called i l c.exceptions o).asked = s.asked ∧
      (s.called i l c.exceptions o).begun = s.begun ∧
      (s.called i l c.exceptions o).attached = s.attached := by
  unfold State.called
  split <;> exact ⟨rfl, rfl, rfl, rfl⟩

theorem did_ended {x : Instr V E} (inv : Inv c s) (known : Known s x) (did : c.Did s x t is)
    (held : Held s p) (ended : s.running p = false) : t.running p = false := by
  have plain : ∀ i, p ≠ .wrapper i := by
    rintro i rfl
    rcases held with source | ⟨j, r, asked⟩
    · simp at source
    · exact asked_plain inv asked i rfl
  have asks : ∀ (i : Nat) (l : Link K V E) (o r : Result V E) (q : Pid), c.links[i]? = some l →
      s.outcome (.promise i) = some o → s.calls i = 0 → l.calls c.exceptions o = true →
      (q = .promise (i + 1) ∨ q = .reply i) →
      ((s.called i l c.exceptions o).ask i q r).running p = false := by
    intro i l o r q here before uncalled calls place
    obtain ⟨running, asked, _⟩ := called_same (c := c) (s := s) i l o
    have held' : Held (s.called i l c.exceptions o) p := by
      rw [Held, asked]
      exact held
    exact ask_ended (asks inv here before uncalled calls).1 place
      (called_moved inv here before uncalled).1.inv held' (running ▸ ended)
  cases did with
  | settle i done l o r here before body => exact (congrFun (called_same i l o).1 p).trans ended
  | become i done l o r here before body =>
    have right := l.body_right (x := c.exceptions) (t := c.typeAt i) (o := o) done
    rw [body] at right
    exact asks i l o r _ here before known right.2.1 (.inl rfl)
  | follow i done l o r here before body plain =>
    have right := l.body_right (x := c.exceptions) (t := c.typeAt i) (o := o) done
    rw [body] at right
    exact asks i l o r _ here before known right.2.2.1 (.inr rfl)
  | wrap i done l o r here before body wraps =>
    have right := l.body_right (x := c.exceptions) (t := c.typeAt i) (o := o) done
    rw [body] at right
    have still := asks i l o r _ here before known right.2.2.1 (.inr rfl)
    exact (Function.update_of_ne (plain i) _ _).trans still
  | refuse i done l o e here before body => exact (congrFun (called_same i l o).1 p).trans ended
  | resume i done r answer => exact (Function.update_of_ne (plain i) _ _).trans ended
  | _ => exact ended

theorem ended_still (q : Pid) (ended : s.running p = false) : (s.ended q).running p = false := by
  by_cases same : p = q
  · subst same
    exact Function.update_self _ _ _
  · exact (Function.update_of_ne same _ _).trans ended

theorem step_ended {l : Label (Event V E)} (reached : c.Reached m)
    (taken : step c.program m l = some n) (held : Held m.shared p)
    (ended : m.shared.running p = false) : n.shared.running p = false := by
  have sound := reached_sound reached
  cases step_change taken with
  | fork => exact ended
  | start t e s is idle spawned =>
    cases spawn_spawned spawned with
    | complete o running ends => exact ended_still _ ended
    | finish i threw q r o l asked here running ends => exact ended_still _ ended
    | _ => exact ended
  | run t x rest here =>
    have has := has_here here List.mem_cons_self
    exact did_ended sound.inv (reached_known reached has) (exec_did x) held ended

theorem leads_ended (reached : c.Reached m) (leads : c.Leads m n) (held : Held m.shared p)
    (ended : m.shared.running p = false) : n.shared.running p = false := by
  refine (leads_keeps (fun s => Held s p ∧ s.running p = false)
    (fun m n l reached taken before =>
      ⟨before.1.imp id ?_, step_ended reached taken before.1 before.2⟩)
    reached leads ⟨held, ended⟩).2
  rintro ⟨i, r, asked⟩
  exact ⟨i, r, (step_ahead reached taken).asked i _ asked⟩

theorem leads_given (reached : c.Reached m) (leads : c.Leads m n) (held : Held m.shared p)
    (given : Given m.shared p) : Given n.shared p := by
  obtain ⟨r, done⟩ := Option.ne_none_iff_exists'.mp given.1
  refine ⟨?_, leads_ended reached leads held given.2⟩
  simp [leads_outcome reached leads done]

end Runs

section Quiet
variable {c : Chain K V E} {m n : Machine (State V E) (Instr V E)} {s t : State V E}
  {is : List (Instr V E)} {p : Pid}

theorem did_begun {x : Instr V E} (did : c.Did s x t is) : t.begun = s.begun := by
  cases did with
  | settle i done l o r here before body => exact (called_same i l o).2.2.1
  | become i done l o r here before body => exact (called_same i l o).2.2.1
  | follow i done l o r here before body plain => exact (called_same i l o).2.2.1
  | wrap i done l o r here before body wraps => exact (called_same i l o).2.2.1
  | refuse i done l o e here before body => exact (called_same i l o).2.2.1
  | _ => rfl

def returning : Instr V E → Nat
  | .returned => 1
  | _ => 0

theorem ending_returning (q : Pid) (o : Option (Result V E)) :
    ((ending q o).map returning).sum = 0 := by
  cases o <;> rfl

theorem did_attached {x : Instr V E} (did : c.Did s x t is) :
    t.attached + (is.map returning).sum = s.attached + returning x := by
  cases did with
  | settling k => simp [returning, Function.comp_def]
  | settle i done l o r here before body => exact (called_same i l o).2.2.2
  | become i done l o r here before body => exact (called_same i l o).2.2.2
  | follow i done l o r here before body plain => exact (called_same i l o).2.2.2
  | wrap i done l o r here before body wraps => exact (called_same i l o).2.2.2
  | refuse i done l o e here before body => exact (called_same i l o).2.2.2
  | _ => rfl

theorem spawn_attached {e : Event V E} (spawned : c.spawn e s = some (t, is)) :
    t.attached + (is.map returning).sum + s.begun = s.attached + t.begun := by
  cases spawn_spawned spawned with
  | settle o handle => rfl
  | complete o running ends => rw [ending_returning]; rfl
  | attach turn inside => simp [returning]; omega
  | answer i q r l asked here handle => rfl
  | finish i threw q r o l asked here running ends => rw [ending_returning]; rfl

theorem reached_attached (reached : c.Reached m) :
    load returning State.attached m = m.shared.begun := by
  induction reached with
  | start first =>
    subst first
    rfl
  | @next m n l reached taken ih =>
    cases step_change taken with
    | fork => exact (load_fork returning State.attached).trans ih
    | start t e s is idle spawned =>
      have change := load_start returning State.attached s is idle
      have attached := spawn_attached spawned
      dsimp only
      omega
    | run t x rest here =>
      have did := exec_did (c := c) (s := m.shared) x
      have change := load_run returning State.attached (c.exec x m.shared).1
        (c.exec x m.shared).2 here
      have attached := did_attached did
      have begun := did_begun did
      dsimp only [Chain.program]
      omega

structure Quiet (c : Chain K V E) (m : Machine (State V E) (Instr V E)) : Prop where
  reached : c.Reached m
  idle : Idle m
  threads : 0 < m.threads.length

theorem quiet_paid (quiet : Quiet c m) (d : Debt) : ¬Owed c m.shared d :=
  nothing_owed (reached_covered quiet.reached) quiet.idle d

theorem quiet_turn (quiet : Quiet c m) : m.shared.begun = m.shared.attached := by
  have all := reached_attached quiet.reached
  by_contra other
  have more : m.shared.attached < load returning State.attached m := by
    unfold load at all ⊢
    omega
  obtain ⟨x, has, _⟩ := load_has returning State.attached more
  exact has_idle quiet.idle x has

theorem rests_quiet (reached : c.Reached m) (threads : 0 < m.threads.length) :
    ∃ n, c.Leads m n ∧ Quiet c n ∧ n.shared.begun = m.shared.begun := by
  obtain ⟨ts, n, ran, idle⟩ := rests reached
  have leads : c.Leads m n := ⟨_, ran⟩
  refine ⟨n, leads, ⟨leads_reached reached leads, idle, ?_⟩, ?_⟩
  · exact Nat.lt_of_lt_of_le threads (run_threads ran)
  · clear leads idle
    induction ts generalizing m with
    | nil =>
      simp only [List.map_nil, run, Option.some.injEq] at ran
      rw [ran]
    | cons t ts ih =>
      obtain ⟨u, taken, rest⟩ := Option.bind_eq_some_iff.mp ran
      rw [ih (.next reached taken) (Nat.lt_of_lt_of_le threads (step_threads taken)) rest]
      cases step_change taken with
      | run t x rest here => exact did_begun (exec_did x)

theorem leads_settled (reached : c.Reached m) (leads : c.Leads m n) (idle : Idle n)
    {x : Instr V E} (has : Has m x) (enters : Enters Instr.settling p x) :
    n.shared.outcome p ≠ none := by
  have covered :
      Covered (fun s (_ : Unit) => Untouched s p) (fun _ => Enters Instr.settling p) n := by
    obtain ⟨ls, ran⟩ := leads
    have first : Covered (fun s (_ : Unit) => Untouched s p) (fun _ => Enters Instr.settling p) m :=
      fun _ _ => ⟨x, has, enters⟩
    clear has enters
    induction ls generalizing m with
    | nil =>
      simp only [run, Option.some.injEq] at ran
      exact ran ▸ first
    | cons l ls ih =>
      obtain ⟨u, taken, rest⟩ := Option.bind_eq_some_iff.mp ran
      have known : ∀ y, Has m y → Known m.shared y := fun y has => reached_known reached has
      refine ih (.next reached taken) rest (covered_step
        (fun s y _ _ _ known after => .inr ⟨?_, ?_⟩) (fun _ e s t is _ _ spawned after => .inr ?_)
        known (reached_sound reached) first taken)
      · exact did_untouched known (exec_did y) p after
      · intro enters
        exact did_enters (exec_did y) enters after
      · cases spawn_spawned spawned <;> exact after
  have later := leads_reached reached leads
  refine paid_settled (fun d => nothing_owed (reached_covered later) idle d) fun untouched => ?_
  exact nothing_owed covered idle () untouched

/-- A call is made, and runs until the threads are at rest again. -/
theorem quiet_start {e : Event V E} (quiet : Quiet c m)
    (spawned : c.spawn e m.shared = some (s, is)) :
    ∃ n, c.Leads m n ∧ Quiet c n ∧ n.shared.begun = s.begun ∧
      (∀ q, (∃ x ∈ is, Enters Instr.settling q x) → n.shared.outcome q ≠ none) ∧
      ∀ q, Held s q → s.running q = false → n.shared.running q = false := by
  have here := idle_thread quiet.idle quiet.threads
  have taken : step c.program m (.start 0 e) = some ⟨s, m.threads.set 0 is⟩ := by
    simp [step, here, Chain.program, spawned]
  have reached : c.Reached ⟨s, m.threads.set 0 is⟩ := .next quiet.reached taken
  obtain ⟨n, leads, rested, begun⟩ := rests_quiet reached (by simpa using quiet.threads)
  have first : c.Leads m ⟨s, m.threads.set 0 is⟩ := ⟨[.start 0 e], by simp [run, taken]⟩
  refine ⟨n, leads_trans first leads, rested, begun, fun q enters => ?_, fun q held ended => ?_⟩
  · obtain ⟨x, inside, enters⟩ := enters
    exact leads_settled reached leads rested.idle (has_new here inside) enters
  · exact leads_ended reached leads held ended

end Quiet

section Complete
variable {c : Chain K V E} {m n : Machine (State V E) (Instr V E)} {s t : State V E}
  {is : List (Instr V E)} {p : Pid} {o : Result V E}

theorem supply (quiet : Quiet c m) {i : Nat} {r : Result V E}
    (asked : m.shared.asked i = some (p, r)) :
    ∃ n, c.Leads m n ∧ Quiet c n ∧ n.shared.begun = m.shared.begun ∧ Given n.shared p := by
  obtain ⟨l, here, async⟩ := ((reached_sound quiet.reached).inv.asked i p r asked).link
  cases mode : l.mode with
  | sync => exact absurd mode async
  | coroutine =>
    by_cases running : m.shared.running p = true
    · have spawned : c.spawn (.finish i false) m.shared =
          some (m.shared.ended p, ending p (some r)) := by
        simp [Chain.spawn, asked, here, running, mode, Mode.ends]
      obtain ⟨n, leads, rested, begun, settled, ended⟩ := quiet_start quiet spawned
      refine ⟨n, leads, rested, begun, settled p ?_, ended p (.inr ⟨i, r, asked⟩) ?_⟩
      · exact ⟨.settling (.claim p r), by simp [ending], r, .inr rfl⟩
      · exact Function.update_self _ _ _
    · have past : m.shared.running p = false := Bool.eq_false_iff.mpr running
      refine ⟨m, leads_refl c m, quiet, rfl,
        paid_settled (quiet_paid quiet) fun untouched => ?_, past⟩
      exact quiet_paid quiet (.answered p) ⟨.inr ⟨i, r, l, asked, here, mode⟩, past, untouched⟩
  | resolver =>
    have answers : c.spawn (.answer i) m.shared =
        some (m.shared, [.settling (settling p r)]) := by
      simp [Chain.spawn, asked, here, mode]
    obtain ⟨u, first, rested, begun, settled, _⟩ := quiet_start quiet answers
    have done := settled p ⟨_, List.mem_singleton.mpr rfl, enters_settling _ p r⟩
    have still := leads_asked quiet.reached first asked
    by_cases running : u.shared.running p = true
    · have spawned : c.spawn (.finish i false) u.shared =
          some (u.shared.ended p, ending p none) := by
        simp [Chain.spawn, still, here, running, mode, Mode.ends]
      obtain ⟨n, leads, later, begun', _, ended⟩ := quiet_start rested spawned
      obtain ⟨r', done⟩ := Option.ne_none_iff_exists'.mp done
      refine ⟨n, leads_trans first leads, later, begun'.trans begun, ?_, ?_⟩
      · simp [leads_outcome rested.reached leads done]
      · exact ended p (.inr ⟨i, r, still⟩) (Function.update_self _ _ _)
    · exact ⟨u, first, rested, begun, done, Bool.eq_false_iff.mpr running⟩

def unsupplied (c : Chain K V E) (s : State V E) : Finset Nat :=
  (Finset.range c.links.length).filter fun i =>
    (s.asked i).all fun x => (s.outcome x.1).isNone || s.running x.1

theorem mem_unsupplied {i : Nat} : i ∈ unsupplied c s ↔
    i < c.links.length ∧ ∀ p r, s.asked i = some (p, r) → ¬Given s p := by
  simp only [unsupplied, Finset.mem_filter, Finset.mem_range, Option.all_eq_true, Prod.forall,
    Bool.or_eq_true, Option.isNone_iff_eq_none]
  refine and_congr Iff.rfl (forall_congr' fun p => forall_congr' fun r => imp_congr Iff.rfl ?_)
  rw [Given, not_and_or, not_not, Bool.not_eq_false]

theorem supply_all (quiet : Quiet c m) (source : Given m.shared (.promise 0)) :
    ∃ n, c.Leads m n ∧ Quiet c n ∧ n.shared.begun = m.shared.begun ∧ Supplied n.shared := by
  induction bound : (unsupplied c m.shared).card using Nat.strong_induction_on generalizing m with
  | _ b ih =>
    by_cases supplied : Supplied m.shared
    · exact ⟨m, leads_refl c m, quiet, rfl, supplied⟩
    · obtain ⟨i, p, r, asked, missing⟩ :
          ∃ i p r, m.shared.asked i = some (p, r) ∧ ¬Given m.shared p := by
        by_contra all
        push Not at all
        exact supplied ⟨source, all⟩
      obtain ⟨u, first, rested, begun, given⟩ := supply quiet asked
      have fewer : (unsupplied c u.shared).card < b := by
        rw [← bound]
        apply Finset.card_lt_card
        obtain ⟨l, here, _⟩ := ((reached_sound quiet.reached).inv.asked i p r asked).link
        have still := leads_asked quiet.reached first asked
        refine (Finset.ssubset_iff_of_subset fun j inside => ?_).mpr ⟨i, ?_, fun inside => ?_⟩
        · obtain ⟨below, missing'⟩ := mem_unsupplied.mp inside
          refine mem_unsupplied.mpr ⟨below, fun q r' asked' given' => ?_⟩
          have given'' := leads_given quiet.reached first (.inr ⟨j, r', asked'⟩) given'
          exact missing' q r' (leads_asked quiet.reached first asked') given''
        · refine mem_unsupplied.mpr ⟨lookup_inside here, fun q r' asked' given' => ?_⟩
          rw [asked, Option.some.injEq, Prod.mk.injEq] at asked'
          exact missing (asked'.1 ▸ given')
        · exact (mem_unsupplied.mp inside).2 p r still given
      obtain ⟨n, later, quiet', begun', supplied⟩ :=
        ih _ fewer rested (leads_given quiet.reached first (.inl rfl) source) rfl
      exact ⟨n, leads_trans first later, quiet', begun'.trans begun, supplied⟩

theorem attach_all (quiet : Quiet c m) :
    ∃ n, c.Leads m n ∧ Quiet c n ∧ c.links.length ≤ n.shared.begun := by
  induction left : c.links.length - m.shared.begun generalizing m with
  | zero => exact ⟨m, leads_refl c m, quiet, by omega⟩
  | succ k ih =>
    have spawned : c.spawn .attach m.shared = some ({ m.shared with begun := m.shared.begun + 1 },
        [.attach (.link m.shared.begun), .returned]) := by
      have turn := quiet_turn quiet
      have inside : m.shared.begun < c.links.length := by omega
      simp only [Chain.spawn]
      rw [if_pos ⟨turn, inside⟩]
    obtain ⟨u, first, rested, begun, _⟩ := quiet_start quiet spawned
    have fewer : c.links.length - u.shared.begun = k := by
      rw [begun]
      dsimp only
      omega
    obtain ⟨n, later, quiet', all⟩ := ih rested fewer
    exact ⟨n, leads_trans first later, quiet', all⟩

theorem settles_next {k j : Settling Pid (Val V) E} {rest : List (Instr V E)}
    (here : m.threads[0]? = some (.settling k :: rest))
    (next : (settle (m.shared.cells k.cell) k).next = [j]) :
    ∃ n, step c.program m (.run 0) = some n ∧ n.shared.cells = m.shared.cells.settle k ∧
      ∃ later, n.threads[0]? = some (.settling j :: later) := by
  have produced : (c.exec (.settling k) m.shared).2 =
      .settling j :: (settle (m.shared.cells k.cell) k).flushed.map fun a => .run a false := by
    simp only [Chain.exec, next]
    rfl
  refine ⟨⟨(c.exec (.settling k) m.shared).1,
    m.threads.set 0 ((c.exec (.settling k) m.shared).2 ++ rest)⟩, ?_, rfl, ?_⟩
  · simp only [step, here, Chain.program]
  · rw [produced, List.cons_append]
    exact ⟨_, lookup_set here⟩

/-- Two steps settle a promise that nobody has begun to settle. -/
theorem claim_stores {r : Result V E} {rest : List (Instr V E)}
    (here : m.threads[0]? = some (.settling (.claim p r) :: rest))
    (fresh : (m.shared.cells p).resolved = false) :
    ∃ n, c.Leads m n ∧ n.shared.outcome p = some r := by
  obtain ⟨u, claimed, _, later, there⟩ := settles_next (c := c) (j := .store p r) here (by
    rw [settle_next]
    simp [Settling.cell, fresh])
  obtain ⟨n, stored, done⟩ : ∃ n, step c.program u (.run 0) = some n ∧
      n.shared.outcome p = some r := by
    simp only [step, there]
    exact ⟨_, rfl, Family.settle_stored u.shared.cells p r⟩
  exact ⟨n, ⟨[.run 0, .run 0], by simp [run, claimed, stored]⟩, done⟩

theorem settling_stores {r : Result V E} {rest : List (Instr V E)}
    (here : m.threads[0]? = some (.settling (settling p r) :: rest))
    (fresh : Untouched m.shared p) : ∃ n, c.Leads m n ∧ n.shared.outcome p = some r := by
  cases r with
  | value v => exact claim_stores here fresh.1
  | exception e =>
    obtain ⟨u, entered, cells, later, there⟩ := settles_next (c := c)
      (j := .claim p (.exception e)) here (by
        rw [settle_next]
        simp [settling, Settling.cell, fresh.2])
    have still : (u.shared.cells p).resolved = false := by
      rw [cells, Family.settle_at]
      split
      · rw [settle_resolved]
        exact fresh.1
      · exact fresh.1
    obtain ⟨n, leads, done⟩ := claim_stores (c := c) there still
    exact ⟨n, leads_trans ⟨[.run 0], by simp [run, entered]⟩ leads, done⟩

theorem quiet_untouched (quiet : Quiet c m) (pending : m.shared.outcome p = none) :
    Untouched m.shared p := by
  by_contra touched
  exact paid_settled (quiet_paid quiet) touched pending

theorem start_stores {e : Event V E} {r : Result V E} {x : Instr V E} (quiet : Quiet c m)
    (spawned : c.spawn e m.shared = some (s, x :: is)) (cells : s.cells = m.shared.cells)
    (pending : m.shared.outcome p = none)
    (stores : ∀ u : Machine (State V E) (Instr V E), u.threads[0]? = some (x :: is) →
      Untouched u.shared p → ∃ n, c.Leads u n ∧ n.shared.outcome p = some r) :
    ∃ n, c.Leads m n ∧ Quiet c n ∧ n.shared.outcome p = some r := by
  have idle := idle_thread quiet.idle quiet.threads
  have taken : step c.program m (.start 0 e) = some ⟨s, m.threads.set 0 (x :: is)⟩ := by
    simp [step, idle, Chain.program, spawned]
  have fresh : Untouched s p := by
    rw [Untouched, cells]
    exact quiet_untouched quiet pending
  obtain ⟨u, first, done⟩ := stores ⟨s, m.threads.set 0 (x :: is)⟩ (lookup_set idle) fresh
  have leads : c.Leads m u := leads_trans ⟨[.start 0 e], by simp [run, taken]⟩ first
  have reached := leads_reached quiet.reached leads
  have threads : 0 < u.threads.length := by
    obtain ⟨ls, ran⟩ := leads
    exact Nat.lt_of_lt_of_le quiet.threads (run_threads ran)
  obtain ⟨n, later, rested, _⟩ := rests_quiet reached threads
  exact ⟨n, leads_trans leads later, rested, leads_outcome reached later done⟩

theorem created_ended (reached : c.Reached m) (kind : c.kind = .created) :
    m.shared.running (.promise 0) = false := by
  induction reached with
  | start first =>
    subst first
    simp [Chain.initial, Chain.live, kind]
  | next reached taken ih => exact step_ended reached taken (.inl rfl) ih

theorem end_source (quiet : Quiet c m) {r : Result V E}
    (done : m.shared.outcome (.promise 0) = some r) :
    ∃ n, c.Leads m n ∧ Quiet c n ∧ Given n.shared (.promise 0) := by
  by_cases running : m.shared.running (.promise 0) = true
  · obtain ⟨o, ends⟩ : ∃ o : Option (Result V E), c.kind.ends o = true := by
      cases kind : c.kind with
      | created => simp [created_ended quiet.reached kind] at running
      | coroutine => exact ⟨some r, rfl⟩
      | resolver => exact ⟨none, rfl⟩
    have spawned : c.spawn (.complete o) m.shared =
        some (m.shared.ended (.promise 0), ending (.promise 0) o) := by
      simp [Chain.spawn, running, ends]
    obtain ⟨n, leads, rested, _, _, ended⟩ := quiet_start quiet spawned
    refine ⟨n, leads, rested, ?_, ended _ (.inl rfl) (by simp [State.ended])⟩
    simp [leads_outcome quiet.reached leads done]
  · exact ⟨m, leads_refl c m, quiet, by simp [done], Bool.eq_false_iff.mpr running⟩

theorem settle_source (quiet : Quiet c m) (o : Result V E)
    (pending : m.shared.outcome (.promise 0) = none) :
    ∃ n, c.Leads m n ∧ Quiet c n ∧ n.shared.outcome (.promise 0) = some o := by
  by_cases kind : c.kind = .coroutine
  · have running : m.shared.running (.promise 0) = true := by
      by_contra past
      exact quiet_paid quiet (.answered (.promise 0))
        ⟨.inl ⟨rfl, kind⟩, Bool.eq_false_iff.mpr past, quiet_untouched quiet pending⟩
    have spawned : c.spawn (.complete (some o)) m.shared =
        some (m.shared.ended (.promise 0), ending (.promise 0) (some o)) := by
      simp [Chain.spawn, running, kind, Kind.ends]
    exact start_stores quiet spawned rfl pending fun u here fresh => claim_stores here fresh.1
  · have spawned : c.spawn (.settle o) m.shared =
        some (m.shared, [.settling (settling (.promise 0) o)]) := by
      simp [Chain.spawn, kind]
    exact start_stores quiet spawned rfl pending fun u here fresh => settling_stores here fresh

theorem give_source (quiet : Quiet c m) (o : Result V E) :
    ∃ n, c.Leads m n ∧ Quiet c n ∧ Given n.shared (.promise 0) ∧
      (m.shared.outcome (.promise 0) = none → n.shared.outcome (.promise 0) = some o) := by
  cases done : m.shared.outcome (.promise 0) with
  | some r =>
    obtain ⟨n, leads, rested, given⟩ := end_source quiet done
    exact ⟨n, leads, rested, given, by simp⟩
  | none =>
    obtain ⟨u, first, rested, settled⟩ := settle_source quiet o done
    obtain ⟨n, later, quiet', given⟩ := end_source rested settled
    exact ⟨n, leads_trans first later, quiet', given,
      fun _ => leads_outcome rested.reached later settled⟩

/-- The environment can have every link settle. -/
theorem completes (quiet : Quiet c m) (o : Result V E) :
    ∃ n, c.Leads m n ∧ Quiet c n ∧
      (∀ i ≤ c.links.length, n.shared.outcome (.promise i) ≠ none) ∧
      (m.shared.outcome (.promise 0) = none → n.shared.outcome (.promise 0) = some o) := by
  obtain ⟨u, first, quiet₁, given, settled⟩ := give_source quiet o
  obtain ⟨v, second, quiet₂, all⟩ := attach_all quiet₁
  have given' := leads_given quiet₁.reached second (.inl rfl) given
  obtain ⟨n, third, quiet₃, begun, supplied⟩ := supply_all quiet₂ given'
  have rested := rested_of quiet₃.reached quiet₃.idle supplied
  refine ⟨n, leads_trans first (leads_trans second third), quiet₃, fun i inside => ?_,
    fun pending => ?_⟩
  · apply rested_outcome rested
    omega
  · exact leads_outcome quiet₁.reached (leads_trans second third) (settled pending)

end Complete

/-- In every run, whatever the order in which links are attached and promises settled, a link's
    promise gets the outcome that the link makes of the outcome before it; its continuation is
    called at most once, and only on an outcome that it is there for. -/
theorem chain_outcomes {c : Chain K V E} {m : Machine (State V E) (Instr V E)}
    (reached : c.Reached m) :
    (∀ i, m.shared.calls i ≤ 1 ∧ (m.shared.outcome (.promise 0) = none →
      m.shared.outcome (.promise i) = none ∧ m.shared.calls i = 0)) ∧
    ∀ o, m.shared.outcome (.promise 0) = some o →
      (∀ i r, m.shared.outcome (.promise i) = some r → r = c.coded o i) ∧
      ∀ i l, c.links[i]? = some l →
        (m.shared.calls i ≠ 0 → l.calls c.exceptions (c.coded o i) = true) ∧
        (m.shared.outcome (.promise (i + 1)) ≠ none →
          m.shared.calls i = if l.calls c.exceptions (c.coded o i) then 1 else 0) := by
  have inv := (reached_sound reached).inv
  constructor
  · intro i
    refine ⟨calls_once reached i, fun pending => ?_⟩
    have unsettled : ∀ j, m.shared.outcome (.promise j) = none := by
      intro j
      by_contra done
      exact source_first inv done pending
    refine ⟨unsettled i, ?_⟩
    by_contra called
    obtain ⟨l, o, _, before, _⟩ := inv.called i called
    simp [unsettled i] at before
  · intro o source
    exact ⟨fun i r done => coded_outcome inv source done,
      fun i l here => ⟨coded_called inv source here, coded_calls inv source here⟩⟩

def sliced : Chain Unit Nat Nat where
  exceptions := ⟨fun _ _ => true, fun _ _ => 0⟩
  kind := .created
  type := .base 0
  links :=
    [⟨.catch_ (.reference ()) fun e => .exception e, .coroutine, .base 0⟩,
      ⟨.finally_ none, .sync, .void⟩]

/-- Thread 0 attaches the `Catch`, thread 1 rejects the source with 5, the handler's coroutine ends
    on thread 0, and thread 1 attaches the `Finally`. -/
def slicedRun : List (Label (Event Nat Nat)) :=
  [.fork, .fork, .start 0 .attach, .run 0, .run 0, .start 1 (.settle (.exception 5))] ++
    List.replicate 8 (.run 1) ++ [.start 0 (.finish 0 false)] ++ List.replicate 17 (.run 0) ++
    [.start 1 .attach] ++ List.replicate 6 (.run 1)

/-- The handler's promise is the one promise that a continuation has returned. -/
def slicedAsked : Nat → Option (Pid × Result Nat Nat) :=
  Function.update (fun _ => none) 0 (some (.reply 0, .exception 0))

theorem sliced_ran : ∃ m, run (step sliced.program) sliced.initial slicedRun = some m ∧
    m.threads = [[], []] ∧ m.shared.begun = 2 ∧ m.shared.running (.promise 0) = false ∧
    m.shared.outcome (.promise 0) = some (.exception 5) ∧
    m.shared.outcome (.promise 2) = some (.exception 0) ∧ m.shared.asked = slicedAsked ∧
    Given m.shared (.reply 0) := by
  have facts : (run (step sliced.program) sliced.initial slicedRun).map (fun m =>
      (m.threads, m.shared.begun, m.shared.running (.promise 0), m.shared.outcome (.promise 0),
        m.shared.outcome (.promise 2), m.shared.asked, m.shared.outcome (.reply 0),
        m.shared.running (.reply 0))) =
      some ([[], []], 2, false, some (.exception 5), some (.exception 0), slicedAsked,
        some (.exception 0), false) := rfl
  obtain ⟨m, ran, facts⟩ := Option.map_eq_some_iff.mp facts
  simp only [Prod.mk.injEq] at facts
  obtain ⟨threads, begun, ended, source, done, asked, reply, past⟩ := facts
  exact ⟨m, ran, threads, begun, ended, source, done, asked, by simp [reply], past⟩

theorem chain_outcomes_sliced : ∃ m, run (step sliced.program) sliced.initial slicedRun = some m ∧
    m.shared.outcome (.promise 2) = some (sliced.coded (.exception 5) 2) ∧
    m.shared.calls 1 = 1 := by
  obtain ⟨m, ran, _, _, _, source, done, _⟩ := sliced_ran
  have outcomes := (chain_outcomes (run_reachable (.start rfl) ran)).2 _ source
  refine ⟨m, ran, ?_, ?_⟩
  · rw [done, ← outcomes.1 2 _ done]
  · exact (outcomes.2 1 _ rfl).2 (by simp [done])

/-- The threads come to rest, within a bound that no schedule exceeds. -/
def Chain.Rests (c : Chain K V E) (m : Machine (State V E) (Instr V E)) : Prop :=
  (∃ bound, ∀ (ts : List Nat) n, run (step c.program) m (ts.map .run) = some n →
    ts.length ≤ bound) ∧
  (∃ (ts : List Nat) (n : Machine (State V E) (Instr V E)),
    run (step c.program) m (ts.map .run) = some n ∧ Idle n)

theorem reached_rests {c : Chain K V E} {m : Machine (State V E) (Instr V E)}
    (reached : c.Reached m) : c.Rests m := by
  constructor
  · refine ⟨load Instr.weight (cost c) m, fun ts n ran => ?_⟩
    have bound := rests_within reached ran
    omega
  · exact rests reached

/-- The threads come to rest within a bound, under every schedule; when they have, and the source
    and the promises of the continuations are settled, every link whose operator was called is. -/
theorem chain_settles {c : Chain K V E} {m : Machine (State V E) (Instr V E)}
    (reached : c.Reached m) :
    (∃ bound, ∀ (ts : List Nat) n, run (step c.program) m (ts.map .run) = some n →
      ts.length ≤ bound) ∧
    (∃ (ts : List Nat) (n : Machine (State V E) (Instr V E)),
      run (step c.program) m (ts.map .run) = some n ∧ Idle n) ∧
    (Idle m → Supplied m.shared → ∃ o, ∀ i ≤ m.shared.begun,
      m.shared.outcome (.promise i) = some (c.coded o i)) := by
  obtain ⟨within, comes⟩ := reached_rests reached
  refine ⟨within, comes, fun idle supplied => ?_⟩
  have rested := rested_of reached idle supplied
  obtain ⟨o, source⟩ := Option.ne_none_iff_exists'.mp supplied.source.1
  refine ⟨o, fun i inside => ?_⟩
  obtain ⟨r, done⟩ := Option.ne_none_iff_exists'.mp (rested_outcome rested inside)
  rw [done, coded_outcome rested.inv source done]

theorem chain_settles_sliced : ∃ m, run (step sliced.program) sliced.initial slicedRun = some m ∧
    ∃ o, ∀ i ≤ 2, m.shared.outcome (.promise i) = some (sliced.coded o i) := by
  obtain ⟨m, ran, threads, begun, ended, source, _, asked, reply⟩ := sliced_ran
  have supplied : Supplied m.shared := by
    refine ⟨⟨by simp [source], ended⟩, fun i p r there => ?_⟩
    rw [asked, slicedAsked, Function.update_apply] at there
    split at there
    · simp only [Option.some.injEq, Prod.mk.injEq] at there
      exact there.1 ▸ reply
    · simp at there
  have idle : Idle m := by simp [Idle, threads]
  have settles := (chain_settles (run_reachable (.start rfl) ran)).2.2 idle supplied
  exact ⟨m, ran, begun ▸ settles⟩

/-- No schedule brings a chain into a state from which its links cannot all settle any more. -/
theorem chain_completes {c : Chain K V E} {m : Machine (State V E) (Instr V E)}
    (reached : c.Reached m) (r : Result V E) :
    ∃ ls n o, run (step c.program) m ls = some n ∧ Idle n ∧
      (Idle m → m.shared.outcome (.promise 0) = none → o = r) ∧
      ∀ i ≤ c.links.length, n.shared.outcome (.promise i) = some (c.coded o i) := by
  have forked : step c.program m .fork = some ⟨m.shared, m.threads ++ [[]]⟩ := rfl
  have next : c.Reached ⟨m.shared, m.threads ++ [[]]⟩ := .next reached forked
  obtain ⟨u, first, quiet, same⟩ :
      ∃ u, c.Leads m u ∧ Quiet c u ∧ (Idle m → u.shared = m.shared) := by
    have fork : c.Leads m ⟨m.shared, m.threads ++ [[]]⟩ := ⟨[.fork], rfl⟩
    by_cases idle : Idle m
    · refine ⟨_, fork, ⟨next, fun t member => ?_, by simp⟩, fun _ => rfl⟩
      rcases List.mem_append.mp member with old | new
      · exact idle t old
      · exact List.mem_singleton.mp new
    · obtain ⟨u, rests, quiet, _⟩ := rests_quiet next (by simp)
      exact ⟨u, leads_trans fork rests, quiet, fun here => absurd here idle⟩
  obtain ⟨n, later, rested, settled, given⟩ := completes quiet r
  obtain ⟨o, source⟩ := Option.ne_none_iff_exists'.mp (settled 0 (Nat.zero_le _))
  obtain ⟨ls, ran⟩ := leads_trans first later
  refine ⟨ls, n, o, ran, rested.idle, fun idle pending => ?_, fun i inside => ?_⟩
  · have here := given (by rw [same idle]; exact pending)
    rw [source, Option.some.injEq] at here
    exact here
  · obtain ⟨r', done⟩ := Option.ne_none_iff_exists'.mp (settled i inside)
    rw [done, coded_outcome (reached_sound rested.reached).inv source done]

theorem chain_completes_sliced : ∃ ls n, run (step sliced.program) sliced.initial ls = some n ∧
    ∀ i ≤ 2, n.shared.outcome (.promise i) = some (sliced.coded (.exception 5) i) := by
  obtain ⟨ls, n, o, ran, _, given, settled⟩ :=
    chain_completes (c := sliced) (.start rfl) (.exception 5)
  have same := given (by simp [Idle, Chain.initial]) rfl
  exact ⟨ls, n, ran, same ▸ settled⟩

/-- A handler that can tell the copy from the exception shows in some run. -/
theorem reference_alike {c : Chain K V E} {o : Result V E}
    (same : ∀ m, c.Reached m → m.shared.outcome (.promise 0) = some o →
      ∀ i ≤ c.links.length, ∀ r, m.shared.outcome (.promise i) = some r → r = c.reference o i) :
    c.CopiesAlike o := by
  rw [← coded_reference_iff]
  intro i inside
  have forked : step c.program c.initial .fork = some ⟨c.initial.shared, [[]]⟩ := rfl
  have quiet : Quiet c ⟨c.initial.shared, [[]]⟩ :=
    ⟨.next (.start rfl) forked, by simp [Idle], by simp⟩
  obtain ⟨n, _, rested, settled, given⟩ := completes quiet o
  have source := given rfl
  obtain ⟨r, done⟩ := Option.ne_none_iff_exists'.mp (settled i inside)
  rw [← coded_outcome (reached_sound rested.reached).inv source done]
  exact same n rested.reached source i inside r done

/-- Every run gives the outcomes the operators are there to give exactly if no handler can tell
    the copy it is handed from the exception. -/
theorem chain_reference {c : Chain K V E} {o : Result V E} :
    (∀ m, c.Reached m → m.shared.outcome (.promise 0) = some o →
      ∀ i ≤ c.links.length, ∀ r, m.shared.outcome (.promise i) = some r → r = c.reference o i) ↔
    c.CopiesAlike o := by
  constructor
  · exact reference_alike
  · intro alike m reached source i inside r done
    rw [← coded_reference alike inside]
    exact coded_outcome (reached_sound reached).inv source done

end ChainLinks
