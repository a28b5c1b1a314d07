import JSProCpp.WaitSets

/-
The awaiters of one promise state under the same statements: which call stands where, that a
registration finds the promise pending, that an id is given once, and that a registered awaiter
is kept, in a flush, invoked or withdrawn.
-/
namespace WaitRegistrations
open Transitions Monitors WaitSets
open SharedPromise (Awaiter Target Site)
variable {O H F : Type}

inductive Kind where
  | wait
  | settle
  | attach
  deriving DecidableEq

def kind : Call O H F → Kind
  | .waitDone | .waitAwaited _ => .wait
  | .resolve _ _ | .reject _ | .finalSuspend _ => .settle
  | .awaitSuspend _ | .await _ | .raceSkip | .unAwait _ => .attach

/-- The calls that raise `use_count_`. -/
def counts : Call O H F → Bool
  | .awaitSuspend _ | .await _ | .raceSkip => true
  | _ => false

def fits (c : Call O H F) : Pc H F → Bool
  | .lockShared | .lastCount _ | .test _ | .sleep _ | .asleep _ => kind c == .wait
  | .rejected | .exchange | .lock | .store | .onResolved _ | .notify _ | .swap _ | .flush _ _
  | .scopeLock _ | .scopeClear _ | .scopeDestroy _ _ | .scopeWait _ _ _ | .scopeNotify _
  | .scopeDone _ => kind c == .settle
  | .acquire => kind c == .attach
  | .isDone => c.target.isSome
  | .count | .notifyAwaited | .emplace => counts c
  | .erase => kind c == .attach && !counts c
  | .returned _ | .threw => true

def registering : Pc H F → Bool
  | .count | .notifyAwaited | .emplace => true
  | _ => false

def counted : Pc H F → Bool
  | .notifyAwaited | .emplace => true
  | _ => false

def Delivered (s : State O H F) (a : Awaiter H F) : Prop :=
  a ∈ s.awaiters ∨
    (∃ (j : Nat) (c : Call O H F) (site : Site) (todo : List (Awaiter H F)),
      s.threads[j]? = some ⟨c, .flush site todo⟩ ∧ a ∈ todo) ∨
    a ∈ s.invoked ∨ a.id ∈ s.removed

structure Inv (s : State O H F) : Prop where
  fitting : ∀ (i : Nat) (c : Call O H F) (pc : Pc H F),
    s.threads[i]? = some ⟨c, pc⟩ → fits c pc = true
  pending : ∀ (i : Nat) (c : Call O H F) (pc : Pc H F), s.threads[i]? = some ⟨c, pc⟩ →
    registering pc = true → c.target.isSome = true → s.outcome = none
  bounded : ∀ a ∈ s.registered, a.id ≤ s.useCount
  fresh : ∀ (i : Nat) (c : Call O H F) (pc : Pc H F), s.threads[i]? = some ⟨c, pc⟩ →
    counted pc = true → ∀ a ∈ s.registered, a.id < s.useCount
  ordered : s.registered.Pairwise fun a b => a.id < b.id
  delivered : ∀ a ∈ s.registered, Delivered s a

theorem fits_entry (c : Call O H F) : fits c c.entry = true := by
  cases c with
  | finalSuspend delayedReturn => cases delayedReturn <;> rfl
  | _ => rfl

section Moves
variable {s u : State O H F} {i : Nat} {c : Call O H F} {pc pc' : Pc H F}

theorem fits_leave (won : Bool) : fits c (c.leave won) = true := by
  cases c <;> rfl

theorem fits_after (site : Site) : fits c (c.after site) = true := by
  cases site
  · exact fits_leave true
  · rfl

theorem fits_move (move : Move s i c pc u pc') (before : fits c pc = true) :
    fits c pc' = true := by
  cases move with
  | waitLock => cases c <;> first | rfl | cases before
  | lost => exact fits_leave false
  | noFlush site | flushed site => exact fits_after site
  | acquire => cases c <;> first | rfl | cases before
  | pending => cases c <;> first | rfl | cases before
  | waited | rejectLost | throw | scopePending | inline | emplace | erase => rfl
  | _ => exact before

@[simp] theorem unAwait_registered (s : State O H F) (id : Nat) :
    (s.unAwait id).1.registered = s.registered := by
  unfold State.unAwait
  split <;> rfl

@[simp] theorem unAwait_invoked (s : State O H F) (id : Nat) :
    (s.unAwait id).1.invoked = s.invoked := by
  unfold State.unAwait
  split <;> rfl

theorem move_outcome (move : Move s i c pc u pc') : u.outcome = s.outcome ∨ pc = .store := by
  cases move with
  | store => exact .inr rfl
  | emplace => exact .inl (register_outcome s _)
  | erase id => exact .inl (unAwait_outcome s id)
  | _ => exact .inl rfl

theorem move_useCount (move : Move s i c pc u pc') :
    u.useCount = s.useCount ∨ pc = .count ∧ u.useCount = s.useCount + 1 := by
  cases move with
  | count => exact .inr ⟨rfl, rfl⟩
  | emplace => exact .inl (register_useCount s _)
  | erase id => exact .inl (unAwait_useCount s id)
  | _ => exact .inl rfl

theorem move_registered (move : Move s i c pc u pc') : u.registered = s.registered ∨
    ∃ x, pc = .emplace ∧ c.target = some x ∧ u.useCount = s.useCount ∧
      u.registered = s.registered ++ [⟨x, s.useCount⟩] ∧
      u.awaiters = s.awaiters ++ [⟨x, s.useCount⟩] := by
  cases move with
  | emplace =>
    cases target : c.target with
    | none => exact .inl rfl
    | some x => exact .inr ⟨x, rfl, rfl, rfl, rfl, rfl⟩
  | erase id => exact .inl (unAwait_registered s id)
  | _ => exact .inl rfl

theorem leave_idle (won : Bool) : registering (c.leave won) = false := by
  cases c <;> rfl

theorem after_idle (site : Site) : registering (c.after site) = false := by
  cases site
  · exact leave_idle true
  · rfl

theorem registering_exclusive (here : registering pc = true) : pc.mode = .exclusive := by
  cases pc <;> first | rfl | cases here

theorem counted_registering (here : counted pc = true) : registering pc = true := by
  cases pc <;> first | rfl | cases here

theorem move_registering (move : Move s i c pc u pc') (here : registering pc' = true)
    (target : c.target.isSome = true) :
    u.outcome = none ∨ registering pc = true ∧ u.outcome = s.outcome := by
  cases move with
  | pending none_ => exact .inl (Option.not_isSome_iff_eq_none.mp (by rw [none_]; decide))
  | count | notifyAwaited => exact .inr ⟨rfl, rfl⟩
  | acquire => cases c <;> first | exact Bool.noConfusion here | exact Bool.noConfusion target
  | waitLock => cases c <;> cases here
  | lost => rw [leave_idle] at here; cases here
  | noFlush site | flushed site => rw [after_idle] at here; cases here
  | _ => cases here

theorem move_counted (move : Move s i c pc u pc') (here : counted pc' = true) :
    u.registered = s.registered ∧
      (u.useCount = s.useCount + 1 ∨ counted pc = true ∧ u.useCount = s.useCount) := by
  cases move with
  | count => exact ⟨rfl, .inl rfl⟩
  | notifyAwaited => exact ⟨rfl, .inr ⟨rfl, rfl⟩⟩
  | acquire => cases c <;> cases here
  | waitLock => cases c <;> cases here
  | lost =>
    have idle := leave_idle (c := c) false
    rw [counted_registering here] at idle
    cases idle
  | noFlush site | flushed site =>
    have idle := after_idle (c := c) site
    rw [counted_registering here] at idle
    cases idle
  | _ => cases here

theorem unAwait_keeps {a : Awaiter H F} (id : Nat) (waits : a ∈ s.awaiters) :
    a ∈ (s.unAwait id).1.awaiters ∨ a.id ∈ (s.unAwait id).1.removed := by
  unfold State.unAwait
  by_cases mine : (a.isFunction && a.id == id) = true
  · rw [if_pos (List.any_eq_true.mpr ⟨a, waits, mine⟩)]
    have same : a.id = id := eq_of_beq (Bool.and_eq_true_iff.mp mine).2
    exact .inr (same ▸ List.mem_cons_self)
  · split
    · have kept : a ∈ s.awaiters.eraseP fun b => b.isFunction && b.id == id :=
        (List.mem_eraseP_of_neg (p := fun b => b.isFunction && b.id == id) mine).mpr waits
      exact .inl kept
    · exact .inl waits

theorem unAwait_removed {n : Nat} (id : Nat) (gone : n ∈ s.removed) :
    n ∈ (s.unAwait id).1.removed := by
  unfold State.unAwait
  split
  · exact List.mem_cons_of_mem _ gone
  · exact gone

theorem move_awaiters (move : Move s i c pc u pc') {a : Awaiter H F} (waits : a ∈ s.awaiters) :
    a ∈ u.awaiters ∨ (∃ site, pc' = .flush site s.awaiters) ∨ a.id ∈ u.removed := by
  cases move with
  | swap site => exact .inr (.inl ⟨site, rfl⟩)
  | emplace =>
    left
    cases target : c.target with
    | none => exact waits
    | some x => exact List.mem_append_left _ waits
  | erase id =>
    rcases unAwait_keeps id waits with still | gone
    · exact .inl still
    · exact .inr (.inr gone)
  | _ => exact .inl waits

theorem move_invoked (move : Move s i c pc u pc') : u.invoked = s.invoked ∨
    ∃ site b rest, pc = .flush site (b :: rest) ∧ pc' = .flush site rest ∧
      u.invoked = s.invoked ++ [b] := by
  cases move with
  | invoke site b rest => exact .inr ⟨site, b, rest, rfl, rfl, rfl⟩
  | emplace => cases target : c.target <;> exact .inl rfl
  | erase id => exact .inl (unAwait_invoked s id)
  | _ => exact .inl rfl

theorem move_removed (move : Move s i c pc u pc') {n : Nat} (gone : n ∈ s.removed) :
    n ∈ u.removed := by
  cases move with
  | emplace => cases target : c.target <;> exact gone
  | erase id => exact unAwait_removed id gone
  | _ => exact gone

/-- A flush hands its awaiters on one by one. -/
theorem move_flush {site : Site} {todo : List (Awaiter H F)}
    (move : Move s i c (.flush site todo) u pc') {a : Awaiter H F} (waits : a ∈ todo) :
    a ∈ u.invoked ∨ ∃ rest, pc' = .flush site rest ∧ a ∈ rest := by
  cases move with
  | invoke site b rest =>
    rcases List.mem_cons.mp waits with rfl | later
    · exact .inl (List.mem_append_right _ (List.mem_singleton.mpr rfl))
    · exact .inr ⟨rest, rfl, later⟩
  | flushed => cases waits

end Moves

theorem delivered_move {s u : State O H F} {i : Nat} {c : Call O H F} {pc pc' : Pc H F}
    (here : s.threads[i]? = some ⟨c, pc⟩) (move : Move s i c pc u pc') {a : Awaiter H F}
    (delivered : Delivered s a) : Delivered (u.goto i c pc') a := by
  have threads := move_threads move
  rcases delivered with waits | ⟨j, d, site, todo, there, mine⟩ | ran | gone
  · rcases move_awaiters move waits with still | ⟨site, rfl⟩ | gone
    · exact .inl still
    · exact .inr (.inl ⟨i, c, site, s.awaiters, goto_here threads here, waits⟩)
    · exact .inr (.inr (.inr gone))
  · by_cases same : j = i
    · subst same
      rw [here] at there
      cases there
      rcases move_flush move mine with ran | ⟨rest, rfl, later⟩
      · exact .inr (.inr (.inl ran))
      · exact .inr (.inl ⟨j, c, site, rest, goto_here threads here, later⟩)
    · exact .inr (.inl ⟨j, d, site, todo, (goto_other threads same).trans there, mine⟩)
  · rcases move_invoked move with same | ⟨site, b, rest, -, -, more⟩
    · exact .inr (.inr (.inl (same.symm ▸ ran : a ∈ u.invoked)))
    · exact .inr (.inr (.inl (more.symm ▸ List.mem_append_left _ ran : a ∈ u.invoked)))
  · exact .inr (.inr (.inr (move_removed move gone)))

theorem inv_move {s u : State O H F} {i : Nat} {c : Call O H F} {pc pc' : Pc H F}
    (held : Held s.mutex (mode s)) (inv : Inv s) (here : s.threads[i]? = some ⟨c, pc⟩)
    (move : Move s i c pc u pc') : Inv (u.goto i c pc') := by
  have threads := move_threads move
  have alone : ∀ {j : Nat} {d : Call O H F} {pc'' : Pc H F}, pc.mode = .exclusive →
      s.threads[j]? = some ⟨d, pc''⟩ → registering pc'' = true → j = i := by
    intro j d pc'' writes there inside
    apply held_alone held (mode_at here ▸ writes)
    rw [mode_at there, registering_exclusive inside]
    decide
  constructor
  · intro j d pc'' there
    rcases goto_lookup threads here there with ⟨-, rfl, rfl⟩ | ⟨-, before⟩
    · exact fits_move move (inv.fitting i d pc here)
    · exact inv.fitting j d pc'' before
  · intro j d pc'' there inside target
    rcases goto_lookup threads here there with ⟨-, rfl, rfl⟩ | ⟨other, before⟩
    · rcases move_registering move inside target with none_ | ⟨already, same⟩
      · exact none_
      · exact same.trans (inv.pending i d pc here already target)
    · rcases move_outcome move with same | rfl
      · exact same.trans (inv.pending j d pc'' before inside target)
      · exact absurd (alone rfl before inside) other
  · intro a member
    have grows : s.useCount ≤ u.useCount := by
      rcases move_useCount move with same | ⟨-, more⟩ <;> omega
    rcases move_registered move with same | ⟨x, -, -, same, more, -⟩
    · exact Nat.le_trans (inv.bounded a (same ▸ member : a ∈ s.registered)) grows
    · rcases List.mem_append.mp (more ▸ member : a ∈ s.registered ++ _) with old | new
      · exact Nat.le_trans (inv.bounded a old) grows
      · rw [List.mem_singleton.mp new]
        exact grows
  · intro j d pc'' there inside a member
    rcases goto_lookup threads here there with ⟨-, rfl, rfl⟩ | ⟨other, before⟩
    · obtain ⟨same, more | ⟨already, still⟩⟩ := move_counted move inside
      · have bound := inv.bounded a (same ▸ member : a ∈ s.registered)
        show a.id < u.useCount
        omega
      · show a.id < u.useCount
        rw [still]
        exact inv.fresh i d pc here already a (same ▸ member : a ∈ s.registered)
    · have idle : pc.mode ≠ .exclusive := fun writes =>
        other (alone writes before (counted_registering inside))
      have old : a ∈ s.registered := by
        rcases move_registered move with same | ⟨x, rfl, -⟩
        · exact (same ▸ member : a ∈ s.registered)
        · exact absurd rfl idle
      have still : u.useCount = s.useCount := by
        rcases move_useCount move with same | ⟨rfl, -⟩
        · exact same
        · exact absurd rfl idle
      show a.id < u.useCount
      rw [still]
      exact inv.fresh j d pc'' before inside a old
  · show u.registered.Pairwise _
    rcases move_registered move with same | ⟨x, rfl, -, -, more, -⟩
    · exact same.symm ▸ inv.ordered
    · rw [more]
      apply List.pairwise_append.mpr
      refine ⟨inv.ordered, List.pairwise_singleton _ _, ?_⟩
      intro a old b new
      rw [List.mem_singleton.mp new]
      exact inv.fresh i c .emplace here rfl a old
  · intro a member
    rcases move_registered move with same | ⟨x, -, -, -, more, waits⟩
    · exact delivered_move here move (inv.delivered a (same ▸ member : a ∈ s.registered))
    · rcases List.mem_append.mp (more ▸ member : a ∈ s.registered ++ _) with old | new
      · exact delivered_move here move (inv.delivered a old)
      · left
        show a ∈ u.awaiters
        rw [waits]
        exact List.mem_append_right _ new

theorem inv_initial {s : State O H F} (init : Initial s) : Inv s := by
  obtain ⟨coroutine, captured, others, rfl⟩ := init
  constructor
  · intro i c pc here
    cases here
  · intro i c pc here
    cases here
  · intro a member
    cases member
  · intro i c pc here
    cases here
  · exact .nil
  · intro a member
    cases member

theorem inv_push {s : State O H F} (inv : Inv s) (c : Call O H F) : Inv (s.push c) := by
  have idle : registering c.entry = false := by
    cases c with
    | finalSuspend delayedReturn => cases delayedReturn <;> rfl
    | _ => rfl
  have old : ∀ {j : Nat} {d : Call O H F} {pc : Pc H F}, registering pc = true →
      (s.push c).threads[j]? = some ⟨d, pc⟩ → s.threads[j]? = some ⟨d, pc⟩ := by
    intro j d pc inside there
    apply (push_lookup there).resolve_left
    intro new
    rw [new.2.2, idle] at inside
    cases inside
  constructor
  · intro j d pc there
    rcases push_lookup there with ⟨-, rfl, rfl⟩ | before
    · exact fits_entry d
    · exact inv.fitting j d pc before
  · intro j d pc there inside target
    exact inv.pending j d pc (old inside there) inside target
  · exact inv.bounded
  · intro j d pc there inside a member
    exact inv.fresh j d pc (old (counted_registering inside) there) inside a member
  · exact inv.ordered
  · intro a member
    rcases inv.delivered a member with waits | ⟨j, d, site, todo, there, mine⟩ | rest
    · exact .inl waits
    · exact .inr (.inl ⟨j, d, site, todo, lookup_append there _, mine⟩)
    · exact .inr (.inr rest)

theorem inv_step {s t : State O H F} {l : Label O H F} (reached : Reached s) (inv : Inv s)
    (h : step s l = some t) : Inv t := by
  cases step_change h with
  | call c u same after =>
    subst after
    apply inv_push
    rcases same with rfl | rfl
    · exact inv
    · exact ⟨inv.fitting, inv.pending, inv.bounded, inv.fresh, inv.ordered, inv.delivered⟩
  | step i c pc pc' u here move after =>
    subst after
    exact inv_move (reached_inv reached).held inv here move
  | wake | other =>
    subst_vars
    exact ⟨inv.fitting, inv.pending, inv.bounded, inv.fresh, inv.ordered, inv.delivered⟩

theorem registrations {s : State O H F} (reached : Reached s) : Inv s := by
  induction reached with
  | start init => exact inv_initial init
  | next reached taken ih => exact inv_step reached ih taken

theorem ids_unique {s : State O H F} (inv : Inv s) {a b : Awaiter H F} (left : a ∈ s.registered)
    (right : b ∈ s.registered) (same : a.id = b.id) : a = b := by
  have forward : s.registered.Pairwise fun a b => a.id = b.id → a = b :=
    inv.ordered.imp fun less same => absurd same (Nat.ne_of_lt less)
  have backward : s.registered.Pairwise (flip fun a b => a.id = b.id → a = b) :=
    inv.ordered.imp fun less same => absurd same.symm (Nat.ne_of_lt less)
  exact forward.forall_of_forall_of_flip (fun _ _ _ => rfl) backward left right same

/-- The statements that touch the flags and the outcome. -/
def settlesAt : Pc H F → Bool
  | .rejected | .exchange | .store => true
  | _ => false

def isReturned (s : State O H F) (i : Nat) : Bool :=
  match s.threads[i]? with
  | some ⟨_, .returned _⟩ => true
  | _ => false

/-- What a settling call that nobody competes with has done so far. -/
def Phase (s : State O H F) (o : O) : Pc H F → Prop
  | .rejected => s.rejected = false ∧ s.resolved = false ∧ s.outcome = none
  | .exchange => s.resolved = false ∧ s.outcome = none
  | .lock | .store | .threw => s.outcome = none
  | .onResolved .settle | .notify .settle | .swap .settle | .flush .settle _ => s.outcome = some o
  | .returned won => won = true ∧ s.outcome = some o
  | _ => False

section Settling
variable {s u : State O H F} {i : Nat} {c : Call O H F} {pc pc' : Pc H F}

theorem settles_kind (fit : fits c pc = true) (settles : settlesAt pc = true) :
    kind c = .settle := by
  cases pc <;> first | exact eq_of_beq fit | cases settles

theorem move_unsettling (idle : settlesAt pc = false) (move : Move s i c pc u pc') :
    u.rejected = s.rejected ∧ u.resolved = s.resolved ∧ u.outcome = s.outcome := by
  cases move with
  | rejectFirst | claim | store => cases idle
  | emplace => cases target : c.target <;> exact ⟨rfl, rfl, rfl⟩
  | erase id =>
    have same : (s.unAwait id).1.rejected = s.rejected ∧
        (s.unAwait id).1.resolved = s.resolved ∧ (s.unAwait id).1.outcome = s.outcome := by
      unfold State.unAwait
      split <;> exact ⟨rfl, rfl, rfl⟩
    exact same
  | _ => exact ⟨rfl, rfl, rfl⟩

/-- The phase is about the flags and the outcome. -/
theorem phase_same {o : O} {q : Pc H F} (rejected : u.rejected = s.rejected)
    (resolved : u.resolved = s.resolved) (outcome : u.outcome = s.outcome)
    (phase : Phase s o q) : Phase u o q := by
  unfold Phase at phase ⊢
  rw [rejected, resolved, outcome]
  exact phase

theorem phase_other {o : O} {q : Pc H F} (idle : settlesAt pc = false)
    (move : Move s i c pc u pc') (phase : Phase s o q) : Phase u o q := by
  obtain ⟨rejected, resolved, outcome⟩ := move_unsettling idle move
  exact phase_same rejected resolved outcome phase

theorem phase_own {o : O} (payload : c.payload = some o) (plain : ∀ d, c ≠ .finalSuspend d)
    (move : Move s i c pc u pc') (phase : Phase s o pc) : Phase u o pc' := by
  have left : c.leave true = .returned true := by
    cases c with
    | finalSuspend d => exact absurd rfl (plain d)
    | _ => rfl
  cases move with
  | rejectLost set => exact absurd (set.symm.trans phase.1) Bool.noConfusion
  | rejectFirst => exact ⟨phase.2.1, phase.2.2⟩
  | lost set => exact absurd (set.symm.trans phase.1) Bool.noConfusion
  | claim => exact phase.2
  | settleLock => exact phase
  | throw => exact phase
  | store o' payload' =>
    rw [payload] at payload'
    exact payload'.symm
  | noFlush site | flushed site =>
    cases site with
    | settle =>
      show Phase _ o (c.leave true)
      rw [left]
      exact ⟨rfl, phase⟩
    | scopeExit won => exact phase.elim
  | done site | notify site | swap site | invoke site =>
    cases site with
    | settle => exact phase
    | scopeExit won => exact phase.elim
  | _ => exact phase.elim

end Settling

end WaitRegistrations
