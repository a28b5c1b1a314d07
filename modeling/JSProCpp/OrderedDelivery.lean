import JSProCpp.SharedPromise

/-
Awaiters are delivered exactly once and in order. `awaiters_` is emptied by the one flush
that finds an outcome stored and `handle_` null, and nothing registers after an outcome.
Runs are those without a null `exception_ptr` and without throwing awaiters.
-/
namespace OrderedDelivery
open Transitions SharedPromise
variable {V E H F : Type}

def nonNull : Label V E H F → Bool
  | .call (.reject none) | .call (.resolverReject none) => false
  | _ => true

def stepNonNull (s : State V E H F) (l : Label V E H F) : Option (State V E H F) :=
  if nonNull l then step s l else none

abbrev ReachedNonNull (s : State V E H F) : Prop := Reachable stepNonNull Initial s

def todo : Pc H F → List (Awaiter H F)
  | .flush _ _ rest => rest
  | _ => []

def inFlush : Pc H F → Bool
  | .flush _ _ _ => true
  | _ => false

/-- Inside the critical section that made an outcome and a null `handle_` hold together. -/
def closing : Pc H F → Bool
  | .onResolved _ | .scopeDestroy _ _ | .scopeWait _ _ _ => true
  | _ => false

def inflight (acts : List (Activation V E H F)) : List (Awaiter H F) :=
  acts.flatMap fun a => todo a.pc

/-- The registrations, in order, without those a successful `UnAwait` removed. -/
def kept (registered : List (Awaiter H F)) (removed : List Nat) : List (Awaiter H F) :=
  registered.filter fun a => !removed.contains a.id

def Flushing (s : State V E H F) : Prop :=
  ∃ (i : Nat) (a : Activation V E H F), s.acts[i]? = some a ∧
    (inFlush a.pc = true ∨ closing a.pc = true)

structure Delivery (s : State V E H F) : Prop where
  nonnull : ∀ (i : Nat) (a : Activation V E H F), s.acts[i]? = some a →
    a.call.payload ≠ some (.exception none)
  sorted : (s.registered.map (·.id)).Pairwise (· < ·)
  bound : ∀ a ∈ s.registered, a.id ≤ s.useCount
  removedBound : ∀ id ∈ s.removed, id ≤ s.useCount
  ledger : kept s.registered s.removed = s.invoked ++ inflight s.acts ++ s.awaiters
  single : ∀ (i j : Nat) (a b : Activation V E H F), s.acts[i]? = some a →
    s.acts[j]? = some b → todo a.pc ≠ [] → todo b.pc ≠ [] → i = j
  resolving : ∀ (i : Nat) (a : Activation V E H F) (site : Site), s.acts[i]? = some a →
    a.pc = .onResolved site → s.isDone = true
  flushed : (∃ (i : Nat) (a : Activation V E H F), s.acts[i]? = some a ∧ inFlush a.pc = true) ∨
    s.invoked ≠ [] → s.isDone = true ∧ s.handle = false ∧ s.awaiters = []
  settled : s.isDone = true → s.handle = false → s.awaiters = [] ∨
    ∃ (i : Nat) (a : Activation V E H F), s.acts[i]? = some a ∧ closing a.pc = true

section Inflight
variable {acts : List (Activation V E H F)} {i : Nat} {a b : Activation V E H F}

theorem inflight_split (here : acts[i]? = some a) (b : Activation V E H F) :
    inflight (acts.set i b) =
      inflight (acts.take i) ++ todo b.pc ++ inflight (acts.drop (i + 1)) := by
  rw [inflight, List.set_eq_take_append_cons_drop, if_pos (lookup_inside here)]
  simp [inflight]

theorem inflight_self (here : acts[i]? = some a) :
    inflight acts = inflight (acts.take i) ++ todo a.pc ++ inflight (acts.drop (i + 1)) := by
  rw [← inflight_split here a]
  obtain ⟨inside, rfl⟩ := List.getElem?_eq_some_iff.mp here
  rw [List.set_getElem_self]

theorem inflight_set (here : acts[i]? = some a) (same : todo b.pc = todo a.pc) :
    inflight (acts.set i b) = inflight acts := by
  rw [inflight_split here b, inflight_self here, same]

theorem inflight_none (idle : ∀ (j : Nat) (x : Activation V E H F), acts[j]? = some x →
    todo x.pc = []) : inflight acts = [] := by
  rw [inflight, List.flatMap_eq_nil_iff]
  intro x member
  obtain ⟨j, hj⟩ := List.mem_iff_getElem?.mp member
  exact idle j x hj

theorem inflight_single (others : ∀ (j : Nat) (x : Activation V E H F), acts[j]? = some x → j ≠ i →
      todo x.pc = []) :
    inflight (acts.take i) = [] ∧ inflight (acts.drop (i + 1)) = [] := by
  constructor
  · refine inflight_none fun j x hx => ?_
    rw [List.getElem?_take] at hx
    split at hx
    · exact others j x hx (by omega)
    · simp at hx
  · refine inflight_none fun j x hx => ?_
    rw [List.getElem?_drop] at hx
    exact others _ x hx (by omega)

end Inflight

theorem initial_delivery (s : State V E H F) (h : Initial s) : Delivery s := by
  obtain ⟨coroutine, captured, others, rfl⟩ := h
  constructor <;> simp [initial, kept, inflight]

/-- A step of one activation that changes no list and keeps the outcome. -/
theorem frame_delivery {s t : State V E H F} {i : Nat} {c : Call V E H F} {pc pc' : Pc H F}
    (inv : Delivery s) (here : s.acts[i]? = some ⟨c, pc⟩)
    (acts : t.acts = s.acts.set i ⟨c, pc'⟩) (registered : t.registered = s.registered)
    (removed : t.removed = s.removed) (invoked : t.invoked = s.invoked)
    (awaiters : t.awaiters = s.awaiters) (count : s.useCount ≤ t.useCount)
    (done : s.isDone = true → t.isDone = true) (handle : s.handle = false → t.handle = false)
    (same : todo pc' = todo pc) (flush : inFlush pc' = true → inFlush pc = true)
    (resolving : ∀ site, pc' = .onResolved site → t.isDone = true)
    (settled : closing pc' = true ∨ (t.isDone = true → t.handle = false →
      s.isDone = true ∧ s.handle = false ∧ closing pc = false)) : Delivery t where
  nonnull := by
    intro j x hx
    rw [acts] at hx
    rcases set_lookup here hx with ⟨_, rfl⟩ | ⟨_, hx⟩
    · exact inv.nonnull i ⟨c, pc⟩ here
    · exact inv.nonnull j x hx
  sorted := registered ▸ inv.sorted
  bound := fun a member => Nat.le_trans (inv.bound a (registered ▸ member)) count
  removedBound := fun id member => Nat.le_trans (inv.removedBound id (removed ▸ member)) count
  ledger := by
    rw [acts, inflight_set here same, invoked, awaiters, registered, removed, inv.ledger]
  single := by
    intro j k x y hx hy px py
    rw [acts] at hx hy
    rcases set_lookup here hx with ⟨rfl, rfl⟩ | ⟨_, hx'⟩ <;>
      rcases set_lookup here hy with ⟨rfl, rfl⟩ | ⟨_, hy'⟩
    · rfl
    · exact inv.single j k ⟨c, pc⟩ y here hy' (same ▸ px) py
    · exact inv.single j k x ⟨c, pc⟩ hx' here px (same ▸ py)
    · exact inv.single j k x y hx' hy' px py
  resolving := by
    intro j x site hx at_
    rw [acts] at hx
    rcases set_lookup here hx with ⟨_, rfl⟩ | ⟨_, hx⟩
    · exact resolving site at_
    · exact done (inv.resolving j x site hx at_)
  flushed := by
    intro running
    have before : (∃ (j : Nat) (x : Activation V E H F), s.acts[j]? = some x ∧
        inFlush x.pc = true) ∨ s.invoked ≠ [] := by
      rcases running with ⟨j, x, hx, px⟩ | ran
      · rw [acts] at hx
        rcases set_lookup here hx with ⟨_, rfl⟩ | ⟨_, hx⟩
        · exact .inl ⟨i, _, here, flush px⟩
        · exact .inl ⟨j, x, hx, px⟩
      · exact .inr (invoked ▸ ran)
    obtain ⟨d, h, e⟩ := inv.flushed before
    exact ⟨done d, handle h, awaiters.trans e⟩
  settled := by
    intro d h
    rcases settled with still | before
    · exact .inr ⟨i, ⟨c, pc'⟩, by rw [acts]; exact lookup_set here, still⟩
    · obtain ⟨d', h', opened⟩ := before d h
      rcases inv.settled d' h' with e | ⟨j, x, hx, px⟩
      · exact .inl (awaiters.trans e)
      · have other : j ≠ i := by
          intro eq
          subst eq
          rw [here, Option.some.injEq] at hx
          subst hx
          simp [opened] at px
        refine .inr ⟨j, x, ?_, px⟩
        rw [acts, List.getElem?_set_ne (Ne.symm other)]
        exact hx

theorem todo_of_inFlush {pc : Pc H F} (h : inFlush pc = false) : todo pc = [] := by
  cases pc <;> simp_all [inFlush, todo]

theorem after_plain (c : Call V E H F) (site : Site) :
    todo (c.after site) = ([] : List (Awaiter H F)) ∧ inFlush (c.after site) = false ∧
      closing (c.after site) = false ∧ ∀ site', c.after site ≠ .onResolved site' := by
  cases site with
  | settle => cases c <;> simp [Call.after, Call.leave, todo, inFlush, closing]
  | scopeExit won => simp [Call.after, todo, inFlush, closing]

theorem leave_plain (c : Call V E H F) (won : Bool) :
    todo (c.leave won) = ([] : List (Awaiter H F)) ∧ inFlush (c.leave won) = false ∧
      closing (c.leave won) = false ∧ ∀ site, c.leave won ≠ .onResolved site := by
  cases c <;> simp [Call.leave, todo, inFlush, closing]

theorem flush_delivery {s : State V E H F} {i : Nat} {c : Call V E H F} {site : Site}
    (inv : Delivery s) (here : s.acts[i]? = some ⟨c, .onResolved site⟩)
    (clear : s.handle = false) :
    Delivery (s.takeAwaiters.goto i c (.flush site s.selfOwned s.awaiters)) := by
  have done := inv.resolving i _ site here rfl
  have idle : s.awaiters ≠ [] → ∀ (j : Nat) (x : Activation V E H F), s.acts[j]? = some x →
      todo x.pc = [] := by
    intro waiting j x hx
    refine todo_of_inFlush (Bool.eq_false_iff.mpr fun running => waiting ?_)
    exact (inv.flushed (.inl ⟨j, x, hx, running⟩)).2.2
  have moved : inflight (s.acts.set i ⟨c, .flush site s.selfOwned s.awaiters⟩) =
      inflight s.acts ++ s.awaiters := by
    by_cases waiting : s.awaiters = []
    · rw [waiting, List.append_nil]
      exact inflight_set here rfl
    · have none_ := inflight_single (i := i) fun j x hx _ => idle waiting j x hx
      rw [inflight_split here, inflight_self here, none_.1, none_.2]
      simp [todo]
  refine ⟨?_, inv.sorted, inv.bound, inv.removedBound, ?_, ?_, ?_,
    fun _ => ⟨done, clear, rfl⟩, fun _ _ => .inl rfl⟩
  · intro j x hx
    rcases set_lookup here hx with ⟨_, rfl⟩ | ⟨_, hx⟩
    · exact inv.nonnull i ⟨c, .onResolved site⟩ here
    · exact inv.nonnull j x hx
  · have ledger := inv.ledger
    simp only [goto_acts, goto_invoked, goto_awaiters, goto_registered, goto_removed,
      State.takeAwaiters]
    rw [moved, ledger]
    simp
  · intro j k x y hx hy px py
    rcases set_lookup here hx with ⟨rfl, rfl⟩ | ⟨_, hx'⟩ <;>
      rcases set_lookup here hy with ⟨rfl, rfl⟩ | ⟨_, hy'⟩
    · rfl
    · exact absurd (idle px k y hy') py
    · exact absurd (idle py j x hx') px
    · exact inv.single j k x y hx' hy' px py
  · intro j x site' hx at_
    rcases set_lookup here hx with ⟨_, rfl⟩ | ⟨_, hx⟩
    · simp at at_
    · exact inv.resolving j x site' hx at_

theorem invoke_delivery {s : State V E H F} {i : Nat} {c : Call V E H F} {site : Site}
    {saveSelf : Bool} {a : Awaiter H F} {rest : List (Awaiter H F)} (inv : Delivery s)
    (here : s.acts[i]? = some ⟨c, .flush site saveSelf (a :: rest)⟩) :
    Delivery ({ s with invoked := s.invoked ++ [a] }.goto i c (.flush site saveSelf rest)) := by
  obtain ⟨done, clear, none_⟩ := inv.flushed (.inl ⟨i, _, here, rfl⟩)
  have others : ∀ (j : Nat) (x : Activation V E H F), s.acts[j]? = some x → j ≠ i →
      todo x.pc = [] := by
    intro j x hx other
    by_contra busy
    exact other (inv.single j i x _ hx here busy (by simp [todo]))
  have alone := inflight_single others
  refine ⟨?_, inv.sorted, inv.bound, inv.removedBound, ?_, ?_, ?_,
    fun _ => ⟨done, clear, none_⟩, fun _ _ => .inl none_⟩
  · intro j x hx
    rcases set_lookup here hx with ⟨_, rfl⟩ | ⟨_, hx⟩
    · exact inv.nonnull i ⟨c, .flush site saveSelf (a :: rest)⟩ here
    · exact inv.nonnull j x hx
  · have ledger := inv.ledger
    rw [inflight_self here, alone.1, alone.2] at ledger
    simp only [goto_acts, goto_invoked, goto_awaiters, goto_registered, goto_removed]
    rw [inflight_split here, alone.1, alone.2, ledger]
    simp [todo]
  · intro j k x y hx hy px py
    rcases set_lookup here hx with ⟨rfl, rfl⟩ | ⟨other, hx'⟩ <;>
      rcases set_lookup here hy with ⟨rfl, rfl⟩ | ⟨other', hy'⟩
    · rfl
    · exact absurd (others k y hy' other') py
    · exact absurd (others j x hx' other) px
    · exact inv.single j k x y hx' hy' px py
  · intro j x site' hx at_
    rcases set_lookup here hx with ⟨_, rfl⟩ | ⟨_, hx⟩
    · simp at at_
    · exact inv.resolving j x site' hx at_


theorem kept_snoc {registered : List (Awaiter H F)} {removed : List Nat} {a : Awaiter H F}
    (fresh : a.id ∉ removed) :
    kept (registered ++ [a]) removed = kept registered removed ++ [a] := by
  simp [kept, fresh]

theorem kept_cons (registered : List (Awaiter H F)) (removed : List Nat) (id : Nat) :
    kept registered (id :: removed) = (kept registered removed).filter fun a => a.id != id := by
  rw [kept, kept, List.filter_filter]
  refine List.filter_congr fun a _ => ?_
  by_cases same : a.id = id <;> simp [same]

theorem erase_id {awaiters : List (Awaiter H F)} {id : Nat}
    (sorted : (awaiters.map (·.id)).Pairwise (· < ·))
    (found : awaiters.any (fun a => a.isFunction && a.id == id) = true) :
    awaiters.eraseP (fun a => a.isFunction && a.id == id) =
      awaiters.filter fun a => a.id != id := by
  induction awaiters with
  | nil => rfl
  | cons a rest ih =>
    simp only [List.map_cons, List.pairwise_cons, List.mem_map, forall_exists_index, and_imp,
      forall_apply_eq_imp_iff₂] at sorted
    obtain ⟨later, sorted⟩ := sorted
    by_cases hit : (a.isFunction && a.id == id) = true
    · have here : a.id = id := by simpa using (Bool.and_eq_true_iff.mp hit).2
      have rest_kept : rest.filter (fun b => b.id != id) = rest := by
        refine List.filter_eq_self.mpr fun b member => ?_
        have after := later b member
        simp only [bne_iff_ne, ne_eq]
        omega
      have erased : (a :: rest).eraseP (fun a => a.isFunction && a.id == id) = rest :=
        List.eraseP_cons_of_pos hit
      rw [erased, List.filter_cons_of_neg (by simp [here]), rest_kept]
    · have found : rest.any (fun b => b.isFunction && b.id == id) = true := by
        simpa [hit] using found
      obtain ⟨b, member, is⟩ := List.any_eq_true.mp found
      have after := later b member
      have there : b.id = id := by simpa using (Bool.and_eq_true_iff.mp is).2
      have differs : (a.id != id) = true := by
        simp only [bne_iff_ne, ne_eq]
        omega
      have erased : (a :: rest).eraseP (fun a => a.isFunction && a.id == id) =
          a :: rest.eraseP (fun a => a.isFunction && a.id == id) :=
        List.eraseP_cons_of_neg hit
      rw [erased, ih sorted found]
      simp only [List.filter_cons, differs, if_true]

theorem kept_sorted {registered : List (Awaiter H F)} (removed : List Nat)
    (sorted : (registered.map (·.id)).Pairwise (· < ·)) :
    ((kept registered removed).map (·.id)).Pairwise (· < ·) :=
  sorted.sublist (List.filter_sublist.map _)

theorem waiting_idle {s : State V E H F} (inv : Delivery s) (waiting : s.awaiters ≠ []) :
    s.invoked = [] ∧ inflight s.acts = [] := by
  constructor
  · by_contra ran
    exact waiting (inv.flushed (.inr ran)).2.2
  · refine inflight_none fun j x hx => todo_of_inFlush (Bool.eq_false_iff.mpr fun busy => ?_)
    exact waiting (inv.flushed (.inl ⟨j, x, hx, busy⟩)).2.2

theorem register_delivery {s : State V E H F} (inv : Delivery s) (t : Target H F)
    (pending : s.isDone = false) : Delivery (s.register t) where
  nonnull := inv.nonnull
  sorted := by
    simp only [State.register, List.map_append, List.map_cons, List.map_nil]
    refine List.pairwise_append.mpr ⟨inv.sorted, by simp, ?_⟩
    intro x hx y hy
    obtain ⟨a, member, rfl⟩ := List.mem_map.mp hx
    have below := inv.bound a member
    simp only [List.mem_singleton] at hy
    omega
  bound := by
    intro a member
    rcases List.mem_append.mp member with old | new
    · exact Nat.le_succ_of_le (inv.bound a old)
    · simp only [List.mem_singleton] at new
      simp [new, State.register]
  removedBound := fun id member => Nat.le_succ_of_le (inv.removedBound id member)
  ledger := by
    have fresh : s.useCount + 1 ∉ s.removed := by
      intro member
      have below := inv.removedBound _ member
      omega
    simp only [State.register]
    rw [kept_snoc fresh, inv.ledger]
    simp
  single := inv.single
  resolving := inv.resolving
  flushed := by
    intro running
    have done := (inv.flushed running).1
    simp [pending] at done
  settled := by
    intro done
    change s.isDone = true at done
    simp [pending] at done

theorem unAwait_delivery {s : State V E H F} (inv : Delivery s) (id : Nat)
    (found : s.awaiters.any (fun a => a.isFunction && a.id == id) = true) :
    Delivery { s with
      awaiters := s.awaiters.eraseP (fun a => a.isFunction && a.id == id)
      removed := id :: s.removed } := by
  have waiting : s.awaiters ≠ [] := by
    rintro none_
    simp [none_] at found
  obtain ⟨invoked, idle⟩ := waiting_idle inv waiting
  have all : kept s.registered s.removed = s.awaiters := by
    rw [inv.ledger, invoked, idle]
    rfl
  refine ⟨inv.nonnull, inv.sorted, inv.bound, ?_, ?_, inv.single, inv.resolving, ?_, ?_⟩
  · intro k member
    rcases List.mem_cons.mp member with rfl | old
    · obtain ⟨a, member, is⟩ := List.any_eq_true.mp found
      have here : a.id = k := by simpa using (Bool.and_eq_true_iff.mp is).2
      have registered : a ∈ s.registered := List.mem_of_mem_filter (all ▸ member)
      exact here ▸ inv.bound a registered
    · exact inv.removedBound k old
  · have sorted := kept_sorted s.removed inv.sorted
    rw [all] at sorted
    simp only
    rw [kept_cons, all, erase_id sorted found, invoked, idle]
    rfl
  · intro running
    exact absurd (inv.flushed running).2.2 waiting
  · intro done clear
    rcases inv.settled done clear with none_ | closing
    · exact absurd none_ waiting
    · exact .inr closing

theorem lockedBody_delivery {s t : State V E H F} {c : Call V E H F} {result : Bool}
    (inv : Delivery s) (h : lockedBody s c = some (t, result)) :
    Delivery t ∧ t.acts = s.acts := by
  cases c <;> simp only [lockedBody, reduceCtorEq] at h <;> (try split at h) <;>
    simp only [Option.some.injEq, Prod.mk.injEq] at h <;> obtain ⟨rfl, -⟩ := h
  case awaitSuspend.isFalse target pending =>
    exact ⟨register_delivery inv _ (by simpa using pending), rfl⟩
  case await.isFalse target pending =>
    exact ⟨register_delivery inv _ (by simpa using pending), rfl⟩
  case unAwait.isTrue id found => exact ⟨unAwait_delivery inv id found, rfl⟩
  case raceSkip =>
    refine ⟨?_, rfl⟩
    exact { inv with
      bound := fun a member => Nat.le_succ_of_le (inv.bound a member)
      removedBound := fun id member => Nat.le_succ_of_le (inv.removedBound id member) }
  all_goals exact ⟨{ inv with }, rfl⟩

theorem put_done {s : State V E H F} {p : Payload V E} (real : p ≠ .exception none) :
    (s.put p).isDone = true := by
  rcases p with v | (_ | e)
  · simp [State.put, State.isDone]
  · exact absurd rfl real
  · simp [State.put, State.isDone]

theorem put_lists (s : State V E H F) (p : Payload V E) :
    (s.put p).registered = s.registered ∧ (s.put p).removed = s.removed ∧
      (s.put p).invoked = s.invoked ∧ (s.put p).awaiters = s.awaiters ∧
      (s.put p).useCount = s.useCount ∧ (s.put p).handle = s.handle ∧
      (s.put p).acts = s.acts := by
  cases p <;> simp [State.put]

theorem move_delivery {s t : State V E H F} {i : Nat} {c : Call V E H F} {pc : Pc H F}
    (inv : Delivery s) (here : s.acts[i]? = some ⟨c, pc⟩) (m : Move s i c pc t) :
    Delivery t := by
  cases m with
  | rejectLost | rejectFirst | claim | pin | expire | settleLock | throw | scopeLock
  | acquire | destroyDone | destroyWait | destroyWoken =>
    exact frame_delivery inv here rfl rfl rfl rfl rfl (Nat.le_refl _) id id rfl (by simp [inFlush])
      (by simp) (.inr fun d h => ⟨d, h, rfl⟩)
  | lost payload set =>
    obtain ⟨same, flush, _, open_⟩ := leave_plain c false
    exact frame_delivery inv here rfl rfl rfl rfl rfl (Nat.le_refl _) id id same (by simp [flush])
      (fun site at_ => absurd at_ (open_ site)) (.inr fun d h => ⟨d, h, rfl⟩)
  | store p payload total =>
    have real : p ≠ .exception none := by
      rintro rfl
      exact inv.nonnull i _ here payload
    have done : (s.put p).isDone = true := put_done real
    obtain ⟨registered, removed, invoked, awaiters, count, handle, acts⟩ := put_lists s p
    have next : ((s.put p).goto i c (.onResolved .settle)).acts =
        s.acts.set i ⟨c, .onResolved .settle⟩ := by rw [goto_acts, acts]
    exact frame_delivery inv here next registered removed invoked awaiters (Nat.le_of_eq count.symm)
      (fun _ => done) (fun h => handle.trans h) rfl (by simp [inFlush])
      (fun _ _ => done) (.inl rfl)
  | noFlush site live =>
    obtain ⟨same, flush, _, open_⟩ := after_plain c site
    exact frame_delivery inv here rfl rfl rfl rfl rfl (Nat.le_refl _) id id same (by simp [flush])
      (fun site' at_ => absurd at_ (open_ site'))
      (.inr fun _ h => absurd (show s.handle = false from h) (by simp [live]))
  | flush site clear => exact flush_delivery inv here clear
  | invoke site saveSelf a rest => exact invoke_delivery inv here
  | flushed site saveSelf =>
    obtain ⟨same, flush, _, open_⟩ := after_plain c site
    exact frame_delivery inv here rfl rfl rfl rfl rfl (Nat.le_refl _) id id same (by simp [flush])
      (fun site' at_ => absurd at_ (open_ site')) (.inr fun d h => ⟨d, h, rfl⟩)
  | scopeClear won =>
    exact frame_delivery inv here rfl rfl rfl rfl rfl (Nat.le_refl _) id (fun _ => rfl) rfl
      (by simp [inFlush]) (by simp) (.inl rfl)
  | block | release | wake =>
    exact frame_delivery inv here rfl rfl rfl rfl rfl (Nat.le_refl _) id id rfl (by simp [inFlush])
      (by simp) (.inl rfl)
  | scopeDone won done =>
    exact frame_delivery inv here rfl rfl rfl rfl rfl (Nat.le_refl _) id id rfl (by simp [inFlush])
      (fun _ _ => done) (.inl rfl)
  | scopePending won pending =>
    refine frame_delivery inv here rfl rfl rfl rfl rfl (Nat.le_refl _) id id rfl (by simp [inFlush])
      (by simp) (.inr fun d _ => ?_)
    change s.isDone = true at d
    simp [pending] at d
  | body u result run =>
    obtain ⟨kept, acts⟩ := lockedBody_delivery inv run
    rw [← acts] at here
    exact frame_delivery kept here rfl rfl rfl rfl rfl (Nat.le_refl _) id id rfl
      (by simp [inFlush]) (by simp) (.inr fun d h => ⟨d, h, rfl⟩)

theorem append_delivery {s t : State V E H F} {more : List (Activation V E H F)}
    (inv : Delivery s) (acts : t.acts = s.acts ++ more)
    (plain : ∀ a ∈ more, a.call.payload ≠ some (.exception none) ∧ inFlush a.pc = false ∧
      ∀ site, a.pc ≠ .onResolved site)
    (registered : t.registered = s.registered) (removed : t.removed = s.removed)
    (invoked : t.invoked = s.invoked) (awaiters : t.awaiters = s.awaiters)
    (count : t.useCount = s.useCount) (done : t.isDone = s.isDone)
    (handle : t.handle = s.handle) : Delivery t := by
  have old : ∀ (j : Nat) (x : Activation V E H F), t.acts[j]? = some x →
      s.acts[j]? = some x ∨ x ∈ more := by
    intro j x hx
    rw [acts, List.getElem?_append] at hx
    split at hx
    · exact .inl hx
    · exact .inr (List.mem_of_getElem? hx)
  have busy : ∀ (j : Nat) (x : Activation V E H F), t.acts[j]? = some x →
      inFlush x.pc = true → s.acts[j]? = some x := by
    intro j x hx px
    rcases old j x hx with hx | new
    · exact hx
    · simp [(plain x new).2.1] at px
  have idle : inflight more = [] := by
    rw [inflight, List.flatMap_eq_nil_iff]
    exact fun a member => todo_of_inFlush (plain a member).2.1
  have running : ∀ pc : Pc H F, todo pc ≠ [] → inFlush pc = true := by
    intro pc h
    by_contra out
    exact h (todo_of_inFlush (by simpa using out))
  refine ⟨?_, registered ▸ inv.sorted, ?_, ?_, ?_, ?_, ?_, ?_, ?_⟩
  · intro j x hx
    rcases old j x hx with hx | new
    · exact inv.nonnull j x hx
    · exact (plain x new).1
  · rw [registered, count]
    exact inv.bound
  · rw [removed, count]
    exact inv.removedBound
  · have split_ : inflight (s.acts ++ more) = inflight s.acts := by
      rw [inflight, List.flatMap_append]
      exact (congrArg _ idle).trans (List.append_nil _)
    rw [registered, removed, invoked, awaiters, acts, split_]
    exact inv.ledger
  · intro j k x y hx hy px py
    exact inv.single j k x y (busy j x hx (running _ px)) (busy k y hy (running _ py)) px py
  · intro j x site hx at_
    rw [done]
    rcases old j x hx with hx | new
    · exact inv.resolving j x site hx at_
    · exact absurd at_ ((plain x new).2.2 site)
  · intro ran
    rw [done, handle, awaiters]
    refine inv.flushed ?_
    rcases ran with ⟨j, x, hx, px⟩ | ran
    · exact .inl ⟨j, x, busy j x hx px, px⟩
    · exact .inr (invoked ▸ ran)
  · intro d h
    rw [done] at d
    rw [handle] at h
    rcases inv.settled d h with none_ | ⟨j, x, hx, px⟩
    · exact .inl (awaiters.trans none_)
    · exact .inr ⟨j, x, by rw [acts]; exact lookup_append hx _, px⟩

theorem entry_plain (c : Call V E H F) :
    inFlush c.entry = false ∧ ∀ site, c.entry ≠ (.onResolved site : Pc H F) := by
  cases c with
  | finalSuspend e => cases e <;> simp [Call.entry, Completion.payload, inFlush]
  | _ => simp [Call.entry, inFlush]

theorem nonNull_payload {c : Call V E H F} (h : nonNull (.call c) = true) :
    c.payload ≠ some (.exception none) := by
  cases c with
  | reject e | resolverReject e =>
    rintro payload
    simp only [Call.payload, Option.some.injEq, Payload.exception.injEq] at payload
    simp [payload, nonNull] at h
  | finalSuspend e => cases e <;> simp [Call.payload, Completion.payload]
  | _ => simp [Call.payload]

theorem step_delivery {s t : State V E H F} {l : Label V E H F} (inv : Delivery s)
    (real : nonNull l = true) (h : step s l = some t) : Delivery t := by
  cases step_change h with
  | call c started =>
    have entry := entry_plain c
    have plain : ∀ a ∈ [(⟨c, c.entry⟩ : Activation V E H F)],
        a.call.payload ≠ some (.exception none) ∧ inFlush a.pc = false ∧
        ∀ site, a.pc ≠ .onResolved site := by
      intro a member
      rw [List.mem_singleton.mp member]
      exact ⟨nonNull_payload real, entry.1, entry.2⟩
    cases started <;> exact append_delivery inv rfl plain rfl rfl rfl rfl rfl rfl rfl
  | step i c pc here move => exact move_delivery inv here move
  | copy k live same | move k live same | overwrite k live same | other k c later same =>
    subst same
    exact append_delivery inv (List.append_nil _).symm (by simp) rfl rfl rfl rfl rfl rfl rfl

theorem stepNonNull_taken {s t : State V E H F} {l : Label V E H F}
    (h : stepNonNull s l = some t) : nonNull l = true ∧ step s l = some t := by
  unfold stepNonNull at h
  split at h
  · exact ⟨‹_›, h⟩
  · simp at h

theorem reached_delivery {s : State V E H F} (h : ReachedNonNull s) : Delivery s :=
  reachable_invariant initial_delivery (fun _ _ _ inv taken =>
    step_delivery inv (stepNonNull_taken taken).1 (stepNonNull_taken taken).2) h

/-- What the rest of a flush does: it runs the awaiters it holds and changes nothing else. -/
structure Flushed (i : Nat) (c : Call V E H F) (site : Site) (rest : List (Awaiter H F))
    (s t : State V E H F) : Prop where
  act : t.acts[i]? = some ⟨c, c.after site⟩
  invoked : t.invoked = s.invoked ++ rest
  awaiters : t.awaiters = s.awaiters
  handle : t.handle = s.handle
  function : t.function = s.function
  mutex : t.mutex = s.mutex
  value : t.value = s.value
  exception : t.exception = s.exception

/-- The activation in a flush needs no other step to run all its awaiters. -/
theorem flush_run {s : State V E H F} {i : Nat} {c : Call V E H F} {site : Site}
    {saveSelf : Bool} {rest : List (Awaiter H F)}
    (here : s.acts[i]? = some ⟨c, .flush site saveSelf rest⟩) :
    ∃ t, run step s (List.replicate (rest.length + 1) (.step i)) = some t ∧
      Flushed i c site rest s t := by
  induction rest generalizing s with
  | nil =>
    have only : step s (.step i) = some (s.goto i c (c.after site)) := by
      rw [step_act here]
      rfl
    exact ⟨_, run_cons only rfl, lookup_set here, (List.append_nil _).symm, rfl, rfl, rfl, rfl,
      rfl, rfl⟩
  | cons a rest ih =>
    have next : ({ s with invoked := s.invoked ++ [a] }.goto i c
        (.flush site saveSelf rest)).acts[i]? = some ⟨c, .flush site saveSelf rest⟩ :=
      lookup_set here
    obtain ⟨t, taken, flushed⟩ := ih next
    have first : step s (.step i) = some ({ s with invoked := s.invoked ++ [a] }.goto i c
        (.flush site saveSelf rest)) := by
      rw [step_act here]
      rfl
    refine ⟨t, run_cons first taken, { flushed with invoked := ?_ }⟩
    rw [flushed.invoked]
    simp

def destroys : Pc H F → List Nat
  | .scopeDestroy _ captured => captured
  | .scopeWait _ j captured => j :: captured
  | _ => []

theorem onResolved_run {s : State V E H F} {i : Nat} {c : Call V E H F} {site : Site}
    (here : s.acts[i]? = some ⟨c, .onResolved site⟩) (clear : s.handle = false) :
    ∃ n t, run step s (List.replicate n (.step i)) = some t ∧
      t.invoked = s.invoked ++ s.awaiters ∧ t.awaiters = [] := by
  have first : step s (.step i) =
      some (s.takeAwaiters.goto i c (.flush site s.selfOwned s.awaiters)) := by
    simp [step, here, advance, onResolvedStep, clear]
  have next : (s.takeAwaiters.goto i c (.flush site s.selfOwned s.awaiters)).acts[i]? =
      some ⟨c, .flush site s.selfOwned s.awaiters⟩ := lookup_set here
  obtain ⟨t, rest, flushed⟩ := flush_run next
  exact ⟨s.awaiters.length + 1 + 1, t, run_cons first rest, flushed.invoked, flushed.awaiters⟩

theorem closing_run {s : State V E H F} {i : Nat} {c : Call V E H F} {pc : Pc H F}
    (here : s.acts[i]? = some ⟨c, pc⟩) (inside : closing pc = true) (done : s.isDone = true)
    (clear : s.handle = false) (finished : ∀ j ∈ destroys pc, s.others j = .finished) :
    ∃ n t, run step s (List.replicate n (.step i)) = some t ∧
      t.invoked = s.invoked ++ s.awaiters ∧ t.awaiters = [] := by
  have destroy : ∀ (captured : List Nat) (won : Bool) (s : State V E H F),
      s.acts[i]? = some ⟨c, .scopeDestroy won captured⟩ → s.isDone = true → s.handle = false →
      (∀ j ∈ captured, s.others j = .finished) →
      ∃ n t, run step s (List.replicate n (.step i)) = some t ∧
        t.invoked = s.invoked ++ s.awaiters ∧ t.awaiters = [] := by
    intro captured
    induction captured with
    | nil =>
      intro won s here done clear _
      have first : step s (.step i) = some (s.goto i c (.onResolved (.scopeExit won))) := by
        simp [step, here, advance, scopeExitStep, done]
      have next : (s.goto i c (.onResolved (.scopeExit won))).acts[i]? =
          some ⟨c, .onResolved (.scopeExit won)⟩ := lookup_set here
      obtain ⟨n, t, rest, result⟩ := onResolved_run next clear
      exact ⟨n + 1, t, run_cons first rest, result⟩
    | cons j rest ih =>
      intro won s here done clear finished
      have first : step s (.step i) = some (s.goto i c (.scopeDestroy won rest)) := by
        simp [step, here, advance, scopeExitStep, finished j List.mem_cons_self]
      obtain ⟨n, t, tail, result⟩ := ih won (s.goto i c (.scopeDestroy won rest))
        (lookup_set here) done clear fun k member => finished k (List.mem_cons_of_mem _ member)
      exact ⟨n + 1, t, run_cons first tail, result⟩
  cases pc with
  | onResolved site => exact onResolved_run here clear
  | scopeDestroy won captured => exact destroy captured won s here done clear finished
  | scopeWait won j captured =>
    have first : step s (.step i) = some (s.goto i c (.scopeDestroy won captured)) := by
      simp [step, here, advance, scopeExitStep, finished j List.mem_cons_self]
    obtain ⟨n, t, tail, result⟩ := destroy captured won (s.goto i c (.scopeDestroy won captured))
      (lookup_set here) done clear fun k member => finished k (List.mem_cons_of_mem _ member)
    exact ⟨n + 1, t, run_cons first tail, result⟩
  | _ => simp [closing] at inside

theorem invoked_kept {s : State V E H F} (inv : Delivery s) :
    s.invoked.Sublist (kept s.registered s.removed) := by
  rw [inv.ledger, List.append_assoc]
  exact List.sublist_append_left _ _

theorem quiet_delivered {s : State V E H F} (inv : Delivery s) (done : s.isDone = true)
    (clear : s.handle = false) (quiet : ¬Flushing s) :
    s.awaiters = [] ∧ s.invoked = kept s.registered s.removed := by
  have none_ : s.awaiters = [] := by
    rcases inv.settled done clear with none_ | ⟨i, a, here, inside⟩
    · exact none_
    · exact absurd ⟨i, a, here, .inr inside⟩ quiet
  have idle : inflight s.acts = [] := by
    refine inflight_none fun j x hx => todo_of_inFlush (Bool.eq_false_iff.mpr fun busy => ?_)
    exact quiet ⟨j, x, hx, .inl busy⟩
  refine ⟨none_, ?_⟩
  rw [inv.ledger, none_, idle]
  simp

/-- Exactly-once, in-order delivery: the ledger of every reachable state, and the runs that
    complete a delivery that is under way. -/
theorem ordered_delivery {s : State V E H F} (reached : ReachedNonNull s) :
    (s.invoked.map (·.id)).Pairwise (· < ·) ∧
    (∀ a ∈ s.invoked, a ∈ s.registered ∧ a.id ∉ s.removed) ∧
    kept s.registered s.removed = s.invoked ++ inflight s.acts ++ s.awaiters ∧
    (s.invoked ≠ [] → s.isDone = true) ∧
    (s.isDone = true → s.handle = false → ¬Flushing s →
      s.awaiters = [] ∧ s.invoked = kept s.registered s.removed) ∧
    (∀ (i : Nat) (c : Call V E H F) (site : Site) (saveSelf : Bool) (rest : List (Awaiter H F)),
      s.acts[i]? = some ⟨c, .flush site saveSelf rest⟩ →
      ∃ n t, run step s (List.replicate n (.step i)) = some t ∧
        t.invoked = s.invoked ++ rest ∧ t.acts[i]? = some ⟨c, c.after site⟩) ∧
    (s.isDone = true → s.handle = false → s.awaiters ≠ [] →
      ∃ (i : Nat) (a : Activation V E H F), s.acts[i]? = some a ∧ closing a.pc = true ∧
        ((∀ j ∈ destroys a.pc, s.others j = .finished) →
          ∃ n t, run step s (List.replicate n (.step i)) = some t ∧
            t.invoked = s.invoked ++ s.awaiters ∧ t.awaiters = [])) := by
  have inv := reached_delivery reached
  have sub := invoked_kept inv
  refine ⟨?_, ?_, inv.ledger, fun ran => (inv.flushed (.inr ran)).1, quiet_delivered inv, ?_, ?_⟩
  · exact (kept_sorted s.removed inv.sorted).sublist (sub.map _)
  · intro a member
    have survives := sub.subset member
    refine ⟨List.mem_of_mem_filter survives, ?_⟩
    simpa using (List.mem_filter.mp survives).2
  · intro i c site saveSelf rest here
    obtain ⟨t, taken, flushed⟩ := flush_run here
    exact ⟨_, t, taken, flushed.invoked, flushed.act⟩
  · intro done clear waiting
    rcases inv.settled done clear with none_ | ⟨i, ⟨c, pc⟩, here, inside⟩
    · exact absurd none_ waiting
    · exact ⟨i, ⟨c, pc⟩, here, inside, closing_run here inside done clear⟩

theorem flushing_any {s : State V E H F} (h : Flushing s) :
    s.acts.any (fun a => inFlush a.pc || closing a.pc) = true := by
  obtain ⟨i, a, here, busy⟩ := h
  refine List.any_eq_true.mpr ⟨a, List.mem_of_getElem? here, ?_⟩
  simpa using busy

/-- The resolver settles a coroutine promise while the coroutine is still running; one of
    three awaiters is removed before its end delivers the rest. -/
def resolvedThenFinished : List (Label Nat Nat Nat Nat) :=
  [.call (.await 10), .step 0, .step 0, .call (.awaitSuspend 11), .step 1, .step 1,
    .call (.await 12), .step 2, .step 2, .call (.unAwait 1), .step 3, .step 3,
    .call (.resolve 7 false), .step 4, .step 4, .step 4, .step 4, .step 4,
    .call (.finalSuspend .resolverReturned), .step 5, .step 5, .step 5, .step 5, .step 5,
    .step 5, .step 5]

theorem ordered_delivery_finished :
    ∃ s, run stepNonNull (initial true [] fun _ => .pending) resolvedThenFinished = some s ∧
      s.invoked.map (·.id) = [2, 3] ∧ s.awaiters = [] ∧
      s.invoked = kept s.registered s.removed := by
  refine ⟨_, rfl, rfl, ?_⟩
  have reached : ReachedNonNull (V := Nat) (E := Nat) (H := Nat) (F := Nat) _ :=
    run_reachable (.start ⟨true, [], fun _ => .pending, rfl⟩)
      (show run stepNonNull (initial true [] fun _ => .pending) resolvedThenFinished = some _
        from rfl)
  refine (ordered_delivery reached).2.2.2.2.1 rfl rfl fun busy => ?_
  exact absurd (flushing_any busy) Bool.false_ne_true

end OrderedDelivery
