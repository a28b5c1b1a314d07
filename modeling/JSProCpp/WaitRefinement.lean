import JSProCpp.WaitSets
import JSProCpp.SettleOnce
import JSProCpp.CellRefinement

/-
The promise with `cv_` refines the one without it. The statements of a critical section are one
step there, and a thread that only waits takes none, so that whatever holds of the states that a
promise can reach holds here as well.
-/
namespace WaitSets
open Transitions Monitors
open PromiseCells (Outcome)
open OrderedDelivery (stepNonNull ReachedNonNull)
open CellRefinement (calls)
open Completion (nonNull_reached)
open SharedPromise (Awaiter Captured Target Site)
variable {V E H F : Type}

/-- A `Reject` handle takes an exception, and only building a value can throw. -/
def Call.lawful : Call (Outcome V E) H F → Bool
  | .reject (.value _) => false
  | .resolve (.exception _) throws => !throws
  | _ => true

def Call.onlyWaits : Call (Outcome V E) H F → Bool
  | .waitDone | .waitAwaited _ => true
  | _ => false

def Call.seen : Call (Outcome V E) H F → SharedPromise.Call V E H F
  | .waitDone | .waitAwaited _ => .unAwait 0
  | .resolve (.value v) throws => .resolve v throws
  | .resolve (.exception e) _ => .resolverReject (some e)
  | .reject (.value v) => .resolve v false
  | .reject (.exception e) => .reject (some e)
  | .finalSuspend none => .finalSuspend .resolverReturned
  | .finalSuspend (some (.value v)) => .finalSuspend (.returned v)
  | .finalSuspend (some (.exception e)) => .finalSuspend (.threw e)
  | .awaitSuspend h => .awaitSuspend h
  | .await f => .await f
  | .raceSkip => .raceSkip
  | .unAwait id => .unAwait id

def Pc.seen : Pc H F → SharedPromise.Pc H F
  | .lockShared | .lastCount _ | .test _ | .sleep _ | .asleep _ => .acquire
  | .rejected => .rejected
  | .exchange => .exchange
  | .lock => .lock
  | .store => .store
  | .onResolved site | .notify site | .swap site => .onResolved site
  | .flush site todo => .flush site false todo
  | .scopeLock won => .scopeLock won
  | .scopeClear won => .scopeClear won
  | .scopeDestroy won captured => .scopeDestroy won captured
  | .scopeWait won k captured => .scopeWait won k captured
  | .scopeNotify won | .scopeDone won => .scopeDestroy won []
  | .acquire => .acquire
  | .isDone | .count | .notifyAwaited | .emplace | .erase => .locked
  | .returned result => .returned result
  | .threw => .threw

def Thread.seen (x : Thread (Outcome V E) H F) : SharedPromise.Activation V E H F :=
  ⟨x.call.seen, if x.call.onlyWaits then .acquire else x.pc.seen⟩

/-- `use_count_` is raised, and the awaiter that it counts is not in the list yet. -/
def Pc.counted : Pc H F → Bool
  | .notifyAwaited | .emplace => true
  | _ => false

def counting (s : State (Outcome V E) H F) : Bool := s.threads.any fun x => x.pc.counted

def value? : Outcome V E → Option V
  | .value v => some v
  | .exception _ => none

def exception? : Outcome V E → Option E
  | .value _ => none
  | .exception e => some e

def payload : Outcome V E → SharedPromise.Payload V E
  | .value v => .value v
  | .exception e => .exception (some e)

def view (s : State (Outcome V E) H F) (useCount : Nat) : SharedPromise.State V E H F where
  resolved := s.resolved
  rejected := s.rejected
  value := s.outcome.bind value?
  exception := s.outcome.bind exception?
  handle := s.handle
  function := s.function
  selfOwned := false
  awaiters := s.awaiters
  useCount := useCount
  mutex := s.mutex.writer
  running := s.running
  handles := [.live]
  others := s.others
  acts := s.threads.map Thread.seen
  registered := s.registered
  removed := s.removed
  invoked := s.invoked

/-- The promise between the critical sections; its handle is the one that keeps the state alive. -/
def State.seen (s : State (Outcome V E) H F) : SharedPromise.State V E H F :=
  view s (s.useCount - (counting s).toNat)

section Calls
variable {c : Call (Outcome V E) H F}

theorem seen_payload (lawful : c.lawful = true) {o : Outcome V E} (settles : c.payload = some o) :
    c.seen.payload = some (payload o) := by
  cases c with
  | resolve o' throws =>
    cases settles
    cases o <;> rfl
  | reject o' =>
    cases settles
    cases o with
    | value v => cases lawful
    | exception e => rfl
  | finalSuspend delayedReturn =>
    cases settles
    cases o <;> rfl
  | _ => cases settles

theorem seen_throws (lawful : c.lawful = true) : c.seen.throws = c.throws := by
  cases c with
  | resolve o throws =>
    cases o with
    | value v => rfl
    | exception e => exact ((Bool.not_eq_true' _).mp lawful).symm
  | reject o => cases o <;> rfl
  | finalSuspend delayedReturn => rcases delayedReturn with _ | (_ | _) <;> rfl
  | _ => rfl

theorem seen_leave (won : Bool) : c.seen.leave won = (c.leave won).seen := by
  cases c with
  | resolve o throws => cases o <;> rfl
  | reject o => cases o <;> rfl
  | finalSuspend delayedReturn => rcases delayedReturn with _ | (_ | _) <;> rfl
  | _ => rfl

theorem seen_after (site : Site) : c.seen.after site = (c.after site).seen := by
  cases site with
  | settle => exact seen_leave true
  | scopeExit won => rfl

theorem seen_entry (lawful : c.lawful = true) :
    (⟨c.seen, c.seen.entry⟩ : SharedPromise.Activation V E H F) = Thread.seen ⟨c, c.entry⟩ := by
  cases c with
  | resolve o throws => cases o <;> rfl
  | reject o =>
    cases o with
    | value v => cases lawful
    | exception e => rfl
  | finalSuspend delayedReturn => rcases delayedReturn with _ | (_ | _) <;> rfl
  | _ => rfl

end Calls

def Call.locks : Call (Outcome V E) H F → Bool
  | .awaitSuspend _ | .await _ | .raceSkip | .unAwait _ => true
  | _ => false

def Pc.counts : Pc H F → Bool
  | .count | .notifyAwaited | .emplace => true
  | _ => false

def Visits (c : Call (Outcome V E) H F) : Pc H F → Prop
  | .lockShared | .lastCount _ | .test _ | .sleep _ | .asleep _ => c.onlyWaits = true
  | .rejected | .exchange | .lock | .store => c.payload.isSome = true
  | .acquire => c.locks = true
  | .isDone => c.target.isSome = true
  | .count | .notifyAwaited | .emplace => c.target.isSome = true ∨ c = .raceSkip
  | .erase => ∃ id, c = .unAwait id
  | .returned _ => True
  | _ => c.onlyWaits = false

/-- `handle_` is null from here to the flush. -/
def Pc.closes : Pc H F → Bool
  | .notify _ | .swap _ => true
  | _ => false

structure Fits (s : State (Outcome V E) H F) (x : Thread (Outcome V E) H F) : Prop where
  lawful : x.call.lawful = true
  visits : Visits x.call x.pc
  clear : x.pc.closes = true → s.handle = false
  pending : x.pc.counts = true → x.call.target.isSome = true → s.outcome = none
  counted : x.pc.counted = true → 0 < s.useCount

section Moves
variable {s u : State (Outcome V E) H F} {i : Nat} {c : Call (Outcome V E) H F} {pc pc' : Pc H F}

theorem counts_exclusive (counts : pc.counts = true) : pc.mode = .exclusive := by
  cases pc <;> first | rfl | cases counts

theorem counted_counts (counted : pc.counted = true) : pc.counts = true := by
  cases pc <;> first | rfl | cases counted

theorem move_clear (move : Move s i c pc u pc') (clear : s.handle = false) : u.handle = false := by
  cases move with
  | scopeClear => rfl
  | emplace => exact (register_handle s _).trans clear
  | erase id call => exact (unAwait_handle s id).trans clear
  | _ => exact clear

theorem move_outcome (move : Move s i c pc u pc') :
    u.outcome = s.outcome ∨ pc.mode = .exclusive := by
  cases move with
  | store => exact .inr rfl
  | emplace => exact .inr rfl
  | erase => exact .inr rfl
  | _ => exact .inl rfl

theorem move_count (move : Move s i c pc u pc') : s.useCount ≤ u.useCount := by
  cases move with
  | count => exact Nat.le_succ _
  | emplace => exact Nat.le_of_eq (register_useCount s _).symm
  | erase id call => exact Nat.le_of_eq (unAwait_useCount s id).symm
  | _ => exact Nat.le_refl _

theorem leave_visits (won : Bool) : Visits c (c.leave won) := by
  cases c <;> trivial

theorem after_visits (site : Site) : Visits c (c.after site) := by
  cases site with
  | settle => exact leave_visits true
  | scopeExit won => trivial

theorem settles_acts (settles : c.payload.isSome = true) : c.onlyWaits = false := by
  cases c <;> first | rfl | cases settles

theorem registers_acts (registers : c.target.isSome = true ∨ c = .raceSkip) :
    c.onlyWaits = false := by
  rcases registers with some_ | rfl
  · cases c <;> first | rfl | cases some_
  · rfl

theorem move_visits (visits : Visits c pc) (move : Move s i c pc u pc') : Visits c pc' := by
  cases move with
  | waitLock => cases c <;> first | rfl | cases visits
  | rejectLost | throw | noFlush | waited | inline | emplace | erase | scopePending =>
    first | trivial | exact after_visits _ | exact settles_acts visits
  | lost => exact leave_visits false
  | flushed => exact after_visits _
  | store => exact settles_acts visits
  | acquire => cases c <;> first | rfl | exact .inr rfl | exact ⟨_, rfl⟩ | cases visits
  | pending => exact .inl visits
  | _ => exact visits

theorem closes_exclusive (closes : pc.closes = true) : pc.mode = .exclusive := by
  cases pc <;> first | rfl | cases closes

theorem entry_visits : Visits c c.entry := by
  cases c with
  | finalSuspend delayedReturn => cases delayedReturn <;> rfl
  | _ => rfl

/-- What another thread relies on stays. -/
theorem fits_frame {x : Thread (Outcome V E) H F} (fits : Fits s x)
    (handle : s.handle = false → u.handle = false)
    (outcome : x.pc.counts = true → u.outcome = s.outcome) (count : s.useCount ≤ u.useCount) :
    Fits u x where
  lawful := fits.lawful
  visits := fits.visits
  clear := fun closes => handle (fits.clear closes)
  pending := fun counts registers => (outcome counts).trans (fits.pending counts registers)
  counted := fun counted => Nat.lt_of_lt_of_le (fits.counted counted) count

theorem fits_goto {x : Thread (Outcome V E) H F} (fits : Fits u x) : Fits (u.goto i c pc) x :=
  ⟨fits.lawful, fits.visits, fits.clear, fits.pending, fits.counted⟩

/-- Most statements rely on nothing but their call. -/
theorem fits_plain (lawful : c.lawful = true) (visits : Visits c pc) (closes : pc.closes = false)
    (counts : pc.counts = false) : Fits s ⟨c, pc⟩ := by
  refine ⟨lawful, visits, fun yes => ?_, fun yes => ?_, fun yes => ?_⟩
  · exact absurd (closes.symm.trans yes) Bool.false_ne_true
  · exact absurd (counts.symm.trans yes) Bool.false_ne_true
  · exact absurd (counts.symm.trans (counted_counts yes)) Bool.false_ne_true

theorem fits_outside (lawful : c.lawful = true) (visits : Visits c pc)
    (outside : pc.mode ≠ .exclusive) : Fits s ⟨c, pc⟩ := by
  apply fits_plain lawful visits
  · exact Bool.eq_false_iff.mpr fun yes => outside (closes_exclusive yes)
  · exact Bool.eq_false_iff.mpr fun yes => outside (counts_exclusive yes)

theorem body_fits (lawful : c.lawful = true) (visits : Visits c .acquire) :
    Fits s ⟨c, c.body⟩ := by
  cases c with
  | awaitSuspend h => exact fits_plain rfl rfl rfl rfl
  | await f => exact fits_plain rfl rfl rfl rfl
  | raceSkip =>
    refine ⟨rfl, .inr rfl, fun yes => ?_, fun _ yes => ?_, fun yes => ?_⟩
    · cases yes
    · cases yes
    · cases yes
  | unAwait id => exact fits_plain rfl ⟨id, rfl⟩ rfl rfl
  | _ => cases visits

theorem move_fits (fits : Fits s ⟨c, pc⟩) (move : Move s i c pc u pc') : Fits u ⟨c, pc'⟩ := by
  have lawful := fits.lawful
  have visits := move_visits fits.visits move
  have no : ¬false = true := Bool.false_ne_true
  cases move with
  | done site clear =>
    exact ⟨lawful, visits, fun _ => clear, fun yes => absurd yes no, fun yes => absurd yes no⟩
  | notify site =>
    exact ⟨lawful, visits, fun _ => fits.clear rfl, fun yes => absurd yes no,
      fun yes => absurd yes no⟩
  | pending pending =>
    exact ⟨lawful, visits, fun yes => absurd yes no,
      fun _ _ => Option.isNone_iff_eq_none.mp (Option.isSome_eq_false_iff.mp pending),
      fun yes => absurd yes no⟩
  | count =>
    exact ⟨lawful, visits, fun yes => absurd yes no, fun _ => fits.pending rfl,
      fun _ => Nat.succ_pos _⟩
  | notifyAwaited =>
    exact ⟨lawful, visits, fun yes => absurd yes no, fun _ => fits.pending rfl,
      fun _ => fits.counted rfl⟩
  | acquire => exact body_fits lawful fits.visits
  | lost => exact fits_outside lawful visits (by simp)
  | noFlush => exact fits_outside lawful visits (by simp)
  | flushed => exact fits_outside lawful visits (by simp)
  | waitLock => exact fits_outside lawful visits (by simp)
  | _ => exact fits_plain lawful visits rfl rfl

end Moves

section Views
variable {s u : State (Outcome V E) H F} {i n : Nat} {c : Call (Outcome V E) H F} {pc pc' : Pc H F}

@[simp] theorem view_done : (view s n).isDone = s.outcome.isSome := by
  unfold SharedPromise.State.isDone view
  cases s.outcome with
  | none => rfl
  | some o => cases o <;> rfl

@[simp] theorem view_alive : (view s n).alive = true := rfl

theorem seen_thread (acts : c.onlyWaits = false) :
    (Thread.seen ⟨c, pc⟩ : SharedPromise.Activation V E H F) = ⟨c.seen, pc.seen⟩ := by
  unfold Thread.seen
  rw [acts]
  rfl

theorem view_goto (acts : c.onlyWaits = false) :
    view (u.goto i c pc') n = (view u n).goto i c.seen pc'.seen := by
  have table : (u.threads.set i ⟨c, pc'⟩).map Thread.seen =
      (u.threads.map Thread.seen).set i ⟨c.seen, pc'.seen⟩ := by
    rw [List.map_set, seen_thread acts]
  unfold view State.goto SharedPromise.State.goto
  rw [table]

theorem counting_goto (threads : u.threads = s.threads) (here : s.threads[i]? = some ⟨c, pc⟩)
    (same : pc'.counted = pc.counted) : counting (u.goto i c pc') = counting s := by
  unfold counting State.goto
  rw [threads]
  exact set_any_same here same

theorem leave_counted (won : Bool) : (c.leave won).counted = false := by
  cases c <;> rfl

theorem waits_counted (c : Call (Outcome V E) H F) : c.waits.counted = false := by
  cases c <;> rfl

theorem after_counted (site : Site) : (c.after site).counted = false := by
  cases site with
  | settle => exact leave_counted true
  | scopeExit won => rfl

theorem seen_goto (acts : c.onlyWaits = false) (threads : u.threads = s.threads)
    (here : s.threads[i]? = some ⟨c, pc⟩) (same : pc'.counted = pc.counted)
    (count : u.useCount = s.useCount) :
    (u.goto i c pc').seen =
      (view u (s.useCount - (counting s).toNat)).goto i c.seen pc'.seen := by
  unfold State.seen
  rw [counting_goto threads here same, view_goto acts]
  exact congrArg (fun k => (view u (k - (counting s).toNat)).goto i c.seen pc'.seen) count

/-- A statement that the promise without `cv_` does not see. -/
theorem seen_still (threads : u.threads = s.threads) (here : s.threads[i]? = some ⟨c, pc⟩)
    (same : (Thread.seen ⟨c, pc'⟩ : SharedPromise.Activation V E H F) = Thread.seen ⟨c, pc⟩)
    (counted : pc'.counted = pc.counted) (count : u.useCount = s.useCount)
    (fields : ∀ n, view u n = view s n) : (u.goto i c pc').seen = s.seen := by
  have table : (u.threads.set i ⟨c, pc'⟩).map Thread.seen = s.threads.map Thread.seen := by
    rw [threads, List.map_set, same, ← List.map_set, set_here here]
  have goto : ∀ n, view (u.goto i c pc') n = view u n := by
    intro n
    unfold view State.goto
    rw [table, threads]
  unfold State.seen
  rw [counting_goto threads here counted, goto, fields]
  exact congrArg (fun k => view s (k - (counting s).toNat)) count

end Views

/-- The run that the promise without `cv_` makes for a statement. -/
def Matched (s t : State (Outcome V E) H F) : Prop :=
  ∃ ks, run stepNonNull s.seen ks = some t.seen ∧ ks.flatMap calls = []

section Statements
variable {s u : State (Outcome V E) H F} {i : Nat} {c : Call (Outcome V E) H F} {pc pc' : Pc H F}

theorem matched_still (same : u.seen = s.seen) : Matched s u :=
  ⟨[], congrArg some same.symm, rfl⟩

theorem seen_here (acts : c.onlyWaits = false) (here : s.threads[i]? = some ⟨c, pc⟩) :
    s.seen.acts[i]? = some ⟨c.seen, pc.seen⟩ := by
  have there : (s.threads.map Thread.seen)[i]? = some (Thread.seen ⟨c, pc⟩) := by
    rw [List.getElem?_map, here]
    rfl
  rw [seen_thread acts] at there
  exact there

theorem matched_step (acts : c.onlyWaits = false) (threads : u.threads = s.threads)
    (here : s.threads[i]? = some ⟨c, pc⟩) (same : pc'.counted = pc.counted)
    (count : u.useCount = s.useCount)
    (taken : ∀ n, SharedPromise.advance (view s n) i ⟨c.seen, pc.seen⟩ =
      some ((view u n).goto i c.seen pc'.seen)) : Matched s (u.goto i c pc') := by
  refine ⟨[.step i], run_cons ?_ rfl, rfl⟩
  have first : stepNonNull s.seen (.step i) = SharedPromise.step s.seen (.step i) := rfl
  rw [first, SharedPromise.step_act (seen_here acts here), seen_goto acts threads here same count]
  exact taken _

theorem store_pending (agreed : SettleOnce.Agreement s.seen) (lawful : c.lawful = true)
    (here : s.threads[i]? = some ⟨c, .store⟩) {o : Outcome V E} (settles : c.payload = some o) :
    s.outcome = none := by
  have acts := settles_acts (c := c) (by rw [settles]; rfl)
  have claims : SettleOnce.claims (⟨c.seen, .store⟩ : SharedPromise.Activation V E H F) = true := by
    unfold SettleOnce.claims
    rw [seen_payload lawful settles]
    rfl
  have early := agreed.early i _ (seen_here acts here) claims
  have done : s.seen.isDone = false := by
    unfold SharedPromise.State.isDone
    rw [early.1, early.2]
    rfl
  rw [State.seen, view_done] at done
  exact Option.isNone_iff_eq_none.mp (Option.isSome_eq_false_iff.mp done)

theorem view_store {n : Nat} (pending : s.outcome = none) (o : Outcome V E) :
    (view s n).put (payload o) = view { s with outcome := some o } n := by
  cases o with
  | value v =>
    unfold view payload SharedPromise.State.put
    rw [pending]
    rfl
  | exception e =>
    unfold view payload SharedPromise.State.put
    rw [pending]
    rfl

theorem claim_matched (acts : c.onlyWaits = false) {o : Outcome V E}
    (given : c.seen.payload = some (payload o)) (here : s.threads[i]? = some ⟨c, .exchange⟩)
    (clear : s.resolved = false) : Matched s ({ s with resolved := true }.goto i c .lock) := by
  have there := seen_here acts here
  let v := { s.seen with resolved := true }.goto i c.seen .weakLock
  have claimed : stepNonNull s.seen (.step i) = some v := by
    have first : stepNonNull s.seen (.step i) = SharedPromise.step s.seen (.step i) := rfl
    rw [first, SharedPromise.step_act there]
    simp only [SharedPromise.advance, Pc.seen, given, SharedPromise.settleStep]
    exact if_neg (Bool.eq_false_iff.mp clear)
  have pinned : stepNonNull v (.step i) = some (v.goto i c.seen .lock) := by
    have second : stepNonNull v (.step i) = SharedPromise.step v (.step i) := rfl
    have at_ : v.acts[i]? = some ⟨c.seen, .weakLock⟩ := lookup_set there
    rw [second, SharedPromise.step_act at_]
    simp only [SharedPromise.advance, given, SharedPromise.settleStep]
    rfl
  have same : v.goto i c.seen .lock = ({ s with resolved := true }.goto i c .lock).seen := by
    have after : ({ s with resolved := true }.goto i c .lock).seen =
        { s.seen with resolved := true }.goto i c.seen .lock := seen_goto acts rfl here rfl rfl
    rw [after]
    simp only [v, SharedPromise.State.goto, List.set_set]
  exact ⟨[.step i, .step i], run_cons claimed (run_cons pinned (congrArg some same)), rfl⟩

theorem settleStep_matched (agreed : SettleOnce.Agreement s.seen) (lawful : c.lawful = true)
    (here : s.threads[i]? = some ⟨c, pc⟩) {o : Outcome V E} (settles : c.payload = some o)
    (taken : settleStep s i c o pc = some (u, pc')) : Matched s (u.goto i c pc') := by
  have acts := settles_acts (c := c) (by rw [settles]; rfl)
  have given := seen_payload lawful settles
  unfold settleStep at taken
  split at taken
  · split at taken <;> cases taken
    · rename_i set
      refine matched_step acts rfl here rfl rfl fun n => ?_
      simp only [SharedPromise.advance, Pc.seen, given, SharedPromise.settleStep]
      exact if_pos set
    · rename_i clear
      refine matched_step acts rfl here rfl rfl fun n => ?_
      simp only [SharedPromise.advance, Pc.seen, given, SharedPromise.settleStep]
      exact if_neg clear
  · split at taken <;> cases taken
    · rename_i set
      refine matched_step acts rfl here (leave_counted false) rfl fun n => ?_
      rw [← seen_leave]
      simp only [SharedPromise.advance, Pc.seen, given, SharedPromise.settleStep]
      exact if_pos set
    · rename_i clear
      exact claim_matched acts given here (Bool.eq_false_iff.mpr clear)
  · obtain ⟨m, locked, same⟩ := Option.map_eq_some_iff.mp taken
    cases same
    obtain ⟨free, _, mine⟩ := SharedMutex.lock_some locked
    refine matched_step acts rfl here rfl rfl fun n => ?_
    simp only [SharedPromise.advance, Pc.seen, given, SharedPromise.settleStep]
    unfold view
    rw [if_pos free, mine]
  · split at taken <;> cases taken
    · rename_i throws
      refine matched_step acts rfl here rfl rfl fun n => ?_
      simp only [SharedPromise.advance, Pc.seen, given, SharedPromise.settleStep]
      exact if_pos ((seen_throws lawful).trans throws)
    · rename_i total
      refine matched_step acts rfl here rfl rfl fun n => ?_
      simp only [SharedPromise.advance, Pc.seen, given, SharedPromise.settleStep]
      rw [if_neg (fun throws => total ((seen_throws lawful).symm.trans throws)),
        view_store (store_pending agreed lawful here settles)]
  · cases taken

theorem onResolvedStep_matched (acts : c.onlyWaits = false) (fits : Fits s ⟨c, pc⟩)
    (here : s.threads[i]? = some ⟨c, pc⟩) (taken : onResolvedStep s c pc = some (u, pc')) :
    Matched s (u.goto i c pc') := by
  unfold onResolvedStep at taken
  split at taken
  · split at taken <;> cases taken
    · rename_i held
      refine matched_step acts rfl here (after_counted _) rfl fun n => ?_
      rw [← seen_after]
      exact if_pos held
    · refine matched_still (seen_still rfl here ?_ rfl rfl fun _ => rfl)
      rw [seen_thread acts, seen_thread acts]
      rfl
  · cases taken
    refine matched_still (seen_still rfl here ?_ rfl rfl fun _ => rfl)
    rw [seen_thread acts, seen_thread acts]
    rfl
  · cases taken
    refine matched_step acts rfl here rfl rfl fun n => ?_
    exact if_neg (Bool.eq_false_iff.mp (fits.clear rfl))
  · cases taken
    exact matched_step acts rfl here rfl rfl fun _ => rfl
  · cases taken
    refine matched_step acts rfl here (after_counted _) rfl fun n => ?_
    rw [← seen_after]
    rfl
  · cases taken

theorem scopeExitStep_matched (acts : c.onlyWaits = false)
    (here : s.threads[i]? = some ⟨c, pc⟩) (taken : scopeExitStep s i pc = some (u, pc')) :
    Matched s (u.goto i c pc') := by
  unfold scopeExitStep at taken
  split at taken
  · obtain ⟨m, locked, same⟩ := Option.map_eq_some_iff.mp taken
    cases same
    obtain ⟨free, _, mine⟩ := SharedMutex.lock_some locked
    refine matched_step acts rfl here rfl rfl fun n => ?_
    simp only [SharedPromise.advance, Pc.seen, SharedPromise.scopeExitStep]
    unfold view
    rw [if_pos free, mine]
  · cases taken
    exact matched_step acts rfl here rfl rfl fun _ => rfl
  · split at taken <;> cases taken
    · rename_i pending
      exact matched_step acts rfl here rfl rfl fun _ => if_pos pending
    · rename_i settled
      exact matched_step acts rfl here rfl rfl fun _ => if_neg settled
  · split at taken <;> cases taken
    rename_i finished
    exact matched_step acts rfl here rfl rfl fun _ => if_pos finished
  · cases taken
    refine matched_still (seen_still rfl here ?_ rfl rfl fun _ => rfl)
    rw [seen_thread acts, seen_thread acts]
    rfl
  · cases taken
    refine matched_still (seen_still rfl here ?_ rfl rfl fun _ => rfl)
    rw [seen_thread acts, seen_thread acts]
    rfl
  · split at taken <;> cases taken
    · rename_i done
      exact matched_step acts rfl here rfl rfl fun _ => if_pos (view_done.trans done)
    · rename_i pending
      exact matched_step acts rfl here rfl rfl fun _ =>
        if_neg fun done => pending (view_done.symm.trans done)
  · cases taken

theorem waitStep_matched (only : c.onlyWaits = true) (here : s.threads[i]? = some ⟨c, pc⟩)
    (taken : waitStep s i c pc = some (u, pc')) : Matched s (u.goto i c pc') := by
  have same : ∀ q : Pc H F, (Thread.seen ⟨c, q⟩ : SharedPromise.Activation V E H F) =
      ⟨c.seen, .acquire⟩ := by
    intro q
    unfold Thread.seen
    rw [only]
    rfl
  have still : ∀ q : Pc H F, (Thread.seen ⟨c, q⟩ : SharedPromise.Activation V E H F) =
      Thread.seen ⟨c, pc⟩ := fun q => (same q).trans (same pc).symm
  unfold waitStep at taken
  split at taken
  · obtain ⟨m, locked, same⟩ := Option.map_eq_some_iff.mp taken
    cases same
    obtain ⟨free, writer, _⟩ := SharedMutex.lockShared_some locked
    refine matched_still (seen_still rfl here (still _) (waits_counted c) rfl fun n => ?_)
    unfold view
    rw [writer, free]
  · cases taken
    exact matched_still (seen_still rfl here (still _) rfl rfl fun _ => rfl)
  · split at taken <;> cases taken
    · exact matched_still (seen_still rfl here (still _) rfl rfl fun _ => rfl)
    · exact matched_still (seen_still rfl here (still _) rfl rfl fun _ => rfl)
  · cases taken
    exact matched_still (seen_still rfl here (still _) rfl rfl fun _ => rfl)
  · split at taken
    · cases taken
    · obtain ⟨m, locked, same⟩ := Option.map_eq_some_iff.mp taken
      cases same
      obtain ⟨free, writer, _⟩ := SharedMutex.lockShared_some locked
      refine matched_still (seen_still rfl here (still _) rfl rfl fun n => ?_)
      unfold view
      rw [writer, free]
  · cases taken

theorem alone_counting (inv : Inv s) (here : s.threads[i]? = some ⟨c, pc⟩)
    (inside : pc.mode = .exclusive) (j : Nat) (x : Thread (Outcome V E) H F)
    (there : s.threads[j]? = some x) (other : j ≠ i) : x.pc.counted = false := by
  refine Bool.eq_false_iff.mpr fun counted => other ?_
  have writes := counts_exclusive (counted_counts counted)
  apply held_alone inv.held ((mode_at here).trans inside)
  rw [mode_at there, writes]
  decide

theorem counting_alone (inv : Inv s) (here : s.threads[i]? = some ⟨c, pc⟩)
    (inside : pc.mode = .exclusive) : counting s = pc.counted :=
  any_only here fun j x there other => alone_counting inv here inside j x there other

theorem counting_after (inv : Inv s) (here : s.threads[i]? = some ⟨c, pc⟩)
    (inside : pc.mode = .exclusive) (threads : u.threads = s.threads) :
    counting (u.goto i c pc') = pc'.counted := by
  unfold counting State.goto
  rw [threads]
  exact set_any_only here fun j x there other => alone_counting inv here inside j x there other

theorem count_matched (inv : Inv s) (acts : c.onlyWaits = false)
    (here : s.threads[i]? = some ⟨c, .count⟩) :
    Matched s ({ s with useCount := s.useCount + 1 }.goto i c .notifyAwaited) := by
  apply matched_still
  have before : counting s = false := counting_alone inv here rfl
  have after : counting ({ s with useCount := s.useCount + 1 }.goto i c .notifyAwaited) = true :=
    counting_after inv here rfl rfl
  have table : (s.threads.set i ⟨c, .notifyAwaited⟩).map Thread.seen =
      s.threads.map Thread.seen := by
    have same : (Thread.seen ⟨c, .notifyAwaited⟩ : SharedPromise.Activation V E H F) =
        Thread.seen ⟨c, .count⟩ := by
      rw [seen_thread acts, seen_thread acts]
      rfl
    rw [List.map_set, same, ← List.map_set, set_here here]
  unfold State.seen
  rw [before, after]
  unfold view State.goto
  rw [table]
  rfl

theorem emplace_matched (inv : Inv s) (fits : Fits s ⟨c, .emplace⟩)
    (here : s.threads[i]? = some ⟨c, .emplace⟩) :
    Matched s ((s.register c.target).unlock.goto i c (.returned true)) := by
  have registers : c.target.isSome = true ∨ c = .raceSkip := fits.visits
  have acts := registers_acts registers
  obtain ⟨k, raised⟩ : ∃ k, s.useCount = k + 1 :=
    Nat.exists_eq_succ_of_ne_zero (Nat.ne_of_gt (fits.counted rfl))
  have before : s.seen = view s k := by
    unfold State.seen
    rw [counting_alone inv here rfl, raised]
    rfl
  have after : ((s.register c.target).unlock.goto i c (.returned true)).seen =
      (view (s.register c.target).unlock (k + 1)).goto i c.seen (.returned true) := by
    have left : counting ((s.register c.target).unlock.goto i c (.returned true)) = false :=
      counting_after inv here rfl (register_threads s _)
    have count : ((s.register c.target).unlock.goto i c (.returned true)).useCount = k + 1 :=
      (register_useCount s _).trans raised
    unfold State.seen
    rw [left, count, view_goto acts]
    rfl
  refine ⟨[.step i], run_cons ?_ rfl, rfl⟩
  have first : stepNonNull s.seen (.step i) = SharedPromise.step s.seen (.step i) := rfl
  rw [first, SharedPromise.step_act (seen_here acts here), before, after]
  cases c with
  | awaitSuspend h =>
    have pending := fits.pending rfl rfl
    simp only [SharedPromise.advance, Pc.seen, Call.seen, SharedPromise.lockedStep,
      SharedPromise.lockedBody, view_done, pending]
    unfold State.register
    rw [raised]
    rfl
  | await f =>
    have pending := fits.pending rfl rfl
    simp only [SharedPromise.advance, Pc.seen, Call.seen, SharedPromise.lockedStep,
      SharedPromise.lockedBody, view_done, pending]
    unfold State.register
    rw [raised]
    rfl
  | raceSkip => rfl
  | _ =>
    rcases registers with some_ | same
    · cases some_
    · cases same

theorem acquire_matched (visits : c.locks = true) {m : SharedMutex}
    (locked : s.mutex.lock i = some m) (here : s.threads[i]? = some ⟨c, .acquire⟩) :
    Matched s ({ s with mutex := m }.goto i c c.body) := by
  obtain ⟨free, _, mine⟩ := SharedMutex.lock_some locked
  have step_ : ∀ d : Call (Outcome V E) H F, ∀ n,
      SharedPromise.advance (view s n) i ⟨d.seen, .acquire⟩ =
        some ((view { s with mutex := m } n).goto i d.seen .locked) := by
    intro d n
    simp only [SharedPromise.advance, SharedPromise.lockedStep]
    unfold view
    rw [if_pos free, mine]
  cases c with
  | awaitSuspend h => exact matched_step rfl rfl here rfl rfl (step_ (.awaitSuspend h))
  | await f => exact matched_step rfl rfl here rfl rfl (step_ (.await f))
  | raceSkip => exact matched_step rfl rfl here rfl rfl (step_ .raceSkip)
  | unAwait id => exact matched_step rfl rfl here rfl rfl (step_ (.unAwait id))
  | _ => cases visits

theorem erase_matched {id : Nat} (here : s.threads[i]? = some ⟨.unAwait id, .erase⟩) :
    Matched s ((s.unAwait id).1.unlock.goto i (.unAwait id) (.returned (s.unAwait id).2)) := by
  unfold State.unAwait
  split
  · rename_i found
    refine matched_step rfl rfl here rfl rfl fun n => ?_
    simp only [SharedPromise.advance, Pc.seen, Call.seen, SharedPromise.lockedStep,
      SharedPromise.lockedBody]
    unfold view
    rw [if_pos found]
    rfl
  · rename_i missing
    refine matched_step rfl rfl here rfl rfl fun n => ?_
    simp only [SharedPromise.advance, Pc.seen, Call.seen, SharedPromise.lockedStep,
      SharedPromise.lockedBody]
    unfold view
    rw [if_neg missing]
    rfl

theorem inline_matched (registers : c.target.isSome = true) (done : s.outcome.isSome = true)
    (here : s.threads[i]? = some ⟨c, .isDone⟩) :
    Matched s (s.unlock.goto i c (.returned false)) := by
  cases c with
  | awaitSuspend h =>
    refine matched_step rfl rfl here rfl rfl fun n => ?_
    simp only [SharedPromise.advance, Pc.seen, Call.seen, SharedPromise.lockedStep,
      SharedPromise.lockedBody, view_done, done]
    rfl
  | await f =>
    refine matched_step rfl rfl here rfl rfl fun n => ?_
    simp only [SharedPromise.advance, Pc.seen, Call.seen, SharedPromise.lockedStep,
      SharedPromise.lockedBody, view_done, done]
    rfl
  | _ => cases registers

theorem lockedStep_matched (inv : Inv s) (fits : Fits s ⟨c, pc⟩)
    (here : s.threads[i]? = some ⟨c, pc⟩) (taken : lockedStep s i c pc = some (u, pc')) :
    Matched s (u.goto i c pc') := by
  unfold lockedStep at taken
  split at taken
  · obtain ⟨m, locked, same⟩ := Option.map_eq_some_iff.mp taken
    cases same
    exact acquire_matched fits.visits locked here
  · split at taken <;> cases taken
    · exact inline_matched fits.visits ‹_› here
    · refine matched_still (seen_still rfl here ?_ rfl rfl fun _ => rfl)
      have acts := registers_acts (.inl fits.visits)
      rw [seen_thread acts, seen_thread acts]
      rfl
  · cases taken
    exact count_matched inv (registers_acts fits.visits) here
  · cases taken
    refine matched_still (seen_still rfl here ?_ rfl rfl fun _ => rfl)
    have acts := registers_acts fits.visits
    rw [seen_thread acts, seen_thread acts]
    rfl
  · cases taken
    exact emplace_matched inv fits here
  · split at taken
    · cases taken
      exact erase_matched here
    · cases taken
  · cases taken

end Statements

def Label.lawful : Label (Outcome V E) H F → Bool
  | .call c => c.lawful
  | _ => true

def stepLawful (s : State (Outcome V E) H F) (l : Label (Outcome V E) H F) :
    Option (State (Outcome V E) H F) := if l.lawful then step s l else none

abbrev ReachedLawful (s : State (Outcome V E) H F) : Prop := Reachable stepLawful Initial s

def starts : Label (Outcome V E) H F → List (SharedPromise.Call V E H F)
  | .call c => [c.seen]
  | _ => []

structure Known (s : State (Outcome V E) H F) : Prop where
  inv : Inv s
  fits : ∀ (i : Nat) (x : Thread (Outcome V E) H F), s.threads[i]? = some x → Fits s x
  reached : ReachedNonNull s.seen

section Steps
variable {s t u : State (Outcome V E) H F} {i : Nat} {c : Call (Outcome V E) H F}
  {pc pc' : Pc H F} {l : Label (Outcome V E) H F}

theorem lawful_taken (taken : stepLawful s l = some t) : l.lawful = true ∧ step s l = some t :=
  Option.ite_none_right_eq_some.mp taken

theorem seen_push (lawful : c.lawful = true) : (s.push c).seen = s.seen.push c.seen := by
  have same : counting (s.push c) = counting s := by
    have quiet : c.entry.counted = false := by
      cases c with
      | finalSuspend delayedReturn => cases delayedReturn <;> rfl
      | _ => rfl
    unfold counting State.push
    rw [List.any_append, List.any_cons, quiet]
    exact Bool.or_false _
  have table : (s.threads ++ [(⟨c, c.entry⟩ : Thread (Outcome V E) H F)]).map Thread.seen =
      s.threads.map Thread.seen ++ [⟨c.seen, c.seen.entry⟩] := by
    rw [List.map_append, List.map_singleton, seen_entry lawful]
  unfold State.seen
  rw [same]
  unfold view State.push SharedPromise.State.push
  rw [table]

theorem call_matched (lawful : c.lawful = true) (started : start s c = some t) :
    ∃ ks, run stepNonNull s.seen ks = some t.seen ∧ ks.flatMap calls = [c.seen] := by
  refine ⟨[.call c.seen], run_cons ?_ rfl, rfl⟩
  cases c with
  | finalSuspend delayedReturn =>
    obtain ⟨running, same⟩ := Option.ite_none_right_eq_some.mp started
    cases same
    rw [seen_push lawful]
    rcases delayedReturn with _ | (_ | _) <;> exact if_pos running
  | resolve o throws =>
    cases started
    rw [seen_push lawful]
    cases o <;> rfl
  | reject o =>
    cases started
    rw [seen_push lawful]
    cases o <;> rfl
  | _ =>
    cases started
    rw [seen_push lawful]
    rfl

theorem advance_matched (known : Known s) (here : s.threads[i]? = some ⟨c, pc⟩)
    (taken : advance s i c pc = some (u, pc')) : Matched s (u.goto i c pc') := by
  have fits := known.fits i _ here
  have visits := fits.visits
  have agreed := SettleOnce.reached_agreement (nonNull_reached known.reached)
  unfold advance at taken
  split at taken
  case h_1 | h_2 | h_3 | h_4 | h_5 => exact waitStep_matched visits here taken
  case h_6 | h_7 | h_8 | h_9 =>
    split at taken
    · rename_i o settles
      exact settleStep_matched agreed fits.lawful here settles taken
    · cases taken
  case h_10 | h_11 | h_12 | h_13 => exact onResolvedStep_matched visits fits here taken
  case h_14 | h_15 | h_16 | h_17 | h_18 | h_19 => exact scopeExitStep_matched visits here taken
  case h_20 | h_21 | h_22 | h_23 | h_24 | h_25 => exact lockedStep_matched known.inv fits here taken
  case h_26 | h_27 => cases taken

theorem step_matched (known : Known s) (taken : stepLawful s l = some t) :
    ∃ ks, run stepNonNull s.seen ks = some t.seen ∧ ks.flatMap calls = starts l := by
  obtain ⟨lawful, taken⟩ := lawful_taken taken
  cases l with
  | call c => exact call_matched lawful taken
  | step i =>
    simp only [step] at taken
    split at taken
    · rename_i x here
      obtain ⟨⟨u, pc'⟩, moved, same⟩ := Option.map_eq_some_iff.mp taken
      cases same
      exact advance_matched known here moved
    · cases taken
  | wake i =>
    simp only [step] at taken
    split at taken <;> cases taken
    exact ⟨[], rfl, rfl⟩
  | other k x =>
    simp only [step] at taken
    split at taken <;> cases taken
    rename_i later
    exact ⟨[.other k x], run_cons (if_pos later) rfl, rfl⟩

theorem fits_kept (known : Known s) (taken : stepLawful s l = some t) (i : Nat)
    (x : Thread (Outcome V E) H F) (there : t.threads[i]? = some x) : Fits t x := by
  obtain ⟨lawful, taken⟩ := lawful_taken taken
  cases step_change taken with
  | call c u same after =>
    subst after
    have old : u.threads = s.threads ∧ u.handle = s.handle ∧ u.outcome = s.outcome ∧
        u.useCount = s.useCount := by
      rcases same with rfl | rfl <;> exact ⟨rfl, rfl, rfl, rfl⟩
    rcases append_lookup there with ⟨_, rfl⟩ | before
    · exact fits_outside lawful entry_visits (by rw [entry_mode]; decide)
    · rw [old.1] at before
      exact fits_frame (known.fits i x before) (fun clear => old.2.1.trans clear)
        (fun _ => old.2.2.1) (Nat.le_of_eq old.2.2.2.symm)
  | step j c pc pc' u here move after =>
    subst after
    rcases goto_lookup (move_threads move) here there with ⟨rfl, same, same'⟩ | ⟨other, before⟩
    · obtain ⟨d, q⟩ := x
      cases same
      cases same'
      exact fits_goto (move_fits (known.fits i _ here) move)
    · apply fits_goto
      refine fits_frame (known.fits i x before) (move_clear move) (fun counts => ?_)
        (move_count move)
      refine (move_outcome move).resolve_right fun writes => other ?_
      apply held_alone known.inv.held ((mode_at here).trans writes)
      rw [mode_at before, counts_exclusive counts]
      decide
  | wake j sleeps after =>
    subst after
    exact fits_frame (known.fits i x there) (fun clear => clear) (fun _ => rfl) (Nat.le_refl _)
  | other k y after =>
    subst after
    exact fits_frame (known.fits i x there) (fun clear => clear) (fun _ => rfl) (Nat.le_refl _)

theorem known_step (known : Known s) (taken : stepLawful s l = some t) : Known t := by
  obtain ⟨ks, ran, _⟩ := step_matched known taken
  exact ⟨inv_step known.inv (lawful_taken taken).2, fits_kept known taken,
    run_reachable known.reached ran⟩

theorem initial_known (first : Initial s) : Known s := by
  have inv := inv_initial first
  obtain ⟨coroutine, captured, others, rfl⟩ := first
  refine ⟨inv, fun i x there => ?_, .start ⟨coroutine, captured, others, rfl⟩⟩
  cases there

theorem reached_known (reached : ReachedLawful s) : Known s :=
  reachable_invariant (fun _ => initial_known) (fun _ _ _ => known_step) reached

end Steps

/-- Every run of the promise with `cv_` is one of the promise without it: the same calls start in
    the same order, and the fields are the same between the critical sections. -/
theorem wait_refinement {s t : State (Outcome V E) H F} {ls : List (Label (Outcome V E) H F)}
    (reached : ReachedLawful s) (ran : run stepLawful s ls = some t) :
    (∃ ks, run stepNonNull s.seen ks = some t.seen ∧ ks.flatMap calls = ls.flatMap starts) ∧
    (t.mutex.writer = none → t.seen = view t t.useCount) := by
  have known := reached_known reached
  constructor
  · exact run_simulates (fun s l t known taken => step_matched known taken)
      (fun s l t known taken => known_step known taken) known ran
  · intro free
    have last := reached_known (run_reachable reached ran)
    have quiet : counting t = false := by
      refine List.any_eq_false.mpr fun x member counted => ?_
      obtain ⟨i, there⟩ := List.mem_iff_getElem?.mp member
      have writes := counts_exclusive (counted_counts counted)
      have mine : mode t i = .exclusive := (mode_at there).trans writes
      have inside := last.inv.held.writer i mine
      exact absurd (free.symm.trans inside) (by simp)
    unfold State.seen
    rw [quiet]
    rfl

/-- The awaiters that ran, those that a flush has still to run and those that wait are the ones
    registered and not taken back, in the order of their registration. -/
theorem wait_ledger {s : State (Outcome V E) H F} (reached : ReachedLawful s) :
    OrderedDelivery.kept s.registered s.removed =
      s.invoked ++ OrderedDelivery.inflight s.seen.acts ++ s.awaiters :=
  (OrderedDelivery.reached_delivery (reached_known reached).reached).ledger

/-- A `WaitDone` goes to sleep, and `final_suspend` waits for a promise its callable captured. -/
def destroying : List (Label (Outcome Nat Unit) Unit Unit) :=
  List.flatten [[.call .waitDone], List.replicate 3 (.step 0),
    [.call (.finalSuspend (some (.value 7)))], List.replicate 7 (.step 1)]

theorem wait_refinement_captured : ∃ (t : State (Outcome Nat Unit) Unit Unit)
    (ks : List (SharedPromise.Label Nat Unit Unit Unit)),
    run stepLawful (initial true [0] fun _ => .pending) destroying = some t ∧
    run stepNonNull (SharedPromise.initial true [0] fun _ => .pending) ks = some t.seen ∧
    ks.flatMap calls = [.unAwait 0, .finalSuspend (.returned 7)] ∧
    t.seen.value = some 7 ∧
    t.seen.acts[1]? = some ⟨.finalSuspend (.returned 7), .scopeWait true 0 []⟩ := by
  have start : ReachedLawful
      (initial true [0] fun _ => .pending : State (Outcome Nat Unit) Unit Unit) :=
    .start ⟨true, [0], fun _ => .pending, rfl⟩
  have ran : run stepLawful (initial true [0] fun _ => .pending) destroying = some _ := rfl
  obtain ⟨⟨ks, simulated, same⟩, _⟩ := wait_refinement start ran
  exact ⟨_, ks, ran, simulated, same, rfl, rfl⟩

end WaitSets
