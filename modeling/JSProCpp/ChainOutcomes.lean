import JSProCpp.ChainRuns

/- What holds of a chain in every reachable state: where the outcome of each promise comes from,
   and how often the continuations were called. -/
namespace ChainLinks
open Transitions Interleaving PromiseCells
variable {K V E : Type}

namespace Link
variable (x : Exceptions K E) (t : Ty) (l : Link K V E)

def reply (o : Result V E) : Result V E :=
  match l.op, o with
  | .then_ f, .value v => l.returned (f v)
  | .then_ _, .exception e => .exception e
  | .catch_ _ _, .value v => .value v
  | .catch_ a h, .exception e => l.returned (h (l.passed x a e))
  | .finally_ none, _ => .value .void
  | .finally_ (some e), _ => .exception e

/-- What the inner `Then` and `Catch` make of it. -/
def joined (o : Result V E) : Result V E :=
  match l.reply x o with
  | .value w => l.forwarded t o w
  | .exception e => .exception e

/-- The operator goes on with the right thing on the outcome `o`. -/
def Right (o : Result V E) : Body V E → Prop
  | .settle r => r = l.outcome x (l.passed x) t o
  | .become r => r = l.outcome x (l.passed x) t o ∧ l.calls x o = true ∧ l.mode ≠ .sync
  | .follow r =>
      r = l.reply x o ∧ l.outcome x (l.passed x) t o = l.joined x t o ∧ l.calls x o = true ∧
        l.mode ≠ .sync
  | .refuse e =>
      l.reply x o = .exception e ∧ l.outcome x (l.passed x) t o = l.joined x t o ∧
        l.calls x o = false ∧ l.wraps = false

section Right
variable {x : Exceptions K E} {t : Ty} {l : Link K V E} {o : Result V E}

theorem joined_then {f : Val V → Result V E} (op : l.op = .then_ f) :
    l.outcome x (l.passed x) t o = l.joined x t o := by
  cases o with
  | exception e => simp [Link.outcome, joined, reply, op]
  | value v =>
    simp only [Link.outcome, joined, reply, forwarded, op]
    cases l.returned (f v) <;> rfl

theorem thenDone_right {f : Val V → Result V E} (op : l.op = .then_ f) :
    Right x t l o (l.thenDone f o) := by
  cases o with
  | exception e => simp [thenDone, Right, Link.outcome, op]
  | value v =>
    simp only [thenDone]
    split
    · simp [Right, Link.outcome, op]
    · rename_i async
      simp [Right, Link.outcome, Link.calls, op, async]

theorem thenPending_right {f : Val V → Result V E} (op : l.op = .then_ f) :
    Right x t l o (l.thenPending f o) := by
  have joins := joined_then (x := x) (t := t) (o := o) op
  cases o with
  | exception e =>
    simp only [thenPending]
    split
    · simp [Right, Link.outcome, op]
    · exact ⟨by simp [reply, op], joins, by simp [Link.calls, op], by simp [Link.wraps, op]⟩
  | value v =>
    simp only [thenPending]
    split
    · simp [Right, Link.outcome, op]
    · rename_i async
      exact ⟨by simp [reply, op], joins, by simp [Link.calls, op], async⟩

theorem catch_right {a : Argument K} {h : E → Result V E} (op : l.op = .catch_ a h) :
    Right x t l o (l.catchBody x t a h o) := by
  cases o with
  | value v => simp [catchBody, Right, Link.outcome, op]
  | exception e =>
    simp only [catchBody, applyException]
    split
    · rename_i caught
      split
      · simp [Right, Link.outcome, op, caught]
      · rename_i async
        refine ⟨by simp [reply, op], ?_, by simp [Link.calls, op, caught], async⟩
        simp only [Link.outcome, joined, reply, forwarded, op, caught, if_true]
        cases l.returned (h (l.passed x a e)) <;> rfl
    · rename_i missed
      simp [Right, Link.outcome, op, missed]

theorem finally_right {g : Option E} (op : l.op = .finally_ g) :
    Right x t l o (l.finallyBody g o) := by
  have joins : l.outcome x (l.passed x) t o = l.joined x t o := by
    cases g <;> simp [Link.outcome, joined, reply, forwarded, op]
  have called : l.calls x o = true := by simp [Link.calls, op]
  unfold finallyBody
  split
  · simp [Right, Link.outcome, op]
  · simp [Right, Link.outcome, op]
  · rename_i async
    exact ⟨by simp [reply, op], joins, called, async⟩
  · rename_i async
    exact ⟨by simp [reply, op], joins, called, async⟩

theorem body_right (done : Bool) : Right x t l o (l.body x t done o) := by
  cases op : l.op with
  | then_ f =>
    cases done with
    | true =>
      simp only [body, op, if_true]
      exact thenDone_right op
    | false =>
      simp only [body, op, Bool.false_eq_true, if_false]
      exact thenPending_right op
  | catch_ a h =>
    simp only [body, op]
    exact catch_right op
  | finally_ g =>
    simp only [body, op]
    exact finally_right op

end Right
end Link

def Pid.index : Pid → Nat
  | .promise i | .reply i | .wrapper i | .resolves i | .rejects i => i

/-- The function of link `i` has run on the outcome `o`. -/
structure Ran (c : Chain K V E) (s : State V E) (i : Nat) (l : Link K V E) (o : Result V E) :
    Prop where
  here : c.links[i]? = some l
  before : s.outcome (.promise i) = some o
  calls : s.calls i = if l.calls c.exceptions o then 1 else 0

def voided : Result V E → Result V E
  | .value _ => .value .void
  | .exception e => .exception e

def Justified (c : Chain K V E) (s : State V E) : Pid → Result V E → Prop
  | .promise 0, _ => True
  | .promise (i + 1), r => ∃ l o, Ran c s i l o ∧
      r = l.outcome c.exceptions (l.passed c.exceptions) (c.typeAt i) o
  | .reply i, r => ∃ l o, Ran c s i l o ∧ r = l.reply c.exceptions o
  | .wrapper i, r => ∃ l o, Ran c s i l o ∧ r = l.reply c.exceptions o
  | .resolves i, r => ∃ l o, Ran c s i l o ∧ r = voided (l.reply c.exceptions o)
  | .rejects _, r => r = .value .void

/-- The continuation of link `i` has returned the promise `p`, which will have outcome `r`. -/
structure Asked (c : Chain K V E) (s : State V E) (i : Nat) (p : Pid) (r : Result V E) : Prop where
  justified : Justified c s p r
  called : s.calls i = 1
  place : p = .promise (i + 1) ∨ (p = .reply i ∧ s.kept i ≠ none)
  link : ∃ l, c.links[i]? = some l ∧ l.mode ≠ .sync

/-- Link `i` has made its inner `Then` and `Catch`. -/
def Joins (c : Chain K V E) (s : State V E) (i : Nat) (o : Result V E) : Prop :=
  ∃ l, Ran c s i l o ∧ l.outcome c.exceptions (l.passed c.exceptions) (c.typeAt i) o =
    l.joined c.exceptions (c.typeAt i) o

def Called (c : Chain K V E) (s : State V E) (i : Nat) : Prop :=
  ∃ l o, c.links[i]? = some l ∧ s.outcome (.promise i) = some o ∧ l.calls c.exceptions o = true

def Placed (c : Chain K V E) (s : State V E) : Awaiter → Prop
  | .link i => i < c.links.length
  | .resume i => c.wraps i = true ∧ s.kept i ≠ none
  | .resolves i => s.kept i ≠ none
  | .rejects i => s.kept i ≠ none

structure Inv (c : Chain K V E) (s : State V E) : Prop where
  tidy : s.cells.Tidy
  justified : ∀ p r, s.outcome p = some r → Justified c s p r
  asked : ∀ i p r, s.asked i = some (p, r) → Asked c s i p r
  kept : ∀ i o, s.kept i = some o → Joins c s i o
  called : ∀ i, s.calls i ≠ 0 → Called c s i
  awaiters : ∀ p, ∀ a ∈ (s.cells p).awaiters, p = c.source a ∧ Placed c s a

def Fit (c : Chain K V E) (s : State V E) : Instr V E → Prop
  | .settling (.reject p o) => p.index ≤ c.links.length ∧ Justified c s p o
  | .settling (.claim p o) => p.index ≤ c.links.length ∧ Justified c s p o
  | .settling (.store p o) =>
      p.index ≤ c.links.length ∧ Justified c s p o ∧ (s.cells p).resolved = true
  | .settling (.clear p) => p.index ≤ c.links.length
  | .attach a => Placed c s a
  | .run a _ => Placed c s a ∧ s.outcome (c.source a) ≠ none
  | .ready i => Placed c s (.resume i)
  | .returned => True

def Known (s : State V E) : Instr V E → Prop
  | .settling i => Fresh (s.cells i.cell) i
  | .run (.link i) _ => s.calls i = 0
  | _ => True

structure Ahead (c : Chain K V E) (s t : State V E) : Prop where
  cells : ∀ p, Grows (s.cells p) (t.cells p)
  calls : ∀ i l o, Ran c s i l o → t.calls i = s.calls i
  kept : ∀ i o, s.kept i = some o → t.kept i = some o
  asked : ∀ i x, s.asked i = some x → t.asked i = some x

section Ahead
variable {c : Chain K V E} {s t u : State V E}

theorem ahead_refl (c : Chain K V E) (s : State V E) : Ahead c s s :=
  ⟨fun _ => grows_refl _, fun _ _ _ _ => rfl, fun _ _ kept => kept, fun _ _ asked => asked⟩

theorem ahead_outcome (ahead : Ahead c s t) {p : Pid} {o : Result V E}
    (done : s.outcome p = some o) : t.outcome p = some o :=
  (ahead.cells p).outcome o done

theorem ahead_done (ahead : Ahead c s t) {p : Pid} (done : s.outcome p ≠ none) :
    t.outcome p ≠ none := by
  obtain ⟨o, done⟩ := Option.ne_none_iff_exists'.mp done
  simp [ahead_outcome ahead done]

theorem ahead_ran (ahead : Ahead c s t) {i : Nat} {l : Link K V E} {o : Result V E}
    (ran : Ran c s i l o) : Ran c t i l o :=
  ⟨ran.here, ahead_outcome ahead ran.before, (ahead.calls i l o ran).trans ran.calls⟩

theorem ahead_trans (first : Ahead c s t) (second : Ahead c t u) : Ahead c s u := by
  refine ⟨fun p => grows_trans (first.cells p) (second.cells p), fun i l o ran => ?_,
    fun i o kept => second.kept i o (first.kept i o kept),
    fun i x asked => second.asked i x (first.asked i x asked)⟩
  exact (second.calls i l o (ahead_ran first ran)).trans (first.calls i l o ran)

theorem ahead_kept (ahead : Ahead c s t) {i : Nat} (kept : s.kept i ≠ none) : t.kept i ≠ none := by
  obtain ⟨o, kept⟩ := Option.ne_none_iff_exists'.mp kept
  simp [ahead.kept i o kept]

theorem ahead_justified (ahead : Ahead c s t) {p : Pid} {r : Result V E}
    (just : Justified c s p r) : Justified c t p r := by
  have ran : ∀ {i : Nat} {q : Link K V E → Result V E → Prop},
      (∃ l o, Ran c s i l o ∧ q l o) → ∃ l o, Ran c t i l o ∧ q l o := by
    rintro i q ⟨l, o, ran, holds⟩
    exact ⟨l, o, ahead_ran ahead ran, holds⟩
  cases p with
  | promise i =>
    cases i with
    | zero => exact just
    | succ i => exact ran just
  | reply i => exact ran just
  | wrapper i => exact ran just
  | resolves i => exact ran just
  | rejects i => exact just

theorem ahead_placed (ahead : Ahead c s t) {a : Awaiter} (placed : Placed c s a) :
    Placed c t a := by
  cases a with
  | link i => exact placed
  | resume i => exact ⟨placed.1, ahead_kept ahead placed.2⟩
  | resolves i => exact ahead_kept ahead placed
  | rejects i => exact ahead_kept ahead placed

theorem ahead_fit (ahead : Ahead c s t) {i : Instr V E} (fit : Fit c s i) : Fit c t i := by
  cases i with
  | settling i =>
    cases i with
    | reject p o => exact ⟨fit.1, ahead_justified ahead fit.2⟩
    | claim p o => exact ⟨fit.1, ahead_justified ahead fit.2⟩
    | store p o =>
      exact ⟨fit.1, ahead_justified ahead fit.2.1, (ahead.cells p).resolved fit.2.2⟩
    | clear p => exact fit
  | attach a => exact ahead_placed ahead fit
  | run a done => exact ⟨ahead_placed ahead fit.1, ahead_done ahead fit.2⟩
  | ready i => exact ahead_placed (a := .resume i) ahead fit
  | returned => trivial

theorem asked_ran {i : Nat} {p : Pid} {r : Result V E} (asked : Asked c s i p r) :
    ∃ l o, Ran c s i l o := by
  have just := asked.justified
  rcases asked.place with rfl | ⟨rfl, _⟩
  · obtain ⟨l, o, ran, _⟩ := just
    exact ⟨l, o, ran⟩
  · obtain ⟨l, o, ran, _⟩ := just
    exact ⟨l, o, ran⟩

theorem ahead_asked (ahead : Ahead c s t) {i : Nat} {p : Pid} {r : Result V E}
    (asked : Asked c s i p r) : Asked c t i p r := by
  obtain ⟨l, o, ran⟩ := asked_ran asked
  refine ⟨ahead_justified ahead asked.justified, (ahead.calls i l o ran).trans asked.called, ?_,
    asked.link⟩
  exact asked.place.imp id fun reply => ⟨reply.1, ahead_kept ahead reply.2⟩

theorem ahead_joins (ahead : Ahead c s t) {i : Nat} {o : Result V E} (joins : Joins c s i o) :
    Joins c t i o := by
  obtain ⟨l, ran, same⟩ := joins
  exact ⟨l, ahead_ran ahead ran, same⟩

structure Moved (c : Chain K V E) (s t : State V E) : Prop where
  inv : Inv c t
  ahead : Ahead c s t

theorem moved_trans (first : Moved c s t) (second : Moved c t u) : Moved c s u :=
  ⟨second.inv, ahead_trans first.ahead second.ahead⟩

/-- The invariant has to be looked at where the state has changed. -/
theorem moved_of (inv : Inv c s) (ahead : Ahead c s t) (tidy : t.cells.Tidy)
    (done : ∀ p r, t.outcome p = some r → s.outcome p = some r ∨ Justified c s p r)
    (asked : ∀ i p r, t.asked i = some (p, r) → s.asked i = some (p, r) ∨ Asked c s i p r)
    (kept : ∀ i o, t.kept i = some o → s.kept i = some o ∨ Joins c s i o)
    (called : ∀ i, t.calls i ≠ 0 → s.calls i ≠ 0 ∨ Called c s i)
    (awaiters : ∀ p, ∀ a ∈ (t.cells p).awaiters, a ∈ (s.cells p).awaiters ∨
      (p = c.source a ∧ Placed c s a)) : Moved c s t := by
  refine ⟨⟨tidy, fun p r there => ?_, fun i p r there => ?_, fun i o there => ?_,
    fun i there => ?_, fun p a there => ?_⟩, ahead⟩
  · rcases done p r there with old | new
    · exact ahead_justified ahead (inv.justified p r old)
    · exact ahead_justified ahead new
  · rcases asked i p r there with old | new
    · exact ahead_asked ahead (inv.asked i p r old)
    · exact ahead_asked ahead new
  · rcases kept i o there with old | new
    · exact ahead_joins ahead (inv.kept i o old)
    · exact ahead_joins ahead new
  · have before : Called c s i := by
      rcases called i there with old | new
      · exact inv.called i old
      · exact new
    obtain ⟨l, o, here, done, calls⟩ := before
    exact ⟨l, o, here, ahead_outcome ahead done, calls⟩
  · rcases awaiters p a there with old | ⟨source, placed⟩
    · obtain ⟨source, placed⟩ := inv.awaiters p a old
      exact ⟨source, ahead_placed ahead placed⟩
    · exact ⟨source, ahead_placed ahead placed⟩

end Ahead

section Changes
variable {c : Chain K V E} {s t : State V E}

theorem ran_same {i : Nat} {l l' : Link K V E} {o o' : Result V E} (ran : Ran c s i l o)
    (here : c.links[i]? = some l') (before : s.outcome (.promise i) = some o') :
    l = l' ∧ o = o' := by
  have link := ran.here.symm.trans here
  have outcome := ran.before.symm.trans before
  simp only [Option.some.injEq] at link outcome
  exact ⟨link, outcome⟩

theorem marks_moved (inv : Inv c s) (cells : t.cells = s.cells) (calls : t.calls = s.calls)
    (kept : t.kept = s.kept) (asked : t.asked = s.asked) : Moved c s t := by
  refine moved_of inv ⟨fun p => ?_, fun i l o _ => ?_, fun i o there => ?_, fun i x there => ?_⟩
    (cells ▸ inv.tidy) (fun p r there => .inl ?_) (fun i p r there => .inl ?_)
    (fun i o there => .inl ?_) (fun i there => .inl (calls ▸ there)) (fun p a there => .inl ?_)
  · rw [cells]
    exact grows_refl _
  · rw [calls]
  · exact kept ▸ there
  · exact asked ▸ there
  · rw [State.outcome, cells] at there
    exact there
  · exact asked ▸ there
  · exact kept ▸ there
  · exact cells ▸ there

theorem called_moved (inv : Inv c s) {i : Nat} {l : Link K V E} {o : Result V E}
    (here : c.links[i]? = some l) (before : s.outcome (.promise i) = some o)
    (uncalled : s.calls i = 0) :
    Moved c s (s.called i l c.exceptions o) ∧ Ran c (s.called i l c.exceptions o) i l o := by
  by_cases calls : l.calls c.exceptions o = true
  · have eq : s.called i l c.exceptions o =
        { s with calls := Function.update s.calls i (s.calls i + 1) } := by
      simp [State.called, calls]
    rw [eq]
    constructor
    · refine moved_of inv ⟨fun p => grows_refl _, fun j l' o' ran => ?_, fun _ _ there => there,
        fun _ _ there => there⟩ inv.tidy (fun _ _ there => .inl there)
        (fun _ _ _ there => .inl there) (fun _ _ there => .inl there) (fun j there => ?_)
        (fun _ _ there => .inl there)
      · by_cases same : j = i
        · subst same
          obtain ⟨rfl, rfl⟩ := ran_same ran here before
          have once := ran.calls
          simp [calls, uncalled] at once
        · exact Function.update_of_ne same _ _
      · by_cases same : j = i
        · exact .inr ⟨l, o, same ▸ here, same ▸ before, calls⟩
        · have still : Function.update s.calls i (s.calls i + 1) j = s.calls j :=
            Function.update_of_ne same _ _
          exact .inl (still ▸ there)
    · refine ⟨here, before, ?_⟩
      simp [calls, uncalled]
  · have eq : s.called i l c.exceptions o = s := by simp [State.called, calls]
    rw [eq]
    refine ⟨⟨inv, ahead_refl c s⟩, here, before, ?_⟩
    simp [calls, uncalled]

theorem keep_moved (inv : Inv c s) {i : Nat} {o : Result V E} (joins : Joins c s i o) :
    Moved c s (s.keep i o) := by
  obtain ⟨l, ran, same⟩ := joins
  have kept : ∀ j o', s.kept j = some o' → (s.keep i o).kept j = some o' := by
    intro j o' there
    by_cases here : j = i
    · subst here
      obtain ⟨l', ran', _⟩ := inv.kept j o' there
      obtain ⟨_, rfl⟩ := ran_same ran ran'.here ran'.before
      exact Function.update_self _ _ _
    · exact (Function.update_of_ne here _ _).trans there
  refine moved_of inv ⟨fun p => grows_refl _, fun _ _ _ _ => rfl, kept, fun _ _ there => there⟩
    inv.tidy (fun _ _ there => .inl there) (fun _ _ _ there => .inl there) (fun j o' there => ?_)
    (fun _ there => .inl there) (fun _ _ there => .inl there)
  by_cases here : j = i
  · subst here
    rw [show (s.keep j o).kept j = some o from Function.update_self _ _ _, Option.some.injEq]
      at there
    exact .inr ⟨l, there ▸ ran, there ▸ same⟩
  · rw [show (s.keep i o).kept j = s.kept j from Function.update_of_ne here _ _] at there
    exact .inl there

theorem start_grows (p q : Pid) : Grows (s.cells q) ((s.start p).cells q) := by
  have grows : Grows (s.cells p) { s.cells p with handle := true } :=
    ⟨id, id, fun _ done => done, Nat.le_refl _⟩
  exact Family.put_grows grows q

theorem start_cell (p q : Pid) : ((s.start p).cells q).outcome = (s.cells q).outcome ∧
    ((s.start p).cells q).awaiters = (s.cells q).awaiters ∧
    ((s.start p).cells q).resolved = (s.cells q).resolved ∧
    ((s.start p).cells q).rejected = (s.cells q).rejected ∧
    (((s.start p).cells q).handle = false → (s.cells q).handle = false) := by
  by_cases here : q = p
  · subst here
    simp [State.start]
  · simp [State.start, Family.put_away here]

theorem start_tidy (tidy : s.cells.Tidy) (p : Pid) : (s.start p).cells.Tidy := by
  constructor
  · intro q done
    rw [(start_cell p q).1] at done
    rw [(start_cell p q).2.2.1]
    exact tidy.resolved q done
  · intro q free done
    rw [(start_cell p q).1] at done
    rw [(start_cell p q).2.1]
    exact tidy.emptied q ((start_cell p q).2.2.2.2 free) done

theorem start_moved (inv : Inv c s) (p : Pid) : Moved c s (s.start p) := by
  refine moved_of inv ⟨start_grows p, fun _ _ _ _ => rfl, fun _ _ there => there,
    fun _ _ there => there⟩ (start_tidy inv.tidy p) (fun q r there => .inl ?_)
    (fun _ _ _ there => .inl there) (fun _ _ there => .inl there) (fun _ there => .inl there)
    (fun q a there => .inl ?_)
  · rw [State.outcome, (start_cell p q).1] at there
    exact there
  · rw [(start_cell p q).2.1] at there
    exact there

theorem ask_moved (inv : Inv c s) {i : Nat} {p : Pid} {r : Result V E} (asked : Asked c s i p r)
    (free : s.asked i = none) : Moved c s (s.ask i p r) := by
  refine moved_of inv ⟨start_grows p, fun _ _ _ _ => rfl, fun _ _ there => there,
    fun j x there => ?_⟩ (start_tidy inv.tidy p) (fun q r there => .inl ?_) (fun j q r' there => ?_)
    (fun _ _ there => .inl there) (fun _ there => .inl there) (fun q a there => .inl ?_)
  · have other : j ≠ i := by
      rintro rfl
      simp [free] at there
    exact (Function.update_of_ne other _ _).trans there
  · rw [State.outcome, State.ask, (start_cell p q).1] at there
    exact there
  · by_cases here : j = i
    · subst here
      rw [show (s.ask j p r).asked j = some (p, r) from Function.update_self _ _ _,
        Option.some.injEq, Prod.mk.injEq] at there
      obtain ⟨rfl, rfl⟩ := there
      exact .inr asked
    · rw [show (s.ask i p r).asked j = s.asked j from Function.update_of_ne here _ _] at there
      exact .inl there
  · rw [State.ask, (start_cell p q).2.1] at there
    exact there

theorem register_moved (inv : Inv c s) {a : Awaiter} (pending : s.outcome (c.source a) = none)
    (placed : Placed c s a) : Moved c s (s.register (c.source a) a) := by
  refine moved_of inv ⟨fun p => Family.grows_register p, fun _ _ _ _ => rfl, fun _ _ there => there,
    fun _ _ there => there⟩ (Family.tidy_register inv.tidy pending) (fun p r there => .inl ?_)
    (fun _ _ _ there => .inl there) (fun _ _ there => .inl there) (fun _ there => .inl there)
    (fun p b there => ?_)
  · rw [State.outcome, State.register, Family.register_outcome] at there
    exact there
  · rcases Family.register_awaiters there with old | ⟨rfl, rfl⟩
    · exact .inl old
    · exact .inr ⟨rfl, placed⟩

theorem settle_moved (inv : Inv c s) {i : Settling Pid (Val V) E} (fit : Fit c s (.settling i))
    (fresh : Fresh (s.cells i.cell) i) : Moved c s { s with cells := s.cells.settle i } := by
  refine moved_of inv ⟨fun p => Family.grows_settle fresh p, fun _ _ _ _ => rfl,
    fun _ _ there => there, fun _ _ there => there⟩ (Family.tidy_settle inv.tidy ?_)
    (fun p r there => ?_) (fun _ _ _ there => .inl there) (fun _ _ there => .inl there)
    (fun _ there => .inl there) (fun p a there => .inl (Family.settle_sub there))
  · intro p o store
    subst store
    exact fit.2.2
  · rcases Family.outcome_settle there with old | store
    · exact .inl old
    · subst store
      exact .inr fit.2.1

end Changes

section Steps
variable {c : Chain K V E} {s t : State V E} {is : List (Instr V E)}

structure Steps (c : Chain K V E) (s t : State V E) (is : List (Instr V E)) : Prop where
  moved : Moved c s t
  fits : ∀ x ∈ is, Fit c t x

theorem steps_kept (steps : Steps c s t is) : Kept (Inv c) (Fit c) s t is :=
  ⟨steps.moved.inv, fun _ fit => ahead_fit steps.moved.ahead fit, steps.fits⟩

theorem stays_steps (inv : Inv c s) (fits : ∀ x ∈ is, Fit c s x) : Steps c s s is :=
  ⟨⟨inv, ahead_refl c s⟩, fits⟩

theorem fit_settling {p : Pid} {r : Result V E} (inside : p.index ≤ c.links.length)
    (just : Justified c s p r) : Fit c s (.settling (settling p r)) := by
  cases r with
  | value v => exact ⟨inside, just⟩
  | exception e => exact ⟨inside, just⟩

theorem fit_ending {p : Pid} {o : Option (Result V E)} (inside : p.index ≤ c.links.length)
    (just : ∀ r, o = some r → Justified c s p r) : ∀ x ∈ ending p o, Fit c s x := by
  intro x new
  cases o with
  | none =>
    rw [List.mem_singleton.mp new]
    exact inside
  | some r =>
    simp only [ending, List.mem_cons, List.not_mem_nil, or_false] at new
    rcases new with rfl | rfl
    · exact ⟨inside, just r rfl⟩
    · exact inside

theorem fit_inner {i : Nat} (kept : s.kept i ≠ none) : ∀ x ∈ (inner i : List (Instr V E)),
    Fit c s x := by
  intro x new
  simp only [inner, List.mem_cons, List.not_mem_nil, or_false] at new
  rcases new with rfl | rfl
  · exact kept
  · exact kept

theorem kept_ran {i : Nat} (inv : Inv c s) (kept : s.kept i ≠ none) :
    ∃ l o, s.kept i = some o ∧ Ran c s i l o ∧
      l.outcome c.exceptions (l.passed c.exceptions) (c.typeAt i) o =
        l.joined c.exceptions (c.typeAt i) o := by
  obtain ⟨o, there⟩ := Option.ne_none_iff_exists'.mp kept
  obtain ⟨l, ran, joins⟩ := inv.kept i o there
  exact ⟨l, o, there, ran, joins⟩

theorem placed_inside (inv : Inv c s) {a : Awaiter} (placed : Placed c s a) :
    a.index < c.links.length := by
  have inner : ∀ i, s.kept i ≠ none → i < c.links.length := by
    intro i kept
    obtain ⟨l, o, _, ran, _⟩ := kept_ran inv kept
    exact lookup_inside ran.here
  cases a with
  | link i => exact placed
  | resume i => exact inner i placed.2
  | resolves i => exact inner i placed
  | rejects i => exact inner i placed

theorem fit_ready (inv : Inv c s) {a : Awaiter} {done : Bool} (fit : Fit c s (.run a done)) :
    c.Ready s a := by
  refine ⟨fit.2, placed_inside inv fit.1, fun i same => ?_⟩
  subst same
  exact fit.1

theorem replies_outcome (inv : Inv c s) {i : Nat} {r : Result V E}
    (answer : s.outcome (c.replies i) = some r) :
    ∃ l o, Ran c s i l o ∧ r = l.reply c.exceptions o := by
  have just := inv.justified _ r answer
  unfold Chain.replies at just
  split at just
  · exact just
  · exact just

theorem settling_steps {i : Settling Pid (Val V) E} (inv : Inv c s) (fit : Fit c s (.settling i))
    (fresh : Fresh (s.cells i.cell) i) :
    Steps c s { s with cells := s.cells.settle i }
      ((settle (s.cells i.cell) i).next.map .settling ++
        (settle (s.cells i.cell) i).flushed.map fun a => .run a false) := by
  have moved := settle_moved inv fit fresh
  refine .mk moved fun x new => ?_
  rcases List.mem_append.mp new with next | flushed
  · obtain ⟨k, there, rfl⟩ := List.mem_map.mp next
    rw [settle_next] at there
    cases i with
    | reject p o =>
      dsimp only at there
      split at there
      · simp at there
      · rw [List.mem_singleton.mp there]
        exact ⟨fit.1, ahead_justified moved.ahead fit.2⟩
    | claim p o =>
      dsimp only at there
      split at there
      · simp at there
      · rw [List.mem_singleton.mp there]
        exact ⟨fit.1, ahead_justified moved.ahead fit.2, Family.settle_claimed s.cells p o⟩
    | store p o => simp at there
    | clear p => simp at there
  · obtain ⟨a, there, rfl⟩ := List.mem_map.mp flushed
    obtain ⟨source, placed⟩ := inv.awaiters _ a (flushed_sub there)
    refine ⟨ahead_placed moved.ahead placed, ?_⟩
    rw [← source]
    exact Family.flushed_done there

/-- The continuation of link `i` is called, and returns a promise. -/
theorem asks {i : Nat} {l : Link K V E} {o : Result V E} (inv : Inv c s)
    (here : c.links[i]? = some l) (before : s.outcome (.promise i) = some o)
    (uncalled : s.calls i = 0) (calls : l.calls c.exceptions o = true) :
    (s.called i l c.exceptions o).asked i = none ∧ (s.called i l c.exceptions o).calls i = 1 := by
  have once := (called_moved inv here before uncalled).2.calls
  rw [calls] at once
  refine ⟨?_, once⟩
  have same : (s.called i l c.exceptions o).asked = s.asked := by
    unfold State.called
    split <;> rfl
  rw [same]
  by_contra asked
  obtain ⟨x, asked⟩ := Option.ne_none_iff_exists'.mp asked
  have called := (inv.asked i x.1 x.2 asked).called
  omega

theorem follow_moved {i : Nat} {l : Link K V E} {o r : Result V E} (inv : Inv c s)
    (here : c.links[i]? = some l) (before : s.outcome (.promise i) = some o)
    (uncalled : s.calls i = 0) (right : Link.Right c.exceptions (c.typeAt i) l o (.follow r)) :
    Moved c s (((s.called i l c.exceptions o).keep i o).ask i (.reply i) r) ∧
      (((s.called i l c.exceptions o).keep i o).ask i (.reply i) r).kept i ≠ none := by
  obtain ⟨reply, joins, calls, async⟩ := right
  obtain ⟨moved, ran⟩ := called_moved inv here before uncalled
  obtain ⟨unasked, once⟩ := asks inv here before uncalled calls
  have kept := keep_moved moved.inv ⟨l, ran, joins⟩
  have there : ((s.called i l c.exceptions o).keep i o).kept i ≠ none := by
    simp [State.keep]
  have asked : Asked c ((s.called i l c.exceptions o).keep i o) i (.reply i) r :=
    ⟨⟨l, o, ahead_ran kept.ahead ran, reply⟩, once, .inr ⟨rfl, there⟩, l, here, async⟩
  exact ⟨moved_trans moved (moved_trans kept (ask_moved kept.inv asked unasked)), there⟩

theorem did_steps {i : Instr V E} (inv : Inv c s) (fit : Fit c s i) (known : Known s i)
    (did : c.Did s i t is) : Steps c s t is := by
  cases did with
  | settling i => exact settling_steps inv fit known
  | through a done =>
    refine stays_steps inv fun x new => ?_
    rw [List.mem_singleton.mp new]
    exact ⟨fit, done⟩
  | register a pending => exact .mk (register_moved inv pending fit) (by simp)
  | missing a done lacks => exact absurd (fit_ready inv fit) lacks
  | settle i done l o r here before body =>
    obtain ⟨moved, ran⟩ := called_moved inv here before known
    have right := l.body_right (x := c.exceptions) (t := c.typeAt i) (o := o) done
    rw [body] at right
    refine .mk moved fun x new => ?_
    rw [List.mem_singleton.mp new]
    exact fit_settling (lookup_inside here) ⟨l, o, ran, right⟩
  | become i done l o r here before body =>
    obtain ⟨moved, ran⟩ := called_moved inv here before known
    have right := l.body_right (x := c.exceptions) (t := c.typeAt i) (o := o) done
    rw [body] at right
    obtain ⟨unasked, once⟩ := asks inv here before known right.2.1
    have asked : Asked c (s.called i l c.exceptions o) i (.promise (i + 1)) r :=
      ⟨⟨l, o, ran, right.1⟩, once, .inl rfl, l, here, right.2.2⟩
    exact .mk (moved_trans moved (ask_moved moved.inv asked unasked)) (by simp)
  | follow i done l o r here before body plain =>
    have right := l.body_right (x := c.exceptions) (t := c.typeAt i) (o := o) done
    rw [body] at right
    obtain ⟨moved, kept⟩ := follow_moved inv here before known right
    exact .mk moved (fit_inner kept)
  | wrap i done l o r here before body wraps =>
    have right := l.body_right (x := c.exceptions) (t := c.typeAt i) (o := o) done
    rw [body] at right
    obtain ⟨moved, kept⟩ := follow_moved inv here before known right
    have started := start_moved moved.inv (.wrapper i)
    refine .mk (moved_trans moved started) fun x new => ?_
    rcases List.mem_cons.mp new with rfl | later
    · exact ⟨wraps, kept⟩
    · exact fit_inner (ahead_kept started.ahead kept) x later
  | refuse i done l o e here before body =>
    have right := l.body_right (x := c.exceptions) (t := c.typeAt i) (o := o) done
    rw [body] at right
    obtain ⟨reply, joins, _⟩ := right
    obtain ⟨moved, ran⟩ := called_moved inv here before known
    have kept := keep_moved moved.inv ⟨l, ran, joins⟩
    refine .mk (moved_trans moved kept) fun x new => ?_
    rcases List.mem_cons.mp new with rfl | later
    · exact fit_settling (Nat.le_of_lt (lookup_inside here))
        ⟨l, o, ahead_ran kept.ahead ran, reply.symm⟩
    · exact fit_inner (by simp [State.keep]) x later
  | resume i done r answer =>
    obtain ⟨l, o, ran, reply⟩ := inv.justified _ r answer
    have moved := marks_moved (t := s.ended (.wrapper i)) inv rfl rfl rfl rfl
    refine .mk moved (fit_ending (Nat.le_of_lt (lookup_inside ran.here)) ?_)
    intro r' same
    rw [Option.some.injEq] at same
    exact ⟨l, o, ahead_ran moved.ahead ran, same ▸ reply⟩
  | resolves i done l o w here kept answer =>
    obtain ⟨l', ran, joins⟩ := inv.kept i o kept
    obtain ⟨l'', o', ran', reply⟩ := replies_outcome inv answer
    obtain ⟨rfl, rfl⟩ := ran_same ran ran'.here ran'.before
    obtain ⟨rfl, _⟩ := ran_same ran here ran.before
    have inside := lookup_inside here
    refine stays_steps inv fun x new => ?_
    simp only [List.mem_cons, List.not_mem_nil, or_false] at new
    rcases new with rfl | rfl
    · refine fit_settling inside ⟨_, _, ran, ?_⟩
      rw [joins, Link.joined, ← reply]
    · refine fit_settling (Nat.le_of_lt inside) ⟨_, _, ran, ?_⟩
      rw [← reply]
      rfl
  | refuses i done e answer =>
    obtain ⟨l, o, ran, reply⟩ := replies_outcome inv answer
    refine stays_steps inv fun x new => ?_
    rw [List.mem_singleton.mp new]
    refine fit_settling (Nat.le_of_lt (lookup_inside ran.here)) ⟨l, o, ran, ?_⟩
    rw [← reply]
    rfl
  | passes i done v answer =>
    obtain ⟨l, o, ran, _⟩ := inv.justified _ _ answer
    refine stays_steps inv fun x new => ?_
    rw [List.mem_singleton.mp new]
    exact fit_settling (Nat.le_of_lt (lookup_inside ran.here)) rfl
  | rejects i done e answer =>
    obtain ⟨l, o, ran, reply⟩ := inv.justified _ _ answer
    obtain ⟨l', o', _, ran', joins⟩ := kept_ran inv fit.1
    obtain ⟨rfl, rfl⟩ := ran_same ran ran'.here ran'.before
    have inside := lookup_inside ran.here
    have threw : l.reply c.exceptions o = .exception e := by
      cases answer_ : l.reply c.exceptions o with
      | value w => simp [answer_, voided] at reply
      | exception e' => simpa [answer_, voided, eq_comm] using reply
    refine stays_steps inv fun x new => ?_
    simp only [List.mem_cons, List.not_mem_nil, or_false] at new
    rcases new with rfl | rfl
    · refine fit_settling inside ⟨l, o, ran, ?_⟩
      rw [joins, Link.joined, threw]
    · exact fit_settling (Nat.le_of_lt inside) rfl
  | ready i done =>
    refine stays_steps inv fun x new => ?_
    rw [List.mem_singleton.mp new]
    exact ⟨fit, done⟩
  | unready i =>
    refine stays_steps inv fun x new => ?_
    rw [List.mem_singleton.mp new]
    exact fit
  | returned => exact .mk (marks_moved inv rfl rfl rfl rfl) (by simp)

theorem spawn_steps {e : Event V E} (inv : Inv c s) (spawned : c.spawn e s = some (t, is)) :
    Steps c s t is := by
  cases spawn_spawned spawned with
  | settle o handle =>
    refine stays_steps inv fun x new => ?_
    rw [List.mem_singleton.mp new]
    exact fit_settling (Nat.zero_le _) trivial
  | complete o running ends =>
    refine .mk (marks_moved inv rfl rfl rfl rfl) ?_
    exact fit_ending (Nat.zero_le _) fun _ _ => trivial
  | attach turn inside =>
    refine .mk (marks_moved inv rfl rfl rfl rfl) fun x new => ?_
    simp only [List.mem_cons, List.not_mem_nil, or_false] at new
    rcases new with rfl | rfl
    · exact inside
    · trivial
  | answer i p r l asked here handle =>
    have known := inv.asked i p r asked
    have inside := lookup_inside here
    refine stays_steps inv fun x new => ?_
    rw [List.mem_singleton.mp new]
    refine fit_settling ?_ known.justified
    rcases known.place with rfl | ⟨rfl, _⟩
    · exact inside
    · exact Nat.le_of_lt inside
  | finish i threw p r o l asked here running ends =>
    have known := inv.asked i p r asked
    have inside := lookup_inside here
    have moved := marks_moved (t := s.ended p) inv rfl rfl rfl rfl
    refine .mk moved (fit_ending ?_ fun r' gives => ?_)
    · rcases known.place with rfl | ⟨rfl, _⟩
      · exact inside
      · exact Nat.le_of_lt inside
    · have same : r' = r := by
        subst gives
        cases mode : l.mode with
        | sync => simp [mode, Mode.ends] at ends
        | coroutine => simpa [mode, Mode.ends, eq_comm] using ends
        | resolver =>
          rw [mode] at ends
          cases threw with
          | false => simp [Mode.ends] at ends
          | true =>
            cases r with
            | value v => simp [Mode.ends] at ends
            | exception e => simpa [Mode.ends, eq_comm] using ends
      rw [same]
      exact ahead_justified moved.ahead known.justified

end Steps

section Calls
variable {c : Chain K V E} {s t : State V E} {is : List (Instr V E)}

def Chain.places (c : Chain K V E) : Finset Pid :=
  (Finset.range (c.links.length + 1)).biUnion fun i =>
    {.promise i, .reply i, .wrapper i, .resolves i, .rejects i}

theorem mem_places {p : Pid} : p ∈ c.places ↔ p.index ≤ c.links.length := by
  simp only [Chain.places, Finset.mem_biUnion, Finset.mem_range, Finset.mem_insert,
    Finset.mem_singleton]
  constructor
  · rintro ⟨i, inside, rfl | rfl | rfl | rfl | rfl⟩ <;> exact Nat.le_of_lt_succ inside
  · intro inside
    exact ⟨p.index, Nat.lt_succ_of_le inside, by cases p <;> simp [Pid.index]⟩

theorem settling_place {k : Settling Pid (Val V) E} (fit : Fit c s (.settling k)) :
    k.cell ∈ c.places := by
  apply mem_places.mpr
  cases k with
  | reject p o => exact fit.1
  | claim p o => exact fit.1
  | store p o => exact fit.1
  | clear p => exact fit

theorem source_place {a : Awaiter} (inv : Inv c s) (placed : Placed c s a) :
    c.source a ∈ c.places := by
  apply mem_places.mpr
  have bound := placed_inside inv placed
  have same : (c.source a).index = a.index := by
    cases a with
    | resolves i =>
      simp only [Chain.source, Chain.replies]
      split <;> rfl
    | link i => rfl
    | resume i => rfl
    | rejects i => rfl
  omega

def linkWeight (i : Nat) (a : Awaiter) : Nat := if a = .link i then 1 else 0

def callWeight (i : Nat) : Instr V E → Nat
  | .attach a => linkWeight i a
  | .run a _ => linkWeight i a
  | _ => 0

/-- What is left of the one call of continuation `i`, or was made of it. -/
def callCost (c : Chain K V E) (i : Nat) (s : State V E) : Nat :=
  (if i < s.begun then 0 else 1) + Family.waiting (linkWeight i) c.places s.cells + s.calls i

theorem ending_call (i : Nat) (p : Pid) (o : Option (Result V E)) :
    ((ending p o).map (callWeight i)).sum = 0 := by
  cases o <;> rfl

theorem inner_call (i j : Nat) : ((inner j : List (Instr V E)).map (callWeight i)).sum = 0 := rfl

theorem called_cost_le (i j : Nat) (l : Link K V E) (o : Result V E) :
    callCost c i (s.called j l c.exceptions o) ≤ callCost c i s + linkWeight i (.link j) := by
  unfold State.called
  split
  · by_cases same : i = j
    · subst same
      simp [callCost, linkWeight]
      omega
    · simp [callCost, linkWeight, same, Ne.symm same]
  · exact Nat.le_add_right _ _

theorem call_state {i w : Nat} (begun : t.begun = s.begun) (calls : t.calls = s.calls)
    (waiting : Family.waiting (linkWeight i) c.places t.cells =
      Family.waiting (linkWeight i) c.places s.cells + w) :
    callCost c i t = callCost c i s + w := by
  unfold callCost
  rw [begun, calls, waiting]
  omega

theorem start_waiting (w : Awaiter → Nat) (ps : Finset Pid) (p : Pid) :
    Family.waiting w ps (s.start p).cells = Family.waiting w ps s.cells := by
  unfold Family.waiting
  refine Finset.sum_congr rfl fun q _ => ?_
  rw [(start_cell p q).2.1]

theorem start_call (i : Nat) (p : Pid) : callCost c i (s.start p) = callCost c i s :=
  call_state (w := 0) rfl rfl (start_waiting _ _ p)

theorem ask_call (i j : Nat) (p : Pid) (r : Result V E) :
    callCost c i (s.ask j p r) = callCost c i s :=
  call_state (w := 0) rfl rfl (start_waiting _ _ p)

theorem keep_call (i j : Nat) (o : Result V E) : callCost c i (s.keep j o) = callCost c i s := rfl

/-- An instruction that gives what is left of a call to the instructions it leads to. -/
theorem spends {i : Nat} {x : Instr V E} {cost : Nat} (paid : cost ≤ callWeight i x)
    (state : callCost c i t ≤ callCost c i s + cost) (free : (is.map (callWeight i)).sum = 0) :
    callCost c i t + (is.map (callWeight i)).sum ≤ callCost c i s + callWeight i x := by
  omega

theorem did_call (i : Nat) {x : Instr V E} (fit : Fit c s x) (inv : Inv c s)
    (did : c.Did s x t is) :
    callCost c i t + (is.map (callWeight i)).sum ≤ callCost c i s + callWeight i x := by
  cases did with
  | settling k =>
    have change := Family.waiting_settle (linkWeight i) c.places s.cells k (settling_place fit)
    have next : ((settle (s.cells k.cell) k).next.map
        (callWeight i ∘ (.settling : _ → Instr V E))).sum = 0 := by
      simp [Function.comp_def, callWeight]
    have flushed : (callWeight i ∘ fun a => (.run a false : Instr V E)) = linkWeight i := rfl
    simp only [List.map_append, List.map_map, List.sum_append, next, flushed, callCost, callWeight]
    omega
  | through a done =>
    simp [callWeight]
  | register a pending =>
    have change := Family.waiting_register (linkWeight i) c.places s.cells (fun _ => a)
      (source_place inv fit)
    exact Nat.le_of_eq (call_state (t := s.register (c.source a) a) rfl rfl change)
  | missing a done lacks => exact spends (Nat.zero_le _) (Nat.le_refl _) rfl
  | settle j done l o r here before body =>
    exact spends (Nat.le_refl _) (called_cost_le i j l o) rfl
  | become j done l o r here before body =>
    refine spends (Nat.le_refl _) ?_ rfl
    rw [ask_call]
    exact called_cost_le i j l o
  | follow j done l o r here before body plain =>
    refine spends (Nat.le_refl _) ?_ (inner_call i j)
    rw [ask_call, keep_call]
    exact called_cost_le i j l o
  | wrap j done l o r here before body wraps =>
    refine spends (Nat.le_refl _) ?_ (inner_call (V := V) (E := E) i j)
    rw [start_call, ask_call, keep_call]
    exact called_cost_le i j l o
  | refuse j done l o e here before body =>
    refine spends (Nat.le_refl _) ?_ (inner_call (V := V) (E := E) i j)
    rw [keep_call]
    exact called_cost_le i j l o
  | resume j done r answer =>
    exact spends (Nat.zero_le _) (Nat.le_refl _) (ending_call i _ (some r))
  | resolves j done l o w here kept answer => exact spends (Nat.zero_le _) (Nat.le_refl _) rfl
  | refuses j done e answer => exact spends (Nat.zero_le _) (Nat.le_refl _) rfl
  | passes j done v answer => exact spends (Nat.zero_le _) (Nat.le_refl _) rfl
  | rejects j done e answer => exact spends (Nat.zero_le _) (Nat.le_refl _) rfl
  | ready j done => exact spends (Nat.zero_le _) (Nat.le_refl _) rfl
  | unready j => exact spends (Nat.zero_le _) (Nat.le_refl _) rfl
  | returned => exact spends (Nat.zero_le _) (Nat.le_refl _) rfl

theorem spawn_call (i : Nat) {e : Event V E} (spawned : c.spawn e s = some (t, is)) :
    callCost c i t + (is.map (callWeight i)).sum ≤ callCost c i s := by
  cases spawn_spawned spawned with
  | settle o handle => exact Nat.le_refl _
  | complete o running ends =>
    rw [ending_call]
    exact Nat.le_refl _
  | attach turn inside =>
    simp only [callCost, callWeight, linkWeight, Awaiter.link.injEq, List.map_cons, List.map_nil,
      List.sum_cons, List.sum_nil]
    by_cases same : s.begun = i
    · subst same
      rw [if_pos (Nat.lt_succ_self _), if_neg (Nat.lt_irrefl _), if_pos rfl]
      omega
    · have below : i < s.begun + 1 ↔ i < s.begun := by omega
      simp [same, below]
  | answer j p r l asked here handle => exact Nat.le_refl _
  | finish j threw p r o l asked here running ends =>
    rw [ending_call]
    exact Nat.le_refl _

variable {m : Machine (State V E) (Instr V E)}

theorem initial_inv (c : Chain K V E) : Inv c c.initial.shared := by
  refine ⟨⟨fun p done => absurd rfl done, fun p _ done => absurd rfl done⟩, fun p r done => ?_,
    fun i p r asked => ?_, fun i o kept => ?_, fun i called => ?_, fun p a there => ?_⟩
  · simp [State.outcome, Chain.initial, created] at done
  · simp [Chain.initial] at asked
  · simp [Chain.initial] at kept
  · simp [Chain.initial] at called
  · simp [Chain.initial, created] at there

theorem known_of (reached : c.Reached m)
    (calls : ∀ i, load (callWeight i) (callCost c i) m ≤ 1) {x : Instr V E} (has : Has m x) :
    Known m.shared x := by
  cases x with
  | settling k => exact reached_fresh reached has
  | run a done =>
    cases a with
    | link i =>
      have bound := weight_le_load (callWeight i) (callCost c i) has
      have limit := calls i
      have one : callWeight i (.run (.link i) done : Instr V E) = 1 := by
        simp [callWeight, linkWeight]
      simp only [callCost] at bound
      simp only [Known]
      omega
    | resume i => trivial
    | resolves i => trivial
    | rejects i => trivial
  | attach a => trivial
  | ready i => trivial
  | returned => trivial

theorem reached_both (reached : c.Reached m) :
    Sound (Inv c) (Fit c) m ∧ ∀ i, load (callWeight i) (callCost c i) m ≤ 1 := by
  induction reached with
  | start first =>
    subst first
    refine ⟨⟨initial_inv c, ?_⟩, fun i => ?_⟩
    · rintro i ⟨t, member, _⟩
      simp [Chain.initial] at member
    · simp [load, Chain.initial, callCost, Family.waiting, created]
  | next reached taken ih =>
    obtain ⟨sound, calls⟩ := ih
    constructor
    · exact sound_step (fun s x inv fit known => steps_kept (did_steps inv fit known (exec_did x)))
        (fun _ e s t is inv spawned => steps_kept (spawn_steps inv spawned))
        (fun x has => known_of reached calls has) sound taken
    · intro i
      refine Nat.le_trans (load_step (callWeight i) (callCost c i)
        (fun s x inv fit => did_call i fit inv (exec_did x))
        (fun _ e s t is _ spawned => spawn_call i spawned) sound taken) (calls i)

theorem reached_sound (reached : c.Reached m) : Sound (Inv c) (Fit c) m := (reached_both reached).1

theorem calls_once (reached : c.Reached m) (i : Nat) : m.shared.calls i ≤ 1 := by
  have bound := (reached_both reached).2 i
  unfold load callCost at bound
  omega

end Calls

section Coded
variable {c : Chain K V E} {s : State V E} {i : Nat} {o r : Result V E}

theorem source_first (inv : Inv c s) (done : s.outcome (.promise i) ≠ none) :
    s.outcome (.promise 0) ≠ none := by
  induction i with
  | zero => exact done
  | succ i ih =>
    obtain ⟨r, done⟩ := Option.ne_none_iff_exists'.mp done
    obtain ⟨l, o, ran, _⟩ := inv.justified _ r done
    apply ih
    simp [ran.before]

/-- A link's promise has the outcome that its continuation gives for what it is handed. -/
theorem coded_outcome (inv : Inv c s) (source : s.outcome (.promise 0) = some o)
    (done : s.outcome (.promise i) = some r) : r = c.coded o i := by
  induction i generalizing r with
  | zero =>
    rw [source, Option.some.injEq] at done
    exact done.symm
  | succ i ih =>
    obtain ⟨l, o', ran, rfl⟩ := inv.justified _ r done
    rw [coded_step ran.here, ih ran.before]

theorem coded_called {l : Link K V E} (inv : Inv c s) (source : s.outcome (.promise 0) = some o)
    (here : c.links[i]? = some l) (called : s.calls i ≠ 0) :
    l.calls c.exceptions (c.coded o i) = true := by
  obtain ⟨l', o', here', before, calls⟩ := inv.called i called
  rw [here, Option.some.injEq] at here'
  subst here'
  rw [← coded_outcome inv source before]
  exact calls

theorem coded_calls {l : Link K V E} (inv : Inv c s) (source : s.outcome (.promise 0) = some o)
    (here : c.links[i]? = some l) (done : s.outcome (.promise (i + 1)) ≠ none) :
    s.calls i = if l.calls c.exceptions (c.coded o i) then 1 else 0 := by
  obtain ⟨r, done⟩ := Option.ne_none_iff_exists'.mp done
  obtain ⟨l', o', ran, _⟩ := inv.justified _ r done
  have same := ran.here
  rw [here, Option.some.injEq] at same
  subst same
  rw [← coded_outcome inv source ran.before]
  exact ran.calls

end Coded

end ChainLinks
