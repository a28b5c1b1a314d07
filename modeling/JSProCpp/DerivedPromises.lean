import JSProCpp.PromiseCells

/-
Promises derived from others by `Then`, `Race` and `Finally` on one thread. Calls run one
after the other, so that a settling call is one recursive function: it stores the outcome and
runs the awaiters, which settle the promises derived from it. A promise is made after the
ones it is derived from, and its number is larger.
-/
namespace DerivedPromises
open PromiseCells

inductive Exception where
  | end_
  | other (e : Nat)
  deriving DecidableEq

abbrev Result := Outcome Unit Exception

inductive Callback where
  | ended (d : Nat)
  | raced (r : Nat)
  | unwrap (p id w : Nat)
  | user (coroutine : Bool) (k : Nat)
  deriving DecidableEq

structure Registered where
  id : Nat
  callback : Callback
  deriving DecidableEq

def Registered.found (id : Nat) (a : Registered) : Bool :=
  (match a.callback with | .user true _ => false | _ => true) && a.id == id

structure Cell where
  outcome : Option Result
  awaiters : List Registered
  useCount : Nat

inductive Made where
  | source
  | ended (x : Nat)
  | race (a b : Nat)
  | wrapped (src r p id : Nat)

structure Graph where
  cells : Nat → Cell
  next : Nat
  made : Nat → Made
  ran : List Nat

def Graph.outcome (g : Graph) (c : Nat) : Option Result := (g.cells c).outcome

def Graph.put (g : Graph) (c : Nat) (x : Cell) : Graph :=
  { g with cells := Function.update g.cells c x }

/-- `Create()`: the promise has the number `g.next`. -/
def Graph.create (g : Graph) (m : Made) : Graph :=
  { g with
    cells := Function.update g.cells g.next ⟨none, [], 0⟩
    next := g.next + 1
    made := Function.update g.made g.next m }

def Graph.register (g : Graph) (c : Nat) (k : Callback) : Graph :=
  let x := g.cells c
  g.put c { x with awaiters := x.awaiters ++ [⟨x.useCount + 1, k⟩], useCount := x.useCount + 1 }

def Graph.unAwait (g : Graph) (p id : Nat) : Graph :=
  g.put p { g.cells p with awaiters := (g.cells p).awaiters.eraseP (Registered.found id) }

/-- What the callback of `Then([] { throw End(); })` gives its promise. -/
def thrown : Result → Result
  | .value _ => .exception .end_
  | .exception e => .exception e

/-- An awaiter of `c` runs; `settle` is the call it makes. -/
def callback (settle : Graph → Nat → Result → Option Graph) (g : Graph) (c : Nat) (k : Callback) :
    Option Graph :=
  match k, g.outcome c with
  | .user _ n, _ => some { g with ran := g.ran ++ [n] }
  | .ended d, some o => settle g d (thrown o)
  | .raced r, some o => settle g r o
  | .unwrap p id w, some o => settle (g.unAwait p id) w o
  | _, none => none

/-- `Resolver::Resolve` and `Resolver::Reject` with the flush of `OnResolved`. Between two
    calls `resolved_` is set exactly if there is an outcome. -/
def settle : Nat → Graph → Nat → Result → Option Graph
  | 0, _, _, _ => none
  | fuel + 1, g, c, o =>
      let x := g.cells c
      if x.outcome.isSome then some g
      else
        x.awaiters.foldlM (fun g a => callback (settle fuel) g c a.callback)
          (g.put c { x with outcome := some o, awaiters := [] })

/-- The awaiters of a promise settle only later ones, so that `next` bounds the nesting. -/
def Graph.settled (g : Graph) (c : Nat) (o : Result) : Option Graph := settle g.next g c o

/-- `c.Then([] { throw End(); })`. -/
def thenEnd (g : Graph) (c : Nat) : Option (Graph × Nat) :=
  let h := g.create (.ended c)
  match g.outcome c with
  | some o => (h.settled g.next (thrown o)).map (·, g.next)
  | none => some (h.register c (.ended g.next), g.next)

/-- `Promise::Race` of the input `p` with the promise `rp`, which is `r` or wraps it. -/
def raceInput (g : Graph) (r rp p : Nat) : Option (Graph × Nat) :=
  if (g.outcome rp).isSome then
    some (g.put p { g.cells p with useCount := (g.cells p).useCount + 1 }, rp)
  else
    match g.outcome p with
    | some o => (g.settled r o).map (·, rp)
    | none =>
        let id := (g.cells p).useCount + 1
        let h := (g.register p (.raced r)).create (.wrapped rp r p id)
        match h.outcome rp with
        | some o => ((h.unAwait p id).settled g.next o).map (·, g.next)
        | none => some (h.register rp (.unwrap p id g.next), g.next)

/-- `promise::Race(a, b)`. -/
def race (g : Graph) (a b : Nat) : Option (Graph × Nat) :=
  (raceInput (g.create (.race a b)) g.next g.next a).bind fun x => raceInput x.1 g.next x.2 b

def Callback.target : Callback → Option Nat
  | .ended d => some d
  | .raced r => some r
  | .unwrap _ _ w => some w
  | .user _ _ => none

def inputs (c : Nat) : Made → List (Nat × Callback)
  | .source => []
  | .ended x => [(x, .ended c)]
  | .race a b => [(a, .raced c), (b, .raced c)]
  | .wrapped src _ p id => [(src, .unwrap p id c)]

def Right (g : Graph) (o : Result) : Made → Prop
  | .source => o = .value ()
  | .ended x => (g.outcome x).map thrown = some o
  | .race a b => g.outcome a = some o ∨ g.outcome b = some o
  | .wrapped _ r _ _ => g.outcome r = some o

def Waits (g : Graph) (todo : List (Nat × Callback)) (x : Nat × Callback) : Prop :=
  x.2 ∈ (g.cells x.1).awaiters.map (·.callback) ∨ x ∈ todo

def Typed (g : Graph) (x : Nat × Callback) : Prop :=
  ∀ d, x.2.target = some d → d < g.next ∧ x ∈ inputs d (g.made d)

structure Consistent (g : Graph) (todo : List (Nat × Callback)) : Prop where
  quiet : ∀ c, g.outcome c ≠ none → (g.cells c).awaiters = []
  typed : ∀ c, ∀ a ∈ (g.cells c).awaiters, Typed g (c, a.callback)
  owed : ∀ x ∈ todo, Typed g x
  pending : ∀ c < g.next, g.outcome c = none → ∀ x ∈ inputs c (g.made c), Waits g todo x
  right : ∀ c < g.next, ∀ o, g.outcome c = some o → Right g o (g.made c)
  below : ∀ c < g.next, ∀ x ∈ inputs c (g.made c), x.1 < c
  chain : ∀ c < g.next, ∀ src r p id, g.made c = .wrapped src r p id →
    src = r ∨ ∃ s q k, g.made src = .wrapped s r q k
  bound : ∀ c, ∀ a ∈ (g.cells c).awaiters, a.id ≤ (g.cells c).useCount
  own : ∀ c < g.next, ∀ src r p id, g.made c = .wrapped src r p id → p < g.next ∧
    id ≤ (g.cells p).useCount ∧ ∀ a ∈ (g.cells p).awaiters, a.id = id → a.callback = .raced r
  fresh : ∀ c, g.next ≤ c → g.outcome c = none

structure Kept (g t : Graph) (except : Nat → Prop) : Prop where
  next : t.next = g.next
  made : t.made = g.made
  outcome : ∀ d o, g.outcome d = some o → t.outcome d = some o
  sources : ∀ d, g.made d = .source → ¬except d → t.outcome d = g.outcome d

section Basic
variable {g t : Graph} {todo : List (Nat × Callback)} {c d : Nat} {o : Result}

theorem put_outcome (x : Cell) :
    (g.put c x).outcome d = if d = c then x.outcome else g.outcome d := by
  simp only [Graph.outcome, Graph.put, Function.update_apply]
  split <;> rfl

theorem put_cells (x : Cell) : (g.put c x).cells d = if d = c then x else g.cells d :=
  Function.update_apply _ _ _ _

theorem inputs_target {m : Made} {x : Nat × Callback} (member : x ∈ inputs c m) :
    x.2.target = some c := by
  cases m with
  | source => simp [inputs] at member
  | race a b =>
    simp only [inputs, List.mem_cons, List.not_mem_nil, or_false] at member
    rcases member with rfl | rfl <;> rfl
  | _ =>
    simp only [inputs, List.mem_singleton] at member
    exact member ▸ rfl

theorem right_mono {m : Made} (grows : ∀ d o, g.outcome d = some o → t.outcome d = some o)
    (right : Right g o m) : Right t o m := by
  cases m with
  | source => exact right
  | ended x =>
    obtain ⟨p, there, same⟩ := Option.map_eq_some_iff.mp right
    exact Option.map_eq_some_iff.mpr ⟨p, grows x p there, same⟩
  | race a b => exact right.imp (grows a o) (grows b o)
  | wrapped src r p id => exact grows r o right

theorem kept_refl (except : Nat → Prop) : Kept g g except :=
  ⟨rfl, rfl, fun _ _ h => h, fun _ _ _ => rfl⟩

theorem kept_trans {u : Graph} {except : Nat → Prop} (first : Kept g t except)
    (second : Kept t u except) : Kept g u except where
  next := second.next.trans first.next
  made := second.made.trans first.made
  outcome := fun d o h => second.outcome d o (first.outcome d o h)
  sources := fun d source other =>
    (second.sources d (first.made ▸ source) other).trans (first.sources d source other)

theorem drop_settled {rest : List (Nat × Callback)} (inv : Consistent g todo)
    (sub : ∀ x ∈ rest, x ∈ todo)
    (done : ∀ x ∈ todo, x ∉ rest → ∀ d, x.2.target = some d → g.outcome d ≠ none) :
    Consistent g rest :=
  { inv with
    owed := fun y member => inv.owed y (sub y member)
    pending := by
      intro c inside pending y member
      rcases inv.pending c inside pending y member with waits | owed
      · exact .inl waits
      · by_cases still : y ∈ rest
        · exact .inr still
        · exact absurd pending (done y owed still c (inputs_target member)) }

theorem drop_owed {x : Nat × Callback} (inv : Consistent g (x :: todo))
    (done : ∀ d, x.2.target = some d → g.outcome d ≠ none) : Consistent g todo := by
  apply drop_settled inv (fun y member => List.mem_cons_of_mem _ member)
  intro y member gone
  have which : y = x := (List.mem_cons.mp member).resolve_right gone
  exact which ▸ done

end Basic

section Settling
variable {g t : Graph} {todo : List (Nat × Callback)} {c : Nat} {o : Result}

def Graph.stored (g : Graph) (c : Nat) (o : Result) : Graph :=
  g.put c { g.cells c with outcome := some o, awaiters := [] }

theorem stored_outcome (d : Nat) :
    (g.stored c o).outcome d = if d = c then some o else g.outcome d := put_outcome _

theorem stored_awaiters (d : Nat) :
    ((g.stored c o).cells d).awaiters = if d = c then [] else (g.cells d).awaiters := by
  rw [Graph.stored, put_cells]
  split <;> rfl

theorem stored_useCount (d : Nat) :
    ((g.stored c o).cells d).useCount = (g.cells d).useCount := by
  rw [Graph.stored, put_cells]
  split
  · rename_i here
    rw [here]
  · rfl

theorem stored_kept (pending : g.outcome c = none) : Kept g (g.stored c o) (· = c) where
  next := rfl
  made := rfl
  outcome := by
    intro d q done
    rw [stored_outcome]
    split
    · rename_i here
      simp [here, pending] at done
    · exact done
  sources := by
    intro d _ other
    rw [stored_outcome, if_neg other]

theorem store_consistent (inv : Consistent g todo) (below : c < g.next)
    (pending : g.outcome c = none)
    (right : Right g o (g.made c)) :
    Consistent (g.stored c o) ((g.cells c).awaiters.map (fun a => (c, a.callback)) ++ todo) := by
  have grows := (stored_kept (o := o) pending).outcome
  have old : ∀ d, ∀ a ∈ ((g.stored c o).cells d).awaiters, a ∈ (g.cells d).awaiters := by
    intro d a member
    rw [stored_awaiters] at member
    split at member
    · simp at member
    · exact member
  refine ⟨?_, ?_, ?_, ?_, ?_, inv.below, inv.chain, ?_, ?_, ?_⟩
  · intro d done
    rw [stored_awaiters]
    rw [stored_outcome] at done
    split
    · rfl
    · rename_i other
      exact inv.quiet d (by simpa [other] using done)
  · exact fun d a member => inv.typed d a (old d a member)
  · intro x member
    rcases List.mem_append.mp member with flushed | owed
    · obtain ⟨a, waits, rfl⟩ := List.mem_map.mp flushed
      exact inv.typed c a waits
    · exact inv.owed x owed
  · intro d inside unsettled x member
    rw [stored_outcome] at unsettled
    split at unsettled
    · simp at unsettled
    · rcases inv.pending d inside unsettled x member with waits | owed
      · by_cases here : x.1 = c
        · right
          obtain ⟨a, there, same⟩ := List.mem_map.mp waits
          rw [here] at there
          refine List.mem_append_left _ (List.mem_map.mpr ⟨a, there, ?_⟩)
          rw [same, ← here]
        · left
          rw [stored_awaiters, if_neg here]
          exact waits
      · exact .inr (List.mem_append_right _ owed)
  · intro d inside q done
    rw [stored_outcome] at done
    split at done
    · rename_i here
      subst here
      rw [Option.some.injEq] at done
      exact right_mono grows (done ▸ right)
    · exact right_mono grows (inv.right d inside q done)
  · intro d a member
    rw [stored_useCount]
    exact inv.bound d a (old d a member)
  · intro d inside src r p id made
    obtain ⟨there, low, same⟩ := inv.own d inside src r p id made
    rw [stored_useCount]
    exact ⟨there, low, fun a member => same a (old p a member)⟩
  · intro d outside
    rw [stored_outcome, if_neg (by have := show g.next ≤ d from outside; omega)]
    exact inv.fresh d outside

theorem unAwait_outcome (p id d : Nat) : (g.unAwait p id).outcome d = g.outcome d := by
  rw [Graph.unAwait, put_outcome]
  split
  · rename_i here
    rw [here]
    rfl
  · rfl

theorem unAwait_awaiters {p id d : Nat} {a : Registered}
    (member : a ∈ ((g.unAwait p id).cells d).awaiters) : a ∈ (g.cells d).awaiters := by
  rw [Graph.unAwait, put_cells] at member
  split at member
  · rename_i here
    subst here
    exact List.mem_of_mem_eraseP member
  · exact member

theorem unAwait_useCount (p id d : Nat) :
    ((g.unAwait p id).cells d).useCount = (g.cells d).useCount := by
  rw [Graph.unAwait, put_cells]
  split
  · rename_i here
    rw [here]
  · rfl

theorem unAwait_consistent {src r p id w : Nat} (inv : Consistent g todo) (inside : w < g.next)
    (made : g.made w = .wrapped src r p id) (done : g.outcome r ≠ none) :
    Consistent (g.unAwait p id) todo := by
  have own := (inv.own w inside src r p id made).2.2
  refine ⟨?_, fun d a member => inv.typed d a (unAwait_awaiters member), inv.owed, ?_, ?_,
    inv.below, inv.chain, ?_, ?_, ?_⟩
  · intro d settled
    rw [unAwait_outcome] at settled
    refine List.eq_nil_iff_forall_not_mem.mpr fun a member => ?_
    have there := unAwait_awaiters member
    simp [inv.quiet d settled] at there
  · intro d below unsettled x member
    rw [unAwait_outcome] at unsettled
    rcases inv.pending d below unsettled x member with waits | owed
    · left
      rw [Graph.unAwait, put_cells]
      split
      · rename_i here
        rw [here] at waits
        obtain ⟨a, there, same⟩ := List.mem_map.mp waits
        have stays : ¬Registered.found id a = true := by
          intro hit
          have mine : a.id = id := by simpa using (Bool.and_eq_true_iff.mp hit).2
          have target := inputs_target member
          rw [← same, own a there mine] at target
          simp only [Callback.target, Option.some.injEq] at target
          exact done (target ▸ unsettled)
        exact List.mem_map.mpr ⟨a, (List.mem_eraseP_of_neg stays).mpr there, same⟩
      · exact waits
    · exact .inr owed
  · intro d below o settled
    rw [unAwait_outcome] at settled
    exact right_mono (fun d o h => (unAwait_outcome p id d).trans h) (inv.right d below o settled)
  · intro d a member
    rw [unAwait_useCount]
    exact inv.bound d a (unAwait_awaiters member)
  · intro d below s r' q k made'
    rw [unAwait_useCount]
    obtain ⟨there, low, same⟩ := inv.own d below s r' q k made'
    exact ⟨there, low, fun a member => same a (unAwait_awaiters member)⟩
  · intro d outside
    rw [unAwait_outcome]
    exact inv.fresh d outside

theorem chain_outcome {src r p id w : Nat} (inv : Consistent g todo) (inside : w < g.next)
    (made : g.made w = .wrapped src r p id) (done : g.outcome src = some o) :
    g.outcome r = some o := by
  rcases inv.chain w inside src r p id made with rfl | ⟨s, q, k, before⟩
  · exact done
  · have below := inv.below w inside (src, .unwrap p id w) (by simp [inputs, made])
    have right := inv.right src (Nat.lt_trans below inside) o done
    rw [before] at right
    exact right

structure Settles (g t : Graph) (todo : List (Nat × Callback)) (c : Nat) (o : Result) : Prop where
  consistent : Consistent t todo
  kept : Kept g t (· = c)
  done : t.outcome c ≠ none
  stores : g.outcome c = none → t.outcome c = some o

theorem unAwait_kept (p id : Nat) : Kept g (g.unAwait p id) fun _ => False :=
  ⟨rfl, rfl, fun d _ h => (unAwait_outcome p id d).trans h, fun d _ _ => unAwait_outcome p id d⟩

theorem ended_right {x : Result} {d : Nat} (member : (c, .ended d) ∈ inputs d (g.made d))
    (done : g.outcome c = some x) : Right g (thrown x) (g.made d) := by
  cases made : g.made d <;> simp_all [inputs, Right]

theorem raced_right {x : Result} {r : Nat} (member : (c, .raced r) ∈ inputs r (g.made r))
    (done : g.outcome c = some x) : Right g x (g.made r) := by
  cases made : g.made r with
  | race a b =>
    simp only [made, inputs, List.mem_cons, Prod.mk.injEq, and_true, List.not_mem_nil,
      or_false] at member
    rcases member with rfl | rfl
    · exact .inl done
    · exact .inr done
  | _ => simp [made, inputs] at member

theorem unwrap_right {x : Result} {p id w : Nat} (inv : Consistent g todo) (inside : w < g.next)
    (member : (c, .unwrap p id w) ∈ inputs w (g.made w)) (done : g.outcome c = some x) :
    Consistent (g.unAwait p id) todo ∧ Right (g.unAwait p id) x ((g.unAwait p id).made w) := by
  cases made : g.made w with
  | wrapped src r p' id' =>
    simp only [made, inputs, List.mem_singleton, Prod.mk.injEq, Callback.unwrap.injEq,
      and_true] at member
    obtain ⟨rfl, rfl, rfl⟩ := member
    have same := chain_outcome inv inside made done
    refine ⟨unAwait_consistent inv inside made (by simp [same]), ?_⟩
    rw [show (g.unAwait p id).made w = g.made w from rfl, made]
    exact (unAwait_outcome p id r).trans same
  | _ => simp [made, inputs] at member

theorem callback_keeps {fuel : Nat} {k : Callback} {x : Result}
    (settles : ∀ (g : Graph) (todo : List (Nat × Callback)) (c : Nat) (o : Result),
      Consistent g todo → c < g.next → g.next ≤ c + fuel → Right g o (g.made c) →
      ∃ t, settle fuel g c o = some t ∧ Settles g t todo c o)
    (inv : Consistent g ((c, k) :: todo)) (enough : g.next ≤ c + (fuel + 1))
    (done : g.outcome c = some x) :
    ∃ t, callback (settle fuel) g c k = some t ∧ Consistent t todo ∧
      Kept g t fun _ => False := by
  have typed : ∀ d, k.target = some d → d < g.next ∧ (c, k) ∈ inputs d (g.made d) :=
    inv.owed (c, k) List.mem_cons_self
  have finish : ∀ (d : Nat) (h t : Graph) (o : Result), k.target = some d →
      Kept g h (fun _ => False) →
      Settles h t ((c, k) :: todo) d o → Consistent t todo ∧ Kept g t fun _ => False := by
    intro d h t o target same settled
    refine ⟨drop_owed settled.consistent fun e there => ?_, ?_⟩
    · rw [show (c, k).2 = k from rfl, target, Option.some.injEq] at there
      exact there ▸ settled.done
    · refine kept_trans same { settled.kept with sources := fun e source _ => ?_ }
      refine settled.kept.sources e source fun here => ?_
      have member := (typed d target).2
      rw [← here, ← same.made, source] at member
      simp [inputs] at member
  have later : ∀ d, k.target = some d → g.next ≤ d + fuel := by
    intro d target
    obtain ⟨inside, member⟩ := typed d target
    have below := inv.below d inside (c, k) member
    simp only at below
    omega
  cases k with
  | user coroutine n =>
    refine ⟨_, rfl, ?_, rfl, rfl, fun _ _ h => h, fun _ _ _ => rfl⟩
    have dropped := drop_owed inv (by simp [Callback.target])
    exact { dropped with }
  | ended d =>
    obtain ⟨inside, member⟩ := typed d rfl
    obtain ⟨t, taken, settled⟩ :=
      settles g _ d (thrown x) inv inside (later d rfl) (ended_right member done)
    exact ⟨t, by simp only [callback, done, taken], finish d g t _ rfl (kept_refl _) settled⟩
  | raced r =>
    obtain ⟨inside, member⟩ := typed r rfl
    obtain ⟨t, taken, settled⟩ :=
      settles g _ r x inv inside (later r rfl) (raced_right member done)
    exact ⟨t, by simp only [callback, done, taken], finish r g t _ rfl (kept_refl _) settled⟩
  | unwrap p id w =>
    obtain ⟨inside, member⟩ := typed w rfl
    obtain ⟨kept, right⟩ := unwrap_right inv inside member done
    obtain ⟨t, taken, settled⟩ := settles (g.unAwait p id) _ w x kept inside (later w rfl) right
    exact ⟨t, by simp only [callback, done, taken],
      finish w _ t _ rfl (unAwait_kept p id) settled⟩

theorem flush_keeps {fuel : Nat} {x : Result}
    (settles : ∀ (g : Graph) (todo : List (Nat × Callback)) (c : Nat) (o : Result),
      Consistent g todo → c < g.next → g.next ≤ c + fuel → Right g o (g.made c) →
      ∃ t, settle fuel g c o = some t ∧ Settles g t todo c o)
    (as : List Registered) (inv : Consistent g (as.map (fun a => (c, a.callback)) ++ todo))
    (enough : g.next ≤ c + (fuel + 1)) (done : g.outcome c = some x) :
    ∃ t, as.foldlM (fun g a => callback (settle fuel) g c a.callback) g = some t ∧
      Consistent t todo ∧ Kept g t fun _ => False := by
  induction as generalizing g with
  | nil => exact ⟨g, rfl, inv, kept_refl _⟩
  | cons a as ih =>
    obtain ⟨h, first, kept, same⟩ := callback_keeps settles inv enough done
    obtain ⟨t, rest, kept', same'⟩ := ih kept (same.next ▸ enough) (same.outcome c x done)
    refine ⟨t, ?_, kept', kept_trans same same'⟩
    simp only [List.foldlM_cons, first, Option.bind_eq_bind, Option.bind_some, rest]

theorem settle_settles (fuel : Nat) : ∀ (g : Graph) (todo : List (Nat × Callback)) (c : Nat)
    (o : Result), Consistent g todo → c < g.next → g.next ≤ c + fuel → Right g o (g.made c) →
    ∃ t, settle fuel g c o = some t ∧ Settles g t todo c o := by
  induction fuel with
  | zero =>
    intro g todo c o _ inside enough _
    omega
  | succ fuel ih =>
    intro g todo c o inv inside enough right
    cases before : g.outcome c with
    | some q =>
      refine ⟨g, ?_, inv, kept_refl _, by simp [before], by simp [before]⟩
      have set : (g.cells c).outcome = some q := before
      simp only [settle, set, Option.isSome_some, if_true]
    | none =>
      have stored : (g.stored c o).outcome c = some o := by rw [stored_outcome, if_pos rfl]
      obtain ⟨t, taken, kept, same⟩ := flush_keeps ih (g.cells c).awaiters
        (store_consistent inv inside before right) enough stored
      have final := same.outcome c o stored
      refine ⟨t, ?_, kept, ?_, by simp [final], fun _ => final⟩
      · have clear : (g.cells c).outcome = none := before
        simp only [settle, clear, Option.isSome_none, Bool.false_eq_true, if_false]
        exact taken
      · refine kept_trans (stored_kept before) { same with sources := fun d source _ => ?_ }
        exact same.sources d source id

theorem settled_settles (inv : Consistent g todo) (inside : c < g.next)
    (right : Right g o (g.made c)) :
    ∃ t, g.settled c o = some t ∧ Settles g t todo c o :=
  settle_settles g.next g todo c o inv inside (by omega) right

end Settling

structure Extends (g t : Graph) : Prop where
  next : g.next ≤ t.next
  made : ∀ c < g.next, t.made c = g.made c
  outcome : ∀ c < g.next, ∀ o, g.outcome c = some o → t.outcome c = some o
  sources : ∀ c < g.next, g.made c = .source → t.outcome c = g.outcome c

structure Derives (g t : Graph) : Prop extends Extends g t where
  derived : ∀ c < t.next, t.made c = .source → c < g.next

section Making
variable {g t u : Graph} {todo : List (Nat × Callback)} {c d : Nat} {o : Result} {m : Made}

theorem extends_trans (first : Extends g t) (second : Extends t u) : Extends g u where
  next := Nat.le_trans first.next second.next
  made := fun c inside => (second.made c (Nat.lt_of_lt_of_le inside first.next)).trans
    (first.made c inside)
  outcome := fun c inside o h => second.outcome c (Nat.lt_of_lt_of_le inside first.next) o
    (first.outcome c inside o h)
  sources := fun c inside source => (second.sources c (Nat.lt_of_lt_of_le inside first.next)
    ((first.made c inside).trans source)).trans (first.sources c inside source)

theorem extends_of_kept (kept : Kept g t fun _ => False) : Extends g t :=
  ⟨Nat.le_of_eq kept.next.symm, fun c _ => by rw [kept.made], fun c _ => kept.outcome c,
    fun c _ source => kept.sources c source id⟩

theorem derives_trans (first : Derives g t) (second : Derives t u) : Derives g u where
  toExtends := extends_trans first.toExtends second.toExtends
  derived := fun c inside source => first.derived c (second.derived c inside source)
    ((second.made c (second.derived c inside source)).symm.trans source)

theorem derives_of_kept (kept : Kept g t fun _ => False) : Derives g t where
  toExtends := extends_of_kept kept
  derived := fun _ inside _ => kept.next ▸ inside

theorem create_cells : (g.create m).cells d = if d = g.next then ⟨none, [], 0⟩ else g.cells d :=
  Function.update_apply _ _ _ _

theorem create_outcome : (g.create m).outcome d = if d = g.next then none else g.outcome d := by
  simp only [Graph.outcome, create_cells]
  split <;> rfl

theorem create_made : (g.create m).made d = if d = g.next then m else g.made d :=
  Function.update_apply _ _ _ _

theorem create_extends : Extends g (g.create m) := by
  refine ⟨Nat.le_succ _, fun c inside => ?_, fun c inside o done => ?_, fun c inside _ => ?_⟩
  · rw [create_made, if_neg (Nat.ne_of_lt inside)]
  · rw [create_outcome, if_neg (Nat.ne_of_lt inside)]
    exact done
  · rw [create_outcome, if_neg (Nat.ne_of_lt inside)]

theorem create_derives (derived : m ≠ .source) : Derives g (g.create m) where
  toExtends := create_extends
  derived := by
    intro c inside source
    rcases Nat.lt_succ_iff_lt_or_eq.mp inside with before | rfl
    · exact before
    · rw [create_made, if_pos rfl] at source
      exact absurd source derived

/-- A new promise owes the registrations of the awaiters that settle it. -/
theorem create_consistent (inv : Consistent g todo) (below : ∀ x ∈ inputs g.next m, x.1 < g.next)
    (chain : ∀ src r p id, m = .wrapped src r p id →
      (src = r ∨ ∃ s q k, g.made src = .wrapped s r q k) ∧ p < g.next ∧
        id ≤ (g.cells p).useCount ∧
        ∀ a ∈ (g.cells p).awaiters, a.id = id → a.callback = .raced r) :
    Consistent (g.create m) (inputs g.next m ++ todo) := by
  have grows : ∀ d o, g.outcome d = some o → (g.create m).outcome d = some o := by
    intro d o done
    rw [create_outcome, if_neg]
    · exact done
    · rintro rfl
      simp [inv.fresh g.next (Nat.le_refl _)] at done
  have old : ∀ d, ∀ a ∈ ((g.create m).cells d).awaiters, a ∈ (g.cells d).awaiters := by
    intro d a member
    rw [create_cells] at member
    split at member
    · simp at member
    · exact member
  have typed : ∀ x, Typed g x → Typed (g.create m) x := by
    intro x before d target
    obtain ⟨inside, member⟩ := before d target
    refine ⟨Nat.lt_succ_of_lt inside, ?_⟩
    rw [create_made, if_neg (Nat.ne_of_lt inside)]
    exact member
  have either : ∀ d, d < (g.create m).next →
      (d = g.next ∧ (g.create m).made d = m) ∨ (d < g.next ∧ (g.create m).made d = g.made d) := by
    intro d inside
    rcases Nat.lt_succ_iff_lt_or_eq.mp inside with before | rfl
    · exact .inr ⟨before, by rw [create_made, if_neg (Nat.ne_of_lt before)]⟩
    · exact .inl ⟨rfl, by rw [create_made, if_pos rfl]⟩
  refine ⟨?_, fun d a member => typed _ (inv.typed d a (old d a member)), ?_, ?_, ?_, ?_, ?_, ?_,
    ?_, ?_⟩
  · intro d done
    rw [create_outcome] at done
    rw [create_cells]
    split
    · rfl
    · rename_i other
      exact inv.quiet d (by simpa [other] using done)
  · intro x member
    rcases List.mem_append.mp member with new | owed
    · intro d target
      have here : g.next = d := by simpa [inputs_target new] using target
      subst here
      refine ⟨Nat.lt_succ_self _, ?_⟩
      rw [create_made, if_pos rfl]
      exact new
    · exact typed x (inv.owed x owed)
  · intro d inside unsettled x member
    rcases either d inside with ⟨rfl, made⟩ | ⟨before, made⟩
    · rw [made] at member
      exact .inr (List.mem_append_left _ member)
    · rw [made] at member
      rw [create_outcome, if_neg (Nat.ne_of_lt before)] at unsettled
      rcases inv.pending d before unsettled x member with waits | owed
      · left
        have earlier := inv.below d before x member
        rw [create_cells, if_neg (by omega)]
        exact waits
      · exact .inr (List.mem_append_right _ owed)
  · intro d inside o done
    rcases either d inside with ⟨rfl, _⟩ | ⟨before, made⟩
    · simp [create_outcome] at done
    · rw [create_outcome, if_neg (Nat.ne_of_lt before)] at done
      rw [made]
      exact right_mono grows (inv.right d before o done)
  · intro d inside x member
    rcases either d inside with ⟨rfl, made⟩ | ⟨before, made⟩
    · exact below x (made ▸ member)
    · exact inv.below d before x (made ▸ member)
  · intro d inside src r p id made
    have earlier : src < g.next := by
      rcases either d inside with ⟨rfl, same⟩ | ⟨before, same⟩
      · have is : m = .wrapped src r p id := same.symm.trans made
        exact below (src, .unwrap p id g.next) (by simp [is, inputs])
      · have is : g.made d = .wrapped src r p id := same.symm.trans made
        have low := inv.below d before (src, .unwrap p id d) (by simp [is, inputs])
        exact Nat.lt_trans low before
    rw [create_made, if_neg (Nat.ne_of_lt earlier)]
    rcases either d inside with ⟨rfl, same⟩ | ⟨before, same⟩
    · exact (chain src r p id (same.symm.trans made)).1
    · exact inv.chain d before src r p id (same.symm.trans made)
  · intro d a member
    rw [create_cells] at member ⊢
    split at member
    · simp at member
    · rename_i other
      rw [if_neg other]
      exact inv.bound d a member
  · intro d inside src r p id made
    have facts : p < g.next ∧ id ≤ (g.cells p).useCount ∧
        ∀ a ∈ (g.cells p).awaiters, a.id = id → a.callback = .raced r := by
      rcases either d inside with ⟨rfl, same⟩ | ⟨before, same⟩
      · exact (chain src r p id (same.symm.trans made)).2
      · exact inv.own d before src r p id (same.symm.trans made)
    rw [create_cells, if_neg (Nat.ne_of_lt facts.1)]
    exact ⟨Nat.lt_succ_of_lt facts.1, facts.2⟩
  · intro d outside
    rw [create_outcome]
    split
    · rfl
    · exact inv.fresh d (Nat.le_of_succ_le outside)

theorem register_cells (k : Callback) : (g.register c k).cells d =
    if d = c then
      { g.cells c with
        awaiters := (g.cells c).awaiters ++ [⟨(g.cells c).useCount + 1, k⟩]
        useCount := (g.cells c).useCount + 1 }
    else g.cells d := put_cells _

theorem register_outcome (k : Callback) : (g.register c k).outcome d = g.outcome d := by
  rw [Graph.outcome, register_cells]
  split
  · rename_i here
    rw [here]
    rfl
  · rfl

theorem register_kept (k : Callback) : Kept g (g.register c k) fun _ => False :=
  ⟨rfl, rfl, fun _ _ h => (register_outcome k).trans h, fun _ _ _ => register_outcome k⟩

/-- A registration that was owed, at a promise that is pending. -/
theorem register_consistent {k : Callback} (inv : Consistent g ((c, k) :: todo))
    (pending : g.outcome c = none) : Consistent (g.register c k) todo := by
  have grows : ∀ d, (g.cells d).useCount ≤ ((g.register c k).cells d).useCount := by
    intro d
    rw [register_cells]
    split
    · rename_i here
      subst here
      exact Nat.le_succ _
    · exact Nat.le_refl _
  have either : ∀ d, ∀ a ∈ ((g.register c k).cells d).awaiters, a ∈ (g.cells d).awaiters ∨
      (d = c ∧ a = ⟨(g.cells c).useCount + 1, k⟩) := by
    intro d a member
    rw [register_cells] at member
    split at member
    · rename_i here
      subst here
      exact (List.mem_append.mp member).imp id fun new => ⟨rfl, List.mem_singleton.mp new⟩
    · exact .inl member
  refine ⟨?_, ?_, fun x member => inv.owed x (List.mem_cons_of_mem _ member), ?_, ?_, inv.below,
    inv.chain, ?_, ?_, ?_⟩
  · intro d done
    rw [register_outcome] at done
    rw [register_cells]
    split
    · rename_i here
      exact absurd (here ▸ pending) done
    · exact inv.quiet d done
  · intro d a member
    rcases either d a member with old | ⟨rfl, rfl⟩
    · exact inv.typed d a old
    · exact inv.owed _ List.mem_cons_self
  · intro d inside unsettled x member
    rw [register_outcome] at unsettled
    rcases inv.pending d inside unsettled x member with waits | owed
    · left
      rw [register_cells]
      split
      · rename_i here
        rw [here] at waits
        simpa using .inl (List.mem_map.mp waits)
      · exact waits
    · rcases List.mem_cons.mp owed with rfl | rest
      · left
        rw [register_cells, if_pos rfl]
        simp
      · exact .inr rest
  · intro d inside o done
    rw [register_outcome] at done
    exact right_mono (register_kept k).outcome (inv.right d inside o done)
  · intro d a member
    rcases either d a member with old | ⟨rfl, rfl⟩
    · exact Nat.le_trans (inv.bound d a old) (grows d)
    · simp [register_cells]
  · intro d inside src r p id made
    obtain ⟨there, low, same⟩ := inv.own d inside src r p id made
    refine ⟨there, Nat.le_trans low (grows p), fun a member is => ?_⟩
    rcases either p a member with old | ⟨rfl, rfl⟩
    · exact same a old is
    · simp only at is
      omega
  · intro d outside
    rw [register_outcome]
    exact inv.fresh d outside

end Making

section Rest
variable {g : Graph} {c d : Nat}

theorem rest_inputs (inv : Consistent g []) (inside : c < g.next) (pending : g.outcome c = none) :
    ∀ x ∈ inputs c (g.made c), g.outcome x.1 = none := by
  intro x member
  by_contra done
  rcases inv.pending c inside pending x member with waits | owed
  · simp [inv.quiet x.1 done] at waits
  · simp at owed

theorem rest_ended {x : Nat} (inv : Consistent g []) (inside : d < g.next)
    (made : g.made d = .ended x) : g.outcome d = (g.outcome x).map thrown := by
  cases done : g.outcome d with
  | some o =>
    have right := inv.right d inside o done
    rw [made] at right
    exact right.symm
  | none =>
    have waits := rest_inputs inv inside done (x, .ended d) (by simp [made, inputs])
    simp [waits]

theorem rest_race {a b : Nat} (inv : Consistent g []) (inside : d < g.next)
    (made : g.made d = .race a b) :
    (g.outcome d = none ↔ g.outcome a = none ∧ g.outcome b = none) ∧
      ∀ o, g.outcome d = some o → g.outcome a = some o ∨ g.outcome b = some o := by
  have right : ∀ o, g.outcome d = some o → g.outcome a = some o ∨ g.outcome b = some o := by
    intro o done
    have right := inv.right d inside o done
    rw [made] at right
    exact right
  refine ⟨⟨fun pending => ?_, fun pending => ?_⟩, right⟩
  · have waits := rest_inputs inv inside pending
    exact ⟨waits (a, .raced d) (by simp [made, inputs]),
      waits (b, .raced d) (by simp [made, inputs])⟩
  · cases done : g.outcome d with
    | none => rfl
    | some o => rcases right o done with there | there <;> simp [pending] at there

theorem rest_wrapped (inv : Consistent g []) : ∀ (w : Nat) (src r p id : Nat), w < g.next →
    g.made w = .wrapped src r p id → g.outcome w = g.outcome r := by
  intro w
  induction w using Nat.strongRecOn with
  | ind w ih =>
    intro src r p id inside made
    cases done : g.outcome w with
    | some o =>
      have right := inv.right w inside o done
      rw [made] at right
      exact right.symm
    | none =>
      have member : (src, Callback.unwrap p id w) ∈ inputs w (g.made w) := by simp [made, inputs]
      have waits := rest_inputs inv inside done _ member
      have below := inv.below w inside _ member
      rcases inv.chain w inside src r p id made with rfl | ⟨s, q, k, before⟩
      · exact waits.symm
      · exact waits.symm.trans (ih src below s r q k (Nat.lt_trans below inside) before)

end Rest

section Deriving
variable {g t : Graph} {todo : List (Nat × Callback)} {c a b : Nat}

structure New (g t : Graph) (d : Nat) (m : Made) : Prop where
  new : g.next ≤ d
  inside : d < t.next
  made : t.made d = m

theorem created_new {m : Made} : New g (g.create m) g.next m :=
  ⟨Nat.le_refl _, Nat.lt_succ_self _, by rw [create_made, if_pos rfl]⟩

theorem new_extends {h : Graph} {d : Nat} {m : Made} (new : New g h d m) (grows : Extends h t) :
    New g t d m :=
  ⟨new.new, Nat.lt_of_lt_of_le new.inside grows.next, (grows.made d new.inside).trans new.made⟩

theorem settles_derives {o : Result} (settled : Settles g t todo c o)
    (derived : g.made c ≠ .source) : Derives g t where
  derived := fun _ inside _ => settled.kept.next ▸ inside
  next := Nat.le_of_eq settled.kept.next.symm
  made := fun d _ => by rw [settled.kept.made]
  outcome := fun d _ => settled.kept.outcome d
  sources := fun d _ source => settled.kept.sources d source fun here => derived (here ▸ source)

theorem thenEnd_makes (inv : Consistent g todo) (inside : c < g.next) :
    ∃ t d, thenEnd g c = some (t, d) ∧ Consistent t todo ∧ Derives g t ∧
      New g t d (.ended c) := by
  have made := create_consistent (m := .ended c) inv (by simpa [inputs] using inside) (by simp)
  have same : (g.create (.ended c)).outcome c = g.outcome c := by
    rw [create_outcome, if_neg (Nat.ne_of_lt inside)]
  have new : New g (g.create (.ended c)) g.next (.ended c) := created_new
  cases done : g.outcome c with
  | some o =>
    obtain ⟨t, taken, settled⟩ := settled_settles made new.inside (o := thrown o) (by
      rw [new.made, Right, same, done]
      rfl)
    have grows := settles_derives settled (by simp [new.made])
    refine ⟨t, g.next, by simp [thenEnd, done, taken], ?_,
      derives_trans (create_derives (by simp)) grows,
      new_extends new grows.toExtends⟩
    refine drop_owed settled.consistent fun d target => ?_
    simp only [Callback.target, Option.some.injEq] at target
    exact target ▸ settled.done
  | none =>
    have kept : Kept (g.create (.ended c)) _ _ := register_kept (c := c) (.ended g.next)
    have grows := derives_of_kept kept
    refine ⟨_, g.next, by simp only [thenEnd, done], ?_,
      derives_trans (create_derives (by simp)) grows,
      new_extends new grows.toExtends⟩
    exact register_consistent made (same.trans done)

def Wraps (g : Graph) (r rp : Nat) : Prop := rp = r ∨ ∃ s q k, g.made rp = .wrapped s r q k

theorem wraps_extends {r rp : Nat} (wraps : Wraps g r rp) (inside : rp < g.next)
    (grows : Extends g t) : Wraps t r rp := by
  rcases wraps with rfl | ⟨s, q, k, made⟩
  · exact .inl rfl
  · exact .inr ⟨s, q, k, (grows.made rp inside).trans made⟩

theorem wraps_done {r rp : Nat} {o : Result} (inv : Consistent g todo) (inside : rp < g.next)
    (wraps : Wraps g r rp) (done : g.outcome rp = some o) : g.outcome r = some o := by
  rcases wraps with rfl | ⟨s, q, k, made⟩
  · exact done
  · have right := inv.right rp inside o done
    rw [made] at right
    exact right

def Graph.counted (g : Graph) (p : Nat) : Graph :=
  g.put p { g.cells p with useCount := (g.cells p).useCount + 1 }

theorem counted_outcome (p d : Nat) : (g.counted p).outcome d = g.outcome d := by
  rw [Graph.counted, put_outcome]
  split
  · rename_i here
    rw [here]
    rfl
  · rfl

theorem counted_consistent (inv : Consistent g todo) (p : Nat) :
    Consistent (g.counted p) todo := by
  have awaiters : ∀ d, ((g.counted p).cells d).awaiters = (g.cells d).awaiters := by
    intro d
    rw [Graph.counted, put_cells]
    split
    · rename_i here
      rw [here]
    · rfl
  have grows : ∀ d, (g.cells d).useCount ≤ ((g.counted p).cells d).useCount := by
    intro d
    rw [Graph.counted, put_cells]
    split
    · rename_i here
      subst here
      exact Nat.le_succ _
    · exact Nat.le_refl _
  refine ⟨fun d => ?_, fun d => ?_, inv.owed, fun d inside unsettled x member => ?_,
    fun d inside o done => ?_, inv.below, inv.chain, fun d a member => ?_,
    fun d inside src r q id made => ?_, fun d outside => ?_⟩
  · rw [counted_outcome, awaiters]
    exact inv.quiet d
  · rw [awaiters]
    exact inv.typed d
  · rw [counted_outcome] at unsettled
    rw [Waits, awaiters]
    exact inv.pending d inside unsettled x member
  · rw [counted_outcome] at done
    exact right_mono (fun d o h => (counted_outcome p d).trans h) (inv.right d inside o done)
  · rw [awaiters] at member
    exact Nat.le_trans (inv.bound d a member) (grows d)
  · obtain ⟨there, low, same⟩ := inv.own d inside src r q id made
    rw [awaiters]
    exact ⟨there, Nat.le_trans low (grows q), same⟩
  · rw [counted_outcome]
    exact inv.fresh d outside

/-- The promise that `Finally` makes on `rp`, for an input `p` that has just been registered. -/
def Graph.wrap (g : Graph) (r rp p : Nat) : Graph :=
  (g.register p (.raced r)).create (.wrapped rp r p ((g.cells p).useCount + 1))

theorem wrap_made {r rp p : Nat} :
    (g.wrap r rp p).made g.next = .wrapped rp r p ((g.cells p).useCount + 1) := by
  have here : g.next = (g.register p (.raced r)).next := rfl
  rw [Graph.wrap, create_made, if_pos here]

theorem wrap_derives {r rp p : Nat} : Derives g (g.wrap r rp p) :=
  derives_trans (derives_of_kept (register_kept (.raced r))) (create_derives (by simp))

theorem wrap_outcome {r rp p d : Nat} (inside : d < g.next) :
    (g.wrap r rp p).outcome d = g.outcome d := by
  have other : d ≠ (g.register p (.raced r)).next := Nat.ne_of_lt inside
  rw [Graph.wrap, create_outcome, if_neg other, register_outcome]

theorem wrap_consistent {r rp p : Nat} (inv : Consistent g ((p, .raced r) :: todo))
    (low : p < g.next) (below : rp < g.next) (wraps : Wraps g r rp)
    (pending : g.outcome p = none) :
    Consistent (g.wrap r rp p)
      ((rp, .unwrap p ((g.cells p).useCount + 1) g.next) :: todo) := by
  have bound : ((g.register p (.raced r)).cells p).useCount = (g.cells p).useCount + 1 := by
    simp [register_cells]
  refine create_consistent (register_consistent inv pending) ?_ ?_
  · intro x member
    rw [List.mem_singleton.mp member]
    exact below
  · intro src r' p' id same
    obtain ⟨rfl, rfl, rfl, rfl⟩ := Made.wrapped.inj same
    refine ⟨wraps, low, Nat.le_of_eq bound.symm, fun a waits is => ?_⟩
    rw [register_cells, if_pos rfl] at waits
    rcases List.mem_append.mp waits with old | new
    · have earlier := inv.bound p a old
      omega
    · exact List.mem_singleton.mp new ▸ rfl

/-- One input of a race: its registration is no longer owed, and an input that is done settles
    the race if no earlier one has. -/
theorem raceInput_makes {r rp p : Nat} (inv : Consistent g ((p, .raced r) :: todo))
    (made : g.made r = .race a b) (either : p = a ∨ p = b) (inside : r < g.next)
    (below : rp < g.next) (wraps : Wraps g r rp) :
    ∃ t w, raceInput g r rp p = some (t, w) ∧ Consistent t todo ∧ Derives g t ∧ w < t.next ∧
      Wraps t r w ∧ ∀ o, g.outcome p = some o → g.outcome rp = none → g.outcome r = none →
        t.outcome r = some o := by
  have member : (p, Callback.raced r) ∈ inputs r (g.made r) := by
    rcases either with rfl | rfl <;> simp [made, inputs]
  have low : p < g.next := Nat.lt_trans (inv.below r inside _ member) inside
  have finish : ∀ {t : Graph}, t.outcome r ≠ none → Consistent t ((p, .raced r) :: todo) →
      Consistent t todo := by
    intro t done kept
    refine drop_owed kept fun d target => ?_
    simp only [Callback.target, Option.some.injEq] at target
    exact target ▸ done
  cases past : g.outcome rp with
  | some q =>
    have done := wraps_done inv below wraps past
    have kept : Kept g (g.counted p) fun _ => False :=
      ⟨rfl, rfl, fun d o h => (counted_outcome p d).trans h, fun d _ _ => counted_outcome p d⟩
    refine ⟨g.counted p, rp, ?_, ?_, derives_of_kept kept, below,
      wraps_extends wraps below (extends_of_kept kept), by simp⟩
    · simp only [raceInput, past, Option.isSome_some, if_true, Graph.counted]
    · exact counted_consistent (finish (by simp [done]) inv) p
  | none =>
    cases there : g.outcome p with
    | some q =>
      have right : Right g q (g.made r) := by
        rw [made]
        exact either.imp (fun (here : p = a) => here ▸ there) fun (here : p = b) => here ▸ there
      obtain ⟨t, taken, settled⟩ := settled_settles inv inside right
      have grows := settles_derives settled (by simp [made])
      refine ⟨t, rp, by simp [raceInput, past, there, taken],
        finish settled.done settled.consistent, grows, Nat.lt_of_lt_of_le below grows.next,
        wraps_extends wraps below grows.toExtends, ?_⟩
      intro o same _ pending
      rw [Option.some.injEq] at same
      exact same ▸ settled.stores pending
    | none =>
      have still : (g.wrap r rp p).outcome rp = none := (wrap_outcome below).trans past
      have last : Derives (g.wrap r rp p) _ := derives_of_kept
        (register_kept (c := rp) (.unwrap p ((g.cells p).useCount + 1) g.next))
      have taken : raceInput g r rp p = some ((g.wrap r rp p).register rp
          (.unwrap p ((g.cells p).useCount + 1) g.next), g.next) := by
        simp only [raceInput, past, there, Option.isSome_none, Bool.false_eq_true, if_false]
        rw [show ((g.register p (.raced r)).create _).outcome rp = none from still]
        rfl
      refine ⟨_, _, taken, register_consistent (wrap_consistent inv low below wraps there) still,
        derives_trans wrap_derives last, Nat.lt_succ_self _,
        .inr ⟨rp, p, (g.cells p).useCount + 1, ?_⟩, by simp⟩
      exact (last.made g.next (Nat.lt_succ_self _)).trans wrap_made

theorem race_makes (inv : Consistent g todo) (ha : a < g.next) (hb : b < g.next) :
    ∃ t r w, race g a b = some (t, w) ∧ Consistent t todo ∧ Derives g t ∧
      New g t r (.race a b) ∧ w < t.next ∧ Wraps t r w ∧
      ∀ o, g.outcome a = some o → t.outcome r = some o := by
  have start := create_consistent (m := .race a b) inv
    (by simpa [inputs] using ⟨ha, hb⟩) (by simp)
  have new : New g (g.create (.race a b)) g.next (.race a b) := created_new
  obtain ⟨h, rp, first, kept, grows, below, wraps, firstDone⟩ := raceInput_makes start new.made
    (.inl rfl) new.inside new.inside (.inl rfl)
  have new' := new_extends new grows.toExtends
  obtain ⟨t, w, second, final, grows', below', wraps', _⟩ := raceInput_makes kept new'.made
    (.inr rfl) new'.inside below wraps
  refine ⟨t, g.next, w, ?_, final,
    derives_trans (create_derives (by simp)) (derives_trans grows grows'),
    new_extends new' grows'.toExtends, below', wraps', fun o done => ?_⟩
  · simp only [race, first, Option.bind_some, second]
  · refine grows'.outcome g.next new'.inside o (firstDone o ?_ ?_ ?_)
    · rw [create_outcome, if_neg (Nat.ne_of_lt ha)]
      exact done
    · rw [create_outcome, if_pos rfl]
    · rw [create_outcome, if_pos rfl]

end Deriving

end DerivedPromises
