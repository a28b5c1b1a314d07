import JSProCpp.StatePromise

/-
`StatePromise::Done` with continuations that call back into the object. The flushes of the two
settlements run them one after the other; a continuation may call `Reset()`, `Ready()` and
`Done()`, obtain further promises and attach to any before it returns to the flush that runs it.
The stack holds what is still to be done by the calls under way, innermost first.
-/
namespace ReentrantDone
open Transitions PromiseCells DerivedPromises StatePromise

inductive Act where
  | reset
  | ready
  | done
  | wait (k : Kind) (next : Option (Bool × Nat))
  | attach (n : Nat) (coroutine : Bool) (k : Nat)
  deriving DecidableEq

inductive Frame where
  | rest (readyWasDone : Bool)
  | flush (c : Nat) (todo : List Registered)
  | body (acts : List Act)
  deriving DecidableEq

structure Machine where
  object : StatePromise.State
  stack : List Frame
  -- No assertion has failed. A failed one is recorded, and the code goes on as it does when
  -- assertions are compiled out.
  asserted : Bool

inductive Label where
  | call (c : Call)
  | tick
  deriving DecidableEq

def Machine.outcome (m : Machine) (c : Nat) : Option Result := m.object.graph.outcome c

def Machine.withGraph (m : Machine) (g : Graph) : Machine :=
  { m with object := { m.object with graph := g } }

/-- `Resolver::Resolve` or `Resolver::Reject` up to the flush. -/
def settleOn (m : Machine) (c : Nat) (o : Result) : Machine :=
  if (m.outcome c).isSome then m
  else
    { m.withGraph (m.object.graph.stored c o) with
      stack := .flush c (m.object.graph.cells c).awaiters :: m.stack }

def replaced (s : StatePromise.State) : StatePromise.State :=
  { s with
    graph := (s.graph.create .source).create .source
    ready := s.graph.next
    done := s.graph.next + 1 }

def resetOn (m : Machine) : Machine :=
  match reset m.object with
  | some s => { m with object := s }
  | none => { m with object := replaced m.object, asserted := false }

/-- `Ready()` goes on after its assertions. -/
def readyOn (m : Machine) : Machine :=
  let holds := (m.outcome m.object.ready).isNone && (m.outcome m.object.done).isNone
  settleOn { m with asserted := m.asserted && holds } m.object.ready (.value ())

/-- `Done()` up to the flush of `done_promise_`. -/
def doneOn (m : Machine) : Machine :=
  settleOn { m with stack := .rest (m.outcome m.object.ready).isSome :: m.stack } m.object.done
    (.value ())

section Programs
variable (program : Nat → List Act)

/-- The program's continuation `k` is attached to `c`: it runs at once if `c` is done. -/
def attachOn (m : Machine) (c : Nat) (coroutine : Bool) (k : Nat) : Machine :=
  { m.withGraph (attached m.object.graph c coroutine k) with
    stack := if (m.outcome c).isSome then .body (program k) :: m.stack else m.stack }

def waitOn (m : Machine) (k : Kind) (next : Option (Bool × Nat)) : Option Machine :=
  (obtained m.object k).map fun x =>
    let t : Machine := { m with
      object := { m.object with
        graph := x.1
        waiters := m.object.waiters ++ [⟨k, x.2, m.object.ready, m.object.done⟩] } }
    match next with
    | none => t
    | some (coroutine, n) => attachOn program t x.2 coroutine n

def runAwaiter (m : Machine) (c : Nat) (k : Callback) : Option Machine :=
  match k, m.outcome c with
  | .user _ n, _ =>
      some { m.withGraph { m.object.graph with ran := m.object.graph.ran ++ [n] } with
        stack := .body (program n) :: m.stack }
  | .ended d, some o => some (settleOn m d (thrown o))
  | .raced r, some o => some (settleOn m r o)
  | .unwrap p id w, some o => some (settleOn (m.withGraph (m.object.graph.unAwait p id)) w o)
  | _, none => none

def tick (m : Machine) : Option Machine :=
  match m.stack with
  | [] => none
  | .rest true :: stack => some { m with stack := stack }
  | .rest false :: stack => some (settleOn { m with stack := stack } m.object.ready (.value ()))
  | .flush _ [] :: stack => some { m with stack := stack }
  | .flush c (a :: todo) :: stack =>
      runAwaiter program { m with stack := .flush c todo :: stack } c a.callback
  | .body [] :: stack => some { m with stack := stack }
  | .body (.reset :: acts) :: stack => some (resetOn { m with stack := .body acts :: stack })
  | .body (.ready :: acts) :: stack => some (readyOn { m with stack := .body acts :: stack })
  | .body (.done :: acts) :: stack => some (doneOn { m with stack := .body acts :: stack })
  | .body (.wait k next :: acts) :: stack =>
      waitOn program { m with stack := .body acts :: stack } k next
  | .body (.attach n coroutine k :: acts) :: stack =>
      match m.object.waiters[n]? with
      | some w =>
          some (attachOn program { m with stack := .body acts :: stack } w.promise coroutine k)
      | none => some { m with stack := .body acts :: stack }

def outer (m : Machine) : Call → Option Machine
  | .ready =>
      if m.outcome m.object.ready = none ∧ m.outcome m.object.done = none then
        some (settleOn m m.object.ready (.value ()))
      else none
  | .done => some (doneOn m)
  | .reset => some (resetOn m)
  | .wait k => waitOn program m k none
  | .attach n coroutine k =>
      (m.object.waiters[n]?).map fun w => attachOn program m w.promise coroutine k

def step (m : Machine) : Label → Option Machine
  | .call c => if m.stack = [] then outer program m c else none
  | .tick => tick program m

end Programs

def initial : Machine := ⟨StatePromise.initial, [], true⟩

abbrev Reached (program : Nat → List Act) (m : Machine) : Prop :=
  Reachable (step program) (· = initial) m

def Frame.owed : Frame → List (Nat × Callback)
  | .flush c todo => todo.map fun a => (c, a.callback)
  | _ => []

def owed (stack : List Frame) : List (Nat × Callback) := stack.flatMap Frame.owed

structure Sound (m : Machine) : Prop extends Wired m.object (owed m.stack) where
  flushed : ∀ c todo, .flush c todo ∈ m.stack → m.outcome c ≠ none
  past : m.asserted = true → ∀ w ∈ m.object.waiters,
    (w.ready = m.object.ready ∨ m.outcome w.ready ≠ none) ∧
      (w.done = m.object.done ∨ m.outcome w.done ≠ none)

section Invariant
variable {program : Nat → List Act} {m t : Machine} {g : Graph} {c : Nat} {o : Result}

theorem owed_cons (f : Frame) (stack : List Frame) :
    owed (f :: stack) = f.owed ++ owed stack := List.flatMap_cons ..

theorem kept_later {except : Nat → Prop} (kept : Kept m.object.graph t.object.graph except)
    (c : Nat) (settled : m.outcome c ≠ none) : t.outcome c ≠ none := by
  obtain ⟨o, there⟩ := Option.ne_none_iff_exists'.mp settled
  exact Option.ne_none_iff_exists'.mpr ⟨o, kept.outcome c o there⟩

/-- A call keeps all outcomes and what is to be done by the calls around it. -/
theorem kept_sound {except : Nat → Prop} (sound : Sound m)
    (graph : Consistent t.object.graph (owed t.stack))
    (kept : Kept m.object.graph t.object.graph except)
    (same : t.object = { m.object with graph := t.object.graph })
    (asserted : t.asserted = m.asserted)
    (flushed : ∀ c todo, .flush c todo ∈ t.stack → .flush c todo ∈ m.stack ∨
      t.outcome c ≠ none) : Sound t where
  toWired := same ▸ wired_kept sound.toWired graph kept
  flushed := by
    intro c todo member
    rcases flushed c todo member with old | now
    · exact kept_later kept c (sound.flushed c todo old)
    · exact now
  past := by
    intro holds w member
    rw [same] at member ⊢
    obtain ⟨first, second⟩ := sound.past (asserted ▸ holds) w member
    exact ⟨first.imp_right (kept_later kept _), second.imp_right (kept_later kept _)⟩

theorem settleOn_pending (pending : m.outcome c = none) :
    settleOn m c o = { m.withGraph (m.object.graph.stored c o) with
      stack := .flush c (m.object.graph.cells c).awaiters :: m.stack } := by
  unfold settleOn
  rw [if_neg (by simp [pending])]

theorem settleOn_done {x : Result} (done : m.outcome c = some x) : settleOn m c o = m := by
  unfold settleOn
  rw [if_pos (by simp [done])]

structure Settled (m t : Machine) (c : Nat) : Prop where
  graph : Consistent t.object.graph (owed t.stack)
  kept : Kept m.object.graph t.object.graph (· = c)
  done : t.outcome c ≠ none
  object : t.object = { m.object with graph := t.object.graph }
  asserted : t.asserted = m.asserted
  stack : t.stack = m.stack ∨ ∃ todo, t.stack = .flush c todo :: m.stack

theorem settleOn_settled (extra : List (Nat × Callback))
    (inv : Consistent m.object.graph (extra ++ owed m.stack))
    (hits : ∀ x ∈ extra, x.2.target = some c) (inside : c < m.object.graph.next)
    (right : Right m.object.graph o (m.object.graph.made c)) : Settled m (settleOn m c o) c := by
  cases before : m.outcome c with
  | some x =>
    rw [settleOn_done before]
    refine ⟨?_, kept_refl _, by simp [before], rfl, rfl, .inl rfl⟩
    apply drop_settled inv (fun y member => List.mem_append_right _ member)
    intro y member gone d target
    have mine := hits y ((List.mem_append.mp member).resolve_right gone)
    rw [target, Option.some.injEq] at mine
    rw [mine]
    exact fun none_ => Option.some_ne_none x (before.symm.trans none_)
  | none =>
    rw [settleOn_pending before]
    have stored : (m.object.graph.stored c o).outcome c = some o := by
      rw [stored_outcome, if_pos rfl]
    refine ⟨?_, stored_kept before, ?_, rfl, rfl, .inr ⟨_, rfl⟩⟩
    · rw [owed_cons]
      apply drop_settled (store_consistent inv inside before right)
      · intro y member
        rcases List.mem_append.mp member with mine | rest
        · exact List.mem_append_left _ mine
        · exact List.mem_append_right _ (List.mem_append_right _ rest)
      · intro y member gone d target
        rcases List.mem_append.mp member with mine | rest
        · exact absurd (List.mem_append_left _ mine) gone
        · rcases List.mem_append.mp rest with extra_ | old
          · have mine := hits y extra_
            rw [target, Option.some.injEq] at mine
            simp [mine, stored]
          · exact absurd (List.mem_append_right _ old) gone
    · exact fun none_ => Option.some_ne_none o (stored.symm.trans none_)

theorem Settled.ready (settled : Settled m t c) : t.object.ready = m.object.ready := by
  rw [settled.object]

theorem Settled.current (settled : Settled m t c) : t.object.done = m.object.done := by
  rw [settled.object]

theorem Settled.waiters (settled : Settled m t c) : t.object.waiters = m.object.waiters := by
  rw [settled.object]

theorem settled_sound {base : Machine} (sound : Sound base) (settled : Settled m t c)
    (same : Kept base.object.graph m.object.graph fun _ => False)
    (object : m.object = { base.object with graph := m.object.graph })
    (asserted : m.asserted = base.asserted)
    (flushed : ∀ c todo, .flush c todo ∈ m.stack → .flush c todo ∈ base.stack ∨
      m.outcome c ≠ none) : Sound t := by
  have kept : Kept base.object.graph t.object.graph (· = c) :=
    kept_trans { same with sources := fun d source _ => same.sources d source id } settled.kept
  have derived : t.object = { base.object with graph := t.object.graph } := by
    rw [settled.object, object]
  apply kept_sound sound settled.graph kept derived (settled.asserted.trans asserted)
  intro d todo member
  have older : .flush d todo ∈ m.stack → .flush d todo ∈ base.stack ∨ t.outcome d ≠ none :=
    fun old => (flushed d todo old).imp_right (kept_later settled.kept d)
  rcases settled.stack with same | ⟨more, pushed⟩
  · exact older (same ▸ member)
  · rw [pushed] at member
    rcases List.mem_cons.mp member with new | old
    · simp only [Frame.flush.injEq] at new
      rw [new.1]
      exact .inr settled.done
    · exact older old

def Frame.isRest : Frame → Bool
  | .rest _ => true
  | _ => false

/-- The continuation calls `Reset()`, `Ready()` or `Done()` next. -/
def Frame.calls : Frame → Bool
  | .body (.reset :: _) | .body (.ready :: _) | .body (.done :: _) => true
  | _ => false

structure Grows (m t : Machine) : Prop where
  graph : Derives m.object.graph t.object.graph
  ready : t.object.ready = m.object.ready
  done : t.object.done = m.object.done
  asserted : t.asserted = m.asserted
  waiters : ∃ ws, t.object.waiters = m.object.waiters ++ ws

/-- It is one of the innermost call, which neither is at the rest of `Done()` nor calls the
    object. -/
def Inner (m t : Machine) : Prop :=
  ∃ f stack new, m.stack = f :: stack ∧ (f.isRest = false ∧ f.calls = false) ∧
    t.stack = new ++ stack ∧ ∀ g ∈ new, Frame.isRest g = false

theorem settled_grows (settled : Settled m t c) (derived : m.object.graph.made c ≠ .source) :
    Grows m t := by
  refine ⟨?_, settled.ready, settled.current, settled.asserted, [],
    by rw [settled.waiters, List.append_nil]⟩
  apply derives_of_kept
  exact { settled.kept with
    sources := fun d source _ => settled.kept.sources d source fun here => derived (here ▸ source) }

theorem derived_input {k : Callback} {d : Nat} (member : (c, k) ∈ inputs d (g.made d)) :
    g.made d ≠ .source := by
  intro source
  rw [source] at member
  simp [inputs] at member

theorem awaiter_step (program : Nat → List Act) {a : Registered} {todo : List Registered}
    {stack : List Frame} (sound : Sound m) (top : m.stack = .flush c (a :: todo) :: stack) :
    ∃ t, runAwaiter program { m with stack := .flush c todo :: stack } c a.callback = some t ∧
      Sound t ∧ Grows m t ∧ Inner m t := by
  have done : m.outcome c ≠ none := sound.flushed c (a :: todo) (by rw [top]; exact .head _)
  obtain ⟨x, done⟩ := Option.ne_none_iff_exists'.mp done
  obtain ⟨id, k⟩ := a
  have owes : owed m.stack = (c, k) :: owed (.flush c todo :: stack) := by
    rw [top, owed_cons, owed_cons]
    rfl
  have inv := sound.graph
  rw [owes] at inv
  have typed := inv.owed (c, k) List.mem_cons_self
  have flushed : ∀ d more, .flush d more ∈ (.flush c todo :: stack : List Frame) →
      .flush d more ∈ m.stack ∨ m.outcome d ≠ none := by
    intro d more member
    rcases List.mem_cons.mp member with here | old
    · simp only [Frame.flush.injEq] at here
      exact .inr (by rw [here.1]; exact Option.ne_none_iff_exists'.mpr ⟨x, done⟩)
    · exact .inl (by rw [top]; exact List.mem_cons_of_mem _ old)
  have finish : ∀ (g : Graph) (d : Nat) (o : Result), Kept m.object.graph g (fun _ => False) →
      Consistent g ((c, k) :: owed (.flush c todo :: stack)) → k.target = some d → d < g.next →
      Right g o (g.made d) → g.made d ≠ .source → ∀ t,
      t = settleOn ({ m with stack := .flush c todo :: stack }.withGraph g) d o →
      Sound t ∧ Grows m t ∧ Inner m t := by
    intro g d o same graph target inside right derived t which
    have settled : Settled ({ m with stack := .flush c todo :: stack }.withGraph g) t d := by
      rw [which]
      exact settleOn_settled [(c, k)] graph (by simpa using target) inside right
    have grows := settled_grows settled derived
    refine ⟨settled_sound sound settled same rfl rfl ?_,
      ⟨derives_trans (derives_of_kept same) grows.graph, grows.ready, grows.done, grows.asserted,
        grows.waiters⟩, ?_⟩
    · intro e more member
      refine (flushed e more member).imp_right fun there => ?_
      obtain ⟨y, there⟩ := Option.ne_none_iff_exists'.mp there
      exact Option.ne_none_iff_exists'.mpr ⟨y, same.outcome e y there⟩
    · rcases settled.stack with base | ⟨more, pushed⟩
      · exact ⟨_, stack, [.flush c todo], top, ⟨rfl, rfl⟩, base, by simp [Frame.isRest]⟩
      · exact ⟨_, stack, [.flush d more, .flush c todo], top, ⟨rfl, rfl⟩, pushed,
          by simp [Frame.isRest]⟩
  have there : Machine.outcome { m with stack := .flush c todo :: stack } c = some x := done
  cases k with
  | user coroutine n =>
    have dropped := drop_owed inv (by simp [Callback.target])
    have kept : Kept m.object.graph { m.object.graph with ran := m.object.graph.ran ++ [n] }
        fun _ => False := ⟨rfl, rfl, fun _ _ h => h, fun _ _ _ => rfl⟩
    refine ⟨_, rfl, ?_, ⟨derives_of_kept kept, rfl, rfl, rfl, [], (List.append_nil _).symm⟩,
      _, stack, [.body (program n), .flush c todo], top, ⟨rfl, rfl⟩, rfl, by simp [Frame.isRest]⟩
    refine kept_sound sound (t := { m with
      object := { m.object with graph := { m.object.graph with ran := m.object.graph.ran ++ [n] } }
      stack := .body (program n) :: .flush c todo :: stack }) { dropped with } kept rfl rfl ?_
    intro d more member
    exact flushed d more ((List.mem_cons.mp member).resolve_left (by simp))
  | ended d =>
    obtain ⟨inside, member⟩ := typed d rfl
    refine ⟨_, by simp only [runAwaiter, there]; rfl, ?_⟩
    exact finish m.object.graph d (thrown x) (kept_refl _) inv rfl inside
      (ended_right member done) (derived_input member) _ rfl
  | raced r =>
    obtain ⟨inside, member⟩ := typed r rfl
    refine ⟨_, by simp only [runAwaiter, there]; rfl, ?_⟩
    exact finish m.object.graph r x (kept_refl _) inv rfl inside
      (raced_right member done) (derived_input member) _ rfl
  | unwrap p i w =>
    obtain ⟨inside, member⟩ := typed w rfl
    obtain ⟨graph, right⟩ := unwrap_right inv inside member done
    refine ⟨_, by simp only [runAwaiter, there]; rfl, ?_⟩
    exact finish (m.object.graph.unAwait p i) w x (unAwait_kept p i) graph rfl inside right
      (derived_input member) _ rfl

/-- A state that differs only by promises derived from others. -/
theorem derives_sound (ws : List Waiter) (sound : Sound m)
    (graph : Consistent t.object.graph (owed t.stack))
    (grows : Derives m.object.graph t.object.graph)
    (same : t.object =
      { m.object with graph := t.object.graph, waiters := m.object.waiters ++ ws })
    (asserted : t.asserted = m.asserted)
    (new : ∀ w ∈ ws, Shape t.object.graph w ∧ w.ready = m.object.ready ∧ w.done = m.object.done)
    (flushed : ∀ c todo, .flush c todo ∈ t.stack → .flush c todo ∈ m.stack) :
    Sound t ∧ Grows m t := by
  have later : ∀ c < m.object.graph.next, m.outcome c ≠ none → t.outcome c ≠ none := by
    intro c inside settled
    obtain ⟨o, there⟩ := Option.ne_none_iff_exists'.mp settled
    exact Option.ne_none_iff_exists'.mpr ⟨o, grows.outcome c inside o there⟩
  refine ⟨?_, grows, by rw [same], by rw [same], asserted, ws, by rw [same]⟩
  constructor
  · exact same ▸ wired_extends sound.toWired graph grows.toExtends fun w made => (new w made).1
  · intro c todo member
    have settled := sound.flushed c todo (flushed c todo member)
    by_cases inside : c < m.object.graph.next
    · exact later c inside settled
    · exact absurd (sound.graph.fresh c (Nat.le_of_not_lt inside)) settled
  · intro holds w member
    rw [same] at member ⊢
    rcases List.mem_append.mp member with old | made
    · obtain ⟨first, second⟩ := sound.past (asserted ▸ holds) w old
      have shape := sound.shapes w old
      exact ⟨first.imp_right (later _ shape.1.1), second.imp_right (later _ shape.2.1.1)⟩
    · exact ⟨.inl (new w made).2.1, .inl (new w made).2.2⟩

theorem attachOn_sound (sound : Sound m) (c : Nat) (coroutine : Bool) (k : Nat) :
    Sound (attachOn program m c coroutine k) ∧ Grows m (attachOn program m c coroutine k) ∧
      ((attachOn program m c coroutine k).stack = m.stack ∨
        (attachOn program m c coroutine k).stack = .body (program k) :: m.stack) := by
  obtain ⟨graph, grows⟩ := attached_derives c coroutine k sound.graph
  have pushed : (attachOn program m c coroutine k).stack = m.stack ∨
      (attachOn program m c coroutine k).stack = .body (program k) :: m.stack := by
    unfold attachOn
    by_cases done : (m.outcome c).isSome = true
    · exact .inr (if_pos done)
    · exact .inl (if_neg done)
  have same : owed (attachOn program m c coroutine k).stack = owed m.stack := by
    rcases pushed with same | same
    · rw [same]
    · rw [same, owed_cons]
      rfl
  have kept := derives_sound (t := attachOn program m c coroutine k) [] sound
    (by rw [same]; exact graph) grows (by rw [List.append_nil]; rfl) rfl (by simp) (by
      intro d todo member
      rcases pushed with same | same
      · exact same ▸ member
      · rw [same] at member
        exact (List.mem_cons.mp member).resolve_left (by simp))
  exact ⟨kept.1, kept.2, pushed⟩

theorem grows_trans {u : Machine} (first : Grows m t) (second : Grows t u) : Grows m u := by
  obtain ⟨ws, more⟩ := first.waiters
  obtain ⟨vs, rest⟩ := second.waiters
  exact ⟨derives_trans first.graph second.graph, second.ready.trans first.ready,
    second.done.trans first.done, second.asserted.trans first.asserted, ws ++ vs,
    by rw [rest, more, List.append_assoc]⟩

theorem waitOn_sound (program : Nat → List Act) (sound : Sound m) (k : Kind)
    (next : Option (Bool × Nat)) :
    ∃ t, waitOn program m k next = some t ∧ Sound t ∧ Grows m t ∧
      (t.stack = m.stack ∨ ∃ acts, t.stack = .body acts :: m.stack) := by
  obtain ⟨g, p, made, graph, grows, shape, _⟩ :=
    obtained_derives sound.graph sound.ready sound.done k
  have first := derives_sound (t := { m with
      object := { m.object with
        graph := g
        waiters := m.object.waiters ++ [⟨k, p, m.object.ready, m.object.done⟩] } })
    [⟨k, p, m.object.ready, m.object.done⟩] sound graph grows rfl rfl (by
      intro w member
      rw [List.mem_singleton.mp member]
      exact ⟨shape, rfl, rfl⟩) (fun _ _ member => member)
  cases next with
  | none => exact ⟨_, by simp only [waitOn, made, Option.map_some], first.1, first.2, .inl rfl⟩
  | some x =>
    obtain ⟨coroutine, n⟩ := x
    obtain ⟨kept, more, pushed⟩ : Sound (attachOn program _ p coroutine n) ∧ _ :=
      attachOn_sound first.1 p coroutine n
    refine ⟨_, by simp only [waitOn, made, Option.map_some], kept, grows_trans first.2 more, ?_⟩
    exact pushed.imp_right fun same => ⟨_, same⟩

inductive WasReset (m : Machine) : Machine → Prop where
  | both (done : m.outcome m.object.done ≠ none) (ready : m.outcome m.object.ready ≠ none) :
      WasReset m { m with object := replaced m.object }
  | failed (done : m.outcome m.object.done ≠ none) (ready : m.outcome m.object.ready = none) :
      WasReset m { m with object := replaced m.object, asserted := false }
  | ready (done : m.outcome m.object.done = none) (ready : m.outcome m.object.ready ≠ none) :
      WasReset m { m with object := { m.object with
        graph := m.object.graph.create .source, ready := m.object.graph.next } }
  | nothing (done : m.outcome m.object.done = none) (ready : m.outcome m.object.ready = none) :
      WasReset m m

theorem resetOn_reset (sound : Sound m) : WasReset m (resetOn m) := by
  have isDone := resolved_source sound.graph sound.done
  have isReady := resolved_source sound.graph sound.ready
  unfold resetOn reset
  rw [isDone, isReady]
  cases done : m.object.graph.outcome m.object.done with
  | some x =>
    have settled : m.outcome m.object.done ≠ none :=
      fun n => Option.some_ne_none x (done.symm.trans n)
    cases ready : m.object.graph.outcome m.object.ready with
    | some y => exact .both settled fun n => Option.some_ne_none y (ready.symm.trans n)
    | none => exact .failed settled ready
  | none =>
    cases ready : m.object.graph.outcome m.object.ready with
    | some y => exact .ready done fun n => Option.some_ne_none y (ready.symm.trans n)
    | none => exact .nothing done ready

theorem replaced_sources (sound : Sound m) :
    Consistent (replaced m.object).graph (owed m.stack) ∧
      Extends m.object.graph (replaced m.object).graph ∧
      (Source (replaced m.object).graph (replaced m.object).ready ∧
        (replaced m.object).graph.outcome (replaced m.object).ready = none) ∧
      Source (replaced m.object).graph (replaced m.object).done ∧
        (replaced m.object).graph.outcome (replaced m.object).done = none := by
  obtain ⟨once, grows, fresh, pending⟩ := fresh_source sound.graph
  obtain ⟨twice, grows', fresh', pending'⟩ := fresh_source once
  refine ⟨twice, extends_trans grows grows', ⟨source_extends fresh grows', ?_⟩, fresh', pending'⟩
  exact (grows'.sources _ fresh.1 fresh.2).trans pending

theorem fresh_sound {s : StatePromise.State} {holds : Bool} (sound : Sound m)
    (graph : Consistent s.graph (owed m.stack)) (grows : Extends m.object.graph s.graph)
    (ready : Source s.graph s.ready) (done : Source s.graph s.done) (apart : s.ready ≠ s.done)
    (waiters : s.waiters = m.object.waiters)
    (past : holds = true → m.asserted = true ∧
      (s.ready = m.object.ready ∨ m.outcome m.object.ready ≠ none) ∧
      (s.done = m.object.done ∨ m.outcome m.object.done ≠ none)) :
    Sound ⟨s, m.stack, holds⟩ where
  graph := graph
  ready := ready
  done := done
  apart := apart
  shapes := by
    intro w member
    exact shape_extends (sound.shapes w (waiters ▸ member)) grows
  flushed := by
    intro c todo member
    have settled := sound.flushed c todo member
    by_cases inside : c < m.object.graph.next
    · obtain ⟨o, there⟩ := Option.ne_none_iff_exists'.mp settled
      exact Option.ne_none_iff_exists'.mpr ⟨o, grows.outcome c inside o there⟩
    · exact absurd (sound.graph.fresh c (Nat.le_of_not_lt inside)) settled
  past := by
    have later : ∀ c, Source m.object.graph c → m.outcome c ≠ none → s.graph.outcome c ≠ none := by
      intro c source settled
      rw [grows.sources c source.1 source.2]
      exact settled
    intro yes w member
    obtain ⟨before, ready_, done_⟩ := past yes
    rw [waiters] at member
    obtain ⟨first, second⟩ := sound.past before w member
    have shape := sound.shapes w member
    constructor
    · rcases first with current | old
      · rcases ready_ with same | settled
        · exact .inl (current.trans same.symm)
        · exact .inr (later _ shape.1 (current ▸ settled))
      · exact .inr (later _ shape.1 old)
    · rcases second with current | old
      · rcases done_ with same | settled
        · exact .inl (current.trans same.symm)
        · exact .inr (later _ shape.2.1 (current ▸ settled))
      · exact .inr (later _ shape.2.1 old)

theorem resetOn_sound (sound : Sound m) : Sound (resetOn m) := by
  obtain ⟨twice, grows, ready, done⟩ := replaced_sources sound
  have apart : (replaced m.object).ready ≠ (replaced m.object).done := by simp [replaced]
  have which := resetOn_reset sound
  generalize resetOn m = t at which
  cases which with
  | both done_ ready_ =>
    exact fresh_sound sound twice grows ready.1 done.1 apart rfl fun holds =>
      ⟨holds, .inr ready_, .inr done_⟩
  | failed done_ ready_ =>
    exact fresh_sound sound twice grows ready.1 done.1 apart rfl (by simp)
  | ready done_ ready_ =>
    obtain ⟨once, grows, fresh, _⟩ := fresh_source sound.graph
    exact fresh_sound sound once grows fresh (source_extends sound.done grows)
      (Nat.ne_of_gt sound.done.1) rfl fun holds => ⟨holds, .inr ready_, .inl rfl⟩
  | nothing done_ ready_ => exact sound

/-- The innermost call goes on without a change to the object. -/
theorem pop_sound {f : Frame} {stack : List Frame} (new : List Frame) (sound : Sound m)
    (top : m.stack = f :: stack) (same : owed (new ++ stack) = owed (f :: stack))
    (flushed : ∀ c todo, .flush c todo ∉ new) : Sound { m with stack := new ++ stack } := by
  have graph := sound.graph
  rw [top, ← same] at graph
  refine kept_sound sound (t := { m with stack := new ++ stack }) graph
    (kept_refl fun _ => False) rfl rfl fun c todo member => ?_
  left
  rw [top]
  exact List.mem_cons_of_mem _ ((List.mem_append.mp member).resolve_left (flushed c todo))

inductive Ticked (m : Machine) : Machine → Prop where
  | inner (t : Machine) (grows : Grows m t) (inner : Inner m t) : Ticked m t
  | signalled (stack : List Frame) (top : m.stack = .rest true :: stack) :
      Ticked m { m with stack := stack }
  | signal (stack : List Frame) (top : m.stack = .rest false :: stack) :
      Ticked m (settleOn { m with stack := stack } m.object.ready (.value ()))
  | reset (acts : List Act) (stack : List Frame) (top : m.stack = .body (.reset :: acts) :: stack) :
      Ticked m (resetOn { m with stack := .body acts :: stack })
  | ready (acts : List Act) (stack : List Frame) (top : m.stack = .body (.ready :: acts) :: stack) :
      Ticked m (readyOn { m with stack := .body acts :: stack })
  | done (acts : List Act) (stack : List Frame) (top : m.stack = .body (.done :: acts) :: stack) :
      Ticked m (doneOn { m with stack := .body acts :: stack })

theorem signal_settled (sound : Sound m) (source : Source m.object.graph c) :
    Settled m (settleOn m c (.value ())) c := by
  apply settleOn_settled [] sound.graph (by simp) source.1
  rw [source.2]
  rfl

theorem signal_sound (sound : Sound m) (source : Source m.object.graph c) :
    Sound (settleOn m c (.value ())) :=
  settled_sound sound (signal_settled sound source) (kept_refl _) rfl rfl fun _ _ => .inl

theorem asserted_sound (sound : Sound m) (holds : Bool) :
    Sound { m with asserted := m.asserted && holds } :=
  { sound with past := fun all => sound.past (Bool.and_eq_true_iff.mp all).1 }

theorem readyOn_sound (sound : Sound m) : Sound (readyOn m) :=
  signal_sound (asserted_sound sound _) sound.ready

theorem push_sound (sound : Sound m) (was : Bool) :
    Sound { m with stack := .rest was :: m.stack } := by
  refine kept_sound sound (t := { m with stack := .rest was :: m.stack }) sound.graph
    (kept_refl fun _ => False) rfl rfl fun c todo member => ?_
  exact .inl ((List.mem_cons.mp member).resolve_left (by simp))

theorem doneOn_sound (sound : Sound m) : Sound (doneOn m) :=
  signal_sound (push_sound sound _) sound.done

theorem attach_ticked (program : Nat → List Act) {acts : List Act} {stack : List Frame}
    (sound : Sound m) (n : Nat) (coroutine : Bool) (k : Nat)
    (top : m.stack = .body (.attach n coroutine k :: acts) :: stack) :
    ∃ t, tick program m = some t ∧ Sound t ∧ Grows m t ∧ Inner m t := by
  have same : Grows m { m with stack := .body acts :: stack } :=
    ⟨derives_of_kept (kept_refl _), rfl, rfl, rfl, [], (List.append_nil _).symm⟩
  have base : Sound { m with stack := .body acts :: stack } :=
    pop_sound [.body acts] sound top rfl (by simp)
  unfold tick
  rw [top]
  cases found : m.object.waiters[n]? with
  | none =>
    refine ⟨_, by simp only [found], base, same, _, stack, [.body acts], top, ⟨rfl, rfl⟩, rfl, ?_⟩
    simp [Frame.isRest]
  | some w =>
    obtain ⟨kept, grows, pushed⟩ :
      Sound (attachOn program { m with stack := .body acts :: stack } w.promise coroutine k) ∧ _ :=
      attachOn_sound base w.promise coroutine k
    refine ⟨_, by simp only [found], kept, grows_trans same grows, ?_⟩
    rcases pushed with plain | more
    · exact ⟨_, stack, [.body acts], top, ⟨rfl, rfl⟩, plain, by simp [Frame.isRest]⟩
    · exact ⟨_, stack, [.body (program k), .body acts], top, ⟨rfl, rfl⟩, more,
        by simp [Frame.isRest]⟩

theorem tick_ticked (program : Nat → List Act) (sound : Sound m) (busy : m.stack ≠ []) :
    ∃ t, tick program m = some t ∧ Sound t ∧ Ticked m t := by
  have quiet : ∀ t : Machine, t.object = m.object → t.asserted = m.asserted → Grows m t := by
    intro t object asserted
    refine ⟨by rw [object]; exact derives_of_kept (kept_refl _), by rw [object], by rw [object],
      asserted, [], ?_⟩
    rw [object, List.append_nil]
  cases top : m.stack with
  | nil => exact absurd top busy
  | cons f stack =>
    cases f with
    | rest was =>
      have popped : Sound { m with stack := stack } := pop_sound [] sound top rfl (by simp)
      cases was with
      | true => exact ⟨_, by unfold tick; rw [top], popped, .signalled stack top⟩
      | false =>
        exact ⟨_, by unfold tick; rw [top], signal_sound popped sound.ready, .signal stack top⟩
    | flush c todo =>
      cases todo with
      | nil =>
        exact ⟨_, by unfold tick; rw [top]; rfl, pop_sound [] sound top rfl (by simp),
          .inner _ (quiet _ rfl rfl) ⟨_, stack, [], top, ⟨rfl, rfl⟩, rfl, by simp⟩⟩
      | cons a todo =>
        obtain ⟨t, taken, kept, grows, inner⟩ := awaiter_step program sound top
        exact ⟨t, by unfold tick; rw [top]; exact taken, kept, .inner t grows inner⟩
    | body acts =>
      cases acts with
      | nil =>
        exact ⟨_, by unfold tick; rw [top]; rfl, pop_sound [] sound top rfl (by simp),
          .inner _ (quiet _ rfl rfl) ⟨_, stack, [], top, ⟨rfl, rfl⟩, rfl, by simp⟩⟩
      | cons act acts =>
        have base : Sound { m with stack := .body acts :: stack } :=
          pop_sound [.body acts] sound top rfl (by simp)
        cases act with
        | reset =>
          exact ⟨_, by unfold tick; rw [top], resetOn_sound base, .reset acts stack top⟩
        | ready =>
          exact ⟨_, by unfold tick; rw [top], readyOn_sound base, .ready acts stack top⟩
        | done => exact ⟨_, by unfold tick; rw [top], doneOn_sound base, .done acts stack top⟩
        | wait k next =>
          obtain ⟨t, taken, kept, grows, pushed⟩ := waitOn_sound program base k next
          have grown := grows_trans (quiet { m with stack := .body acts :: stack } rfl rfl) grows
          refine ⟨t, by unfold tick; rw [top]; exact taken, kept, .inner t grown ?_⟩
          rcases pushed with same | ⟨more, same⟩
          · exact ⟨_, stack, [.body acts], top, ⟨rfl, rfl⟩, same, by simp [Frame.isRest]⟩
          · exact ⟨_, stack, [.body more, .body acts], top, ⟨rfl, rfl⟩, same,
              by simp [Frame.isRest]⟩
        | attach n coroutine k =>
          obtain ⟨t, taken, kept, grows, inner⟩ := attach_ticked program sound n coroutine k top
          exact ⟨t, taken, kept, .inner t grows inner⟩

theorem outer_sound {call : Call} (sound : Sound m) (taken : outer program m call = some t) :
    Sound t := by
  cases call with
  | ready =>
    simp only [outer] at taken
    split at taken <;> simp only [Option.some.injEq, reduceCtorEq] at taken
    exact taken ▸ signal_sound sound sound.ready
  | done =>
    simp only [outer, Option.some.injEq] at taken
    exact taken ▸ doneOn_sound sound
  | reset =>
    simp only [outer, Option.some.injEq] at taken
    exact taken ▸ resetOn_sound sound
  | wait k =>
    obtain ⟨u, there, kept, _⟩ := waitOn_sound program sound k none
    rw [outer, there, Option.some.injEq] at taken
    exact taken ▸ kept
  | attach n coroutine k =>
    obtain ⟨w, _, same⟩ := Option.map_eq_some_iff.mp taken
    exact same ▸ (attachOn_sound sound w.promise coroutine k).1

theorem step_sound {l : Label} (sound : Sound m) (taken : step program m l = some t) : Sound t := by
  cases l with
  | call c =>
    simp only [step] at taken
    split at taken
    · exact outer_sound sound taken
    · simp at taken
  | tick =>
    by_cases busy : m.stack = []
    · simp [step, tick, busy] at taken
    · obtain ⟨u, there, kept, _⟩ := tick_ticked program sound busy
      rw [step, there, Option.some.injEq] at taken
      exact taken ▸ kept

theorem reached_sound (reached : Reached program m) : Sound m := by
  refine reachable_invariant (fun s start => ?_)
    (fun _ _ _ sound taken => step_sound sound taken) reached
  subst start
  exact ⟨initial_sound.toWired, by simp [initial], by simp [initial, StatePromise.initial]⟩

structure Grown (m t : Machine) : Prop where
  next : m.object.graph.next ≤ t.object.graph.next
  settled : ∀ c, m.outcome c ≠ none → t.outcome c ≠ none
  sources : ∀ c, Source m.object.graph c → Source t.object.graph c
  waiters : ∀ w ∈ m.object.waiters, w ∈ t.object.waiters
  failed : m.asserted = false → t.asserted = false

theorem extends_grown (sound : Sound m) (grows : Extends m.object.graph t.object.graph)
    (waiters : ∀ w ∈ m.object.waiters, w ∈ t.object.waiters)
    (failed : m.asserted = false → t.asserted = false) : Grown m t where
  next := grows.next
  settled := by
    intro c settled
    have inside : c < m.object.graph.next := by
      by_contra outside
      exact settled (sound.graph.fresh c (Nat.le_of_not_lt outside))
    obtain ⟨o, there⟩ := Option.ne_none_iff_exists'.mp settled
    exact Option.ne_none_iff_exists'.mpr ⟨o, grows.outcome c inside o there⟩
  sources := fun _ source => source_extends source grows
  waiters := waiters
  failed := failed

theorem resetOn_grown (sound : Sound m) : Grown m (resetOn m) := by
  have replaced_ := (replaced_sources sound).2.1
  have which := resetOn_reset sound
  generalize resetOn m = t at which
  cases which with
  | both done ready => exact extends_grown sound replaced_ (fun _ => id) id
  | failed done ready => exact extends_grown sound replaced_ (fun _ => id) fun _ => rfl
  | ready done ready => exact extends_grown sound create_extends (fun _ => id) id
  | nothing done ready => exact ⟨Nat.le_refl _, fun _ => id, fun _ => id, fun _ => id, id⟩

theorem settled_grown (settled : Settled m t c) : Grown m t where
  next := Nat.le_of_eq settled.kept.next.symm
  settled := kept_later settled.kept
  sources := by
    intro d source
    simpa only [Source, settled.kept.next, settled.kept.made] using source
  waiters := fun w member => settled.waiters ▸ member
  failed := fun failed => settled.asserted.trans failed

theorem readyOn_settled (sound : Sound m) :
    Settled { m with asserted := m.asserted &&
      ((m.outcome m.object.ready).isNone && (m.outcome m.object.done).isNone) } (readyOn m)
      m.object.ready :=
  signal_settled (asserted_sound sound _) sound.ready

theorem readyOn_grown (sound : Sound m) : Grown m (readyOn m) := by
  have grown := settled_grown (readyOn_settled sound)
  refine ⟨grown.next, grown.settled, grown.sources, grown.waiters, fun failed => ?_⟩
  exact grown.failed (Bool.and_eq_false_iff.mpr (.inl failed))

theorem doneOn_settled (sound : Sound m) :
    Settled { m with stack := .rest (m.outcome m.object.ready).isSome :: m.stack } (doneOn m)
      m.object.done :=
  signal_settled (push_sound sound _) sound.done

theorem ticked_grown (sound : Sound m) (ticked : Ticked m t) : Grown m t := by
  cases ticked with
  | inner _ grows inner =>
    obtain ⟨ws, more⟩ := grows.waiters
    refine extends_grown sound grows.graph.toExtends (fun w member => ?_)
      fun failed => grows.asserted.trans failed
    rw [more]
    exact List.mem_append_left _ member
  | signalled stack top => exact ⟨Nat.le_refl _, fun _ => id, fun _ => id, fun _ => id, id⟩
  | signal stack top =>
    have base : Sound { m with stack := stack } := pop_sound [] sound top rfl (by simp)
    have grown := settled_grown (signal_settled base sound.ready)
    exact ⟨grown.next, grown.settled, grown.sources, grown.waiters, grown.failed⟩
  | reset acts stack top =>
    have base : Sound { m with stack := .body acts :: stack } :=
      pop_sound [.body acts] sound top rfl (by simp)
    have grown := resetOn_grown base
    exact ⟨grown.next, grown.settled, grown.sources, grown.waiters, grown.failed⟩
  | ready acts stack top =>
    have base : Sound { m with stack := .body acts :: stack } :=
      pop_sound [.body acts] sound top rfl (by simp)
    have grown := readyOn_grown base
    exact ⟨grown.next, grown.settled, grown.sources, grown.waiters, grown.failed⟩
  | done acts stack top =>
    have base : Sound { m with stack := .body acts :: stack } :=
      pop_sound [.body acts] sound top rfl (by simp)
    have grown := settled_grown (doneOn_settled base)
    exact ⟨grown.next, grown.settled, grown.sources, grown.waiters, grown.failed⟩

end Invariant

/-- A promise of a cycle that a `Reset()` has begun since the call on `a`. -/
def Begun (a m : Machine) (c : Nat) : Prop :=
  a.object.graph.next ≤ c ∧ Source m.object.graph c

/-- What a continuation must not do inside `Done()`: `Reset()` while a `Done()` has still to
    settle `ready_promise_`, `Ready()`, and `Done()` on a cycle begun inside. -/
def forbidden (a m : Machine) (stack : List Frame) : Frame → Bool
  | .body (.reset :: _) => stack.contains (.rest false)
  | .body (.ready :: _) => true
  | .body (.done :: _) => decide (a.object.graph.next ≤ m.object.done)
  | _ => false

def misplaced (a m : Machine) : Label → Bool
  | .tick =>
      match m.stack with
      | f :: stack => forbidden a m stack f
      | [] => false
  | .call _ => false

/-- What is to hold in `t`, where the call of `Done()` on `a` returns. -/
structure Survived (a t : Machine) : Prop where
  asserted : t.asserted = true
  settled : ∀ w ∈ a.object.waiters, w.kind = .waitReady ∨ w.kind = .wait ∨ w.kind = .waitDone →
    t.outcome w.promise = some (.value ())
  cycles : ∀ c, Begun a t c → t.outcome c = none

structure Waiting (a m : Machine) : Prop where
  waiters : ∀ w ∈ a.object.waiters, w ∈ m.object.waiters
  older : ∀ w ∈ a.object.waiters, (w.ready = a.object.ready ∨ m.outcome w.ready ≠ none) ∧
    (w.done = a.object.done ∨ m.outcome w.done ≠ none)
  done : m.outcome a.object.done ≠ none
  asserted : m.asserted = true
  cycles : ∀ c, Begun a m c → m.outcome c = none

structure First (a m : Machine) : Prop extends Waiting a m where
  stack : ∃ inner, m.stack = inner ++ [.rest false]
  current : m.object.ready = a.object.ready ∧ m.object.done = a.object.done

structure Second (a m : Machine) : Prop extends Waiting a m where
  stack : .rest false ∉ m.stack
  ready : m.outcome a.object.ready ≠ none
  cycle : (m.object.ready = a.object.ready ∧ m.object.done = a.object.done) ∨
    (a.object.graph.next ≤ m.object.ready ∧ a.object.graph.next ≤ m.object.done)

/-- What the rest of the call cannot mend: a failed assertion, a new cycle that has been
    signalled, or one that a `Done()` under way is about to signal. -/
inductive Doomed (a m : Machine) : Prop where
  | failed (asserted : m.asserted = false)
  | signalled (c : Nat) (begun : Begun a m c) (done : m.outcome c ≠ none)
  | owed (rest : .rest false ∈ m.stack) (begun : Begun a m m.object.ready)

section Phases
variable {program : Nat → List Act} {a m t : Machine} {c : Nat}

theorem waiting_grown (waiting : Waiting a m) (grown : Grown m t) (asserted : t.asserted = true)
    (cycles : ∀ c, Begun a t c → t.outcome c = none) : Waiting a t where
  waiters := fun w member => grown.waiters w (waiting.waiters w member)
  older := by
    intro w member
    obtain ⟨first, second⟩ := waiting.older w member
    exact ⟨first.imp_right (grown.settled _), second.imp_right (grown.settled _)⟩
  done := grown.settled _ waiting.done
  asserted := asserted
  cycles := cycles

theorem grows_cycles (grows : Grows m t) (cycles : ∀ c, Begun a m c → m.outcome c = none) :
    ∀ c, Begun a t c → t.outcome c = none := by
  intro c begun
  have inside := grows.graph.derived c begun.2.1 begun.2.2
  have made := (grows.graph.made c inside).symm.trans begun.2.2
  exact (grows.graph.sources c inside made).trans (cycles c ⟨begun.1, inside, made⟩)

theorem settled_cycles (settled : Settled m t c) (old : c < a.object.graph.next)
    (cycles : ∀ d, Begun a m d → m.outcome d = none) :
    ∀ d, Begun a t d → t.outcome d = none := by
  intro d begun
  have before : Source m.object.graph d := by
    simpa only [Source, settled.kept.next, settled.kept.made] using begun.2
  have other : d ≠ c := Nat.ne_of_gt (Nat.lt_of_lt_of_le old begun.1)
  exact (settled.kept.sources d before.2 other).trans (cycles d ⟨begun.1, before⟩)

theorem begun_grown (grown : Grown m t) (begun : Begun a m c) : Begun a t c :=
  ⟨begun.1, grown.sources c begun.2⟩

theorem misplaced_top {f : Frame} {stack : List Frame} (top : m.stack = f :: stack) :
    misplaced a m .tick = forbidden a m stack f := by
  simp only [misplaced, top]

theorem calls_allowed {f : Frame} {stack : List Frame} (quiet : f.calls = false) :
    forbidden a m stack f = false := by
  unfold forbidden
  split <;> first | rfl | cases quiet

theorem first_stack {f : Frame} {stack : List Frame} (first : First a m)
    (top : m.stack = f :: stack) :
    (f = .rest false ∧ stack = []) ∨ ∃ inner, stack = inner ++ [.rest false] := by
  obtain ⟨inner, same⟩ := first.stack
  rw [top] at same
  cases inner with
  | nil =>
    simp only [List.nil_append, List.cons.injEq] at same
    exact .inl same
  | cons g inner =>
    simp only [List.cons_append, List.cons.injEq] at same
    exact .inr ⟨inner, same.2⟩

theorem first_body {acts : List Act} {stack : List Frame} (first : First a m)
    (top : m.stack = .body acts :: stack) : ∃ inner, stack = inner ++ [.rest false] := by
  rcases first_stack first top with ⟨other, -⟩ | inside
  · cases other
  · exact inside

theorem settled_stack (inner : List Frame) (settled : Settled m t c)
    (stack : m.stack = inner ++ [.rest false]) : ∃ more, t.stack = more ++ [.rest false] := by
  rcases settled.stack with same | ⟨todo, same⟩
  · exact ⟨inner, same.trans stack⟩
  · exact ⟨.flush c todo :: inner, by rw [same, stack]; rfl⟩

theorem first_signal {stack : List Frame} (whole : Sound a) (sound : Sound m) (first : First a m)
    (top : m.stack = .rest false :: stack) :
    First a (settleOn { m with stack := stack } m.object.ready (.value ())) ∨
      Second a (settleOn { m with stack := stack } m.object.ready (.value ())) := by
  have base : Sound { m with stack := stack } := pop_sound [] sound top rfl (by simp)
  have settled := signal_settled base base.ready
  have grown := settled_grown settled
  obtain ⟨ready, done⟩ := first.current
  have old : m.object.ready < a.object.graph.next := ready ▸ whole.ready.1
  have waiting : Waiting a _ := waiting_grown (m := { m with stack := stack })
    { first.toWaiting with } grown (settled.asserted.trans first.asserted)
    (settled_cycles settled old first.cycles)
  have current := And.intro (settled.ready.trans ready) (settled.current.trans done)
  rcases first_stack first top with ⟨-, last⟩ | ⟨inner, more⟩
  · subst last
    refine .inr ⟨waiting, ?_, ready ▸ settled.done, .inl current⟩
    rcases settled.stack with same | ⟨todo, same⟩ <;> simp [same]
  · exact .inl ⟨waiting, settled_stack inner (m := { m with stack := stack }) settled more, current⟩

theorem first_done {acts : List Act} {stack : List Frame} (whole : Sound a) (sound : Sound m)
    (first : First a m) (top : m.stack = .body (.done :: acts) :: stack) :
    First a (doneOn { m with stack := .body acts :: stack }) := by
  have base : Sound { m with stack := .body acts :: stack } :=
    pop_sound [.body acts] sound top rfl (by simp)
  have settled := doneOn_settled base
  have grown := settled_grown settled
  obtain ⟨ready, done⟩ := first.current
  obtain ⟨inner, below⟩ := first_body first top
  have old : m.object.done < a.object.graph.next := done ▸ whole.done.1
  refine ⟨waiting_grown (m := { m with stack := _ :: .body acts :: stack })
    { first.toWaiting with } grown (settled.asserted.trans first.asserted)
    (settled_cycles settled old first.cycles), ?_, settled.ready.trans ready,
    settled.current.trans done⟩
  apply settled_stack (_ :: .body acts :: inner) settled
  rw [below]
  rfl

/-- Before `ready_promise_` is settled, `Reset()` fails its assertion, or, when another `Done()`
    inside has settled it, makes the call signal the new cycle. -/
theorem first_reset {acts : List Act} {stack : List Frame} (sound : Sound m) (first : First a m)
    (inside : a.object.graph.next ≤ m.object.graph.next)
    (top : m.stack = .body (.reset :: acts) :: stack) :
    misplaced a m .tick = true ∧ Doomed a (resetOn { m with stack := .body acts :: stack }) := by
  have base : Sound { m with stack := .body acts :: stack } :=
    pop_sound [.body acts] sound top rfl (by simp)
  obtain ⟨inner, below⟩ := first_body first top
  have rest : .rest false ∈ stack := by simp [below]
  refine ⟨by rw [misplaced_top top, below]; simp [forbidden], ?_⟩
  have made := replaced_sources base
  have which := resetOn_reset base
  generalize resetOn _ = u at which
  have done : m.outcome m.object.done ≠ none := first.current.2 ▸ first.done
  cases which with
  | failed done_ ready_ => exact .failed rfl
  | both done_ ready_ => exact .owed (List.mem_cons_of_mem _ rest) ⟨inside, made.2.2.1.1⟩
  | ready done_ ready_ => exact absurd done_ done
  | nothing done_ ready_ => exact absurd done_ done

theorem ready_dooms {acts : List Act} {stack : List Frame} (sound : Sound m)
    (done : m.outcome m.object.done ≠ none ∨ a.object.graph.next ≤ m.object.ready)
    (top : m.stack = .body (.ready :: acts) :: stack) :
    misplaced a m .tick = true ∧ Doomed a (readyOn { m with stack := .body acts :: stack }) := by
  refine ⟨misplaced_top top, ?_⟩
  have base : Sound { m with stack := .body acts :: stack } :=
    pop_sound [.body acts] sound top rfl (by simp)
  have settled := readyOn_settled base
  rcases done with done | new
  · refine .failed (settled.asserted.trans (Bool.and_eq_false_iff.mpr (.inr ?_)))
    exact Bool.and_eq_false_iff.mpr (.inr (Option.isNone_eq_false_iff.mpr
      (Option.isSome_iff_ne_none.mpr done)))
  · exact .signalled m.object.ready ⟨new, (settled_grown settled).sources _ base.ready⟩ settled.done

theorem first_step (whole : Sound a) (sound : Sound m)
    (inside : a.object.graph.next ≤ m.object.graph.next) (first : First a m)
    (ticked : Ticked m t) : (misplaced a m .tick = true ∧ Doomed a t) ∨
      (misplaced a m .tick = false ∧ (First a t ∨ Second a t)) := by
  have grown := ticked_grown sound ticked
  obtain ⟨ready, done⟩ := first.current
  cases ticked with
  | inner _ grows moved =>
    obtain ⟨f, stack, new, top, quiet, next, plain⟩ := moved
    refine .inr ⟨(misplaced_top top).trans (calls_allowed quiet.2), .inl ?_⟩
    rcases first_stack first top with ⟨rest, _⟩ | ⟨inner, same⟩
    · exact absurd quiet.1 (by simp [rest, Frame.isRest])
    · refine ⟨waiting_grown first.toWaiting grown (grows.asserted.trans first.asserted)
        (grows_cycles grows first.cycles), ⟨new ++ inner, ?_⟩, grows.ready.trans ready,
        grows.done.trans done⟩
      rw [next, same, List.append_assoc]
  | signalled stack top =>
    refine .inr ⟨misplaced_top top, .inl ?_⟩
    rcases first_stack first top with ⟨rest, _⟩ | below
    · simp at rest
    · exact { first with stack := below }
  | signal stack top => exact .inr ⟨misplaced_top top, first_signal whole sound first top⟩
  | reset acts stack top => exact .inl (first_reset sound first inside top)
  | ready acts stack top => exact .inl (ready_dooms sound (.inl (done ▸ first.done)) top)
  | done acts stack top =>
    refine .inr ⟨?_, .inl (first_done whole sound first top)⟩
    rw [misplaced_top top]
    have old : m.object.done < a.object.graph.next := done ▸ whole.done.1
    exact decide_eq_false (Nat.not_le_of_lt old)

theorem second_reset {acts : List Act} {stack : List Frame} (sound : Sound m) (second : Second a m)
    (inside : a.object.graph.next ≤ m.object.graph.next)
    (top : m.stack = .body (.reset :: acts) :: stack) :
    misplaced a m .tick = false ∧ Second a (resetOn { m with stack := .body acts :: stack }) := by
  have base : Sound { m with stack := .body acts :: stack } :=
    pop_sound [.body acts] sound top rfl (by simp)
  have absent : Frame.rest false ∉ (.body acts :: stack : List Frame) := by
    intro member
    apply second.stack
    rw [top]
    exact List.mem_cons_of_mem _ ((List.mem_cons.mp member).resolve_left (by simp))
  have late : misplaced a m .tick = false := by
    rw [misplaced_top top]
    have tail : Frame.rest false ∉ stack := fun member => absent (List.mem_cons_of_mem _ member)
    simp [forbidden, tail]
  refine ⟨late, ?_⟩
  have made := replaced_sources base
  have grown := resetOn_grown base
  have which := resetOn_reset base
  generalize resetOn _ = u at which grown
  have waiting : Waiting a { m with stack := .body acts :: stack } := { second.toWaiting with }
  cases which with
  | both done_ ready_ =>
    refine ⟨waiting_grown waiting grown second.asserted fun c begun => ?_, absent,
      grown.settled _ second.ready, .inr ⟨inside, Nat.le_succ_of_le inside⟩⟩
    by_cases old : c < m.object.graph.next
    · have before := (made.2.1.made c old).symm.trans begun.2.2
      exact (made.2.1.sources c old before).trans (second.cycles c ⟨begun.1, old, before⟩)
    · have two : c = m.object.graph.next ∨ c = m.object.graph.next + 1 := by
        have below : c < m.object.graph.next + 1 + 1 := begun.2.1
        omega
      rcases two with rfl | rfl
      · exact made.2.2.1.2
      · exact made.2.2.2.2
  | failed done_ ready_ =>
    rcases second.cycle with ⟨same, _⟩ | ⟨_, new⟩
    · exact absurd (same ▸ ready_) second.ready
    · exact absurd (second.cycles _ ⟨new, sound.done⟩) done_
  | ready done_ ready_ =>
    rcases second.cycle with ⟨_, same⟩ | ⟨new, _⟩
    · exact absurd (same ▸ done_) second.done
    · exact absurd (second.cycles _ ⟨new, sound.ready⟩) ready_
  | nothing done_ ready_ =>
    exact ⟨waiting, absent, second.ready, second.cycle⟩

theorem second_done {acts : List Act} {stack : List Frame} (whole : Sound a) (sound : Sound m)
    (second : Second a m) (top : m.stack = .body (.done :: acts) :: stack) :
    (misplaced a m .tick = true ∧ Doomed a (doneOn { m with stack := .body acts :: stack })) ∨
      (misplaced a m .tick = false ∧
        Second a (doneOn { m with stack := .body acts :: stack })) := by
  have base : Sound { m with stack := .body acts :: stack } :=
    pop_sound [.body acts] sound top rfl (by simp)
  have settled := doneOn_settled base
  have grown := settled_grown settled
  rw [misplaced_top top]
  rcases second.cycle with ⟨ready, done⟩ | ⟨_, new⟩
  · right
    have old : m.object.done < a.object.graph.next := done ▸ whole.done.1
    refine ⟨decide_eq_false (Nat.not_le_of_lt old), waiting_grown
      (m := { m with stack := _ :: .body acts :: stack }) { second.toWaiting with } grown
      (settled.asserted.trans second.asserted) (settled_cycles settled old second.cycles), ?_,
      grown.settled _ second.ready, .inl ⟨settled.ready.trans ready, settled.current.trans done⟩⟩
    have was : (m.outcome m.object.ready).isSome = true :=
      Option.isSome_iff_ne_none.mpr (ready ▸ second.ready)
    have absent := second.stack
    rw [top] at absent
    have tail : Frame.rest false ∉ stack := fun member => absent (List.mem_cons_of_mem _ member)
    have there : Machine.outcome { m with stack := .body acts :: stack } m.object.ready =
      m.outcome m.object.ready := rfl
    rcases settled.stack with same | ⟨todo, same⟩ <;> rw [same] <;> simp [there, was, tail]
  · exact .inl ⟨decide_eq_true new,
      .signalled m.object.done ⟨new, grown.sources _ base.done⟩ settled.done⟩

theorem second_step (whole : Sound a) (sound : Sound m)
    (inside : a.object.graph.next ≤ m.object.graph.next) (second : Second a m)
    (ticked : Ticked m t) : (misplaced a m .tick = true ∧ Doomed a t) ∨
      (misplaced a m .tick = false ∧ Second a t) := by
  have grown := ticked_grown sound ticked
  have absent := second.stack
  cases ticked with
  | inner _ grows moved =>
    obtain ⟨f, stack, new, top, quiet, next, plain⟩ := moved
    refine .inr ⟨(misplaced_top top).trans (calls_allowed quiet.2),
      waiting_grown second.toWaiting grown (grows.asserted.trans second.asserted)
        (grows_cycles grows second.cycles), ?_, grown.settled _ second.ready, ?_⟩
    · rw [next]
      intro member
      rcases List.mem_append.mp member with made | old
      · exact absurd (plain _ made) (by simp [Frame.isRest])
      · exact absent (by rw [top]; exact List.mem_cons_of_mem _ old)
    · rw [grows.ready, grows.done]
      exact second.cycle
  | signalled stack top =>
    rw [top] at absent
    exact .inr ⟨misplaced_top top,
      { second with stack := fun member => absent (List.mem_cons_of_mem _ member) }⟩
  | signal stack top =>
    rw [top] at absent
    exact absurd List.mem_cons_self absent
  | reset acts stack top => exact .inr (second_reset sound second inside top)
  | ready acts stack top =>
    refine .inl (ready_dooms sound ?_ top)
    rcases second.cycle with ⟨_, same⟩ | ⟨new, _⟩
    · exact .inl (same ▸ second.done)
    · exact .inr new
  | done acts stack top => exact second_done whole sound second top

theorem doomed_step (sound : Sound m) (inside : a.object.graph.next ≤ m.object.graph.next)
    (doomed : Doomed a m) (ticked : Ticked m t) : Doomed a t := by
  have grown := ticked_grown sound ticked
  cases doomed with
  | failed asserted => exact .failed (grown.failed asserted)
  | signalled c begun done =>
    exact .signalled c (begun_grown grown begun) (grown.settled c done)
  | owed rest begun =>
    have later : ∀ {f : Frame} {stack : List Frame}, m.stack = f :: stack → f ≠ .rest false →
        .rest false ∈ stack := by
      intro f stack top other
      rw [top] at rest
      exact (List.mem_cons.mp rest).resolve_left (Ne.symm other)
    cases ticked with
    | inner _ grows moved =>
      obtain ⟨f, stack, new, top, quiet, next, plain⟩ := moved
      have below := later top fun same => by simp [same, Frame.isRest] at quiet
      refine .owed (by rw [next]; exact List.mem_append_right _ below) ?_
      rw [grows.ready]
      exact begun_grown grown begun
    | signalled stack top => exact .owed (later top (by simp)) begun
    | signal stack top =>
      have base : Sound { m with stack := stack } := pop_sound [] sound top rfl (by simp)
      exact .signalled m.object.ready (begun_grown grown begun)
        (signal_settled base base.ready).done
    | reset acts stack top =>
      have base : Sound { m with stack := .body acts :: stack } :=
        pop_sound [.body acts] sound top rfl (by simp)
      have below := List.mem_cons_of_mem (.body acts) (later top (by simp))
      have made := replaced_sources base
      have which := resetOn_reset base
      generalize resetOn _ = u at which grown
      cases which with
      | both done_ ready_ => exact .owed below ⟨inside, made.2.2.1.1⟩
      | failed done_ ready_ => exact .failed rfl
      | ready done_ ready_ =>
        obtain ⟨_, _, fresh, _⟩ := fresh_source base.graph
        exact .owed below ⟨inside, fresh⟩
      | nothing done_ ready_ => exact .owed below begun
    | ready acts stack top =>
      have base : Sound { m with stack := .body acts :: stack } :=
        pop_sound [.body acts] sound top rfl (by simp)
      exact .signalled m.object.ready (begun_grown grown begun) (readyOn_settled base).done
    | done acts stack top =>
      have base : Sound { m with stack := .body acts :: stack } :=
        pop_sound [.body acts] sound top rfl (by simp)
      have settled := doneOn_settled base
      have below := later top (by simp)
      refine .owed ?_ (settled.ready ▸ begun_grown grown begun)
      rcases settled.stack with same | ⟨todo, same⟩ <;> rw [same] <;> simp [below]

theorem tick_next (program : Nat → List Act) (sound : Sound m)
    (taken : step program m .tick = some t) : Sound t ∧ Ticked m t := by
  have busy : m.stack ≠ [] := fun idle => by simp [step, tick, idle] at taken
  obtain ⟨v, there, kept, ticked⟩ := tick_ticked program sound busy
  rw [step, there, Option.some.injEq] at taken
  exact taken ▸ ⟨kept, ticked⟩

theorem doomed_run {n : Nat} (sound : Sound m)
    (inside : a.object.graph.next ≤ m.object.graph.next) (doomed : Doomed a m)
    (taken : run (step program) m (List.replicate n .tick) = some t) : Doomed a t := by
  induction n generalizing m with
  | zero =>
    simp only [List.replicate_zero, run, Option.some.injEq] at taken
    exact taken ▸ doomed
  | succ n ih =>
    obtain ⟨u, first, rest⟩ := Option.bind_eq_some_iff.mp taken
    obtain ⟨kept, ticked⟩ := tick_next program sound first
    have later := Nat.le_trans inside (ticked_grown sound ticked).next
    exact ih kept later (doomed_step sound inside doomed ticked) rest

theorem phases_run {n : Nat} (whole : Sound a) (sound : Sound m)
    (inside : a.object.graph.next ≤ m.object.graph.next) (phase : First a m ∨ Second a m)
    (taken : run (step program) m (List.replicate n .tick) = some t) :
    (Meets (step program) (fun m l => misplaced a m l = false) m (List.replicate n .tick) ∧
      Sound t ∧ (First a t ∨ Second a t)) ∨
    (¬Meets (step program) (fun m l => misplaced a m l = false) m (List.replicate n .tick) ∧
      Doomed a t) := by
  induction n generalizing m with
  | zero =>
    simp only [List.replicate_zero, run, Option.some.injEq] at taken
    subst taken
    exact .inl ⟨trivial, sound, phase⟩
  | succ n ih =>
    obtain ⟨u, first, rest⟩ := Option.bind_eq_some_iff.mp taken
    obtain ⟨kept, ticked⟩ := tick_next program sound first
    have later := Nat.le_trans inside (ticked_grown sound ticked).next
    have next : (misplaced a m .tick = true ∧ Doomed a u) ∨
        (misplaced a m .tick = false ∧ (First a u ∨ Second a u)) := by
      rcases phase with before | after
      · exact first_step whole sound inside before ticked
      · exact (second_step whole sound inside after ticked).imp_right (And.imp_right .inr)
    rcases next with ⟨wrong, doomed⟩ | ⟨right, phase⟩
    · refine .inr ⟨fun meets => ?_, doomed_run kept later doomed rest⟩
      exact Bool.noConfusion (wrong.symm.trans (meets u first).1)
    · rcases ih kept later phase rest with ⟨meets, final⟩ | ⟨breaks, doomed⟩
      · exact .inl ⟨meets_cons first right meets, final⟩
      · exact .inr ⟨fun meets => breaks (meets u first).2, doomed⟩

theorem enters (sound : Sound a) (holds : a.asserted = true) (idle : a.stack = [])
    (pending : a.outcome a.object.ready = none) :
    ∃ m, step program a (.call .done) = some m ∧ Sound m ∧
      a.object.graph.next ≤ m.object.graph.next ∧ First a m := by
  have settled := doneOn_settled sound
  have grown := settled_grown settled
  refine ⟨doneOn a, by simp only [step, idle, if_true, outer], doneOn_sound sound, grown.next,
    ⟨?_, fun w member => ?_, settled.done, settled.asserted.trans holds, ?_⟩, ?_,
    settled.ready, settled.current⟩
  · exact fun w member => grown.waiters w member
  · obtain ⟨first, second⟩ := sound.past holds w member
    exact ⟨first.imp_right (grown.settled _), second.imp_right (grown.settled _)⟩
  · intro c begun
    have inside := begun.2.1
    rw [settled.kept.next] at inside
    exact absurd inside (Nat.not_lt_of_le begun.1)
  · have was : (a.outcome a.object.ready).isSome = false := by rw [pending]; rfl
    apply settled_stack [] settled
    rw [was, idle]
    rfl

theorem second_survives (sound : Sound t) (second : Second a t) (returned : t.stack = []) :
    Survived a t := by
  have final := sound.graph
  rw [returned] at final
  refine ⟨second.asserted, fun w member kind => ?_, second.cycles⟩
  have shape := sound.shapes w (second.waiters w member)
  obtain ⟨first, later⟩ := second.older w member
  have ready : t.outcome w.ready ≠ none := first.elim (fun here => here ▸ second.ready) id
  have done : t.outcome w.done ≠ none := later.elim (fun here => here ▸ second.done) id
  obtain ⟨_, own, other⟩ := status_done final shape done
  rcases kind with kind | kind | kind
  · exact (own kind).trans ((source_outcome final shape.1).resolve_left ready)
  · exact (other (.inr (by simp [kind])) (by simp [kind])).trans (by rw [kind]; rfl)
  · exact (other (.inr (by simp [kind])) (by simp [kind])).trans (by rw [kind]; rfl)

theorem doomed_lost (doomed : Doomed a t) (returned : t.stack = []) : ¬Survived a t := by
  intro survived
  cases doomed with
  | failed asserted => exact Bool.noConfusion (survived.asserted.symm.trans asserted)
  | signalled c begun done => exact done (survived.cycles c begun)
  | owed rest begun => simp [returned] at rest

/-- A call of `Done()` before `Ready()`, whatever the continuations it runs call, settles all that
    was obtained before it, fails no assertion and leaves every cycle begun inside it neither
    ready nor done, exactly if no continuation calls `Ready()`, none calls `Reset()` before
    `ready_promise_` is settled and none calls `Done()` on a cycle begun inside. -/
theorem done_survives_iff {n : Nat} (reached : Reached program a) (idle : a.stack = [])
    (holds : a.asserted = true) (pending : a.outcome a.object.ready = none)
    (taken : run (step program) a (.call .done :: List.replicate n .tick) = some t)
    (returned : t.stack = []) : Survived a t ↔
      Meets (step program) (fun m l => misplaced a m l = false) a
        (.call .done :: List.replicate n .tick) := by
  have whole := reached_sound reached
  obtain ⟨m, entered, sound, inside, first⟩ := enters whole holds idle pending
  obtain ⟨u, there, rest⟩ := Option.bind_eq_some_iff.mp taken
  rw [entered, Option.some.injEq] at there
  subst there
  rcases phases_run whole sound inside (.inl first) rest with ⟨meets, final, phase⟩ |
      ⟨breaks, doomed⟩
  · refine ⟨fun _ => meets_cons entered rfl meets, fun _ => ?_⟩
    rcases phase with before | after
    · obtain ⟨inner, same⟩ := before.stack
      simp [returned] at same
    · exact second_survives final after returned
  · constructor
    · exact fun survived => absurd survived (doomed_lost doomed returned)
    · exact fun meets => absurd (meets m entered).2 breaks

end Phases

def restarts (_ : Nat) : List Act := [.reset, .wait .wait none]

def attachedTo (n : Nat) : List Label :=
  [.call (.wait .waitReady), .call (.wait .wait), .call (.wait .waitDone),
    .call (.attach n false 0)]

theorem done_survives_ready : ∃ a t, run (step restarts) initial (attachedTo 0) = some a ∧
    run (step restarts) a (.call .done :: List.replicate 13 .tick) = some t ∧ t.stack = [] ∧
    t.object.ready ≠ a.object.ready ∧ Survived a t := by
  refine ⟨_, _, rfl, rfl, rfl, by decide, ?_⟩
  have reached : Reached restarts _ := run_reachable (.start rfl)
    (show run (step restarts) initial (attachedTo 0) = some _ from rfl)
  apply (done_survives_iff (n := 13) reached rfl rfl rfl rfl rfl).mpr
  iterate 14 refine meets_cons rfl rfl ?_
  trivial

/-- On a promise of `WaitDone()`: `ready_promise_` is pending when `Reset()` looks at it. With
    the assertion compiled out, the old one is lost and the new one settled in its place. -/
theorem done_reset_early : ∃ a t, run (step restarts) initial (attachedTo 2) = some a ∧
    run (step restarts) a (.call .done :: List.replicate 19 .tick) = some t ∧ t.stack = [] ∧
    t.asserted = false ∧ a.object.waiters.map (fun w => t.outcome w.promise) =
      [none, some (.value ()), some (.value ())] ∧
    t.object.ready ≠ a.object.ready ∧ t.outcome t.object.ready = some (.value ()) ∧
    ¬Survived a t := by
  refine ⟨_, _, rfl, rfl, rfl, rfl, rfl, by decide, rfl, fun survived => ?_⟩
  exact Bool.noConfusion survived.asserted

end ReentrantDone
