import JSProCpp.DerivedPromises
import JSProCpp.Transitions

/-
`StatePromise`. `Ready`, `Done` and `Reset` work on two promises, and every waiter is one of
them or is derived from both. `Spec` says what the class is for: a phase, and the outcome of
every promise handed out; the calls refine it.
-/
namespace StatePromise
open Transitions PromiseCells DerivedPromises

inductive Kind where
  | waitReady
  | waitDone
  | wait
  | waitDoneWithReject
  | waitWithReject
  deriving DecidableEq

structure Waiter where
  kind : Kind
  promise : Nat
  ready : Nat
  done : Nat

structure State where
  graph : Graph
  -- `ready_promise_` and `done_promise_` with their `Resolve` handles.
  ready : Nat
  done : Nat
  waiters : List Waiter

inductive Call where
  | ready
  | done
  | reset
  | wait (k : Kind)
  | attach (n : Nat) (coroutine : Bool) (k : Nat)
  deriving DecidableEq

def empty : Graph := ⟨fun _ => ⟨none, [], 0⟩, 0, fun _ => .source, []⟩

def initial : State := ⟨(empty.create .source).create .source, 0, 1, []⟩

/-- `StatePromise::Ready` with its assertions. -/
def ready (s : State) : Option State :=
  if s.graph.outcome s.ready = none ∧ s.graph.outcome s.done = none then
    (s.graph.settled s.ready (.value ())).map fun g => { s with graph := g }
  else none

/-- `StatePromise::Done`: `done_promise_` before `ready_promise_`. -/
def done (s : State) : Option State :=
  let readyWasDone := (s.graph.outcome s.ready).isSome
  (s.graph.settled s.done (.value ())).bind fun g =>
    (if readyWasDone then some g else g.settled s.ready (.value ())).map fun h =>
      { s with graph := h }

def resolved (g : Graph) (c : Nat) : Bool := g.outcome c == some (.value ())

def isDone (s : State) : Bool := resolved s.graph s.done && resolved s.graph s.ready

/-- `StatePromise::Reset` with its assertion. -/
def reset (s : State) : Option State :=
  if resolved s.graph s.done then
    if resolved s.graph s.ready then
      some { s with
        graph := (s.graph.create .source).create .source
        ready := s.graph.next
        done := s.graph.next + 1 }
    else none
  else if resolved s.graph s.ready then
    some { s with graph := s.graph.create .source, ready := s.graph.next }
  else some s

def obtained (s : State) : Kind → Option (Graph × Nat)
  | .waitReady => some (s.graph, s.ready)
  | .waitDone => some (s.graph, s.done)
  | .wait => race s.graph s.done s.ready
  | .waitDoneWithReject => thenEnd s.graph s.done
  | .waitWithReject => (thenEnd s.graph s.done).bind fun x => race x.1 x.2 s.ready

def wait (s : State) (k : Kind) : Option State :=
  (obtained s k).map fun x =>
    { s with graph := x.1, waiters := s.waiters ++ [⟨k, x.2, s.ready, s.done⟩] }

def attached (g : Graph) (c : Nat) (coroutine : Bool) (k : Nat) : Graph :=
  match g.outcome c with
  | some _ => { g with ran := g.ran ++ [k] }
  | none => g.register c (.user coroutine k)

def step (s : State) : Call → Option State
  | .ready => ready s
  | .done => done s
  | .reset => reset s
  | .wait k => wait s k
  | .attach n coroutine k =>
      (s.waiters[n]?).map fun w => { s with graph := attached s.graph w.promise coroutine k }

/-- `~StatePromise`: `ready_promise_` before `done_promise_`. -/
def destroy (s : State) : Option State :=
  (s.graph.settled s.ready (.value ())).bind fun g =>
    (g.settled s.done (.value ())).map fun h => { s with graph := h }

abbrev Reached (s : State) : Prop := Reachable step (· = initial) s

/- What the class is for. -/
inductive Phase where
  | idle
  | ready
  | done
  deriving DecidableEq

inductive Signal where
  | ready
  | done
  deriving DecidableEq

structure Spec where
  phase : Phase
  waiters : List (Kind × Option Result)

def released : Signal → Kind → Option Result
  | .ready, .waitReady | .ready, .wait | .ready, .waitWithReject => some (.value ())
  | .ready, .waitDone | .ready, .waitDoneWithReject => none
  | .done, .waitReady | .done, .waitDone | .done, .wait => some (.value ())
  | .done, .waitDoneWithReject | .done, .waitWithReject => some (.exception .end_)

def answered : Phase → Kind → Option Result
  | .idle, _ => none
  | .ready, k => released .ready k
  | .done, k => released .done k

def release (i : Signal) (w : Kind × Option Result) : Kind × Option Result :=
  (w.1, w.2.or (released i w.1))

def Spec.step (a : Spec) : Call → Option Spec
  | .ready => if a.phase = .idle then some ⟨.ready, a.waiters.map (release .ready)⟩ else none
  | .done => some ⟨.done, a.waiters.map (release .done)⟩
  | .reset => some { a with phase := .idle }
  | .wait k => some { a with waiters := a.waiters ++ [(k, answered a.phase k)] }
  | .attach n _ _ => if n < a.waiters.length then some a else none

/-- The destructor gives both signals, `Ready` first. -/
def Spec.destroy (a : Spec) : Spec :=
  ⟨.done, a.waiters.map fun w =>
    release .done (if a.phase = .idle then release .ready w else w)⟩

def phase (s : State) : Phase :=
  if (s.graph.outcome s.done).isSome then .done
  else if (s.graph.outcome s.ready).isSome then .ready
  else .idle

def status (g : Graph) (w : Waiter) : Kind × Option Result := (w.kind, g.outcome w.promise)

def abstract_ (s : State) : Spec := ⟨phase s, s.waiters.map (status s.graph)⟩

/-- The promise `c` is one of those made by `Create()`. -/
def Source (g : Graph) (c : Nat) : Prop := c < g.next ∧ g.made c = .source

/-- How a promise handed out is derived from the two it was obtained from. -/
def Shape (g : Graph) (w : Waiter) : Prop :=
  Source g w.ready ∧ Source g w.done ∧ w.promise < g.next ∧
    match w.kind with
    | .waitReady => w.promise = w.ready
    | .waitDone => w.promise = w.done
    | .waitDoneWithReject => g.made w.promise = .ended w.done
    | .wait => ∃ r < g.next, g.made r = .race w.done w.ready ∧ Wraps g r w.promise
    | .waitWithReject => ∃ d < g.next, ∃ r < g.next, g.made d = .ended w.done ∧
        g.made r = .race d w.ready ∧ Wraps g r w.promise

/-- The two promises are sources, and what is handed out derives from such. -/
structure Wired (s : State) (todo : List (Nat × Callback)) : Prop where
  graph : Consistent s.graph todo
  ready : Source s.graph s.ready
  done : Source s.graph s.done
  apart : s.ready ≠ s.done
  shapes : ∀ w ∈ s.waiters, Shape s.graph w

structure Sound (s : State) : Prop extends Wired s [] where
  order : s.graph.outcome s.done ≠ none → s.graph.outcome s.ready ≠ none
  past : ∀ c, Source s.graph c → c ≠ s.ready → c ≠ s.done → s.graph.outcome c ≠ none
  roles : ∀ w ∈ s.waiters, w.ready ≠ s.done ∧ w.done ≠ s.ready

section Status
variable {g t : Graph} {todo : List (Nat × Callback)} {w : Waiter} {c : Nat}

theorem source_outcome (inv : Consistent g todo) (source : Source g c) :
    g.outcome c = none ∨ g.outcome c = some (.value ()) := by
  cases done : g.outcome c with
  | none => exact .inl rfl
  | some o =>
    have right := inv.right c source.1 o done
    rw [source.2] at right
    exact .inr (congrArg some right)

theorem source_extends (source : Source g c) (grows : Extends g t) : Source t c :=
  ⟨Nat.lt_of_lt_of_le source.1 grows.next, (grows.made c source.1).trans source.2⟩

theorem shape_extends (shape : Shape g w) (grows : Extends g t) : Shape t w := by
  obtain ⟨ready, done, inside, shape⟩ := shape
  refine ⟨source_extends ready grows, source_extends done grows,
    Nat.lt_of_lt_of_le inside grows.next, ?_⟩
  have later : ∀ {c}, c < g.next → c < t.next := fun below => Nat.lt_of_lt_of_le below grows.next
  cases kind : w.kind <;> simp only [kind] at shape ⊢
  case waitReady | waitDone => exact shape
  case waitDoneWithReject => exact (grows.made _ inside).trans shape
  case wait =>
    obtain ⟨r, below, made, wraps⟩ := shape
    exact ⟨r, later below, (grows.made r below).trans made, wraps_extends wraps inside grows⟩
  case waitWithReject =>
    obtain ⟨d, lowD, r, lowR, madeD, madeR, wraps⟩ := shape
    exact ⟨d, later lowD, r, later lowR, (grows.made d lowD).trans madeD,
      (grows.made r lowR).trans madeR, wraps_extends wraps inside grows⟩

theorem wraps_rest {r p : Nat} (inv : Consistent g []) (inside : p < g.next)
    (wraps : Wraps g r p) : g.outcome p = g.outcome r := by
  rcases wraps with rfl | ⟨s, q, k, made⟩
  · rfl
  · exact rest_wrapped inv p s r q k inside made

theorem status_pending (inv : Consistent g []) (shape : Shape g w)
    (pending : g.outcome w.done = none) :
    g.outcome w.promise = if g.outcome w.ready = none then none else released .ready w.kind := by
  obtain ⟨ready, _, inside, shape⟩ := shape
  have settled := source_outcome inv ready
  cases kind : w.kind <;> simp only [kind] at shape
  case waitReady =>
    rw [shape]
    rcases settled with none_ | value
    · simp [none_]
    · simp [value, released]
  case waitDone => simp [shape, pending, released]
  case waitDoneWithReject =>
    rw [rest_ended inv inside shape, pending]
    simp [released]
  case wait =>
    obtain ⟨r, below, made, wraps⟩ := shape
    obtain ⟨both, either⟩ := rest_race inv below made
    rw [wraps_rest inv inside wraps]
    rcases settled with none_ | value
    · rw [if_pos none_]
      exact both.mpr ⟨pending, none_⟩
    · rw [if_neg (by simp [value])]
      cases past : g.outcome r with
      | none => simp [both.mp past] at value
      | some o => rcases either o past with there | there <;> simp_all [released]
  case waitWithReject =>
    obtain ⟨d, lowD, r, below, madeD, madeR, wraps⟩ := shape
    obtain ⟨both, either⟩ := rest_race inv below madeR
    have waits : g.outcome d = none := by rw [rest_ended inv lowD madeD, pending, Option.map_none]
    rw [wraps_rest inv inside wraps]
    rcases settled with none_ | value
    · rw [if_pos none_]
      exact both.mpr ⟨waits, none_⟩
    · rw [if_neg (by simp [value])]
      cases past : g.outcome r with
      | none => simp [both.mp past] at value
      | some o => rcases either o past with there | there <;> simp_all [released]

/-- What a waiter has when its `done_promise_` is settled. With `ready_promise_` settled as well,
    only `WaitWithReject` is left to what came first. -/
theorem status_done (inv : Consistent g []) (shape : Shape g w)
    (settled : g.outcome w.done ≠ none) :
    (g.outcome w.promise = none → w.kind = .waitReady) ∧
      (w.kind = .waitReady → g.outcome w.promise = g.outcome w.ready) ∧
      (g.outcome w.ready = none ∨ w.kind ≠ .waitWithReject → w.kind ≠ .waitReady →
        g.outcome w.promise = released .done w.kind) := by
  obtain ⟨ready, done, inside, shape⟩ := shape
  have value := (source_outcome inv done).resolve_left settled
  cases kind : w.kind <;> simp only [kind] at shape
  case waitReady => simp [shape]
  case waitDone => simp [shape, value, released]
  case waitDoneWithReject =>
    rw [rest_ended inv inside shape, value]
    simp [released, thrown]
  case wait =>
    obtain ⟨r, below, made, wraps⟩ := shape
    obtain ⟨both, either⟩ := rest_race inv below made
    rw [wraps_rest inv inside wraps]
    cases past : g.outcome r with
    | none => simp [both.mp past] at value
    | some o =>
      have readied := source_outcome inv ready
      rcases either o past with there | there <;> simp_all [released]
  case waitWithReject =>
    obtain ⟨d, lowD, r, below, madeD, madeR, wraps⟩ := shape
    obtain ⟨both, either⟩ := rest_race inv below madeR
    have ended : g.outcome d = some (.exception .end_) := by
      rw [rest_ended inv lowD madeD, value]
      rfl
    rw [wraps_rest inv inside wraps]
    cases past : g.outcome r with
    | none => simp [both.mp past] at ended
    | some o => rcases either o past with there | there <;> simp_all [released]

theorem source_settles (inv : Consistent g []) (source : Source g c) :
    ∃ t, g.settled c (.value ()) = some t ∧ Settles g t [] c (.value ()) ∧
      t.outcome c = some (.value ()) := by
  obtain ⟨t, taken, settled⟩ := settled_settles inv source.1 (o := .value ())
    (by rw [source.2]; exact rfl)
  refine ⟨t, taken, settled, ?_⟩
  rcases source_outcome inv source with pending | value
  · exact settled.stores pending
  · exact settled.kept.outcome c _ value

theorem shape_kept {except : Nat → Prop} (shape : Shape g w) (kept : Kept g t except) :
    Shape t w := by
  simpa only [Shape, Source, Wraps, kept.next, kept.made] using shape

theorem wired_kept {s : State} {except : Nat → Prop} {todo todo' : List (Nat × Callback)}
    (wired : Wired s todo) (graph : Consistent t todo') (kept : Kept s.graph t except) :
    Wired { s with graph := t } todo' where
  graph := graph
  ready := by simpa only [Source, kept.next, kept.made] using wired.ready
  done := by simpa only [Source, kept.next, kept.made] using wired.done
  apart := wired.apart
  shapes := fun w member => shape_kept (wired.shapes w member) kept

theorem wired_extends {s : State} {todo todo' : List (Nat × Callback)} {ws : List Waiter}
    (wired : Wired s todo) (graph : Consistent t todo') (grows : Extends s.graph t)
    (new : ∀ w ∈ ws, Shape t w) :
    Wired { s with graph := t, waiters := s.waiters ++ ws } todo' where
  graph := graph
  ready := source_extends wired.ready grows
  done := source_extends wired.done grows
  apart := wired.apart
  shapes := by
    intro w member
    rcases List.mem_append.mp member with there | made
    · exact shape_extends (wired.shapes w there) grows
    · exact new w made

end Status

section Refinement
variable {s : State} {g t u : Graph} {todo : List (Nat × Callback)} {w : Waiter}

theorem current_ready (sound : Sound s) (member : w ∈ s.waiters)
    (pending : s.graph.outcome w.ready = none) : w.ready = s.ready := by
  by_contra other
  exact sound.past w.ready (sound.shapes w member).1 other (sound.roles w member).1 pending

theorem current_done (sound : Sound s) (member : w ∈ s.waiters)
    (pending : s.graph.outcome w.done = none) : w.done = s.done := by
  by_contra other
  exact sound.past w.done (sound.shapes w member).2.1 (sound.roles w member).2 other pending

theorem readied (sound : Sound s) (member : w ∈ s.waiters)
    (grows : ∀ d o, s.graph.outcome d = some o → t.outcome d = some o)
    (value : t.outcome s.ready = some (.value ())) : t.outcome w.ready ≠ none := by
  cases before : s.graph.outcome w.ready with
  | none => simp [current_ready sound member before, value]
  | some o => simp [grows w.ready o before]

theorem release_some {i : Signal} {o : Result} (before : g.outcome w.promise = some o)
    (after : t.outcome w.promise = some o) : status t w = release i (status g w) := by
  simp [status, release, before, after]

theorem release_none {i : Signal} (before : g.outcome w.promise = none)
    (after : t.outcome w.promise = released i w.kind) :
    status t w = release i (status g w) := by
  simp [status, release, before, after]

theorem ready_releases (sound : Sound s) (member : w ∈ s.waiters)
    (settled : Settles s.graph t [] s.ready (.value ()))
    (value : t.outcome s.ready = some (.value ())) :
    status t w = release .ready (status s.graph w) := by
  have shape := sound.shapes w member
  have shape' := shape_kept shape settled.kept
  have ready := readied sound member settled.kept.outcome value
  cases before : s.graph.outcome w.promise with
  | some o => exact release_some before (settled.kept.outcome _ o before)
  | none =>
    refine release_none before ?_
    by_cases pending : s.graph.outcome w.done = none
    · have still : t.outcome w.done = none := by
        rw [settled.kept.sources w.done shape.2.1.2 (sound.roles w member).2]
        exact pending
      rw [status_pending settled.consistent shape' still, if_neg ready]
    · have kind := (status_done sound.graph shape pending).1 before
      have later : t.outcome w.done ≠ none := by
        obtain ⟨o, there⟩ := Option.ne_none_iff_exists'.mp pending
        simp [settled.kept.outcome w.done o there]
      rw [(status_done settled.consistent shape' later).2.1 kind, kind]
      exact (source_outcome settled.consistent shape'.1).resolve_left ready

theorem done_releases (sound : Sound s) (member : w ∈ s.waiters)
    (first : Settles s.graph u [] s.done (.value ()))
    (value : u.outcome s.done = some (.value ())) (kept : Kept u t (· = s.ready))
    (final : Consistent t []) (ready : t.outcome s.ready = some (.value ())) :
    status t w = release .done (status s.graph w) := by
  have shape := sound.shapes w member
  have shapeU := shape_kept shape first.kept
  have shapeT := shape_kept shapeU kept
  have grows := fun d o h => kept.outcome d o (first.kept.outcome d o h)
  cases before : s.graph.outcome w.promise with
  | some o => exact release_some before (grows _ o before)
  | none =>
    refine release_none before ?_
    have doneU : u.outcome w.done ≠ none := by
      cases there : s.graph.outcome w.done with
      | none => simp [current_done sound member there, value]
      | some o => simp [first.kept.outcome w.done o there]
    have doneT : t.outcome w.done ≠ none := by
      obtain ⟨o, there⟩ := Option.ne_none_iff_exists'.mp doneU
      simp [kept.outcome w.done o there]
    by_cases kind : w.kind = .waitReady
    · rw [(status_done final shapeT doneT).2.1 kind, kind]
      exact (source_outcome final shapeT.1).resolve_left (readied sound member grows ready)
    · have pending : s.graph.outcome w.done = none := by
        by_contra settled
        exact kind ((status_done sound.graph shape settled).1 before)
      have came : u.outcome w.ready = none ∨ w.kind ≠ .waitWithReject := by
        rw [first.kept.sources w.ready shape.1.2 (sound.roles w member).1]
        by_contra both
        obtain ⟨there, reject⟩ := not_or.mp both
        rw [not_not] at reject
        rw [status_pending sound.graph shape pending, if_neg there, reject] at before
        simp [released] at before
      have given := (status_done first.consistent shapeU doneU).2.2 came kind
      cases is : released .done w.kind with
      | none => cases k : w.kind <;> simp [k, released] at is
      | some o => exact kept.outcome _ o (given.trans is)

theorem status_same (sound : Sound s) (member : w ∈ s.waiters) (final : Consistent t [])
    (grows : Extends s.graph t) : status t w = status s.graph w := by
  have shape := sound.shapes w member
  have shape' := shape_extends shape grows
  have ready := grows.sources w.ready shape.1.1 shape.1.2
  have done := grows.sources w.done shape.2.1.1 shape.2.1.2
  unfold status
  congr 1
  cases before : s.graph.outcome w.promise with
  | some o => exact grows.outcome _ shape.2.2.1 o before
  | none =>
    by_cases pending : s.graph.outcome w.done = none
    · rw [status_pending final shape' (done.trans pending), ready,
        ← status_pending sound.graph shape pending, before]
    · have kind := (status_done sound.graph shape pending).1 before
      rw [(status_done final shape' (by rwa [done])).2.1 kind, ready,
        ← (status_done sound.graph shape pending).2.1 kind, before]

theorem obtained_derives (inv : Consistent s.graph todo) (ready : Source s.graph s.ready)
    (done : Source s.graph s.done) (k : Kind) :
    ∃ t p, obtained s k = some (t, p) ∧ Consistent t todo ∧ Derives s.graph t ∧
      Shape t ⟨k, p, s.ready, s.done⟩ ∧
      (k = .waitWithReject → ∃ r, Wraps t r p ∧ ∀ o,
        (s.graph.outcome s.done).map thrown = some o → todo = [] → t.outcome r = some o) := by
  have same : Derives s.graph s.graph := derives_of_kept (kept_refl _)
  cases k with
  | waitReady =>
    exact ⟨_, _, rfl, inv, same, ⟨ready, done, ready.1, rfl⟩, by simp⟩
  | waitDone =>
    exact ⟨_, _, rfl, inv, same, ⟨ready, done, done.1, rfl⟩, by simp⟩
  | wait =>
    obtain ⟨t, r, w, taken, final, grows, new, inside, wraps, _⟩ := race_makes inv done.1 ready.1
    exact ⟨t, w, taken, final, grows, ⟨source_extends ready grows.toExtends,
      source_extends done grows.toExtends, inside, r, new.inside, new.made, wraps⟩, by simp⟩
  | waitDoneWithReject =>
    obtain ⟨t, d, taken, final, grows, new⟩ := thenEnd_makes inv done.1
    exact ⟨t, d, taken, final, grows, ⟨source_extends ready grows.toExtends,
      source_extends done grows.toExtends, new.inside, new.made⟩, by simp⟩
  | waitWithReject =>
    obtain ⟨h, d, first, middle, grows, new⟩ := thenEnd_makes inv done.1
    obtain ⟨t, r, w, second, final, grows', new', inside, wraps, wins⟩ :=
      race_makes middle new.inside (source_extends ready grows.toExtends).1
    have all := derives_trans grows grows'
    have later := new_extends new grows'.toExtends
    refine ⟨t, w, by simp only [obtained, first, Option.bind_some, second], final, all,
      ⟨source_extends ready all.toExtends, source_extends done all.toExtends, inside, d,
        later.inside, r, new'.inside, later.made, new'.made, wraps⟩, fun _ => ?_⟩
    refine ⟨r, wraps, fun o settled rest => wins o ?_⟩
    subst rest
    obtain ⟨p, there, same⟩ := Option.map_eq_some_iff.mp settled
    rw [rest_ended middle new.inside new.made, grows.outcome _ done.1 _ there]
    exact congrArg some same

theorem obtained_makes (sound : Sound s) (k : Kind) :
    ∃ t p, obtained s k = some (t, p) ∧ Consistent t [] ∧ Derives s.graph t ∧
      Shape t ⟨k, p, s.ready, s.done⟩ ∧
      (k = .waitWithReject → s.graph.outcome s.done ≠ none →
        t.outcome p = some (.exception .end_)) := by
  obtain ⟨t, p, made, final, grows, shape, wins⟩ :=
    obtained_derives sound.graph sound.ready sound.done k
  refine ⟨t, p, made, final, grows, shape, fun kind settled => ?_⟩
  obtain ⟨r, wraps, first⟩ := wins kind
  have value := (source_outcome sound.graph sound.done).resolve_left settled
  rw [wraps_rest final shape.2.2.1 wraps]
  exact first _ (by rw [value]; rfl) rfl

theorem obtained_answered {k : Kind} {p : Nat} (sound : Sound s) (final : Consistent t [])
    (grows : Extends s.graph t) (shape : Shape t ⟨k, p, s.ready, s.done⟩)
    (rejects : k = .waitWithReject → s.graph.outcome s.done ≠ none →
      t.outcome p = some (.exception .end_)) : t.outcome p = answered (phase s) k := by
  have ready : t.outcome s.ready = s.graph.outcome s.ready :=
    grows.sources s.ready sound.ready.1 sound.ready.2
  have done : t.outcome s.done = s.graph.outcome s.done :=
    grows.sources s.done sound.done.1 sound.done.2
  by_cases pending : s.graph.outcome s.done = none
  · have given := status_pending final shape (done.trans pending)
    simp only [ready] at given
    rw [given]
    cases there : s.graph.outcome s.ready <;> simp [phase, pending, there, answered]
  · have settled : (s.graph.outcome s.done).isSome = true :=
      Option.isSome_iff_ne_none.mpr pending
    have given := status_done final shape (by simpa only [done] using pending)
    simp only [ready] at given
    rw [phase, if_pos settled, answered]
    by_cases reject : k = .waitWithReject
    · rw [rejects reject pending, reject]
      rfl
    · by_cases readyKind : k = .waitReady
      · rw [given.2.1 readyKind, readyKind]
        exact (source_outcome sound.graph sound.ready).resolve_left (sound.order pending)
      · exact given.2.2 (.inr reject) readyKind

theorem derives_sound {ws : List Waiter} (sound : Sound s) (final : Consistent t [])
    (grows : Derives s.graph t)
    (new : ∀ w ∈ ws, Shape t w ∧ w.ready = s.ready ∧ w.done = s.done) :
    Sound { s with graph := t, waiters := s.waiters ++ ws } where
  toWired := wired_extends sound.toWired final grows.toExtends fun w made => (new w made).1
  order := by
    rw [grows.sources s.done sound.done.1 sound.done.2,
      grows.sources s.ready sound.ready.1 sound.ready.2]
    exact sound.order
  past := by
    intro c source other other'
    have below := grows.derived c source.1 source.2
    have made : s.graph.made c = .source := (grows.made c below).symm.trans source.2
    rw [grows.sources c below made]
    exact sound.past c ⟨below, made⟩ other other'
  roles := by
    intro w member
    rcases List.mem_append.mp member with there | made
    · exact sound.roles w there
    · obtain ⟨_, ready, done⟩ := new w made
      rw [ready, done]
      exact ⟨sound.apart, Ne.symm sound.apart⟩

/-- A signal that has been given: `ready_promise_` is settled if `done_promise_` is. -/
theorem kept_sound {except : Nat → Prop} (sound : Sound s) (final : Consistent t [])
    (kept : Kept s.graph t except) (order : t.outcome s.done ≠ none → t.outcome s.ready ≠ none) :
    Sound { s with graph := t } where
  toWired := wired_kept sound.toWired final kept
  order := order
  past := by
    intro c source other other'
    simp only [Source, kept.next, kept.made] at source
    obtain ⟨o, there⟩ := Option.ne_none_iff_exists'.mp (sound.past c source other other')
    simp [kept.outcome c o there]
  roles := sound.roles

theorem attached_derives (c : Nat) (coroutine : Bool) (k : Nat) (inv : Consistent g todo) :
    Consistent (attached g c coroutine k) todo ∧ Derives g (attached g c coroutine k) := by
  unfold attached
  cases past : g.outcome c with
  | some o => exact ⟨{ inv with }, derives_of_kept ⟨rfl, rfl, fun _ _ => id, fun _ _ _ => rfl⟩⟩
  | none =>
    refine ⟨register_consistent ?_ past, derives_of_kept (register_kept _)⟩
    exact { inv with
      owed := by
        intro x member
        rcases List.mem_cons.mp member with rfl | old
        · exact fun d target => absurd target (by simp [Callback.target])
        · exact inv.owed x old
      pending := fun c inside unsettled x member =>
        (inv.pending c inside unsettled x member).imp id (List.mem_cons_of_mem _) }

theorem fresh_source (inv : Consistent g todo) :
    Consistent (g.create .source) todo ∧ Extends g (g.create .source) ∧
      Source (g.create .source) g.next ∧ (g.create .source).outcome g.next = none := by
  refine ⟨create_consistent inv (by simp [inputs]) (by simp), create_extends,
    ⟨Nat.lt_succ_self _, ?_⟩, ?_⟩
  · rw [create_made, if_pos rfl]
  · rw [create_outcome, if_pos rfl]

theorem resolved_source {c : Nat} (inv : Consistent g todo) (source : Source g c) :
    resolved g c = (g.outcome c).isSome := by
  rcases source_outcome inv source with pending | value
  · simp [resolved, pending]
  · simp [resolved, value]

theorem phase_idle (s : State) : phase s = .idle ↔
    s.graph.outcome s.ready = none ∧ s.graph.outcome s.done = none := by
  unfold phase
  cases s.graph.outcome s.done <;> cases s.graph.outcome s.ready <;> simp

theorem ready_refines (sound : Sound s) : (ready s).map abstract_ = (abstract_ s).step .ready ∧
    ∀ t, ready s = some t → Sound t := by
  by_cases idle : s.graph.outcome s.ready = none ∧ s.graph.outcome s.done = none
  · obtain ⟨t, taken, settled, value⟩ := source_settles sound.graph sound.ready
    have result : ready s = some { s with graph := t } := by simp [ready, idle, taken]
    have pending : t.outcome s.done = none := by
      rw [settled.kept.sources s.done sound.done.2 (Ne.symm sound.apart)]
      exact idle.2
    have statuses : s.waiters.map (status t) =
        (s.waiters.map (status s.graph)).map (release .ready) := by
      rw [List.map_map]
      exact List.map_congr_left fun w member => ready_releases sound member settled value
    refine ⟨?_, fun u same => ?_⟩
    · have begins : phase s = .idle := (phase_idle s).mpr idle
      rw [result, Option.map_some, Spec.step, if_pos (show (abstract_ s).phase = .idle from begins)]
      simp [abstract_, statuses, phase, pending, value]
    · rw [result, Option.some.injEq] at same
      exact same ▸ kept_sound sound settled.consistent settled.kept fun past => absurd pending past
  · have begins : phase s ≠ .idle := fun is => idle ((phase_idle s).mp is)
    simp [ready, idle, abstract_, Spec.step, begins]

theorem done_refines (sound : Sound s) : (done s).map abstract_ = (abstract_ s).step .done ∧
    ∀ t, done s = some t → Sound t := by
  obtain ⟨u, first, settled, value⟩ := source_settles sound.graph sound.done
  have middle : Source u s.ready := by
    simpa only [Source, settled.kept.next, settled.kept.made] using sound.ready
  have same : u.outcome s.ready = s.graph.outcome s.ready :=
    settled.kept.sources s.ready sound.ready.2 sound.apart
  have finish : ∀ t : Graph, done s = some { s with graph := t } → Consistent t [] →
      Kept u t (· = s.ready) → t.outcome s.ready = some (.value ()) →
      (done s).map abstract_ = (abstract_ s).step .done ∧ ∀ t, done s = some t → Sound t := by
    intro t result final kept ready
    have past : t.outcome s.done = some (.value ()) := kept.outcome _ _ value
    have statuses : s.waiters.map (status t) =
        (s.waiters.map (status s.graph)).map (release .done) := by
      rw [List.map_map]
      exact List.map_congr_left fun w member =>
        done_releases sound member settled value kept final ready
    refine ⟨by simp [result, abstract_, Spec.step, statuses, phase, past], fun v is => ?_⟩
    rw [result, Option.some.injEq] at is
    have all : Kept s.graph t fun c => c = s.done ∨ c = s.ready := by
      refine kept_trans { settled.kept with sources := fun c source other => ?_ }
        { kept with sources := fun c source other => ?_ }
      · exact settled.kept.sources c source fun here => other (.inl here)
      · exact kept.sources c source fun here => other (.inr here)
    exact is ▸ kept_sound sound final all fun _ => by simp [ready]
  cases was : s.graph.outcome s.ready with
  | some o =>
    have ready := (source_outcome sound.graph sound.ready).resolve_left (by simp [was])
    exact finish u (by simp [done, was, first]) settled.consistent (kept_refl _) (same.trans ready)
  | none =>
    obtain ⟨t, second, settled', value'⟩ := source_settles settled.consistent middle
    exact finish t (by simp [done, was, first, second]) settled'.consistent settled'.kept value'

theorem wait_refines (sound : Sound s) (k : Kind) :
    (wait s k).map abstract_ = (abstract_ s).step (.wait k) ∧
      ∀ t, wait s k = some t → Sound t := by
  obtain ⟨t, p, made, final, grows, shape, rejects⟩ := obtained_makes sound k
  have result : wait s k = some { s with graph := t, waiters := s.waiters ++
      [⟨k, p, s.ready, s.done⟩] } := by simp [wait, made]
  have answer := obtained_answered sound final grows.toExtends shape rejects
  have statuses : s.waiters.map (status t) = s.waiters.map (status s.graph) :=
    List.map_congr_left fun w member => status_same sound member final grows.toExtends
  have ready := grows.sources s.ready sound.ready.1 sound.ready.2
  have done := grows.sources s.done sound.done.1 sound.done.2
  refine ⟨?_, fun u same => ?_⟩
  · simp only [result, Option.map_some, abstract_, Spec.step, List.map_append, statuses,
      List.map_cons, List.map_nil]
    simp only [status, answer, phase, ready, done]
  · rw [result, Option.some.injEq] at same
    refine same ▸ derives_sound sound final grows fun w member => ?_
    rw [List.mem_singleton.mp member]
    exact ⟨shape, rfl, rfl⟩

theorem attach_refines (sound : Sound s) (n : Nat) (coroutine : Bool) (k : Nat) :
    (step s (.attach n coroutine k)).map abstract_ = (abstract_ s).step (.attach n coroutine k) ∧
      ∀ t, step s (.attach n coroutine k) = some t → Sound t := by
  cases there : s.waiters[n]? with
  | none =>
    have outside : ¬n < s.waiters.length := by
      rw [List.getElem?_eq_none_iff] at there
      omega
    simp [step, abstract_, Spec.step, outside]
  | some w =>
    have inside := lookup_inside there
    obtain ⟨final, grows⟩ := attached_derives w.promise coroutine k sound.graph
    have result : step s (.attach n coroutine k) =
        some { s with graph := attached s.graph w.promise coroutine k } := by simp [step, there]
    have statuses : s.waiters.map (status (attached s.graph w.promise coroutine k)) =
        s.waiters.map (status s.graph) :=
      List.map_congr_left fun w member => status_same sound member final grows.toExtends
    have ready := grows.sources s.ready sound.ready.1 sound.ready.2
    have done := grows.sources s.done sound.done.1 sound.done.2
    refine ⟨?_, fun u same => ?_⟩
    · simp [result, abstract_, Spec.step, inside, statuses, phase, ready, done]
    · rw [result, Option.some.injEq] at same
      have kept : Sound { s with
          graph := attached s.graph w.promise coroutine k
          waiters := s.waiters ++ [] } := derives_sound sound final grows (by simp)
      rw [List.append_nil] at kept
      exact same ▸ kept

theorem reset_refines (sound : Sound s) : (reset s).map abstract_ = (abstract_ s).step .reset ∧
    ∀ t, reset s = some t → Sound t := by
  have isDone := resolved_source sound.graph sound.done
  have isReady := resolved_source sound.graph sound.ready
  obtain ⟨once, grows, fresh, pending⟩ := fresh_source sound.graph
  obtain ⟨twice, grows', fresh', pending'⟩ := fresh_source once
  have all := extends_trans grows grows'
  have older : ∀ w ∈ s.waiters, w.ready < s.graph.next ∧ w.done < s.graph.next := fun w member =>
    ⟨(sound.shapes w member).1.1, (sound.shapes w member).2.1.1⟩
  have before : ∀ c, Source (s.graph.create .source) c → c ≠ s.graph.next →
      Source s.graph c := by
    intro c source other
    have below : c < s.graph.next :=
      (Nat.lt_succ_iff_lt_or_eq.mp source.1).resolve_right other
    exact ⟨below, (grows.made c below).symm.trans source.2⟩
  by_cases past : s.graph.outcome s.done = none
  · by_cases there : s.graph.outcome s.ready = none
    · have result : reset s = some s := by simp [reset, isDone, isReady, past, there]
      have idle := (phase_idle s).mpr ⟨there, past⟩
      refine ⟨by simp [result, Spec.step, abstract_, idle], fun t same => ?_⟩
      rw [result, Option.some.injEq] at same
      exact same ▸ sound
    · have some_ : (s.graph.outcome s.ready).isSome = true := Option.isSome_iff_ne_none.mpr there
      have result : reset s =
          some { s with graph := s.graph.create .source, ready := s.graph.next } := by
        simp [reset, isDone, isReady, past, some_]
      have done := grows.sources s.done sound.done.1 sound.done.2
      have statuses : s.waiters.map (status (s.graph.create .source)) =
          s.waiters.map (status s.graph) :=
        List.map_congr_left fun w member => status_same sound member once grows
      refine ⟨?_, fun t same => ?_⟩
      · simp [result, abstract_, Spec.step, statuses, phase, done, past, pending]
      · rw [result, Option.some.injEq] at same
        subst same
        exact {
          graph := once
          ready := fresh
          done := source_extends sound.done grows
          apart := (Nat.ne_of_lt sound.done.1).symm
          order := fun settled => absurd (done.trans past) settled
          past := by
            intro c source other other'
            have old := before c source other
            rw [grows.sources c old.1 old.2]
            by_cases was : c = s.ready
            · exact was ▸ there
            · exact sound.past c old was other'
          shapes := fun w member => shape_extends (sound.shapes w member) grows
          roles := fun w member => ⟨(sound.roles w member).1, Nat.ne_of_lt (older w member).2⟩ }
  · have ready := sound.order past
    have someDone : (s.graph.outcome s.done).isSome = true := Option.isSome_iff_ne_none.mpr past
    have someReady : (s.graph.outcome s.ready).isSome = true := Option.isSome_iff_ne_none.mpr ready
    have result : reset s = some { s with
        graph := (s.graph.create .source).create .source
        ready := s.graph.next
        done := s.graph.next + 1 } := by
      simp [reset, isDone, isReady, someDone, someReady]
    have readyPending : ((s.graph.create .source).create .source).outcome s.graph.next = none := by
      rw [grows'.sources s.graph.next fresh.1 fresh.2]
      exact pending
    have statuses : s.waiters.map (status ((s.graph.create .source).create .source)) =
        s.waiters.map (status s.graph) :=
      List.map_congr_left fun w member => status_same sound member twice all
    have next : (s.graph.create .source).next = s.graph.next + 1 := rfl
    rw [next] at fresh' pending'
    refine ⟨?_, fun t same => ?_⟩
    · simp [result, abstract_, Spec.step, statuses, phase, readyPending, pending']
    · rw [result, Option.some.injEq] at same
      subst same
      exact {
        graph := twice
        ready := source_extends fresh grows'
        done := fresh'
        apart := (Nat.ne_of_lt (Nat.lt_succ_self _))
        order := fun settled => absurd pending' settled
        past := by
          intro c source other other'
          have below : c < s.graph.next + 1 :=
            (Nat.lt_succ_iff_lt_or_eq.mp source.1).resolve_right other'
          have old := before c ⟨below, (grows'.made c below).symm.trans source.2⟩ other
          rw [all.sources c old.1 old.2]
          by_cases was : c = s.ready ∨ c = s.done
          · rcases was with rfl | rfl
            · exact ready
            · exact past
          · obtain ⟨first, second⟩ := not_or.mp was
            exact sound.past c old first second
        shapes := fun w member => shape_extends (sound.shapes w member) all
        roles := fun w member =>
          ⟨Nat.ne_of_lt (Nat.lt_succ_of_lt (older w member).1), Nat.ne_of_lt (older w member).2⟩ }

theorem step_refines (sound : Sound s) (c : Call) :
    (step s c).map abstract_ = (abstract_ s).step c ∧ ∀ t, step s c = some t → Sound t := by
  cases c with
  | ready => exact ready_refines sound
  | done => exact done_refines sound
  | reset => exact reset_refines sound
  | wait k => exact wait_refines sound k
  | attach n coroutine k => exact attach_refines sound n coroutine k

end Refinement

theorem empty_consistent : Consistent empty [] := by
  constructor <;> simp [empty, Graph.outcome]

theorem initial_sound : Sound initial := by
  obtain ⟨once, grows, fresh, pending⟩ := fresh_source empty_consistent
  obtain ⟨twice, grows', fresh', pending'⟩ := fresh_source once
  exact {
    graph := twice
    ready := source_extends fresh grows'
    done := fresh'
    apart := by simp [initial]
    order := fun settled => absurd pending' settled
    past := by
      intro c source other other'
      have below : c < 2 := source.1
      simp only [initial] at other other'
      omega
    shapes := by simp [initial]
    roles := by simp [initial] }

theorem reached_sound {s : State} (h : Reached s) : Sound s :=
  reachable_invariant (fun _ start => start ▸ initial_sound)
    (fun _ c _ sound taken => (step_refines sound c).2 _ taken) h

end StatePromise
