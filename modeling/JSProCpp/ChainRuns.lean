import JSProCpp.ChainLinks
import JSProCpp.PromiseFamily

/-
`Then`, `Catch` and `Finally` at work: the promises of a chain, the inner promises of the links
whose continuation returns a promise, and the threads that attach links and settle promises.
-/
namespace ChainLinks
open Transitions Interleaving PromiseCells
variable {K V E : Type}

/-- Promise 0 is the source, promise `i + 1` what link `i` returns. -/
inductive Pid where
  | promise (i : Nat)
  | reply (i : Nat)
  -- The coroutine of `exception_wrapper`, which waits for the handler's promise.
  | wrapper (i : Nat)
  -- The promises of the `.Then([resolve] ...)` and the `.Catch([reject] ...)` on it.
  | resolves (i : Nat)
  | rejects (i : Nat)
  deriving DecidableEq

inductive Awaiter where
  | link (i : Nat)
  | resume (i : Nat)
  | resolves (i : Nat)
  | rejects (i : Nat)
  deriving DecidableEq

structure State (V E : Type) where
  cells : Family Pid Awaiter (Val V) E
  begun : Nat
  attached : Nat
  calls : Nat → Nat
  asked : Nat → Option (Pid × Result V E)
  -- The outcome on which a link has made its inner `Then`, whose function has captured it.
  kept : Nat → Option (Result V E)
  running : Pid → Bool

inductive Instr (V E : Type) where
  | settling (i : Settling Pid (Val V) E)
  -- An operator, or `await_suspend`: registers the awaiter unless the promise is done.
  | attach (a : Awaiter)
  -- The awaiter runs, in the operator on a promise that is done, or from a flush.
  | run (a : Awaiter) (done : Bool)
  | ready (i : Nat)
  | returned

inductive Body (V E : Type) where
  | settle (r : Result V E)
  | become (r : Result V E)
  | follow (r : Result V E)
  | refuse (e : E)

namespace Link
variable (x : Exceptions K E) (t : Ty) (l : Link K V E)

/-- `Then` on a promise that is done. -/
def thenDone (f : Val V → Result V E) : Result V E → Body V E
  | .exception e => .settle (.exception e)
  | .value v =>
      if l.mode = .sync then .settle (l.returned (f v)) else .become (l.returned (f v))

/-- The function that `Then` registers. -/
def thenPending (f : Val V → Result V E) : Result V E → Body V E
  | .exception e => if l.mode = .sync then .settle (.exception e) else .refuse e
  | .value v =>
      if l.mode = .sync then .settle (l.returned (f v)) else .follow (l.returned (f v))

/-- `apply_exception` of `Catch`, and the `catch (...)` around it. -/
def applyException (a : Argument K) (h : E → Result V E) (e : E) : Body V E :=
  if x.caught a e then
    if l.mode = .sync then .settle (handled t l.type (l.returned (h (l.passed x a e))))
    else .follow (l.returned (h (l.passed x a e)))
  else .settle (.exception e)

def catchBody (a : Argument K) (h : E → Result V E) : Result V E → Body V E
  | .value v => .settle (.value (applyValue t l.type v))
  | .exception e => l.applyException x t a h e

/-- `apply_value` and `apply_exception` of `Finally`. -/
def finallyBody (g : Option E) (o : Result V E) : Body V E :=
  match l.mode, g with
  | .sync, none => .settle o
  | .sync, some e => .settle (.exception e)
  | _, none => .follow (.value .void)
  | _, some e => .follow (.exception e)

def body (done : Bool) : Result V E → Body V E :=
  match l.op with
  | .then_ f => if done then l.thenDone f else l.thenPending f
  | .catch_ a h => l.catchBody x t a h
  | .finally_ g => l.finallyBody g

/-- The handler's promise is awaited in a coroutine that holds the copy of the exception. -/
def wraps : Bool :=
  match l.op with
  | .catch_ (.reference _) _ => l.mode != .sync
  | _ => false

/-- What the function of the inner `Then` settles the promise of the link with. -/
def forwarded (o : Result V E) (w : Val V) : Result V E :=
  match l.op with
  | .then_ _ => .value w
  | .catch_ _ _ => .value (applyHandled t l.type w)
  | .finally_ _ => o

end Link

/-- How a continuation's coroutine can end. Its promise gets an outcome unless its resolver is
    to give it. -/
def Mode.ends (threw : Bool) (r : Result V E) : Mode → Option (Option (Result V E))
  | .sync => none
  | .coroutine => some (some r)
  | .resolver =>
      match threw, r with
      | false, _ => some none
      | true, .exception e => some (some (.exception e))
      | true, .value _ => none

def Kind.ends : Kind → Option (Result V E) → Bool
  | .created, _ => false
  | .coroutine, o => o.isSome
  | .resolver, some (.value _) => false
  | .resolver, _ => true

/-- `final_suspend` settles with the delayed return and then clears `handle_`. -/
def ending (p : Pid) : Option (Result V E) → List (Instr V E)
  | some o => [.settling (.claim p o), .settling (.clear p)]
  | none => [.settling (.clear p)]

/-- The `.Then([resolve] ...).Catch([reject] ...)` on the promise of a continuation. -/
def inner (i : Nat) : List (Instr V E) := [.attach (.resolves i), .attach (.rejects i)]

namespace State
variable (s : State V E)

def outcome (p : Pid) : Option (Result V E) := (s.cells p).outcome

def called (i : Nat) (l : Link K V E) (x : Exceptions K E) (o : Result V E) : State V E :=
  if l.calls x o then { s with calls := Function.update s.calls i (s.calls i + 1) } else s

def start (p : Pid) : State V E :=
  { s with
    cells := s.cells.put p { s.cells p with handle := true }
    running := Function.update s.running p true }

def ended (p : Pid) : State V E := { s with running := Function.update s.running p false }

def ask (i : Nat) (p : Pid) (r : Result V E) : State V E :=
  { s.start p with asked := Function.update s.asked i (some (p, r)) }

def keep (i : Nat) (o : Result V E) : State V E :=
  { s with kept := Function.update s.kept i (some o) }

def register (p : Pid) (a : Awaiter) : State V E :=
  { s with cells := s.cells.register p fun _ => a }

end State

namespace Chain
variable (c : Chain K V E)

def wraps (i : Nat) : Bool := (c.links[i]?).any Link.wraps

/-- The promise the inner `Then` is attached to. -/
def replies (i : Nat) : Pid := if c.wraps i then .wrapper i else .reply i

def source : Awaiter → Pid
  | .link i => .promise i
  | .resume i => .reply i
  | .resolves i => c.replies i
  | .rejects i => .resolves i

def runLink (i : Nat) (done : Bool) (s : State V E) : State V E × List (Instr V E) :=
  match s.outcome (.promise i), c.links[i]? with
  | some o, some l =>
      let s := s.called i l c.exceptions o
      match l.body c.exceptions (c.typeAt i) done o with
      | .settle r => (s, [.settling (settling (.promise (i + 1)) r)])
      | .become r => (s.ask i (.promise (i + 1)) r, [])
      | .follow r =>
          let s := (s.keep i o).ask i (.reply i) r
          if l.wraps then (s.start (.wrapper i), .ready i :: inner i) else (s, inner i)
      | .refuse e => (s.keep i o, .settling (settling (.reply i) (.exception e)) :: inner i)
  | _, _ => (s, [])

def runResume (i : Nat) (s : State V E) : State V E × List (Instr V E) :=
  match s.outcome (.reply i) with
  | some r => (s.ended (.wrapper i), ending (.wrapper i) (some r))
  | none => (s, [])

def runResolves (i : Nat) (s : State V E) : List (Instr V E) :=
  match s.outcome (c.replies i), s.kept i, c.links[i]? with
  | some (.value w), some o, some l =>
      [.settling (settling (.promise (i + 1)) (l.forwarded (c.typeAt i) o w)),
        .settling (settling (.resolves i) (.value .void))]
  | some (.exception e), _, _ => [.settling (settling (.resolves i) (.exception e))]
  | _, _, _ => []

def runRejects (i : Nat) (s : State V E) : List (Instr V E) :=
  match s.outcome (.resolves i) with
  | some (.value _) => [.settling (settling (.rejects i) (.value .void))]
  | some (.exception e) =>
      [.settling (settling (.promise (i + 1)) (.exception e)),
        .settling (settling (.rejects i) (.value .void))]
  | none => []

def runAwaiter (s : State V E) (done : Bool) : Awaiter → State V E × List (Instr V E)
  | .link i => c.runLink i done s
  | .resume i => runResume i s
  | .resolves i => (s, c.runResolves i s)
  | .rejects i => (s, runRejects i s)

def exec : Instr V E → State V E → State V E × List (Instr V E)
  | .settling i, s =>
      ({ s with cells := s.cells.settle i },
        (settle (s.cells i.cell) i).next.map .settling ++
          (settle (s.cells i.cell) i).flushed.map fun a => .run a false)
  | .attach a, s =>
      if (s.outcome (c.source a)).isSome then (s, [.run a true])
      else (s.register (c.source a) a, [])
  | .run a done, s => c.runAwaiter s done a
  | .ready i, s =>
      if (s.outcome (.reply i)).isSome then (s, [.run (.resume i) true])
      else (s, [.attach (.resume i)])
  | .returned, s => ({ s with attached := s.attached + 1 }, [])

end Chain

inductive Event (V E : Type) where
  | settle (o : Result V E)
  | complete (o : Option (Result V E))
  | attach
  | answer (i : Nat)
  | finish (i : Nat) (threw : Bool)

namespace Chain
variable (c : Chain K V E)

def spawn : Event V E → State V E → Option (State V E × List (Instr V E))
  | .settle o, s =>
      if c.kind = .coroutine then none else some (s, [.settling (settling (.promise 0) o)])
  | .complete o, s =>
      if s.running (.promise 0) ∧ c.kind.ends o then
        some (s.ended (.promise 0), ending (.promise 0) o)
      else none
  | .attach, s =>
      if s.begun = s.attached ∧ s.begun < c.links.length then
        some ({ s with begun := s.begun + 1 }, [.attach (.link s.begun), .returned])
      else none
  | .answer i, s =>
      match s.asked i, c.links[i]? with
      | some (p, r), some l =>
          if l.mode = .resolver then some (s, [.settling (settling p r)]) else none
      | _, _ => none
  | .finish i threw, s =>
      match s.asked i, c.links[i]? with
      | some (p, r), some l =>
          if s.running p then (l.mode.ends threw r).map fun o => (s.ended p, ending p o) else none
      | _, _ => none

def program : Program (State V E) (Instr V E) (Event V E) where
  exec := c.exec
  spawn := fun _ => c.spawn

def live (p : Pid) : Bool := p == .promise 0 && c.kind != .created

def initial : Machine (State V E) (Instr V E) where
  shared :=
    { cells := fun p => created (c.live p)
      begun := 0
      attached := 0
      calls := fun _ => 0
      asked := fun _ => none
      kept := fun _ => none
      running := c.live }
  threads := []

abbrev Reached (m : Machine (State V E) (Instr V E)) : Prop :=
  Reachable (step c.program) (· = c.initial) m

end Chain

section Inversion
variable {c : Chain K V E} {s : State V E}

def Awaiter.index : Awaiter → Nat
  | .link i | .resume i | .resolves i | .rejects i => i

structure Chain.Ready (c : Chain K V E) (s : State V E) (a : Awaiter) : Prop where
  source : s.outcome (c.source a) ≠ none
  inside : a.index < c.links.length
  kept : ∀ i, a = .resolves i → s.kept i ≠ none

inductive Chain.Did (c : Chain K V E) (s : State V E) :
    Instr V E → State V E → List (Instr V E) → Prop where
  | settling (i : Settling Pid (Val V) E) :
      Did c s (.settling i) { s with cells := s.cells.settle i }
        ((PromiseCells.settle (s.cells i.cell) i).next.map .settling ++
          (PromiseCells.settle (s.cells i.cell) i).flushed.map fun a => .run a false)
  | through (a : Awaiter) (done : s.outcome (c.source a) ≠ none) :
      Did c s (.attach a) s [.run a true]
  | register (a : Awaiter) (pending : s.outcome (c.source a) = none) :
      Did c s (.attach a) (s.register (c.source a) a) []
  | missing (a : Awaiter) (done : Bool) (lacks : ¬c.Ready s a) : Did c s (.run a done) s []
  | settle (i : Nat) (done : Bool) (l : Link K V E) (o r : Result V E)
      (here : c.links[i]? = some l) (before : s.outcome (.promise i) = some o)
      (body : l.body c.exceptions (c.typeAt i) done o = .settle r) :
      Did c s (.run (.link i) done) (s.called i l c.exceptions o)
        [.settling (PromiseCells.settling (.promise (i + 1)) r)]
  | become (i : Nat) (done : Bool) (l : Link K V E) (o r : Result V E)
      (here : c.links[i]? = some l) (before : s.outcome (.promise i) = some o)
      (body : l.body c.exceptions (c.typeAt i) done o = .become r) :
      Did c s (.run (.link i) done)
        ((s.called i l c.exceptions o).ask i (.promise (i + 1)) r) []
  | follow (i : Nat) (done : Bool) (l : Link K V E) (o r : Result V E)
      (here : c.links[i]? = some l) (before : s.outcome (.promise i) = some o)
      (body : l.body c.exceptions (c.typeAt i) done o = .follow r) (plain : c.wraps i = false) :
      Did c s (.run (.link i) done)
        (((s.called i l c.exceptions o).keep i o).ask i (.reply i) r) (inner i)
  | wrap (i : Nat) (done : Bool) (l : Link K V E) (o r : Result V E)
      (here : c.links[i]? = some l) (before : s.outcome (.promise i) = some o)
      (body : l.body c.exceptions (c.typeAt i) done o = .follow r) (wraps : c.wraps i = true) :
      Did c s (.run (.link i) done)
        ((((s.called i l c.exceptions o).keep i o).ask i (.reply i) r).start (.wrapper i))
        (.ready i :: inner i)
  | refuse (i : Nat) (done : Bool) (l : Link K V E) (o : Result V E) (e : E)
      (here : c.links[i]? = some l) (before : s.outcome (.promise i) = some o)
      (body : l.body c.exceptions (c.typeAt i) done o = .refuse e) :
      Did c s (.run (.link i) done) ((s.called i l c.exceptions o).keep i o)
        (.settling (PromiseCells.settling (.reply i) (.exception e)) :: inner i)
  | resume (i : Nat) (done : Bool) (r : Result V E) (answer : s.outcome (.reply i) = some r) :
      Did c s (.run (.resume i) done) (s.ended (.wrapper i)) (ending (.wrapper i) (some r))
  | resolves (i : Nat) (done : Bool) (l : Link K V E) (o : Result V E) (w : Val V)
      (here : c.links[i]? = some l) (kept : s.kept i = some o)
      (answer : s.outcome (c.replies i) = some (.value w)) :
      Did c s (.run (.resolves i) done) s
        [.settling (PromiseCells.settling (.promise (i + 1)) (l.forwarded (c.typeAt i) o w)),
          .settling (PromiseCells.settling (.resolves i) (.value .void))]
  | refuses (i : Nat) (done : Bool) (e : E)
      (answer : s.outcome (c.replies i) = some (.exception e)) :
      Did c s (.run (.resolves i) done) s
        [.settling (PromiseCells.settling (.resolves i) (.exception e))]
  | passes (i : Nat) (done : Bool) (v : Val V)
      (answer : s.outcome (.resolves i) = some (.value v)) :
      Did c s (.run (.rejects i) done) s
        [.settling (PromiseCells.settling (.rejects i) (.value .void))]
  | rejects (i : Nat) (done : Bool) (e : E)
      (answer : s.outcome (.resolves i) = some (.exception e)) :
      Did c s (.run (.rejects i) done) s
        [.settling (PromiseCells.settling (.promise (i + 1)) (.exception e)),
          .settling (PromiseCells.settling (.rejects i) (.value .void))]
  | ready (i : Nat) (done : s.outcome (.reply i) ≠ none) :
      Did c s (.ready i) s [.run (.resume i) true]
  | unready (i : Nat) : Did c s (.ready i) s [.attach (.resume i)]
  | returned : Did c s .returned { s with attached := s.attached + 1 } []

theorem wraps_link {i : Nat} {l : Link K V E} (here : c.links[i]? = some l) :
    c.wraps i = l.wraps := by
  simp [Chain.wraps, here]

theorem ready_link {i : Nat} (ready : c.Ready s (.link i)) :
    ∃ l o, c.links[i]? = some l ∧ s.outcome (.promise i) = some o := by
  obtain ⟨o, before⟩ := Option.ne_none_iff_exists'.mp ready.source
  exact ⟨_, o, List.getElem?_eq_getElem ready.inside, before⟩

theorem runLink_did (i : Nat) (done : Bool) :
    c.Did s (.run (.link i) done) (c.runLink i done s).1 (c.runLink i done s).2 := by
  unfold Chain.runLink
  split
  · rename_i o l before here
    dsimp only
    split
    · rename_i r body
      exact .settle i done l o r here before body
    · rename_i r body
      exact .become i done l o r here before body
    · rename_i r body
      split
      · rename_i wraps
        exact .wrap i done l o r here before body ((wraps_link here).trans wraps)
      · rename_i plain
        have plain := (wraps_link here).trans (Bool.eq_false_iff.mpr plain)
        exact .follow i done l o r here before body plain
    · rename_i e body
      exact .refuse i done l o e here before body
  · rename_i missing
    apply Chain.Did.missing
    intro ready
    obtain ⟨l, o, here, before⟩ := ready_link ready
    exact missing o l before here

theorem runAwaiter_did (a : Awaiter) (done : Bool) :
    c.Did s (.run a done) (c.runAwaiter s done a).1 (c.runAwaiter s done a).2 := by
  cases a with
  | link i => exact runLink_did i done
  | resume i =>
    simp only [Chain.runAwaiter, Chain.runResume]
    split
    · rename_i r answer
      exact .resume i done r answer
    · rename_i pending
      exact .missing _ done fun ready => ready.source pending
  | resolves i =>
    simp only [Chain.runAwaiter, Chain.runResolves]
    split
    · rename_i w o l answer kept here
      exact .resolves i done l o w here kept answer
    · rename_i e answer
      exact .refuses i done e answer
    · rename_i refused missing
      apply Chain.Did.missing
      intro ready
      obtain ⟨r, answer⟩ := Option.ne_none_iff_exists'.mp ready.source
      obtain ⟨o, kept⟩ := Option.ne_none_iff_exists'.mp (ready.kept i rfl)
      have here := List.getElem?_eq_getElem ready.inside
      cases r with
      | value w => exact missing w o _ answer kept here
      | exception e => exact refused e answer
  | rejects i =>
    simp only [Chain.runAwaiter, Chain.runRejects]
    split
    · rename_i v answer
      exact .passes i done v answer
    · rename_i e answer
      exact .rejects i done e answer
    · rename_i pending
      exact .missing _ done fun ready => ready.source pending

theorem exec_did (i : Instr V E) : c.Did s i (c.exec i s).1 (c.exec i s).2 := by
  cases i with
  | settling i => exact .settling i
  | attach a =>
    simp only [Chain.exec]
    split
    · rename_i done
      exact .through a (by simpa [Option.isSome_iff_ne_none] using done)
    · rename_i pending
      exact .register a (by simpa using pending)
  | run a done => exact runAwaiter_did a done
  | ready i =>
    simp only [Chain.exec]
    split
    · rename_i done
      exact .ready i (by simpa [Option.isSome_iff_ne_none] using done)
    · exact .unready i
  | returned => exact .returned

inductive Chain.Spawned (c : Chain K V E) (s : State V E) :
    Event V E → State V E → List (Instr V E) → Prop where
  | settle (o : Result V E) (handle : c.kind ≠ .coroutine) :
      Spawned c s (.settle o) s [.settling (PromiseCells.settling (.promise 0) o)]
  | complete (o : Option (Result V E)) (running : s.running (.promise 0) = true)
      (ends : c.kind.ends o = true) :
      Spawned c s (.complete o) (s.ended (.promise 0)) (ending (.promise 0) o)
  | attach (turn : s.begun = s.attached) (inside : s.begun < c.links.length) :
      Spawned c s .attach { s with begun := s.begun + 1 } [.attach (.link s.begun), .returned]
  | answer (i : Nat) (p : Pid) (r : Result V E) (l : Link K V E) (asked : s.asked i = some (p, r))
      (here : c.links[i]? = some l) (handle : l.mode = .resolver) :
      Spawned c s (.answer i) s [.settling (PromiseCells.settling p r)]
  | finish (i : Nat) (threw : Bool) (p : Pid) (r : Result V E) (o : Option (Result V E))
      (l : Link K V E) (asked : s.asked i = some (p, r)) (here : c.links[i]? = some l)
      (running : s.running p = true) (ends : l.mode.ends threw r = some o) :
      Spawned c s (.finish i threw) (s.ended p) (ending p o)

theorem spawn_spawned {e : Event V E} {t : State V E} {is : List (Instr V E)}
    (spawned : c.spawn e s = some (t, is)) : c.Spawned s e t is := by
  cases e with
  | settle o =>
    simp only [Chain.spawn, Option.ite_none_left_eq_some, Option.some.injEq, Prod.mk.injEq]
      at spawned
    obtain ⟨handle, rfl, rfl⟩ := spawned
    exact .settle o handle
  | complete o =>
    simp only [Chain.spawn, Option.ite_none_right_eq_some, Option.some.injEq, Prod.mk.injEq]
      at spawned
    obtain ⟨⟨running, ends⟩, rfl, rfl⟩ := spawned
    exact .complete o running ends
  | attach =>
    simp only [Chain.spawn, Option.ite_none_right_eq_some, Option.some.injEq, Prod.mk.injEq]
      at spawned
    obtain ⟨⟨turn, inside⟩, rfl, rfl⟩ := spawned
    exact .attach turn inside
  | answer i =>
    simp only [Chain.spawn] at spawned
    split at spawned
    · rename_i p r l asked here
      simp only [Option.ite_none_right_eq_some, Option.some.injEq, Prod.mk.injEq] at spawned
      obtain ⟨handle, rfl, rfl⟩ := spawned
      exact .answer i p r l asked here handle
    · simp at spawned
  | finish i threw =>
    simp only [Chain.spawn] at spawned
    split at spawned
    · rename_i p r l asked here
      split at spawned
      · rename_i running
        obtain ⟨o, ends, same⟩ := Option.map_eq_some_iff.mp spawned
        simp only [Prod.mk.injEq] at same
        obtain ⟨rfl, rfl⟩ := same
        exact .finish i threw p r o l asked here running ends
      · simp at spawned
    · simp at spawned

end Inversion

section Once
variable {c : Chain K V E} {s : State V E}

@[simp] theorem called_cells (i : Nat) (l : Link K V E) (x : Exceptions K E) (o : Result V E) :
    (s.called i l x o).cells = s.cells := by
  unfold State.called
  split <;> rfl

@[simp] def instrWeight (p : Pid) : Instr V E → Nat
  | .settling i => storeWeight p i
  | _ => 0

def cellCost (p : Pid) (s : State V E) : Nat := (s.cells p).storeCost

theorem ending_weight (p q : Pid) (o : Option (Result V E)) :
    ((ending q o).map (instrWeight p)).sum = 0 := by
  cases o <;> rfl

theorem inner_weight (p : Pid) (i : Nat) :
    ((inner i : List (Instr V E)).map (instrWeight p)).sum = 0 := rfl

theorem start_cost (p q : Pid) : cellCost p (s.start q) = cellCost p s :=
  Family.storeCost_put p rfl

theorem called_cost (p : Pid) (i : Nat) (l : Link K V E) (o : Result V E) :
    cellCost p (s.called i l c.exceptions o) = cellCost p s := by
  simp [cellCost]

/-- An instruction that stores nothing and leads to no store. -/
theorem harmless {p : Pid} {t : State V E} {i : Instr V E} {is : List (Instr V E)}
    (cost : cellCost p t = cellCost p s) (free : (is.map (instrWeight p)).sum = 0) :
    cellCost p t + (is.map (instrWeight p)).sum ≤ cellCost p s + instrWeight p i := by
  omega

theorem did_once (p : Pid) {i : Instr V E} {t : State V E} {is : List (Instr V E)}
    (did : c.Did s i t is) :
    cellCost p t + (is.map (instrWeight p)).sum ≤ cellCost p s + instrWeight p i := by
  cases did with
  | settling i =>
    simp only [List.map_append, List.map_map, List.sum_append]
    have flushed : ((settle (s.cells i.cell) i).flushed.map
        (instrWeight p ∘ fun a => (.run a false : Instr V E))).sum = 0 := by
      simp [Function.comp_def]
    have next : (instrWeight p ∘ (.settling : _ → Instr V E)) = storeWeight p := rfl
    rw [flushed, next]
    exact Family.storeCost_settle i p
  | through a done => exact harmless rfl rfl
  | register a pending =>
    apply harmless
    · exact Family.storeCost_register p
    · rfl
  | missing a done lacks => exact harmless rfl rfl
  | settle i done l o r here before body =>
    apply harmless (called_cost p i l o)
    simp
  | become i done l o r here before body =>
    exact harmless ((start_cost p _).trans (called_cost p i l o)) rfl
  | follow i done l o r here before body plain =>
    exact harmless ((start_cost p _).trans (called_cost p i l o)) (inner_weight p i)
  | wrap i done l o r here before body wraps =>
    apply harmless
    · exact (start_cost p _).trans ((start_cost p _).trans (called_cost p i l o))
    · exact inner_weight (V := V) (E := E) p i
  | refuse i done l o e here before body =>
    apply harmless (called_cost p i l o)
    rw [List.map_cons, List.sum_cons, inner_weight]
    simp
  | resume i done r answer => exact harmless rfl (ending_weight p _ (some r))
  | resolves i done l o w here kept answer =>
    apply harmless rfl
    simp
  | refuses i done e answer =>
    apply harmless rfl
    simp
  | passes i done v answer =>
    apply harmless rfl
    simp
  | rejects i done e answer =>
    apply harmless rfl
    simp
  | ready i done => exact harmless rfl rfl
  | unready i => exact harmless rfl rfl
  | returned => exact harmless rfl rfl

theorem spawn_once (p : Pid) (e : Event V E) (s t : State V E) (is : List (Instr V E))
    (spawned : c.spawn e s = some (t, is)) :
    cellCost p t + (is.map (instrWeight p)).sum ≤ cellCost p s := by
  cases spawn_spawned spawned with
  | settle o handle => simp
  | complete o running ends =>
    rw [ending_weight]
    exact Nat.le_refl _
  | attach turn inside => exact Nat.le_refl _
  | answer i q r l asked here handle => simp
  | finish i threw q r o l asked here running ends =>
    rw [ending_weight]
    exact Nat.le_refl _

variable {m : Machine (State V E) (Instr V E)}

theorem reached_once (reached : c.Reached m) (p : Pid) :
    load (instrWeight p) (cellCost p) m ≤ 1 := by
  induction reached with
  | start first =>
    subst first
    simp [load, Chain.initial, cellCost, created, Cell.storeCost]
  | next _ taken ih =>
    exact Nat.le_trans (load_step_free _ _ (fun s i => did_once p (exec_did i))
      (fun _ e s s' is spawned => spawn_once p e s s' is spawned) taken) ih

theorem reached_fresh (reached : c.Reached m) {i : Settling Pid (Val V) E}
    (has : Has m (.settling i)) : Fresh (m.shared.cells i.cell) i := by
  have bound := weight_le_load (instrWeight i.cell) (cellCost i.cell) has
  apply fresh_of_cost
  exact Nat.le_trans bound (reached_once reached i.cell)

end Once

end ChainLinks
