import JSProCpp.PromiseFamily

/-
Coroutines at work. `MakePromise` runs a new coroutine on the thread that calls it, `co_await`
puts a coroutine into the awaiter list of another promise, and whoever flushes that list runs it
on. `~WPromise` of a handle blocks the thread until the promise is done. The bodies are the
clients' code, and may go on for ever; their callables capture no handles, and whoever awaits a
promise keeps it alive.
-/
namespace Coroutines
open Transitions Interleaving PromiseCells
variable {B V E : Type}

/-- A promise is named by the way it is made. A `resolver` body is given `Resolve` and `Reject`. -/
inductive Pid where
  | root (n : Nat) (resolver : Bool)
  -- what the body of `p` makes after `i` other promises
  | child (p : Pid) (i : Nat) (resolver : Bool)
  -- a promise of `Create()`
  | created (n : Nat)
  deriving DecidableEq

def Pid.handled : Pid → Bool
  | .root _ resolver | .child _ _ resolver => resolver
  | .created _ => true

/-- `Resolve` and `Reject`. -/
structure Handle where
  promise : Pid
  handled : promise.handled = true

inductive Head (B V E : Type) where
  -- `co_return`, or an exception that leaves the body
  | done (r : Outcome V E)
  -- `co_await`, which gives the value or throws the exception
  | await (p : Pid) (k : Outcome V E → B)
  -- `MakePromise`
  | make (resolver : Bool) (b k : Pid → B)
  | call (h : Handle) (o : Outcome V E) (k : B)
  -- `~WPromise` of a handle that the coroutine has
  | drop (p : Pid) (k : B)

def Head.needs : Head B V E → Option (Pid × (Outcome V E → B))
  | .await p k => some (p, k)
  | .drop p k => some (p, fun _ => k)
  | _ => none

structure Code (B V E : Type) where
  head : B → Head B V E
  main : Nat → Bool → B

structure Awaiter (B V E : Type) where
  coroutine : Pid
  count : Nat
  resume : Outcome V E → B

structure State (B V E : Type) where
  cells : Family Pid (Awaiter B V E) V E
  made : Pid → Option B
  running : Pid → Bool

inductive Instr (B V E : Type) where
  | settling (i : Settling Pid V E)
  -- the coroutine, which has made `i` promises, goes on with `b`
  | go (q : Pid) (i : Nat) (b : B)
  -- `await_suspend`
  | suspend (p : Pid) (a : Awaiter B V E)
  -- `await_resume`
  | resume (p : Pid) (a : Awaiter B V E)
  -- `WaitDone` in `~WPromise`
  | waitDone (p : Pid) (a : Awaiter B V E)

inductive Event (V E : Type) where
  | make (n : Nat) (resolver : Bool)
  | call (h : Handle) (o : Outcome V E)

namespace State
variable (s : State B V E)

def outcome (p : Pid) : Option (Outcome V E) := (s.cells p).outcome

/-- The condition that `WaitDone` waits for. -/
def finished (p : Pid) : Bool := (s.outcome p).isSome && !(s.cells p).handle

/-- `CreateImpl` up to the call of `handle_`. -/
def make (p : Pid) (b : B) : State B V E where
  cells := s.cells.put p { s.cells p with handle := true }
  made := Function.update s.made p (some b)
  running := Function.update s.running p true

def ended (p : Pid) : State B V E := { s with running := Function.update s.running p false }

def register (p : Pid) (a : Awaiter B V E) : State B V E :=
  { s with cells := s.cells.register p fun _ => a }

end State

/-- `final_suspend`: a body with handles settles its promise only by throwing. -/
def ending (p : Pid) : Outcome V E → List (Instr B V E)
  | .value v =>
      if p.handled then [.settling (.clear p)]
      else [.settling (.claim p (.value v)), .settling (.clear p)]
  | .exception e => [.settling (.claim p (.exception e)), .settling (.clear p)]

section Model
variable (code : Code B V E)

/-- What the coroutine does on the thread that runs it. The locals of a body, and the handles among
    them, are destroyed before `final_suspend`. -/
def go (q : Pid) (i : Nat) (s : State B V E) : Head B V E → State B V E × List (Instr B V E)
  | .done r => (s.ended q, ending q r)
  | .await p k =>
      if (s.outcome p).isSome then (s, [.resume p ⟨q, i, k⟩]) else (s, [.suspend p ⟨q, i, k⟩])
  | .make resolver b k =>
      let c := .child q i resolver
      (s.make c (b c), [.go c 0 (b c), .go q (i + 1) (k c)])
  | .call h o k => (s, [.settling (settling h.promise o), .go q i k])
  | .drop p k =>
      if (s.outcome p).isSome then (s, [.go q i k])
      else (s, [.waitDone p ⟨q, i, fun _ => k⟩])

def exec : Instr B V E → State B V E → State B V E × List (Instr B V E)
  | .settling i, s =>
      ({ s with cells := s.cells.settle i },
        (settle (s.cells i.cell) i).next.map .settling ++
          (settle (s.cells i.cell) i).flushed.map fun a => .resume i.cell a)
  | .go q i b, s => go q i s (code.head b)
  | .suspend p a, s =>
      if (s.outcome p).isSome then (s, [.resume p a]) else (s.register p a, [])
  | .resume p a, s =>
      match s.outcome p with
      | some o => (s, [.go a.coroutine a.count (a.resume o)])
      | none => (s, [])
  | .waitDone p a, s =>
      match s.outcome p with
      | some o => (s, if s.finished p then [.go a.coroutine a.count (a.resume o)]
          else [.waitDone p a])
      -- the thread stays where it is
      | none => (s, [.waitDone p a])

def spawn : Event V E → State B V E → Option (State B V E × List (Instr B V E))
  | .make n resolver, s =>
      if (s.made (.root n resolver)).isSome then none
      else
        some (s.make (.root n resolver) (code.main n resolver),
          [.go (.root n resolver) 0 (code.main n resolver)])
  | .call h o, s => some (s, [.settling (settling h.promise o)])

def program : Program (State B V E) (Instr B V E) (Event V E) where
  exec := exec code
  spawn := fun _ => spawn code

def initial : Machine (State B V E) (Instr B V E) where
  shared := { cells := fun _ => created false, made := fun _ => none, running := fun _ => false }
  threads := []

abbrev Reached (m : Machine (State B V E) (Instr B V E)) : Prop :=
  Reachable (step (program code)) (· = initial) m

/-- The sequential reading of the bodies: the coroutine comes to `b` after it has made `i`
    promises. Only the coroutines that were started and the outcomes of the promises with handles
    are given from outside. -/
inductive Arrives (started : Nat → Bool → Prop) (known : Pid → Option (Outcome V E)) :
    Pid → Nat → B → Prop where
  | root (n : Nat) (resolver : Bool) (starts : started n resolver) :
      Arrives started known (.root n resolver) 0 (code.main n resolver)
  | child (q : Pid) (i : Nat) (resolver : Bool) (b : B) (c k : Pid → B)
      (here : Arrives started known q i b) (makes : code.head b = .make resolver c k) :
      Arrives started known (.child q i resolver) 0 (c (.child q i resolver))
  | made (q : Pid) (i : Nat) (resolver : Bool) (b : B) (c k : Pid → B)
      (here : Arrives started known q i b) (makes : code.head b = .make resolver c k) :
      Arrives started known q (i + 1) (k (.child q i resolver))
  | returned (q p : Pid) (i j : Nat) (b d : B) (k : Outcome V E → B) (o : Outcome V E)
      (here : Arrives started known q i b) (needs : (code.head b).needs = some (p, k))
      (plain : p.handled = false) (end_ : Arrives started known p j d)
      (ends : code.head d = .done o) : Arrives started known q i (k o)
  | settled (q p : Pid) (i : Nat) (b : B) (k : Outcome V E → B) (o : Outcome V E)
      (here : Arrives started known q i b) (needs : (code.head b).needs = some (p, k))
      (handled : p.handled = true) (given : known p = some o) : Arrives started known q i (k o)
  | called (q : Pid) (i : Nat) (b : B) (h : Handle) (o : Outcome V E) (k : B)
      (here : Arrives started known q i b) (calls : code.head b = .call h o k) :
      Arrives started known q i k

end Model

section Inversion
variable {code : Code B V E} {s : State B V E}

inductive Did (code : Code B V E) (s : State B V E) :
    Instr B V E → State B V E → List (Instr B V E) → Prop where
  | settling (i : Settling Pid V E) :
      Did code s (.settling i) { s with cells := s.cells.settle i }
        ((PromiseCells.settle (s.cells i.cell) i).next.map .settling ++
          (PromiseCells.settle (s.cells i.cell) i).flushed.map fun a => .resume i.cell a)
  | done (q : Pid) (i : Nat) (b : B) (r : Outcome V E) (ends : code.head b = .done r) :
      Did code s (.go q i b) (s.ended q) (ending q r)
  | ready (q p : Pid) (i : Nat) (b : B) (k : Outcome V E → B) (awaits : code.head b = .await p k)
      (done : s.outcome p ≠ none) : Did code s (.go q i b) s [.resume p ⟨q, i, k⟩]
  | unready (q p : Pid) (i : Nat) (b : B) (k : Outcome V E → B)
      (awaits : code.head b = .await p k) : Did code s (.go q i b) s [.suspend p ⟨q, i, k⟩]
  | make (q : Pid) (i : Nat) (resolver : Bool) (b : B) (c k : Pid → B)
      (makes : code.head b = .make resolver c k) :
      Did code s (.go q i b) (s.make (.child q i resolver) (c (.child q i resolver)))
        [.go (.child q i resolver) 0 (c (.child q i resolver)),
          .go q (i + 1) (k (.child q i resolver))]
  | call (q : Pid) (i : Nat) (b : B) (h : Handle) (o : Outcome V E) (k : B)
      (calls : code.head b = .call h o k) :
      Did code s (.go q i b) s [.settling (PromiseCells.settling h.promise o), .go q i k]
  | dropped (q p : Pid) (i : Nat) (b k : B) (drops : code.head b = .drop p k) (o : Outcome V E)
      (done : s.outcome p = some o) : Did code s (.go q i b) s [.go q i k]
  | undropped (q p : Pid) (i : Nat) (b k : B) (drops : code.head b = .drop p k) :
      Did code s (.go q i b) s [.waitDone p ⟨q, i, fun _ => k⟩]
  | through (p : Pid) (a : Awaiter B V E) (done : s.outcome p ≠ none) :
      Did code s (.suspend p a) s [.resume p a]
  | register (p : Pid) (a : Awaiter B V E) (pending : s.outcome p = none) :
      Did code s (.suspend p a) (s.register p a) []
  | resume (p : Pid) (a : Awaiter B V E) (o : Outcome V E) (done : s.outcome p = some o) :
      Did code s (.resume p a) s [.go a.coroutine a.count (a.resume o)]
  | missing (p : Pid) (a : Awaiter B V E) (pending : s.outcome p = none) :
      Did code s (.resume p a) s []
  | waited (p : Pid) (a : Awaiter B V E) (o : Outcome V E) (done : s.outcome p = some o) :
      Did code s (.waitDone p a) s [.go a.coroutine a.count (a.resume o)]
  | blocked (p : Pid) (a : Awaiter B V E) (waits : s.finished p = false) :
      Did code s (.waitDone p a) s [.waitDone p a]

theorem go_did (q : Pid) (i : Nat) (b : B) :
    Did code s (.go q i b) (go q i s (code.head b)).1 (go q i s (code.head b)).2 := by
  cases head : code.head b with
  | done r => exact .done q i b r head
  | await p k =>
    simp only [go]
    split
    · rename_i done
      exact .ready q p i b k head (by simpa [Option.isSome_iff_ne_none] using done)
    · exact .unready q p i b k head
  | make resolver c k => exact .make q i resolver b c k head
  | call h o k => exact .call q i b h o k head
  | drop p k =>
    simp only [go]
    split
    · rename_i done
      obtain ⟨o, done⟩ := Option.isSome_iff_exists.mp done
      exact .dropped q p i b k head o done
    · exact .undropped q p i b k head

theorem exec_did (i : Instr B V E) : Did code s i (exec code i s).1 (exec code i s).2 := by
  cases i with
  | settling i => exact .settling i
  | go q i b => exact go_did q i b
  | suspend p a =>
    simp only [exec]
    split
    · rename_i done
      exact .through p a (by simpa [Option.isSome_iff_ne_none] using done)
    · rename_i pending
      exact .register p a (by simpa using pending)
  | resume p a =>
    simp only [exec]
    split
    · rename_i o done
      exact .resume p a o done
    · rename_i pending
      exact .missing p a pending
  | waitDone p a =>
    simp only [exec]
    split
    · rename_i o done
      split
      · exact .waited p a o done
      · rename_i waits
        exact .blocked p a (by simpa using waits)
    · rename_i pending
      exact .blocked p a (by simp [State.finished, pending])

inductive Spawned (code : Code B V E) (s : State B V E) :
    Event V E → State B V E → List (Instr B V E) → Prop where
  | make (n : Nat) (resolver : Bool) (fresh : s.made (.root n resolver) = none) :
      Spawned code s (.make n resolver) (s.make (.root n resolver) (code.main n resolver))
        [.go (.root n resolver) 0 (code.main n resolver)]
  | call (h : Handle) (o : Outcome V E) :
      Spawned code s (.call h o) s [.settling (PromiseCells.settling h.promise o)]

theorem spawn_spawned {e : Event V E} {t : State B V E} {is : List (Instr B V E)}
    (spawned : spawn code e s = some (t, is)) : Spawned code s e t is := by
  cases e with
  | make n resolver =>
    simp only [spawn, Option.ite_none_left_eq_some, Option.some.injEq, Prod.mk.injEq] at spawned
    obtain ⟨fresh, rfl, rfl⟩ := spawned
    exact .make n resolver (by simpa using fresh)
  | call h o =>
    simp only [spawn, Option.some.injEq, Prod.mk.injEq] at spawned
    obtain ⟨rfl, rfl⟩ := spawned
    exact .call h o

end Inversion

section Once
variable {code : Code B V E} {s : State B V E} {m : Machine (State B V E) (Instr B V E)}

@[simp] def instrWeight (p : Pid) : Instr B V E → Nat
  | .settling i => storeWeight p i
  | _ => 0

def cellCost (p : Pid) (s : State B V E) : Nat := (s.cells p).storeCost

theorem ending_weight (p q : Pid) (r : Outcome V E) :
    ((ending q r).map (instrWeight (B := B) p)).sum = 0 := by
  cases r with
  | value v => cases handled : q.handled <;> simp [ending, handled, instrWeight, storeWeight]
  | exception e => rfl

theorem make_cost (p q : Pid) (b : B) : cellCost p (s.make q b) = cellCost p s :=
  Family.storeCost_put p rfl

theorem did_once (p : Pid) {i : Instr B V E} {t : State B V E} {is : List (Instr B V E)}
    (did : Did code s i t is) :
    cellCost p t + (is.map (instrWeight p)).sum ≤ cellCost p s + instrWeight p i := by
  cases did with
  | settling i =>
    simp only [List.map_append, List.map_map, List.sum_append]
    have flushed : ((settle (s.cells i.cell) i).flushed.map
        (instrWeight p ∘ fun a => (.resume i.cell a : Instr B V E))).sum = 0 := by
      simp [Function.comp_def]
    have next : (instrWeight p ∘ (.settling : _ → Instr B V E)) = storeWeight p := rfl
    rw [flushed, next]
    exact Family.storeCost_settle i p
  | done q i b r =>
    rw [ending_weight]
    exact Nat.le_refl _
  | make q i resolver b c k =>
    rw [make_cost]
    exact Nat.le_refl _
  | call q i b h o k =>
    simp
  | register q a pending =>
    have same : cellCost p (s.register q a) = cellCost p s := Family.storeCost_register p
    rw [same]
    exact Nat.le_refl _
  | ready | unready | dropped | undropped | through | resume | missing | waited | blocked =>
    exact Nat.le_refl _

theorem spawn_once (p : Pid) (e : Event V E) (s t : State B V E) (is : List (Instr B V E))
    (spawned : spawn code e s = some (t, is)) :
    cellCost p t + (is.map (instrWeight p)).sum ≤ cellCost p s := by
  cases spawn_spawned spawned with
  | make n resolver fresh =>
    rw [make_cost]
    exact Nat.le_refl _
  | call h o => simp

theorem reached_once (reached : Reached code m) (p : Pid) :
    load (instrWeight p) (cellCost p) m ≤ 1 := by
  induction reached with
  | start first =>
    subst first
    simp [load, initial, cellCost, created, Cell.storeCost]
  | next _ taken ih =>
    exact Nat.le_trans (load_step_free _ _ (fun s i => did_once p (exec_did i))
      (fun _ e s s' is spawned => spawn_once p e s s' is spawned) taken) ih

/-- Nobody is about to store into a promise that has its outcome. -/
theorem reached_fresh (reached : Reached code m) {i : Settling Pid V E}
    (has : Has m (.settling i)) : Fresh (m.shared.cells i.cell) i := by
  have bound := weight_le_load (instrWeight i.cell) (cellCost i.cell) has
  apply fresh_of_cost
  exact Nat.le_trans bound (reached_once reached i.cell)

end Once

end Coroutines
