import JSProCpp.CVPromiseEpochs
import JSProCpp.LockGuards

/-
`CVPromise::Wait(LockGuard&)`: it copies the promise, unlocks the guard and attaches a coroutine
that locks the guard again. Any number of guards share one mutex and one `CVPromise`; copying,
unlocking, attaching and locking again are separate steps. The continuation of a waiter has the
number of its guard.
-/
namespace LockAwareWait
open Transitions Interleaving PromiseCells
variable {E : Type}

/-- What the owner of a guard is doing; `n` is the promise that `Wait` copied. -/
inductive Phase where
  | free
  | locking
  | unlocking (u : Nat)
  | copying
  | copied (n : Nat)
  | releasing (n u : Nat)
  | attaching (n : Nat)
  | waiting (n : Nat)
  | woken (n : Nat)
  | relocking (n : Nat)
  | acquired (n : Nat)
  | resolved (n : Nat)
  | rejected (n : Nat)
  deriving DecidableEq

structure Guard where
  phase : Phase
  own : Bool
  -- History: the last call of `Mutex::Lock`, and the number of swaps before the last copy.
  session : Nat
  copied : Nat
  deriving DecidableEq

/-- A call of `lock.Unlock()` inside `Wait`, with the number of swaps before the copy and before
    the call. -/
structure Release where
  guard : Nat
  promise : Nat
  copied : Nat
  swapped : Nat
  deriving DecidableEq

structure State (E : Type) where
  cv : Machine (CVPromise.State E) (CVPromise.Instr E)
  mutex : AsyncMutex.State
  guards : Nat → Guard
  owner : Nat → Option Nat
  released : List Release

inductive Label (E : Type) where
  | fork
  | signal (t : Nat) (o : CVPromise.Signal E)
  | destroy (t : Nat)
  | run (t : Nat)
  | lock (g i : Nat)
  | locked (g : Nat)
  | unlock (g u : Nat)
  | unlocked (g : Nat)
  | wait (g t : Nat)
  | test (g u : Nat)
  | released (g : Nat)
  | relock (g i : Nat)
  | relocked (g : Nat)
  | settle (g : Nat)
  | back (g : Nat)
  -- A step of a running `Lock` or `UnLock`, or a call by a locker that has no guard.
  | mutex (l : AsyncMutex.Label)
  deriving DecidableEq

/-- What a waiter does when it is resumed is the work of its guard. -/
def quiet : CVPromise.Clients E where
  code := fun _ _ => []
  ended := fun _ => rfl

def calls : CVPromise.Signal E → CVPromise.Call E
  | .notify => .notify
  | .reject e => .reject e

def State.put (s : State E) (g : Nat) (x : Guard) : State E :=
  { s with guards := Function.update s.guards g x }

def State.goto (s : State E) (g : Nat) (phase : Phase) : State E :=
  s.put g { s.guards g with phase := phase }

def State.onCv (s : State E) (a : CVPromise.Action E) : Option (State E) :=
  (CVPromise.act quiet s.cv a).map fun m => { s with cv := m }

def State.onMutex (s : State E) (l : AsyncMutex.Label) : Option (State E) :=
  (AsyncMutex.step s.mutex l).map fun m => { s with mutex := m }

/-- `LockGuard::Lock`. -/
def State.lock (s : State E) (g i : Nat) (phase : Phase) : Option (State E) :=
  { s.put g { s.guards g with phase := phase, own := true, session := i } with
    owner := Function.update s.owner i (some g) }.onMutex (.lock i)

/-- `LockGuard::Unlock`. -/
def State.unlock (s : State E) (g u : Nat) (phase : Phase) : Option (State E) :=
  (s.put g { s.guards g with phase := phase, own := false }).onMutex
    (.unlock u (s.guards g).session)

def State.release (s : State E) (r : Release) : State E :=
  { s with released := s.released ++ [r] }

/-- What the next instruction of a thread means for the guard it is about. -/
def State.follow (s : State E) : CVPromise.Instr E → Option (State E)
  | .call _ (.wait g) =>
      some (s.put g { s.guards g with
        phase := .copied s.cv.shared.promise
        copied := s.cv.shared.swaps.length })
  | .attach _ n g =>
      if (s.guards g).phase = .attaching n then some (s.goto g (.waiting n)) else none
  | .resume _ n g =>
      match s.cv.shared.outcome n with
      | some (.value _) => some (s.goto g (.woken n))
      | some (.exception _) => some (s.goto g (.rejected n))
      | none => some s
  | _ => some s

def step (s : State E) : Label E → Option (State E)
  | .fork => s.onCv (.thread .fork)
  | .signal t o => s.onCv (.thread (.start t (calls o)))
  | .destroy t => s.onCv (.destroy t)
  | .run t =>
      match s.cv.threads[t]? with
      | some (i :: _) => (s.follow i).bind fun s => s.onCv (.thread (.run t))
      | _ => none
  | .lock g i =>
      if (s.guards g).phase = .free ∧ (s.guards g).own = false then s.lock g i .locking else none
  | .locked g =>
      if (s.guards g).phase = .locking ∧ s.mutex.stage (s.guards g).session = .granted then
        some (s.goto g .free)
      else none
  | .unlock g u =>
      if (s.guards g).phase = .free ∧ (s.guards g).own = true then s.unlock g u (.unlocking u)
      else none
  | .unlocked g =>
      match (s.guards g).phase with
      | .unlocking u => if s.mutex.unlocks u = .resume [] then some (s.goto g .free) else none
      | _ => none
  | .wait g t =>
      if (s.guards g).phase = .free then
        (s.goto g .copying).onCv (.thread (.start t (.wait g)))
      else none
  | .test g u =>
      match (s.guards g).phase with
      | .copied n =>
          if (s.guards g).own then
            (s.release ⟨g, n, (s.guards g).copied, s.cv.shared.swaps.length⟩).unlock g u
              (.releasing n u)
          else some (s.goto g (.attaching n))
      | _ => none
  | .released g =>
      match (s.guards g).phase with
      | .releasing n u =>
          if s.mutex.unlocks u = .resume [] then some (s.goto g (.attaching n)) else none
      | _ => none
  | .relock g i =>
      match (s.guards g).phase with
      | .woken n => s.lock g i (.relocking n)
      | _ => none
  | .relocked g =>
      match (s.guards g).phase with
      | .relocking n =>
          if s.mutex.stage (s.guards g).session = .granted then some (s.goto g (.acquired n))
          else none
      | _ => none
  | .settle g =>
      match (s.guards g).phase with
      | .acquired n => some (s.goto g (.resolved n))
      | _ => none
  | .back g =>
      match (s.guards g).phase with
      | .resolved _ => some (s.goto g .free)
      | .rejected _ => some (s.goto g .free)
      | _ => none
  | .mutex l =>
      match l with
      | .unlock _ k =>
          if s.owner k = none ∧ s.mutex.stage k = .granted then s.onMutex l else none
      | _ => s.onMutex l

def initial : State E where
  cv := CVPromise.initial
  mutex := AsyncMutex.initial
  guards := fun _ => { phase := .free, own := false, session := 0, copied := 0 }
  owner := fun _ => none
  released := []

abbrev Reached (s : State E) : Prop := Reachable step (· = initial) s

/-- Where a call of `Wait` is inside the `CVPromise`. -/
inductive Token where
  | copying
  | attaching (n : Nat)
  | waiting (n : Nat)
  | other
  deriving DecidableEq

def Phase.token : Phase → Option Token
  | .copying => some .copying
  | .copied n => some (.attaching n)
  | .releasing n _ => some (.attaching n)
  | .attaching n => some (.attaching n)
  | .waiting n => some (.waiting n)
  | _ => none

def place : CVPromise.Instr E → Option (Nat × Token)
  | .call _ (.wait g) => some (g, .copying)
  | .call _ (.attach _ g) => some (g, .other)
  | .attach _ n g => some (g, .attaching n)
  | .resume _ n g => some (g, .waiting n)
  | _ => none

def advanced (s : CVPromise.State E) : CVPromise.Instr E → Option (Nat × Token)
  | .call _ (.wait g) => some (g, .attaching s.promise)
  | .attach _ n g => some (g, .waiting n)
  | _ => none

def atPlace (g : Nat) (k : Token) (x : Option (Nat × Token)) : Nat :=
  if x = some (g, k) then 1 else 0

def tokenWeight (g : Nat) (k : Token) (i : CVPromise.Instr E) : Nat := atPlace g k (place i)

def listed (g n : Nat) (k : Token) (a : CVPromise.Awaiter) : Nat :=
  atPlace g k (some (a.continuation, .waiting n))

def tokenCost (g : Nat) (k : Token) (s : CVPromise.State E) : Nat :=
  match k with
  | .waiting n => ((s.cells n).awaiters.map (listed g n k)).sum
  | _ => 0

section Tokens
variable {s : CVPromise.State E} {g : Nat} {k : Token}

theorem listed_elsewhere {n : Nat} (other : k ≠ .waiting n) (as : List CVPromise.Awaiter) :
    (as.map (listed g n k)).sum = 0 := by
  have away : listed g n k = fun _ => 0 := by
    funext a
    simp [listed, atPlace, Ne.symm other]
  rw [away]
  simp

theorem settling_tokens (inside : List Nat) (i : Settling Nat Unit (CVPromise.Cause E)) :
    tokenCost g k (CVPromise.exec quiet (.settling inside i) s).1 +
      ((CVPromise.exec quiet (.settling inside i) s).2.map (tokenWeight g k)).sum =
      tokenCost g k s := by
  have next : (((settle (s.cells i.cell) i).next.map (CVPromise.Instr.settling inside)).map
      (tokenWeight g k)).sum = 0 := by
    simp [tokenWeight, place, atPlace, Function.comp_def]
  have flushed : (((settle (s.cells i.cell) i).flushed.map fun a =>
      CVPromise.Instr.resume (E := E) (i.cell :: inside) i.cell a.continuation).map
      (tokenWeight g k)).sum =
      ((settle (s.cells i.cell) i).flushed.map (listed g i.cell k)).sum := by
    rw [List.map_map]
    rfl
  simp only [CVPromise.exec, List.map_append, List.sum_append, next, flushed, Nat.zero_add]
  cases k with
  | waiting n =>
    simp only [tokenCost]
    rw [Family.settle_at, settle_flushed]
    split
    · rename_i here
      subst here
      rw [settle_awaiters]
      split <;> simp
    · rename_i other
      have elsewhere : Token.waiting n ≠ .waiting i.cell := by simpa using other
      exact congrArg (_ + ·) (listed_elsewhere elsewhere _)
  | _ => exact congrArg (0 + ·) (listed_elsewhere Token.noConfusion _)

/-- An instruction takes the call it is about to the next place, and moves no other. -/
theorem exec_tokens (i : CVPromise.Instr E)
    (usual : ∀ inside n g, i ≠ .call inside (.attach n g)) :
    tokenCost g k (CVPromise.exec quiet i s).1 +
      ((CVPromise.exec quiet i s).2.map (tokenWeight g k)).sum =
      tokenCost g k s + atPlace g k (advanced s i) := by
  cases i with
  | call inside x =>
    cases x with
    | wait g' =>
      simp [CVPromise.exec, CVPromise.call, CVPromise.wait, tokenCost, tokenWeight, place, advanced]
    | attach n g' => exact absurd rfl (usual inside n g')
    | notify => rfl
    | reject e => rfl
  | settling inside i => exact settling_tokens inside i
  | attach inside n g' =>
    simp only [CVPromise.exec]
    split
    · simp [tokenWeight, place, advanced]
    · simp only [advanced, List.map_nil, List.sum_nil, Nat.add_zero]
      cases k with
      | waiting n' =>
        simp only [tokenCost]
        rw [Family.register_at]
        split
        · rename_i here
          subst here
          simp [Cell.register, listed]
        · rename_i other
          simp [atPlace, Ne.symm other]
      | _ => simp [tokenCost, atPlace]
  | resume inside n g' =>
    simp only [CVPromise.exec]
    split <;> rfl
  | assertDone n => rfl

end Tokens

end LockAwareWait
