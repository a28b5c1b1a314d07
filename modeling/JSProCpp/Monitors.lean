import Mathlib.Data.List.Basic

/-
A reader–writer mutex and a condition variable. `SharedMutex` never has a writer beside a
reader; `Held` says that the threads inside are the ones it records. The rule for wake-ups:
when whatever makes a predicate true owes a notification, and the debt is only paid by waking
everyone, no thread sleeps on a true predicate unless a notification is owed.
-/
namespace Monitors

inductive Mode where
  | out
  | shared
  | exclusive
  deriving DecidableEq

structure SharedMutex where
  writer : Option Nat
  readers : List Nat
  exclusive : writer.isSome = true → readers = []
  deriving DecidableEq

namespace SharedMutex

def free : SharedMutex := ⟨none, [], fun _ => rfl⟩

def lock (m : SharedMutex) (i : Nat) : Option SharedMutex :=
  if m.writer = none ∧ m.readers = [] then some ⟨some i, [], fun _ => rfl⟩ else none

def unlock (m : SharedMutex) : SharedMutex := ⟨none, m.readers, by simp⟩

def lockShared (m : SharedMutex) (i : Nat) : Option SharedMutex :=
  if m.writer = none then some ⟨none, i :: m.readers, by simp⟩ else none

def unlockShared (m : SharedMutex) (i : Nat) : SharedMutex :=
  ⟨m.writer, m.readers.erase i, fun some_ => by rw [m.exclusive some_]; rfl⟩

theorem lock_some {m n : SharedMutex} {i : Nat} (taken : m.lock i = some n) :
    m.writer = none ∧ m.readers = [] ∧ n.writer = some i := by
  unfold lock at taken
  split at taken
  · rename_i free
    rw [Option.some.injEq] at taken
    exact ⟨free.1, free.2, taken ▸ rfl⟩
  · simp at taken

theorem lockShared_some {m n : SharedMutex} {i : Nat} (taken : m.lockShared i = some n) :
    m.writer = none ∧ n.writer = none ∧ n.readers = i :: m.readers := by
  unfold lockShared at taken
  split at taken
  · rename_i free
    rw [Option.some.injEq] at taken
    exact ⟨free, taken ▸ ⟨rfl, rfl⟩⟩
  · simp at taken

end SharedMutex

/-- The mutex records every thread that is inside. -/
structure Held (m : SharedMutex) (mode : Nat → Mode) : Prop where
  writer : ∀ i, mode i = .exclusive → m.writer = some i
  reader : ∀ i, mode i = .shared → i ∈ m.readers

/-- What one statement of thread `i` does to the mutex. -/
inductive Passes (i : Nat) (m : SharedMutex) : Mode → Mode → SharedMutex → Prop where
  | stay (x : Mode) : Passes i m x x m
  | lock {n : SharedMutex} (taken : m.lock i = some n) : Passes i m .out .exclusive n
  | unlock : Passes i m .exclusive .out m.unlock
  | lockShared {n : SharedMutex} (taken : m.lockShared i = some n) : Passes i m .out .shared n
  | unlockShared : Passes i m .shared .out (m.unlockShared i)

theorem held_free : Held SharedMutex.free fun _ => .out := by
  constructor
  · intro i inside
    cases inside
  · intro i inside
    cases inside

/-- A writer is alone. -/
theorem held_alone {m : SharedMutex} {mode : Nat → Mode} (held : Held m mode) {i j : Nat}
    (writes : mode i = .exclusive) (inside : mode j ≠ .out) : j = i := by
  have mine := held.writer i writes
  cases other : mode j with
  | out => exact absurd other inside
  | shared =>
    have reads := held.reader j other
    rw [m.exclusive (by rw [mine]; rfl)] at reads
    simp at reads
  | exclusive =>
    have theirs := held.writer j other
    rw [mine, Option.some.injEq] at theirs
    exact theirs.symm

theorem held_passes {m n : SharedMutex} {mode next : Nat → Mode} {i : Nat} (held : Held m mode)
    (passes : Passes i m (mode i) (next i) n) (rest : ∀ j, j ≠ i → next j = mode j) :
    Held n next := by
  have elsewhere : ∀ {j : Nat} {x : Mode}, next j = x → next i ≠ x → j ≠ i ∧ mode j = x := by
    intro j x inside different
    have other : j ≠ i := fun mine => different (mine ▸ inside)
    exact ⟨other, rest j other ▸ inside⟩
  generalize before : mode i = x at passes
  generalize after : next i = y at passes elsewhere
  cases passes with
  | stay =>
    have same : next = mode := by
      funext j
      by_cases mine : j = i
      · rw [mine, after, before]
      · exact rest j mine
    rw [same]
    exact held
  | lock taken =>
    obtain ⟨noWriter, noReader, writes⟩ := SharedMutex.lock_some taken
    constructor
    · intro j inside
      by_cases mine : j = i
      · rw [mine, writes]
      · have theirs := held.writer j (rest j mine ▸ inside)
        rw [noWriter] at theirs
        cases theirs
    · intro j inside
      have theirs := held.reader j (elsewhere inside (by decide)).2
      rw [noReader] at theirs
      cases theirs
  | unlock =>
    constructor
    · intro j inside
      obtain ⟨other, theirs⟩ := elsewhere inside (by decide)
      exact absurd (held_alone held before (by rw [theirs]; decide)) other
    · intro j inside
      exact held.reader j (elsewhere inside (by decide)).2
  | lockShared taken =>
    obtain ⟨noWriter, still, reads⟩ := SharedMutex.lockShared_some taken
    constructor
    · intro j inside
      have theirs := held.writer j (elsewhere inside (by decide)).2
      rw [noWriter] at theirs
      cases theirs
    · intro j inside
      rw [reads]
      by_cases mine : j = i
      · rw [mine]
        exact List.mem_cons_self
      · exact List.mem_cons_of_mem i (held.reader j (rest j mine ▸ inside))
  | unlockShared =>
    constructor
    · intro j inside
      exact held.writer j (elsewhere inside (by decide)).2
    · intro j inside
      obtain ⟨other, theirs⟩ := elsewhere inside (by decide)
      exact (List.mem_erase_of_ne other).mpr (held.reader j theirs)

section WakeUps
variable {S W : Type} {asleep : S → Nat → Option W} {holds : W → S → Bool} {owes : S → Prop}

/-- No thread sleeps on a true predicate unless a notification is owed. -/
def Guarded (asleep : S → Nat → Option W) (holds : W → S → Bool) (owes : S → Prop) (s : S) :
    Prop :=
  ∀ i w, asleep s i = some w → holds w s = false ∨ owes s

theorem guarded_step {s t : S} (guarded : Guarded asleep holds owes s)
    (falls : ∀ i w, asleep t i = some w → asleep s i = some w ∨ holds w t = false)
    (raises : ∀ w, holds w s = false → holds w t = true → owes t)
    (pays : owes s → owes t ∨ ∀ i, asleep t i = none) : Guarded asleep holds owes t := by
  intro i w sleeps
  rcases falls i w sleeps with before | fresh
  · rcases guarded i w before with idle | owed
    · by_cases now : holds w t = true
      · exact .inr (raises w idle now)
      · exact .inl (Bool.not_eq_true _ ▸ now)
    · rcases pays owed with still | none_
      · exact .inr still
      · rw [none_ i] at sleeps
        cases sleeps
  · exact .inl fresh

end WakeUps

end Monitors
