import Mathlib.Algebra.Order.BigOperators.Group.List
import Mathlib.Algebra.Order.Ring.Nat
import Mathlib.Logic.Hydra
import JSProCpp.Transitions

/- Threads that work off lists of atomic instructions on a shared state. An instruction is
   replaced by the instructions it leads to; an idle thread may start a call. -/
namespace Interleaving
open Transitions
variable {S I E D : Type}

structure Program (S I E : Type) where
  exec : I → S → S × List I
  spawn : Nat → E → S → Option (S × List I)

structure Machine (S I : Type) where
  shared : S
  threads : List (List I)

inductive Label (E : Type) where
  | fork
  | start (t : Nat) (e : E)
  | run (t : Nat)
  deriving DecidableEq

variable (p : Program S I E)

def step (m : Machine S I) : Label E → Option (Machine S I)
  | .fork => some { m with threads := m.threads ++ [[]] }
  | .start t e =>
      match m.threads[t]? with
      | some [] => (p.spawn t e m.shared).map fun r => ⟨r.1, m.threads.set t r.2⟩
      | _ => none
  | .run t =>
      match m.threads[t]? with
      | some (i :: rest) =>
          some ⟨(p.exec i m.shared).1, m.threads.set t ((p.exec i m.shared).2 ++ rest)⟩
      | _ => none

def Has (m : Machine S I) (i : I) : Prop := ∃ t ∈ m.threads, i ∈ t

def Idle (m : Machine S I) : Prop := ∀ t ∈ m.threads, t = []

inductive Change (m : Machine S I) : Machine S I → Label E → Prop where
  | fork : Change m ⟨m.shared, m.threads ++ [[]]⟩ .fork
  | start (t : Nat) (e : E) (s : S) (is : List I) (idle : m.threads[t]? = some [])
      (spawned : p.spawn t e m.shared = some (s, is)) :
      Change m ⟨s, m.threads.set t is⟩ (.start t e)
  | run (t : Nat) (i : I) (rest : List I) (here : m.threads[t]? = some (i :: rest)) :
      Change m ⟨(p.exec i m.shared).1, m.threads.set t ((p.exec i m.shared).2 ++ rest)⟩ (.run t)

variable {p} {m n : Machine S I} {l : Label E}

theorem step_change (taken : step p m l = some n) : Change p m n l := by
  cases l with
  | fork =>
    simp only [step, Option.some.injEq] at taken
    exact taken ▸ .fork
  | start t e =>
    simp only [step] at taken
    split at taken
    · rename_i idle
      obtain ⟨r, spawned, rfl⟩ := Option.map_eq_some_iff.mp taken
      exact .start t e r.1 r.2 idle spawned
    · simp at taken
  | run t =>
    simp only [step] at taken
    split at taken
    · rename_i i rest here
      rw [Option.some.injEq] at taken
      exact taken ▸ .run t i rest here
    · simp at taken

theorem has_idle (idle : Idle m) (i : I) : ¬Has m i := by
  rintro ⟨t, member, there⟩
  rw [idle t member] at there
  simp at there

theorem idle_thread (idle : Idle m) {t : Nat} (inside : t < m.threads.length) :
    m.threads[t]? = some [] := by
  rw [List.getElem?_eq_getElem inside, idle _ (List.getElem_mem inside)]

theorem step_threads (taken : step p m l = some n) : m.threads.length ≤ n.threads.length := by
  cases step_change taken <;> simp

theorem run_threads {ls : List (Label E)} (ran : run (step p) m ls = some n) :
    m.threads.length ≤ n.threads.length := by
  induction ls generalizing m with
  | nil =>
    simp only [run, Option.some.injEq] at ran
    exact ran ▸ Nat.le_refl _
  | cons l ls ih =>
    obtain ⟨u, taken, rest⟩ := Option.bind_eq_some_iff.mp ran
    exact Nat.le_trans (step_threads taken) (ih rest)

section Contents
variable {t : Nat} {s : S} {old new : List I} {x : I}

theorem has_here (here : m.threads[t]? = some old) (inside : x ∈ old) : Has m x :=
  ⟨old, List.mem_of_getElem? here, inside⟩

theorem has_new (here : m.threads[t]? = some old) (inside : x ∈ new) :
    Has ⟨s, m.threads.set t new⟩ x :=
  ⟨new, List.mem_of_getElem? (lookup_set here), inside⟩

theorem has_of_set (has : Has ⟨s, m.threads.set t new⟩ x) : Has m x ∨ x ∈ new := by
  obtain ⟨ys, member, inside⟩ := has
  rcases List.mem_or_eq_of_mem_set member with old | rfl
  · exact .inl ⟨ys, old, inside⟩
  · exact .inr inside

theorem has_set (here : m.threads[t]? = some old) (has : Has m x) (kept : x ∈ old → x ∈ new) :
    Has ⟨s, m.threads.set t new⟩ x := by
  obtain ⟨ys, member, inside⟩ := has
  obtain ⟨u, there⟩ := List.mem_iff_getElem?.mp member
  by_cases same : u = t
  · subst same
    rw [here, Option.some.injEq] at there
    exact has_new here (kept (there ▸ inside))
  · refine ⟨ys, List.mem_of_getElem? (i := u) ?_, inside⟩
    rw [List.getElem?_set_ne (Ne.symm same)]
    exact there

theorem has_fork : Has ⟨m.shared, m.threads ++ [[]]⟩ x ↔ Has m x := by
  constructor
  · rintro ⟨ys, member, inside⟩
    rcases List.mem_append.mp member with old | new
    · exact ⟨ys, old, inside⟩
    · rw [List.mem_singleton.mp new] at inside
      simp at inside
  · rintro ⟨ys, member, inside⟩
    exact ⟨ys, List.mem_append_left _ member, inside⟩

end Contents

/-- The shared state meets `Inv`, and every waiting instruction is fit to run in it. -/
structure Sound (Inv : S → Prop) (Fit : S → I → Prop) (m : Machine S I) : Prop where
  inv : Inv m.shared
  fit : ∀ i, Has m i → Fit m.shared i

/-- A state change that keeps the invariant, disturbs no waiting instruction and leads to fit
    instructions only. -/
structure Kept (Inv : S → Prop) (Fit : S → I → Prop) (s s' : S) (is : List I) : Prop where
  inv : Inv s'
  others : ∀ x, Fit s x → Fit s' x
  fit : ∀ x ∈ is, Fit s' x

/-- An instruction that changes nothing and leads to one other. -/
theorem kept_one {Inv : S → Prop} {Fit : S → I → Prop} {s : S} (x : I) (inv : Inv s)
    (fit : Fit s x) : Kept Inv Fit s s [x] := by
  refine ⟨inv, fun _ => id, fun y member => ?_⟩
  rw [List.mem_singleton.mp member]
  exact fit

theorem sound_step_head {Inv : S → Prop} {Fit Known : S → I → Prop}
    (execs : ∀ s i, Inv s → Fit s i → Known s i → Kept Inv Fit s (p.exec i s).1 (p.exec i s).2)
    (spawns : ∀ t e s s' is, Inv s → p.spawn t e s = some (s', is) → Kept Inv Fit s s' is)
    (known : ∀ (t : Nat) i rest, m.threads[t]? = some (i :: rest) → Known m.shared i)
    (sound : Sound Inv Fit m) (taken : step p m l = some n) : Sound Inv Fit n := by
  cases step_change taken with
  | fork => exact ⟨sound.inv, fun i has => sound.fit i (has_fork.mp has)⟩
  | start t e s is idle spawned =>
    have kept := spawns t e _ s is sound.inv spawned
    refine ⟨kept.inv, fun i has => ?_⟩
    rcases has_of_set has with old | new
    · exact kept.others i (sound.fit i old)
    · exact kept.fit i new
  | run t i rest here =>
    have waiting := has_here here List.mem_cons_self
    have kept := execs _ i sound.inv (sound.fit i waiting) (known t i rest here)
    refine ⟨kept.inv, fun x has => ?_⟩
    rcases has_of_set has with old | new
    · exact kept.others x (sound.fit x old)
    · rcases List.mem_append.mp new with pushed | later
      · exact kept.fit x pushed
      · exact kept.others x (sound.fit x (has_here here (List.mem_cons_of_mem _ later)))

theorem sound_step {Inv : S → Prop} {Fit Known : S → I → Prop}
    (execs : ∀ s i, Inv s → Fit s i → Known s i → Kept Inv Fit s (p.exec i s).1 (p.exec i s).2)
    (spawns : ∀ t e s s' is, Inv s → p.spawn t e s = some (s', is) → Kept Inv Fit s s' is)
    (known : ∀ i, Has m i → Known m.shared i) (sound : Sound Inv Fit m)
    (taken : step p m l = some n) : Sound Inv Fit n :=
  sound_step_head execs spawns (fun _ i _ here => known i (has_here here List.mem_cons_self))
    sound taken

/-- Whatever the shared state owes, some waiting instruction pays. -/
def Covered (Owed : S → D → Prop) (Pays : D → I → Prop) (m : Machine S I) : Prop :=
  ∀ d, Owed m.shared d → ∃ i, Has m i ∧ Pays d i

theorem covered_step {Inv : S → Prop} {Fit Known : S → I → Prop} {Owed : S → D → Prop}
    {Pays : D → I → Prop}
    (execs : ∀ s i d, Inv s → Fit s i → Known s i → Owed (p.exec i s).1 d →
      (∃ x ∈ (p.exec i s).2, Pays d x) ∨ (Owed s d ∧ ¬Pays d i))
    (spawns : ∀ t e s s' is d, Inv s → p.spawn t e s = some (s', is) → Owed s' d →
      (∃ x ∈ is, Pays d x) ∨ Owed s d)
    (known : ∀ i, Has m i → Known m.shared i) (sound : Sound Inv Fit m)
    (covered : Covered Owed Pays m) (taken : step p m l = some n) : Covered Owed Pays n := by
  intro d owed
  cases step_change taken with
  | fork =>
    obtain ⟨i, has, pays⟩ := covered d owed
    exact ⟨i, has_fork.mpr has, pays⟩
  | start t e s is idle spawned =>
    rcases spawns t e _ s is d sound.inv spawned owed with ⟨x, new, pays⟩ | old
    · exact ⟨x, has_new idle new, pays⟩
    · obtain ⟨i, has, pays⟩ := covered d old
      exact ⟨i, has_set idle has (by simp), pays⟩
  | run t i rest here =>
    have waiting := has_here here List.mem_cons_self
    rcases execs _ i d sound.inv (sound.fit i waiting) (known i waiting) owed with
      ⟨x, new, pays⟩ | ⟨old, unpaid⟩
    · exact ⟨x, has_new here (List.mem_append_left _ new), pays⟩
    · obtain ⟨x, has, pays⟩ := covered d old
      refine ⟨x, has_set here has fun inside => ?_, pays⟩
      rcases List.mem_cons.mp inside with rfl | later
      · exact absurd pays unpaid
      · exact List.mem_append_right _ later

theorem nothing_owed {Owed : S → D → Prop} {Pays : D → I → Prop}
    (covered : Covered Owed Pays m) (idle : Idle m) (d : D) : ¬Owed m.shared d := by
  intro owed
  obtain ⟨i, has, _⟩ := covered d owed
  exact has_idle idle i has

section Order
variable (Needs Gives : I → D → Prop)

/-- What an instruction of the thread needs is given, or an instruction before it gives it. -/
def Backed : (D → Prop) → List I → Prop
  | _, [] => True
  | given, i :: t => (∀ d, Needs i d → given d) ∧ Backed (fun d => given d ∨ Gives i d) t

variable {Needs Gives} {given given' : D → Prop} {is t : List I}

theorem backed_mono (more : ∀ d, given d → given' d) (backed : Backed Needs Gives given t) :
    Backed Needs Gives given' t := by
  induction t generalizing given given' with
  | nil => trivial
  | cons i t ih =>
    constructor
    · intro d needs
      exact more d (backed.1 d needs)
    · exact ih (fun d has => has.imp_left (more d)) backed.2

theorem backed_append (first : Backed Needs Gives given is)
    (second : Backed Needs Gives (fun d => given d ∨ ∃ i ∈ is, Gives i d) t) :
    Backed Needs Gives given (is ++ t) := by
  induction is generalizing given with
  | nil => simpa using second
  | cons i is ih =>
    constructor
    · exact first.1
    · apply ih first.2
      apply backed_mono _ second
      rintro d (old | ⟨j, member, gives⟩)
      · exact .inl (.inl old)
      · rcases List.mem_cons.mp member with rfl | later
        · exact .inl (.inr gives)
        · exact .inr ⟨j, later, gives⟩

theorem backed_free (free : ∀ i ∈ t, ∀ d, ¬Needs i d) : Backed Needs Gives given t := by
  induction t generalizing given with
  | nil => trivial
  | cons i t ih =>
    constructor
    · intro d needs
      exact absurd needs (free i List.mem_cons_self d)
    · exact ih fun j member => free j (List.mem_cons_of_mem _ member)

theorem backed_given (met : ∀ i ∈ t, ∀ d, Needs i d → given d) : Backed Needs Gives given t := by
  induction t generalizing given with
  | nil => trivial
  | cons i t ih =>
    constructor
    · exact met i List.mem_cons_self
    · exact ih fun j member d needs => .inl (met j (List.mem_cons_of_mem _ member) d needs)

theorem backed_step_within (Inv : S → Prop) {Done : S → D → Prop} {Known : S → I → Prop}
    (execs : ∀ s i, Known s i → (∀ d, Needs i d → Done s d) →
      Backed Needs Gives (Done (p.exec i s).1) (p.exec i s).2 ∧
      ∀ d, Done s d ∨ Gives i d → Done (p.exec i s).1 d ∨ ∃ j ∈ (p.exec i s).2, Gives j d)
    (grows : ∀ s i, Known s i → ∀ d, Done s d → Done (p.exec i s).1 d)
    (spawns : ∀ u e s s' is, Inv s → p.spawn u e s = some (s', is) →
      Backed Needs Gives (Done s') is ∧ ∀ d, Done s d → Done s' d)
    (inv : Inv m.shared) (known : ∀ i, Has m i → Known m.shared i)
    (backed : ∀ t ∈ m.threads, Backed Needs Gives (Done m.shared) t)
    (taken : step p m l = some n) : ∀ t ∈ n.threads, Backed Needs Gives (Done n.shared) t := by
  intro t member
  cases step_change taken with
  | fork =>
    rcases List.mem_append.mp member with old | new
    · exact backed t old
    · rw [List.mem_singleton.mp new]
      trivial
  | start u e s is idle spawned =>
    obtain ⟨fresh, kept⟩ := spawns u e _ s is inv spawned
    rcases List.mem_or_eq_of_mem_set member with old | rfl
    · exact backed_mono kept (backed t old)
    · exact fresh
  | run u i rest here =>
    have inside := known i (has_here here List.mem_cons_self)
    rcases List.mem_or_eq_of_mem_set member with old | rfl
    · exact backed_mono (grows _ i inside) (backed t old)
    · obtain ⟨head, tail⟩ := backed _ (List.mem_of_getElem? here)
      obtain ⟨fresh, gives⟩ := execs _ i inside head
      exact backed_append fresh (backed_mono gives tail)

theorem backed_step {Done : S → D → Prop} {Known : S → I → Prop}
    (execs : ∀ s i, Known s i → (∀ d, Needs i d → Done s d) →
      Backed Needs Gives (Done (p.exec i s).1) (p.exec i s).2 ∧
      ∀ d, Done s d ∨ Gives i d → Done (p.exec i s).1 d ∨ ∃ j ∈ (p.exec i s).2, Gives j d)
    (grows : ∀ s i, Known s i → ∀ d, Done s d → Done (p.exec i s).1 d)
    (spawns : ∀ u e s s' is, p.spawn u e s = some (s', is) →
      Backed Needs Gives (Done s') is ∧ ∀ d, Done s d → Done s' d)
    (known : ∀ i, Has m i → Known m.shared i)
    (backed : ∀ t ∈ m.threads, Backed Needs Gives (Done m.shared) t)
    (taken : step p m l = some n) : ∀ t ∈ n.threads, Backed Needs Gives (Done n.shared) t :=
  backed_step_within (fun _ => True) execs grows
    (fun u e s s' is _ spawned => spawns u e s s' is spawned) trivial known backed taken

theorem backed_head {Done : S → D → Prop} {u : Nat} {i : I} {rest : List I}
    (backed : ∀ t ∈ m.threads, Backed Needs Gives (Done m.shared) t)
    (here : m.threads[u]? = some (i :: rest)) : ∀ d, Needs i d → Done m.shared d :=
  (backed _ (List.mem_of_getElem? here)).1

end Order

section Load
variable (weight : I → Nat) (cost : S → Nat)

def load (m : Machine S I) : Nat :=
  cost m.shared + (m.threads.map fun t => (t.map weight).sum).sum

theorem sum_set (f : List I → Nat) {xs : List (List I)} {t : Nat} {old : List I}
    (new : List I) (here : xs[t]? = some old) :
    ((xs.set t new).map f).sum + f old = (xs.map f).sum + f new := by
  induction xs generalizing t with
  | nil => simp at here
  | cons y ys ih =>
    cases t with
    | zero =>
      simp only [List.getElem?_cons_zero, Option.some.injEq] at here
      subst here
      simp only [List.set_cons_zero, List.map_cons, List.sum_cons]
      omega
    | succ t =>
      have rest := ih (by simpa using here)
      simp only [List.set_cons_succ, List.map_cons, List.sum_cons]
      omega

theorem load_start {t : Nat} (s : S) (is : List I) (idle : m.threads[t]? = some []) :
    load weight cost ⟨s, m.threads.set t is⟩ + cost m.shared =
      load weight cost m + (is.map weight).sum + cost s := by
  have threads := sum_set (fun t => (t.map weight).sum) is idle
  simp only [List.map_nil, List.sum_nil] at threads
  simp only [load]
  omega

theorem load_run {t : Nat} {i : I} {rest : List I} (s : S) (is : List I)
    (here : m.threads[t]? = some (i :: rest)) :
    load weight cost ⟨s, m.threads.set t (is ++ rest)⟩ + weight i + cost m.shared =
      load weight cost m + (is.map weight).sum + cost s := by
  have threads := sum_set (fun t => (t.map weight).sum) (is ++ rest) here
  simp only [List.map_cons, List.sum_cons, List.map_append, List.sum_append] at threads
  simp only [load]
  omega

theorem load_fork : load weight cost ⟨m.shared, m.threads ++ [[]]⟩ = load weight cost m := by
  simp [load]

theorem weight_le_load {i : I} (has : Has m i) :
    weight i + cost m.shared ≤ load weight cost m := by
  obtain ⟨t, member, inside⟩ := has
  have thread : weight i ≤ (t.map weight).sum :=
    List.single_le_sum (by simp) _ (List.mem_map_of_mem inside)
  have all : (t.map weight).sum ≤ (m.threads.map fun t => (t.map weight).sum).sum :=
    List.single_le_sum (by simp) _ (List.mem_map_of_mem (f := fun t => (t.map weight).sum) member)
  simp only [load]
  omega

theorem load_has (more : cost m.shared < load weight cost m) : ∃ i, Has m i ∧ 0 < weight i := by
  have positive : 0 < (m.threads.map fun t => (t.map weight).sum).sum := by
    unfold load at more
    omega
  obtain ⟨_, thread, some_⟩ := List.sum_pos_iff_exists_pos_nat.mp positive
  obtain ⟨t, member, rfl⟩ := List.mem_map.mp thread
  obtain ⟨_, there, heavy⟩ := List.sum_pos_iff_exists_pos_nat.mp some_
  obtain ⟨i, inside, rfl⟩ := List.mem_map.mp there
  exact ⟨i, ⟨t, member, inside⟩, heavy⟩

theorem load_step {Inv : S → Prop} {Fit : S → I → Prop}
    (execs : ∀ s i, Inv s → Fit s i →
      cost (p.exec i s).1 + ((p.exec i s).2.map weight).sum ≤ cost s + weight i)
    (spawns : ∀ t e s s' is, Inv s → p.spawn t e s = some (s', is) →
      cost s' + (is.map weight).sum ≤ cost s)
    (sound : Sound Inv Fit m) (taken : step p m l = some n) :
    load weight cost n ≤ load weight cost m := by
  cases step_change taken with
  | fork => exact Nat.le_of_eq (load_fork weight cost)
  | start t e s is idle spawned =>
    have bound := spawns t e _ s is sound.inv spawned
    have change := load_start weight cost s is idle
    omega
  | run t i rest here =>
    have bound := execs _ i sound.inv (sound.fit i (has_here here List.mem_cons_self))
    have change := load_run weight cost (p.exec i m.shared).1 (p.exec i m.shared).2 here
    omega

theorem load_step_free
    (execs : ∀ s i, cost (p.exec i s).1 + ((p.exec i s).2.map weight).sum ≤ cost s + weight i)
    (spawns : ∀ t e s s' is, p.spawn t e s = some (s', is) →
      cost s' + (is.map weight).sum ≤ cost s)
    (taken : step p m l = some n) : load weight cost n ≤ load weight cost m := by
  have sound : Sound (fun _ : S => True) (fun (_ : S) (_ : I) => True) m :=
    ⟨trivial, fun _ _ => trivial⟩
  exact load_step weight cost (fun s i _ _ => execs s i)
    (fun t e s s' is _ spawned => spawns t e s s' is spawned) sound taken

section Rest
variable {Known : Machine S I → Prop} {Inv : S → Prop} {Fit : S → I → Prop}

theorem run_lowers
    (lowers : ∀ s i, Inv s → Fit s i →
      cost (p.exec i s).1 + ((p.exec i s).2.map weight).sum < cost s + weight i)
    (sound : Sound Inv Fit m) {t : Nat} (taken : step p m (.run t) = some n) :
    load weight cost n < load weight cost m := by
  cases step_change taken with
  | run t i rest here =>
    have less := lowers _ i sound.inv (sound.fit i (has_here here List.mem_cons_self))
    have change := load_run weight cost (p.exec i m.shared).1 (p.exec i m.shared).2 here
    omega

theorem run_enabled {t : Nat} {i : I} {rest : List I} (here : m.threads[t]? = some (i :: rest)) :
    ∃ n, step p m (.run t) = some n := by
  simp only [step, here]
  exact ⟨_, rfl⟩

theorem comes_to_rest
    (kept : ∀ m n : Machine S I, ∀ l, Known m → step p m l = some n → Known n)
    (sound : ∀ m, Known m → Sound Inv Fit m)
    (lowers : ∀ s i, Inv s → Fit s i →
      cost (p.exec i s).1 + ((p.exec i s).2.map weight).sum < cost s + weight i)
    (known : Known m) :
    ∃ (ts : List Nat) (n : Machine S I), run (step p) m (ts.map .run) = some n ∧ Idle n := by
  induction bound : load weight cost m using Nat.strong_induction_on generalizing m with
  | _ b ih =>
    by_cases idle : Idle m
    · exact ⟨[], m, rfl, idle⟩
    · obtain ⟨thread, member, busy⟩ : ∃ t ∈ m.threads, t ≠ [] := by
        simpa [Idle] using idle
      obtain ⟨t, here⟩ := List.mem_iff_getElem?.mp member
      obtain ⟨i, rest, rfl⟩ := List.exists_cons_of_ne_nil busy
      obtain ⟨u, taken⟩ := run_enabled (p := p) here
      have less := run_lowers weight cost lowers (sound m known) taken
      obtain ⟨ts, n, rests, idle⟩ := ih _ (bound ▸ less) (kept _ _ _ known taken) rfl
      exact ⟨t :: ts, n, run_cons taken rests, idle⟩

theorem rest_bound
    (kept : ∀ m n : Machine S I, ∀ l, Known m → step p m l = some n → Known n)
    (sound : ∀ m, Known m → Sound Inv Fit m)
    (lowers : ∀ s i, Inv s → Fit s i →
      cost (p.exec i s).1 + ((p.exec i s).2.map weight).sum < cost s + weight i)
    (known : Known m) {ts : List Nat} (ran : run (step p) m (ts.map .run) = some n) :
    ts.length + load weight cost n ≤ load weight cost m := by
  induction ts generalizing m with
  | nil =>
    simp only [List.map_nil, run, Option.some.injEq] at ran
    subst ran
    simp
  | cons t ts ih =>
    obtain ⟨u, taken, rest⟩ := Option.bind_eq_some_iff.mp ran
    have less := run_lowers weight cost lowers (sound m known) taken
    have later := ih (kept _ _ _ known taken) rest
    rw [List.length_cons]
    omega

end Rest

end Load

section Work
/- Work of a well-founded kind, for programs whose runs have no bound that is a number. -/
variable {W : Type} (item : I → W)

def work (m : Machine S I) : Multiset W :=
  (m.threads.map fun t => ((t.map item : List W) : Multiset W)).sum

variable {item} {less : W → W → Prop} {Holds : S → Multiset W → Prop}
variable {Inv : S → Prop} {Fit Moves : S → I → Prop} {Known : Machine S I → Prop}

end Work

end Interleaving
