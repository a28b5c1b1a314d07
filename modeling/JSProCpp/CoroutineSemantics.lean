import JSProCpp.CoroutineRest

/- At rest the coroutines have come as far as the sequential reading of their bodies goes. -/
namespace Coroutines
open Transitions Interleaving PromiseCells Relation
variable {B V E : Type} {code : Code B V E}

section Points
variable {s : State B V E} {p q : Pid}

inductive Next (code : Code B V E) (s : State B V E) (q : Pid) : Nat × B → Nat × B → Prop where
  | made (i : Nat) (r : Bool) (b : B) (c k : Pid → B) (makes : code.head b = .make r c k)
      (child : s.made (.child q i r) = some (c (.child q i r))) :
      Next code s q (i, b) (i + 1, k (.child q i r))
  | resumed (p : Pid) (i : Nat) (b : B) (k : Outcome V E → B) (o : Outcome V E)
      (needs : (code.head b).needs = some (p, k)) (done : s.outcome p = some o) :
      Next code s q (i, b) (i, k o)
  | called (i : Nat) (b : B) (h : Handle) (o : Outcome V E) (k : B)
      (calls : code.head b = .call h o k) : Next code s q (i, b) (i, k)

theorem next_unique (code : Code B V E) (s : State B V E) (q : Pid) :
    Relator.RightUnique (Next code s q) := by
  intro x y z first second
  cases first with
  | made i r b c k makes child =>
    cases second with
    | made _ _ _ _ _ makes' _ =>
      rw [makes, Head.make.injEq] at makes'
      obtain ⟨rfl, rfl, rfl⟩ := makes'
      rfl
    | resumed _ _ _ _ _ needs' _ => simp [makes, Head.needs] at needs'
    | called _ _ _ _ _ calls' => simp [makes] at calls'
  | resumed p i b k o needs done =>
    cases second with
    | made _ _ _ _ _ makes' _ => simp [makes', Head.needs] at needs
    | resumed _ _ _ _ _ needs' done' =>
      rw [needs, Option.some.injEq, Prod.mk.injEq] at needs'
      obtain ⟨rfl, rfl⟩ := needs'
      rw [done, Option.some.injEq] at done'
      rw [done']
    | called _ _ _ _ _ calls' => simp [calls', Head.needs] at needs
  | called i b h o k calls =>
    cases second with
    | made _ _ _ _ _ makes' _ => simp [calls] at makes'
    | resumed _ _ _ _ _ needs' _ => simp [calls, Head.needs] at needs'
    | called _ _ _ _ _ calls' =>
      rw [calls, Head.call.injEq] at calls'
      rw [calls'.2.2]

/-- A coroutine has come to a point exactly by the steps from its start. -/
theorem came_next {i : Nat} {b : B} (came : Came code s q i b) :
    ∃ b', s.made q = some b' ∧ ReflTransGen (Next code s q) (0, b') (i, b) := by
  induction came with
  | start b made => exact ⟨b, made, .refl⟩
  | made i r b c k _ makes child ih =>
    obtain ⟨b', made, steps⟩ := ih
    exact ⟨b', made, steps.tail (.made i r b c k makes child)⟩
  | resumed p i b k o _ needs done ih =>
    obtain ⟨b', made, steps⟩ := ih
    exact ⟨b', made, steps.tail (.resumed p i b k o needs done)⟩
  | called i b h o k _ calls ih =>
    obtain ⟨b', made, steps⟩ := ih
    exact ⟨b', made, steps.tail (.called i b h o k calls)⟩

structure Stands (code : Code B V E) (s : State B V E) (q : Pid) (i : Nat) (b : B) : Prop where
  came : Came code s q i b
  last : ∀ x, ¬Next code s q (i, b) x

theorem stands_done {i : Nat} {b : B} {o : Outcome V E} (ends : code.head b = .done o)
    (came : Came code s q i b) : Stands code s q i b := by
  refine ⟨came, fun x next => ?_⟩
  cases next with
  | made _ _ _ _ _ makes => simp [ends] at makes
  | resumed _ _ _ _ _ needs => simp [ends, Head.needs] at needs
  | called _ _ _ _ _ calls => simp [ends] at calls

theorem stands_after {i j : Nat} {b b' : B} (stands : Stands code s q j b')
    (came : Came code s q i b) : ReflTransGen (Next code s q) (i, b) (j, b') := by
  obtain ⟨start, made, there⟩ := came_next stands.came
  obtain ⟨start', made', here⟩ := came_next came
  rw [made, Option.some.injEq] at made'
  subst made'
  rcases ReflTransGen.total_of_right_unique (next_unique code s q) here there with after | before
  · exact after
  · rcases before.cases_head with same | ⟨x, next, _⟩
    · rw [same]
    · exact absurd next (stands.last x)

theorem stands_unique {i j : Nat} {b b' : B} (first : Stands code s q i b)
    (second : Stands code s q j b') : (i, b) = (j, b') := by
  rcases (stands_after second first.came).cases_head with same | ⟨x, next, _⟩
  · exact same
  · exact absurd next (first.last x)

/-- No promise that a handle has settled has a coroutine that goes on. -/
def Supplied (s : State B V E) : Prop :=
  ∀ p, p.handled = true → s.outcome p ≠ none → s.running p = false

theorem rested_stands (rested : Rested code (fun _ => False) s) (supplied : Supplied s)
    (made : s.made q ≠ none) : ∃ i b, Stands code s q i b ∧
      ((∃ r, code.head b = .done r ∧ s.running q = false) ∨
        ∃ p k, code.head b = .await p k ∧ s.outcome p = none) := by
  cases running : s.running q with
  | false =>
    obtain ⟨r, i, b, ends, came⟩ := rested.inv.ended q made running
    exact ⟨i, b, stands_done ends came, .inl ⟨r, ends, rfl⟩⟩
  | true =>
    obtain ⟨p, a, there, rfl⟩ := (rested_suspended rested running).resolve_left id
    have pending : s.outcome p = none := by
      rcases rested_awaited rested there with pending | ⟨handled, goes⟩ | none_
      · exact pending
      · by_contra settled
        simp [supplied p handled settled] at goes
      · exact none_.elim
    obtain ⟨b, awaits, came⟩ := rested.inv.awaiters p a there
    refine ⟨a.count, b, ⟨came, fun x next => ?_⟩, .inr ⟨p, a.resume, awaits, pending⟩⟩
    cases next with
    | made _ _ _ _ _ makes => simp [awaits] at makes
    | resumed _ _ _ _ _ needs done =>
      simp only [awaits, Head.needs, Option.some.injEq, Prod.mk.injEq] at needs
      simp [← needs.1, pending] at done
    | called _ _ _ _ _ calls => simp [awaits] at calls

theorem rested_outcome (rested : Rested code (fun _ => False) s) (supplied : Supplied s)
    (plain : q.handled = false) {o : Outcome V E} (ends : Ends code s q o) :
    s.outcome q = some o := by
  obtain ⟨i, b, end_, came⟩ := ends
  have made := came_made came
  obtain ⟨j, d, stands, last⟩ := rested_stands rested supplied made
  have same := stands_unique (stands_done end_ came) stands
  rw [Prod.mk.injEq] at same
  rcases last with ⟨r, ends, ended⟩ | ⟨p, k, awaits, _⟩
  · obtain ⟨-, settled⟩ := (rested_ended rested made ended).resolve_left id
    obtain ⟨o', done⟩ := Option.ne_none_iff_exists'.mp (settled plain)
    obtain ⟨n, d', end', finished⟩ := rested.inv.came q o' plain done
    have same := stands_unique (stands_done end_ came) (stands_done end' finished)
    rw [Prod.mk.injEq] at same
    rw [← same.2, end_, Head.done.injEq] at end'
    rw [done, end']
  · simp [← same.2, end_] at awaits

end Points

end Coroutines
