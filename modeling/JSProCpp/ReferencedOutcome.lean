import JSProCpp.SettleOutcome

/-
The argument of a promise-returning continuation of `Then` (the value) and of `Catch` (the
`exception_ptr`), taken by const reference, is an object of the source's `Resolver`. The resolver
is shared by the source's state and its `Resolve` and `Reject` handles; the coroutine that holds
the reference belongs to the next promise of the chain. A chain is a list of links, each with the
source it is built on and the coroutines its continuations have started.
-/
namespace ReferencedOutcome
open Transitions SharedPromise SettleOnce StateOwners Completion SettleOutcome
variable {V E H : Type}

inductive Handler where
  | value
  | exception
  | direct
  deriving DecidableEq

structure Coroutine (V E : Type) where
  handler : Handler
  finished : Bool
  read : List (Option (Resumed V E))
  deriving DecidableEq

structure Link (V E H : Type) where
  source : State V E H Handler
  handles : Nat
  coroutines : List (Coroutine V E)

inductive Event (V E H : Type) where
  | source (l : Label V E H Handler)
  | copy
  | drop
  | resume (k : Nat)
  | finish (k : Nat)
  deriving DecidableEq

def bound (s : State V E H Handler) : Handler → Option (Resumed V E)
  | .value => s.value.map .value
  | .exception => s.exception.map .throws
  | .direct => none

/-- The resolver has an owner: the state, through `resolver_`, or one of its handles. -/
def Link.owned (c : Link V E H) : Bool := c.source.alive || decide (0 < c.handles)

def lookup (c : Link V E H) (h : Handler) : Option (Resumed V E) :=
  if c.owned then bound c.source h else none

/-- The continuation runs with its argument: `Then` passes a rejection on and `Catch` a value. -/
def runs (s : State V E H Handler) : Handler → Bool
  | .value => s.exception.isNone && s.value.isSome
  | .exception => s.exception.isSome
  | .direct => false

def called {F : Type} (s : State V E H F) : Label V E H F → Option F
  | .step i =>
      match s.acts[i]? with
      | some ⟨.await f, .locked⟩ => if s.isDone then some f else none
      | some ⟨_, .flush _ _ (⟨.function f, _⟩ :: _)⟩ => some f
      | _ => none
  | _ => none

def starts (s : State V E H Handler) (l : Label V E H Handler) : Option Handler :=
  (called s l).filter (runs s)

def linkStep (c : Link V E H) : Event V E H → Option (Link V E H)
  | .source l => (step c.source l).map fun t =>
      { c with
        source := t
        coroutines := c.coroutines ++ (starts c.source l).toList.map fun h => ⟨h, false, []⟩ }
  | .copy => if 0 < c.handles then some { c with handles := c.handles + 1 } else none
  | .drop => if 0 < c.handles then some { c with handles := c.handles - 1 } else none
  | .resume k =>
      match c.coroutines[k]? with
      | some f =>
          if f.finished then none
          else some { c with
            coroutines := c.coroutines.set k { f with read := f.read ++ [lookup c f.handler] } }
      | none => none
  | .finish k =>
      match c.coroutines[k]? with
      | some f => some { c with coroutines := c.coroutines.set k { f with finished := true } }
      | none => none

def chainStep (chain : List (Link V E H)) (l : Nat × Event V E H) : Option (List (Link V E H)) :=
  match chain[l.1]? with
  | some c => (linkStep c l.2).map fun d => chain.set l.1 d
  | none => none

def Reads (c : Link V E H) (f : Coroutine V E) : Prop :=
  (∀ r ∈ f.read, r = some (awaitResume c.source)) ∧
    (f.finished = false → lookup c f.handler = some (awaitResume c.source))

def ChainReads (chain : List (Link V E H)) : Prop :=
  ∀ c ∈ chain, ∀ f ∈ c.coroutines, Reads c f

def Link.inUse (c : Link V E H) : Bool := c.coroutines.any fun f => !f.finished

/-- The resolver is not left without owner by a step of its source while it is in use, nor by the
    end of its last handle, and no continuation starts on one that has none. -/
def KeepsResolver (c : Link V E H) : Event V E H → Prop
  | .source l =>
      ((starts c.source l).isSome = true → c.owned = true) ∧
        ∀ o, givesUp c.source l = some o → c.inUse = true →
          OwnedWithout c.source o ∨ 0 < c.handles
  | .drop => c.inUse = true → c.source.alive = true ∨ 1 < c.handles
  | _ => True

def ChainKeeps (chain : List (Link V E H)) (l : Nat × Event V E H) : Prop :=
  ∀ c, chain[l.1]? = some c → KeepsResolver c l.2

def Fresh (c : Link V E H) : Prop := Initial c.source ∧ c.coroutines = []

structure Supplied (c : Link V E H) : Prop where
  reached : Reached c.source
  held : ∀ f ∈ c.coroutines, bound c.source f.handler = some (awaitResume c.source)

theorem runs_bound {s : State V E H Handler} {h : Handler} (h_runs : runs s h = true) :
    bound s h = some (awaitResume s) := by
  cases h with
  | value =>
    obtain ⟨pending, set⟩ := Bool.and_eq_true_iff.mp h_runs
    obtain ⟨v, value⟩ := Option.isSome_iff_exists.mp set
    simp [bound, awaitResume, value, Option.isNone_iff_eq_none.mp pending]
  | exception =>
    obtain ⟨e, exception⟩ := Option.isSome_iff_exists.mp h_runs
    simp [bound, awaitResume, exception]
  | direct => simp [runs] at h_runs

theorem bound_done {s : State V E H Handler} {h : Handler} {r : Resumed V E}
    (held : bound s h = some r) : s.isDone = true := by
  cases h with
  | value =>
    obtain ⟨v, value, _⟩ := Option.map_eq_some_iff.mp held
    simp [State.isDone, value]
  | exception =>
    obtain ⟨e, exception, _⟩ := Option.map_eq_some_iff.mp held
    simp [State.isDone, exception]
  | direct => simp [bound] at held

theorem outcome_congr {s t : State V E H Handler} (value : t.value = s.value)
    (exception : t.exception = s.exception) :
    awaitResume t = awaitResume s ∧ ∀ h, bound t h = bound s h := by
  constructor
  · unfold awaitResume
    rw [value, exception]
  · intro h
    cases h with
    | value => exact congrArg (Option.map Resumed.value) value
    | exception => exact congrArg (Option.map Resumed.throws) exception
    | direct => rfl

/-- A step that calls a continuation leaves outcome and owners as they are. -/
theorem called_step {F : Type} {s t : State V E H F} {l : Label V E H F} {f : F}
    (calls : called s l = some f) (taken : step s l = some t) :
    t.value = s.value ∧ t.exception = s.exception ∧ (t.alive = true ↔ s.alive = true) := by
  have keep : ∀ (i : Nat) (a b : Activation V E H F), s.acts[i]? = some a →
      t.acts = s.acts.set i b → t.owned = s.owned → b.keeps = a.keeps →
      (t.alive = true ↔ s.alive = true) := by
    intro i a b here acts owned keeps
    have back : s.acts = t.acts.set i a := by
      obtain ⟨inside, same⟩ := List.getElem?_eq_some_iff.mp here
      rw [acts, List.set_set, ← same, List.set_getElem_self]
    have there : t.acts[i]? = some b := by
      rw [acts]
      exact lookup_set here
    constructor
    · exact frame_alive there back (fun mine => owned.symm.trans mine) fun b => keeps ▸ b
    · exact frame_alive here acts (fun mine => owned.trans mine) fun a => keeps.trans a
  unfold called at calls
  split at calls
  case h_2 => simp at calls
  rename_i i
  split at calls
  · rename_i g here
    split at calls <;> simp only [Option.some.injEq, reduceCtorEq] at calls
    rename_i done
    simp only [step_act here, advance, lockedStep, lockedBody, done, if_true, Option.map_some,
      Option.some.injEq] at taken
    subst taken
    exact ⟨rfl, rfl, keep i _ _ here rfl rfl rfl⟩
  · rename_i c site saveSelf g id_ rest here
    simp only [step_act here, advance, onResolvedStep, Option.some.injEq] at taken
    subst taken
    exact ⟨rfl, rfl, keep i _ _ here rfl rfl (by cases site <;> rfl)⟩
  · simp at calls

theorem starts_step {s t : State V E H Handler} {l : Label V E H Handler} {h : Handler}
    (begin_ : starts s l = some h) (taken : step s l = some t) :
    runs s h = true ∧ t.value = s.value ∧ t.exception = s.exception ∧
      (t.alive = true ↔ s.alive = true) := by
  obtain ⟨calls, run⟩ := Option.filter_eq_some_iff.mp begin_
  exact ⟨run, called_step calls taken⟩

theorem owned_iff (c : Link V E H) : c.owned = true ↔ c.source.alive = true ∨ 0 < c.handles := by
  simp [Link.owned]

theorem lookup_owned {c : Link V E H} {h : Handler} {r : Resumed V E}
    (found : lookup c h = some r) : c.owned = true := by
  by_contra freed
  simp [lookup, freed] at found

theorem inUse_iff (c : Link V E H) :
    c.inUse = true ↔ ∃ f ∈ c.coroutines, f.finished = false := by
  simp [Link.inUse]

inductive Moved (c : Link V E H) : Event V E H → Link V E H → Prop where
  | source (l : Label V E H Handler) (t : State V E H Handler) (moved : step c.source l = some t) :
      Moved c (.source l)
        { c with
          source := t
          coroutines := c.coroutines ++ (starts c.source l).toList.map fun h => ⟨h, false, []⟩ }
  | copy (held : 0 < c.handles) : Moved c .copy { c with handles := c.handles + 1 }
  | drop (held : 0 < c.handles) : Moved c .drop { c with handles := c.handles - 1 }
  | resume (k : Nat) (f : Coroutine V E) (here : c.coroutines[k]? = some f)
      (running : f.finished = false) :
      Moved c (.resume k)
        { c with
          coroutines := c.coroutines.set k { f with read := f.read ++ [lookup c f.handler] } }
  | finish (k : Nat) (f : Coroutine V E) (here : c.coroutines[k]? = some f) :
      Moved c (.finish k) { c with coroutines := c.coroutines.set k { f with finished := true } }

theorem linkStep_moved {c d : Link V E H} {e : Event V E H} (taken : linkStep c e = some d) :
    Moved c e d := by
  cases e with
  | source l =>
    obtain ⟨t, moved, same⟩ := Option.map_eq_some_iff.mp taken
    exact same ▸ .source l t moved
  | copy =>
    simp only [linkStep] at taken
    split at taken <;> simp only [Option.some.injEq, reduceCtorEq] at taken
    exact taken ▸ .copy ‹_›
  | drop =>
    simp only [linkStep] at taken
    split at taken <;> simp only [Option.some.injEq, reduceCtorEq] at taken
    exact taken ▸ .drop ‹_›
  | resume k =>
    simp only [linkStep] at taken
    split at taken
    · rename_i f here
      split at taken <;> simp only [Option.some.injEq, reduceCtorEq] at taken
      rename_i running
      exact taken ▸ .resume k f here (Bool.not_eq_true _ ▸ running)
    · simp at taken
  | finish k =>
    simp only [linkStep] at taken
    split at taken <;> simp only [Option.some.injEq, reduceCtorEq] at taken
    exact taken ▸ .finish k _ ‹_›

theorem supplied_step {c d : Link V E H} {e : Event V E H} (inv : Supplied c)
    (taken : linkStep c e = some d) : Supplied d ∧
      ((∃ f ∈ c.coroutines, True) → awaitResume d.source = awaitResume c.source ∧
        ∀ h, bound d.source h = bound c.source h) := by
  cases linkStep_moved taken with
  | source l t moved =>
    have kept : (∃ f ∈ c.coroutines, True) → awaitResume t = awaitResume c.source ∧
        ∀ h, bound t h = bound c.source h := by
      intro some_
      obtain ⟨f, member, _⟩ := some_
      obtain ⟨value, exception⟩ := outcome_step (reached_agreement inv.reached)
        (bound_done (inv.held f member)) moved
      exact outcome_congr value exception
    refine ⟨⟨.next inv.reached moved, ?_⟩, kept⟩
    intro f member
    rcases List.mem_append.mp member with old | new
    · obtain ⟨outcome, member_⟩ := kept ⟨f, old, trivial⟩
      exact (member_ f.handler).trans ((inv.held f old).trans (congrArg some outcome.symm))
    · obtain ⟨h, begin_, rfl⟩ := List.mem_map.mp new
      rw [Option.mem_toList] at begin_
      obtain ⟨run, value, exception, _⟩ := starts_step begin_ moved
      obtain ⟨outcome, member_⟩ := outcome_congr value exception
      exact (member_ h).trans ((runs_bound run).trans (congrArg some outcome.symm))
  | copy | drop => exact ⟨⟨inv.reached, inv.held⟩, fun _ => ⟨rfl, fun _ => rfl⟩⟩
  | resume k f here | finish k f here =>
    refine ⟨⟨inv.reached, ?_⟩, fun _ => ⟨rfl, fun _ => rfl⟩⟩
    intro g member
    rcases List.mem_or_eq_of_mem_set member with old | rfl
    · exact inv.held g old
    · exact inv.held f (List.mem_of_getElem? here)

theorem owned_step {c d : Link V E H} {e : Event V E H} (met : KeepsResolver c e)
    (inUse : c.inUse = true) (owned : c.owned = true) (taken : linkStep c e = some d) :
    d.owned = true := by
  cases linkStep_moved taken with
  | source l t moved =>
    rw [owned_iff]
    by_cases handles : 0 < c.handles
    · exact .inr handles
    · have alive := ((owned_iff c).mp owned).resolve_right handles
      apply Or.inl
      exact step_alive moved alive fun o up => (met.2 o up inUse).resolve_right handles
  | copy => exact (owned_iff _).mpr (.inr (Nat.succ_pos _))
  | drop =>
    rw [owned_iff]
    exact (met inUse).imp_right fun more => Nat.sub_pos_of_lt more
  | resume | finish => exact owned

theorem started_owned {c d : Link V E H} {l : Label V E H Handler} {h : Handler}
    (begin_ : starts c.source l = some h) (taken : linkStep c (.source l) = some d) :
    d.owned = c.owned := by
  cases linkStep_moved taken with
  | source l t moved =>
  have alive := (starts_step begin_ moved).2.2.2
  rw [Bool.eq_iff_iff, owned_iff, owned_iff]
  exact or_congr_left alive

theorem reads_of_owned {c : Link V E H} {f : Coroutine V E} (inv : Supplied c)
    (member : f ∈ c.coroutines) (past : ∀ r ∈ f.read, r = some (awaitResume c.source))
    (owned : f.finished = false → c.owned = true) : Reads c f := by
  refine ⟨past, fun running => ?_⟩
  unfold lookup
  rw [if_pos (owned running)]
  exact inv.held f member

theorem reads_step {c d : Link V E H} {e : Event V E H} (inv : Supplied c)
    (reads : ∀ f ∈ c.coroutines, Reads c f) (met : KeepsResolver c e)
    (taken : linkStep c e = some d) : ∀ f ∈ d.coroutines, Reads d f := by
  obtain ⟨next, kept⟩ := supplied_step inv taken
  have old : ∀ f ∈ c.coroutines, f ∈ d.coroutines → Reads d f := by
    intro f before member
    apply reads_of_owned next member
    · intro r read
      rw [(kept ⟨f, before, trivial⟩).1]
      exact (reads f before).1 r read
    · intro running
      have owned := lookup_owned ((reads f before).2 running)
      exact owned_step met ((inUse_iff c).mpr ⟨f, before, running⟩) owned taken
  intro f member
  by_cases before : f ∈ c.coroutines
  · exact old f before member
  cases linkStep_moved taken with
  | source l t moved =>
    have new := (List.mem_append.mp member).resolve_left before
    obtain ⟨h, begin_, rfl⟩ := List.mem_map.mp new
    rw [Option.mem_toList] at begin_
    apply reads_of_owned next member (by simp)
    intro _
    rw [started_owned begin_ taken]
    exact met.1 (by rw [begin_]; rfl)
  | copy | drop => exact absurd member before
  | resume k g here running =>
    have mine := reads g (List.mem_of_getElem? here)
    rcases List.mem_or_eq_of_mem_set member with stays | rfl
    · exact absurd stays before
    · apply reads_of_owned next member
      · intro r read
        rcases List.mem_append.mp read with past | now
        · exact mine.1 r past
        · exact (List.mem_singleton.mp now).trans (mine.2 running)
      · exact fun _ => lookup_owned (mine.2 running)
  | finish k g here =>
    rcases List.mem_or_eq_of_mem_set member with stays | rfl
    · exact absurd stays before
    · exact reads_of_owned next member (reads g (List.mem_of_getElem? here)).1 (by simp)

theorem keeps_of_reads {c d : Link V E H} {e : Event V E H} (taken : linkStep c e = some d)
    (reads : ∀ f ∈ d.coroutines, Reads d f) : KeepsResolver c e := by
  have owned : ∀ f ∈ d.coroutines, f.finished = false → d.owned = true :=
    fun f member running => lookup_owned ((reads f member).2 running)
  cases linkStep_moved taken with
  | source l t moved =>
    constructor
    · intro some_
      obtain ⟨h, begin_⟩ := Option.isSome_iff_exists.mp some_
      rw [← started_owned begin_ taken]
      apply owned ⟨h, false, []⟩ ?_ rfl
      simp [begin_]
    · intro o up inUse
      obtain ⟨f, member, running⟩ := (inUse_iff c).mp inUse
      have still := owned f (List.mem_append.mpr (.inl member)) running
      exact ((owned_iff _).mp still).imp_left fun alive => step_gives moved up alive
  | drop =>
    intro inUse
    obtain ⟨f, member, running⟩ := (inUse_iff c).mp inUse
    have still := owned f member running
    exact ((owned_iff _).mp still).imp_right fun more => Nat.lt_of_sub_pos more
  | _ => trivial

theorem chain_step {chain next : List (Link V E H)} {l : Nat × Event V E H}
    (taken : chainStep chain l = some next) : ∃ c d, chain[l.1]? = some c ∧
      linkStep c l.2 = some d ∧ next = chain.set l.1 d := by
  unfold chainStep at taken
  split at taken
  · rename_i c here
    obtain ⟨d, moved, same⟩ := Option.map_eq_some_iff.mp taken
    exact ⟨c, d, here, moved, same.symm⟩
  · simp at taken

theorem chain_supplied {chain next : List (Link V E H)} {l : Nat × Event V E H}
    (inv : ∀ c ∈ chain, Supplied c) (taken : chainStep chain l = some next) :
    ∀ c ∈ next, Supplied c := by
  obtain ⟨c, d, here, moved, rfl⟩ := chain_step taken
  intro x member
  rcases List.mem_or_eq_of_mem_set member with old | rfl
  · exact inv x old
  · exact (supplied_step (inv c (List.mem_of_getElem? here)) moved).1

theorem chain_reads {chain next : List (Link V E H)} {l : Nat × Event V E H}
    (inv : ∀ c ∈ chain, Supplied c) (reads : ChainReads chain) (met : ChainKeeps chain l)
    (taken : chainStep chain l = some next) : ChainReads next := by
  obtain ⟨c, d, here, moved, rfl⟩ := chain_step taken
  intro x member
  rcases List.mem_or_eq_of_mem_set member with old | rfl
  · exact reads x old
  · have before := List.mem_of_getElem? here
    exact reads_step (inv c before) (reads c before) (met c here) moved

/-- In a run, every promise-returning continuation of the chain reads the outcome of its source
    through its reference at whatever time its coroutine runs, exactly if no step takes the last
    owner from a resolver that a coroutine still refers to or starts one on such a resolver. -/
theorem async_argument_iff {chain : List (Link V E H)} (fresh : ∀ c ∈ chain, Fresh c)
    (ls : List (Nat × Event V E H)) :
    Always chainStep ChainReads chain ls ↔ Meets chainStep ChainKeeps chain ls := by
  have supplied : ∀ c ∈ chain, Supplied c := by
    intro c member
    obtain ⟨start, none_⟩ := fresh c member
    exact ⟨.start start, by simp [none_]⟩
  have start : ChainReads chain := by
    intro c member
    simp [(fresh c member).2]
  constructor
  · intro always
    have breaks : ∀ (now : List (Link V E H)) (l : Nat × Event V E H) (next : List (Link V E H)),
        (∀ c ∈ now, Supplied c) → chainStep now l = some next → ChainReads next →
        ChainKeeps now l := by
      intro now l next _ taken reads c here
      obtain ⟨b, d, there, moved, same⟩ := chain_step taken
      subst same
      rw [there, Option.some.injEq] at here
      subst here
      exact keeps_of_reads moved (reads d (List.mem_of_getElem? (lookup_set there)))
    exact meets_of_always (fun _ _ _ inv taken => chain_supplied inv taken) breaks supplied always
  · intro meets
    have kept : ∀ (now : List (Link V E H)) (l : Nat × Event V E H) (next : List (Link V E H)),
        (∀ c ∈ now, Supplied c) ∧ ChainReads now → ChainKeeps now l →
        chainStep now l = some next → (∀ c ∈ next, Supplied c) ∧ ChainReads next := by
      intro now l next inv met taken
      exact ⟨chain_supplied inv.1 taken, chain_reads inv.1 inv.2 met taken⟩
    exact always_of_meets kept (fun _ inv => inv.2) ⟨supplied, start⟩ meets

/-- While every link has a handle of its resolver left, nothing its source does matters. -/
theorem handled_meets {chain : List (Link V E H)} (handled : ∀ c ∈ chain, 0 < c.handles)
    (ls : List (Nat × Event V E H)) (undropped : ∀ l ∈ ls, l.2 ≠ .drop) :
    Meets chainStep ChainKeeps chain ls := by
  induction ls generalizing chain with
  | nil => trivial
  | cons l ls ih =>
    intro next taken
    obtain ⟨c, d, here, moved, rfl⟩ := chain_step taken
    have more := handled c (List.mem_of_getElem? here)
    have stays : d.handles = c.handles ∨ d.handles = c.handles + 1 := by
      have kind := undropped l List.mem_cons_self
      generalize l.2 = e at moved kind
      cases linkStep_moved moved with
      | drop => exact absurd rfl kind
      | copy => exact .inr rfl
      | source | resume | finish => exact .inl rfl
    constructor
    · intro b there
      rw [here, Option.some.injEq] at there
      subst there
      cases event : l.2 with
      | drop => exact absurd event (undropped l List.mem_cons_self)
      | source m =>
        exact ⟨fun _ => (owned_iff c).mpr (.inr more), fun _ _ _ => .inr more⟩
      | _ => trivial
    · apply ih
      · intro x member
        rcases List.mem_or_eq_of_mem_set member with old | rfl
        · exact handled x old
        · omega
      · exact fun m member => undropped m (List.mem_cons_of_mem _ member)

/-- A promise of `Create()` as the only link. -/
def single : List (Link Nat Nat Nat) := [⟨initial false [] fun _ => .pending, 1, []⟩]

def resolvedSource : List (Nat × Event Nat Nat Nat) :=
  [(0, .source (.call (.resolve 7 false))), (0, .source (.step 0)), (0, .source (.step 0)),
    (0, .source (.step 0)), (0, .source (.step 0)), (0, .source (.step 0)), (0, .source (.step 0))]

/-- `std::move(source).Then(f)` on the resolved promise, up to the end of the full expression. -/
def movedThen : List (Nat × Event Nat Nat Nat) :=
  [(0, .source (.call (.await .value))), (0, .source (.step 1)), (0, .source (.step 1)),
    (0, .source (.call (.detach 0))), (0, .source (.step 2)), (0, .source (.step 2)),
    (0, .source (.call (.destroy 0))), (0, .source (.step 3))]

theorem async_argument_handled :
    Always chainStep ChainReads single (resolvedSource ++ movedThen ++ [(0, .resume 0)]) := by
  apply (async_argument_iff ?_ _).mpr
  · exact handled_meets (by simp [single]) _ (by simp [resolvedSource, movedThen])
  · intro c member
    rw [List.mem_singleton.mp member]
    exact ⟨⟨false, [], fun _ => .pending, rfl⟩, rfl⟩

/-- `std::move(source).Catch(g)` on the pending promise, which then rejects and flushes. -/
def movedCatch : List (Nat × Event Nat Nat Nat) :=
  [(0, .source (.call (.await .exception))), (0, .source (.step 0)), (0, .source (.step 0)),
    (0, .source (.call (.detach 0))), (0, .source (.step 1)), (0, .source (.step 1)),
    (0, .source (.call (.reject (some 3)))), (0, .source (.step 2)), (0, .source (.step 2)),
    (0, .source (.step 2)), (0, .source (.step 2)), (0, .source (.step 2)), (0, .source (.step 2)),
    (0, .source (.step 2)), (0, .source (.step 2))]

/-- With the last handle of the resolver gone too, both coroutines read a freed object. -/
theorem async_argument_freed :
    (∃ chain, run chainStep single
        (resolvedSource ++ [(0, .drop)] ++ movedThen ++ [(0, .resume 0)]) = some chain ∧
      chain.map Link.coroutines = [[⟨.value, false, [none]⟩]] ∧ ¬ChainReads chain) ∧
    ∃ chain, run chainStep single (movedCatch ++ [(0, .drop), (0, .resume 0)]) = some chain ∧
      chain.map Link.coroutines = [[⟨.exception, false, [none]⟩]] ∧ ¬ChainReads chain := by
  refine ⟨⟨_, rfl, rfl, fun reads => ?_⟩, ⟨_, rfl, rfl, fun reads => ?_⟩⟩
  · have past := (reads _ (List.mem_of_getElem? (i := 0) rfl) _
      (List.mem_of_getElem? (i := 0) rfl)).1 none (List.mem_of_getElem? (i := 0) rfl)
    exact Option.some_ne_none _ past.symm
  · have past := (reads _ (List.mem_of_getElem? (i := 0) rfl) _
      (List.mem_of_getElem? (i := 0) rfl)).1 none (List.mem_of_getElem? (i := 0) rfl)
    exact Option.some_ne_none _ past.symm

end ReferencedOutcome
