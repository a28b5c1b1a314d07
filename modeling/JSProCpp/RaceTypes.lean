import JSProCpp.RaceResult

/- The type of the promise that `Race` gives back, and what a reader of its value finds there.
   `T` are the non-void types, and `type` gives the type of a value. -/
namespace RaceSettlement
open Transitions Interleaving PromiseCells
variable {T V E : Type} [DecidableEq T]

/-- `UniqueVariantHelper::add_if_missing`; `none` is void. -/
def addIfMissing (us : List T) : Option T → List T
  | none => us
  | some t => if t ∈ us then us else us ++ [t]

def uniqueVariant (ts : List (Option T)) : List T := ts.foldl addIfMissing []

/-- `RaceReturn`: a type, a `std::variant` of types, or a `std::optional` of either. -/
inductive Return (T : Type) where
  | void
  | plain (t : T)
  | optional (t : T)
  | variant (us : List T)
  | optionalVariant (us : List T)
  deriving DecidableEq

def raceReturn (ts : List (Option T)) : Return T :=
  if ts.all Option.isNone then .void
  else
    match uniqueVariant ts with
    | [t] => if ts.any Option.isNone then .optional t else .plain t
    | us => if ts.any Option.isNone then .optionalVariant us else .variant us

inductive Stored (V : Type) where
  | void
  | plain (v : V)
  | nullopt
  | alternative (i : Nat) (v : V)
  deriving DecidableEq

section Values
variable (type : V → T)

/-- What `(*resolve)()`, `(*resolve)(std::nullopt)` or `(*resolve)(value)` stores: a variant is
    built in the alternative of exactly the value's type. -/
def Return.convert : Return T → Option V → Stored V
  | .void, _ => .void
  | .plain _, some v | .optional _, some v => .plain v
  | .variant us, some v | .optionalVariant us, some v => .alternative (us.idxOf (type v)) v
  | _, none => .nullopt

def Return.holds : Return T → Stored V → Bool
  | .void, .void => true
  | .plain t, .plain v | .optional t, .plain v => type v == t
  | .optional _, .nullopt | .optionalVariant _, .nullopt => true
  | .variant us, .alternative i v | .optionalVariant us, .alternative i v =>
      us[i]? == some (type v)
  | _, _ => false

def Return.read : Return T → Stored V → Option (T × V)
  | .plain t, .plain v | .optional t, .plain v => some (t, v)
  | .variant us, .alternative i v | .optionalVariant us, .alternative i v =>
      us[i]?.map fun t => (t, v)
  | _, _ => none

variable {type} {ts : List (Option T)} {us : List T} {t : T} {w w' : Option V}

theorem addIfMissing_mem (o : Option T) : t ∈ addIfMissing us o ↔ t ∈ us ∨ o = some t := by
  unfold addIfMissing
  cases o with
  | none => simp
  | some u =>
    by_cases there : u ∈ us
    · simp only [there, if_true, Option.some.injEq]
      exact ⟨.inl, fun either => either.elim id fun same => same ▸ there⟩
    · simp only [there, if_false, List.mem_append, List.mem_singleton, Option.some.injEq, eq_comm]

theorem uniqueVariant_snoc (ts : List (Option T)) (o : Option T) :
    uniqueVariant (ts ++ [o]) = addIfMissing (uniqueVariant ts) o := by
  unfold uniqueVariant
  rw [List.foldl_append, List.foldl_cons, List.foldl_nil]

theorem uniqueVariant_mem : t ∈ uniqueVariant ts ↔ some t ∈ ts := by
  induction ts using List.reverseRecOn with
  | nil => simp [uniqueVariant]
  | append_singleton ts o ih =>
    rw [uniqueVariant_snoc, addIfMissing_mem, ih, List.mem_append, List.mem_singleton,
      @eq_comm _ o]

theorem uniqueVariant_ordered (ts : List (Option T)) :
    (uniqueVariant ts).Pairwise fun t u => ts.idxOf (some t) < ts.idxOf (some u) := by
  induction ts using List.reverseRecOn with
  | nil => exact List.Pairwise.nil
  | append_singleton ts o ih =>
    have early : ∀ t ∈ uniqueVariant ts,
        (ts ++ [o]).idxOf (some t) = ts.idxOf (some t) ∧ ts.idxOf (some t) < ts.length := by
      intro t there
      have member := uniqueVariant_mem.mp there
      exact ⟨List.idxOf_append_of_mem member, List.idxOf_lt_length_of_mem member⟩
    have before : (uniqueVariant ts).Pairwise fun t u =>
        (ts ++ [o]).idxOf (some t) < (ts ++ [o]).idxOf (some u) := by
      refine ih.imp_of_mem fun {t u} first second earlier => ?_
      rw [(early t first).1, (early u second).1]
      exact earlier
    rw [uniqueVariant_snoc]
    unfold addIfMissing
    cases o with
    | none => exact before
    | some u =>
      by_cases there : u ∈ uniqueVariant ts
      · simpa only [there, if_true] using before
      · have last : (ts ++ [some u]).idxOf (some u) = ts.length := by
          rw [List.idxOf_append_of_notMem fun member => there (uniqueVariant_mem.mpr member)]
          simp
        simp only [there, if_false]
        refine List.pairwise_append.mpr ⟨before, List.pairwise_singleton _ _, ?_⟩
        intro t member v here
        rw [List.mem_singleton.mp here, last, (early t member).1]
        exact (early t member).2

/-- A value of one of the input types is stored as an object of `RaceReturn`, and read back. -/
theorem convert_read (fits : w.map type ∈ ts) :
    (raceReturn ts).holds type ((raceReturn ts).convert type w) = true ∧
      (raceReturn ts).read ((raceReturn ts).convert type w) = w.map fun v => (type v, v) := by
  unfold raceReturn
  split
  · rename_i voids
    have none_ := List.all_eq_true.mp voids _ fits
    cases w with
    | none => exact ⟨rfl, rfl⟩
    | some v => simp at none_
  · rename_i values
    cases w with
    | none =>
      have some_ : ts.any Option.isNone = true := List.any_eq_true.mpr ⟨none, fits, rfl⟩
      split
      · rw [if_pos some_]
        exact ⟨rfl, rfl⟩
      · rw [if_pos some_]
        exact ⟨rfl, rfl⟩
    | some v =>
      have there : type v ∈ uniqueVariant ts := uniqueVariant_mem.mpr fits
      split
      · rename_i t only
        obtain rfl : type v = t := by simpa [only] using there
        split <;> simp [Return.convert, Return.holds, Return.read]
      · have found : (uniqueVariant ts)[(uniqueVariant ts).idxOf (type v)]? = some (type v) :=
          List.getElem?_idxOf there
        split <;> simp [Return.convert, Return.holds, Return.read, found]

end Values

/-- `RaceReturn` has the non-void types as its alternatives, once each and in the order in which
    they come first, and is optional where a void input can leave it empty. -/
theorem raceReturn_shape (ts : List (Option T)) :
    (raceReturn ts = .void ↔ ∀ o ∈ ts, o = none) ∧
    (∀ t, raceReturn ts = .plain t → ∀ o ∈ ts, o = some t) ∧
    (∀ t, raceReturn ts = .optional t → none ∈ ts ∧ ∀ o ∈ ts, o = none ∨ o = some t) ∧
    (∀ us, raceReturn ts = .variant us ∨ raceReturn ts = .optionalVariant us →
      2 ≤ us.length ∧ us.Pairwise (fun t u => ts.idxOf (some t) < ts.idxOf (some u)) ∧
        ∀ t, t ∈ us ↔ some t ∈ ts) ∧
    (∀ us, raceReturn ts = .variant us → none ∉ ts) ∧
    (∀ us, raceReturn ts = .optionalVariant us → none ∈ ts) := by
  have order := uniqueVariant_ordered ts
  have members : ∀ t, t ∈ uniqueVariant ts ↔ some t ∈ ts := fun t => uniqueVariant_mem
  have empty : ts.any Option.isNone = true ↔ none ∈ ts := by
    simp only [List.any_eq_true, Option.isNone_iff_eq_none, exists_eq_right]
  unfold raceReturn
  split
  · rename_i voids
    have all : ∀ o ∈ ts, o = none := by simpa using voids
    simpa using all
  · rename_i values
    have some_ : ¬∀ o ∈ ts, o = none := by simpa using values
    split
    · rename_i t only
      have one : ∀ o ∈ ts, o = none ∨ o = some t := by
        intro o member
        cases o with
        | none => exact .inl rfl
        | some u => simpa [only] using (members u).mpr member
      split
      · rename_i void
        simpa [some_, empty.mp void] using one
      · rename_i full
        have void : none ∉ ts := fun member => full (empty.mpr member)
        simp only [reduceCtorEq, some_, Return.plain.injEq, false_implies, implies_true, or_self,
          and_true, true_and]
        rintro u rfl o member
        exact (one o member).resolve_left fun none_ => void (none_ ▸ member)
    · rename_i several
      have long : 2 ≤ (uniqueVariant ts).length := by
        by_contra short
        obtain ⟨o, member, full⟩ : ∃ o ∈ ts, o ≠ none := by simpa using some_
        obtain ⟨t, rfl⟩ := Option.ne_none_iff_exists'.mp full
        have there := (members t).mpr member
        cases whole : uniqueVariant ts with
        | nil => simp [whole] at there
        | cons u us =>
          cases us with
          | nil => exact several u whole
          | cons v us => simp [whole] at short
      split
      · rename_i void
        simp only [reduceCtorEq, some_, Return.optionalVariant.injEq, false_or, false_implies,
          implies_true, true_and, and_true, iff_self, empty.mp void]
        rintro us rfl
        exact ⟨long, order, members⟩
      · rename_i full
        have void : none ∉ ts := fun member => full (empty.mpr member)
        simp only [reduceCtorEq, some_, Return.variant.injEq, or_false, false_implies,
          implies_true, true_and, and_true, iff_self, void, not_false_eq_true]
        rintro us rfl
        exact ⟨long, order, members⟩

/-- In every reachable state of a race whose inputs settle with values of their types, the promise
    `Race` gives back holds an object of `RaceReturn`, from which a reader gets the value of an
    input that has settled, with the type of that input. -/
theorem race_typed {type : V → T} {r : Race} {types : Nat → Option T}
    {m : Machine (State V E) (Instr V E)} (reached : Reached r m)
    (voids : ∀ p ∈ r.inputs, r.isVoid p = (types p).isNone)
    (fits : ∀ p ∈ r.inputs, ∀ v, m.shared.outcome (.input p) = some (.value (some v)) →
      types p = some (type v)) {w : Option V} (done : result m = some (.value w)) :
    (raceReturn (r.inputs.map types)).holds type
      ((raceReturn (r.inputs.map types)).convert type w) = true ∧
    ∃ p ∈ r.inputs, m.shared.outcome (.input p) = some (.value w) ∧
      (types p).isSome = w.isSome ∧
      (raceReturn (r.inputs.map types)).read ((raceReturn (r.inputs.map types)).convert type w) =
        (types p).bind fun t => w.map fun v => (t, v) := by
  obtain ⟨p, member, won⟩ := result_won reached done
  have kept := ((reached_sound reached).inv.justified _ _ won).2.1
  have same : w.map type = types p := by
    simp only [Race.fits, voids p member] at kept
    cases w with
    | none => cases given : types p <;> simp_all
    | some v => exact (fits p member v won).symm
  have inside : w.map type ∈ r.inputs.map types := by
    rw [same]
    exact List.mem_map_of_mem member
  obtain ⟨holds, read⟩ := convert_read inside
  refine ⟨holds, p, member, won, ?_, ?_⟩
  · rw [← same, Option.isSome_map]
  · rw [read, ← same]
    cases w <;> rfl

theorem race_typed_second : ∃ m, run (step (program pair)) (initial pair) secondFirst = some m ∧
    (raceReturn (pair.inputs.map some)).holds (fun v => v % 2)
      ((raceReturn (pair.inputs.map some)).convert (fun v => v % 2) (some 7)) = true ∧
    (raceReturn (pair.inputs.map some)).convert (fun v => v % 2) (some 7) = .alternative 1 7 := by
  have facts : (run (step (program pair)) (initial pair) secondFirst).map (fun m =>
      (result m, m.shared.outcome (.input 0), m.shared.outcome (.input 1))) =
      some (some (.value (some 7)), none, some (.value (some 7))) := rfl
  obtain ⟨m, ran, facts⟩ := Option.map_eq_some_iff.mp facts
  simp only [Prod.mk.injEq] at facts
  obtain ⟨settled, pending, won⟩ := facts
  refine ⟨m, ran, ?_, rfl⟩
  refine (race_typed (run_reachable (.start rfl) ran) (fun _ _ => rfl) ?_ settled).1
  intro p member v done
  obtain rfl | rfl : p = 0 ∨ p = 1 := by simpa [pair] using member
  · simp [pending] at done
  · obtain rfl : 7 = v := by simpa [won] using done
    rfl

end RaceSettlement
