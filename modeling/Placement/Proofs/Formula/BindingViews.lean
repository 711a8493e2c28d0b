import Placement.Proofs.Binary.Overflow
import Placement.Proofs.Formula.Postfix

namespace Placement

/-- What becomes a number. Truth values do not. -/
def Given.isNumber : Given → Bool
  | .datum (.int _) | .datum (.rational _) | .datum (.float _) => true
  | .datum _ => false
  | .bound value => value.isNumber

/-- An integer or a rational number with no finite binary64 value. -/
inductive Given.TooLarge : Given → Prop
  | int {n : Int} : 2 ^ 1024 - 2 ^ 970 ≤ n.natAbs → TooLarge (.datum (.int n))
  | rational {q : Rat} : (2 ^ 1024 - 2 ^ 970) * q.den ≤ q.num.natAbs →
      TooLarge (.datum (.rational q))

theorem Given.tooLarge_int_iff {n : Int} :
    (Given.datum (.int n)).TooLarge ↔ 2 ^ 1024 - 2 ^ 970 ≤ n.natAbs :=
  ⟨fun | .int beyond => beyond, .int⟩

theorem Given.tooLarge_rational_iff {q : Rat} :
    (Given.datum (.rational q)).TooLarge ↔ (2 ^ 1024 - 2 ^ 970) * q.den ≤ q.num.natAbs :=
  ⟨fun | .rational beyond => beyond, .rational⟩

theorem Given.bind?_eq_none_iff {given : Given} : given.bind? = none ↔ given.TooLarge := by
  cases given with
  | bound value => exact iff_of_false nofun nofun
  | datum value =>
    cases value with
    | int n =>
      rw [bind?, Bound.ofDatum?, Option.map_eq_none_iff, singleOfInt?_eq_none_iff,
        tooLarge_int_iff]
    | rational q =>
      rw [bind?, Bound.ofDatum?, Option.map_eq_none_iff, singleOfRat?_eq_none_iff,
        tooLarge_rational_iff]
    | _ => exact iff_of_false nofun nofun

theorem Given.isNumber_of_bind? {given : Given} {value : Bound}
    (bound : given.bind? = some value) : value.isNumber = given.isNumber := by
  cases given with
  | bound other =>
    cases bound
    rfl
  | datum other =>
    cases other with
    | int | rational =>
      obtain ⟨x, _, rfl⟩ := Option.map_eq_some_iff.mp bound
      rfl
    | _ =>
      cases bound
      rfl

namespace Bindings

variable {pairs : List (String × Given)} {bindings : Bindings} {name : String}

/-- Bindings hold one entry for each pair. -/
theorem ofPairs_eq_ok_iff : ofPairs pairs = .ok bindings ↔
    pairs.map (fun pair => (pair.1, pair.2.bind?)) =
      bindings.entries.map fun entry => (entry.1, some entry.2) := by
  obtain ⟨entries⟩ := bindings
  induction pairs generalizing entries with
  | nil =>
    cases entries with
    | nil => exact iff_of_true rfl rfl
    | cons entry others =>
      exact iff_of_false (fun made => by cases made) (List.cons_ne_nil _ _).symm
  | cons pair rest ih =>
    obtain ⟨name, given⟩ := pair
    cases bound : given.bind? with
    | none =>
      rw [ofPairs, bound]
      refine iff_of_false (fun made => by cases made) fun same => ?_
      cases entries with
      | nil => cases same
      | cons entry others => simp [bound] at same
    | some value =>
      rw [ofPairs_cons bound, map_eq_ok_iff, List.map_cons, bound]
      constructor
      · rintro ⟨behind, made, same⟩
        cases same
        rw [(ih behind.entries).mp made, List.map_cons]
      · intro same
        cases entries with
        | nil => cases same
        | cons entry others =>
          obtain ⟨atFirst, atRest⟩ := List.cons.inj same
          cases atFirst
          exact ⟨⟨others⟩, (ih others).mpr atRest, rfl⟩

theorem ofPairs_eq_error_iff {cause : EvaluationError} : ofPairs pairs = .error cause ↔
    cause = .bindingRange ∧ ∃ pair ∈ pairs, pair.2.TooLarge := by
  constructor
  · intro failed
    obtain ⟨same, pair, member, unbound⟩ := of_ofPairs_eq_error failed
    exact ⟨same, pair, member, Given.bind?_eq_none_iff.mp unbound⟩
  · rintro ⟨rfl, pair, member, tooLarge⟩
    cases made : ofPairs pairs with
    | error cause => rw [(of_ofPairs_eq_error made).1]
    | ok bindings =>
      have inPairs := List.mem_map_of_mem (f := fun pair : String × Given =>
        (pair.1, pair.2.bind?)) member
      rw [ofPairs_eq_ok_iff.mp made, Given.bind?_eq_none_iff.mpr tooLarge] at inPairs
      obtain ⟨entry, _, same⟩ := List.mem_map.mp inPairs
      cases (Prod.mk.inj same).2

theorem ofPairs_givens (bindings : Bindings) : ofPairs bindings.givens = .ok bindings := by
  rw [ofPairs_eq_ok_iff, givens, List.map_map]
  rfl

theorem lookup_map {α β : Type} (f : α → β) (entries : List (String × α)) (name : String) :
    (entries.map fun entry => (entry.1, f entry.2)).lookup name = (entries.lookup name).map f := by
  induction entries with
  | nil => rfl
  | cons entry rest ih =>
    obtain ⟨first, value⟩ := entry
    rw [List.map_cons, List.lookup_cons, List.lookup_cons, ih]
    cases name == first <;> rfl

/-- A name means what the first of its pairs is bound to. -/
theorem lookup_eq_ok_iff (made : ofPairs pairs = .ok bindings) {value : Bound} :
    bindings.lookup name = .ok value ↔
      ∃ given, IsFirst Prod.fst name pairs (name, given) ∧ given.bind? = some value := by
  have same := congrArg (List.lookup name) (ofPairs_eq_ok_iff.mp made)
  rw [lookup_map Given.bind?, lookup_map some] at same
  simp only [← lookup_eq_some_iff_isFirst, lookup]
  cases inEntries : bindings.entries.lookup name with
  | none =>
    rw [inEntries, Option.map_none, Option.map_eq_none_iff] at same
    simp [same]
  | some bound =>
    rw [inEntries, Option.map_some, Option.map_eq_some_iff] at same
    obtain ⟨given, inPairs, isBound⟩ := same
    simp [inPairs, isBound]

theorem number_eq_ok_iff_lookup {value : Single} :
    bindings.number name = .ok value ↔ bindings.lookup name = .ok (.number value) := by
  rw [number]
  cases bindings.lookup name with
  | error cause => simp
  | ok bound => cases bound <;> simp

theorem object_eq_ok_iff_lookup {value : Datum} :
    bindings.object name = .ok value ↔ bindings.lookup name = .ok (.object value) := by
  rw [object]
  cases bindings.lookup name with
  | error cause => simp
  | ok bound => cases bound <;> simp

theorem contains_iff {key : Datum} :
    bindings.contains key = true ↔ ∃ name ∈ bindings.names, key = .text name := by
  cases key with
  | text name =>
    rw [contains, List.any_eq_true]
    constructor
    · rintro ⟨entry, member, same⟩
      exact ⟨entry.1, List.mem_map_of_mem member, congrArg _ (eq_of_beq same).symm⟩
    · rintro ⟨other, member, same⟩
      cases same
      obtain ⟨entry, inEntries, rfl⟩ := List.mem_map.mp member
      exact ⟨entry, inEntries, beq_self_eq_true _⟩
  | _ =>
    refine iff_of_false nofun ?_
    rintro ⟨name, _, same⟩
    cases same

/-- All that can be asked of bindings agrees with the pairs they are made from. -/
structure Agrees (pairs : List (String × Given)) (bindings : Bindings) : Prop where
  names_eq : bindings.names = pairs.map Prod.fst
  size_eq : bindings.size = pairs.length
  entries_eq : bindings.entries.map (fun entry => (entry.1, some entry.2)) =
    pairs.map fun pair => (pair.1, pair.2.bind?)
  contains_iff : ∀ key, bindings.contains key = true ↔ ∃ name ∈ bindings.names, key = .text name
  lookup_iff : ∀ name, (∃ value, bindings.lookup name = .ok value) ↔ name ∈ bindings.names
  lookup_eq_ok_iff : ∀ name value, bindings.lookup name = .ok value ↔
    ∃ given, IsFirst Prod.fst name pairs (name, given) ∧ given.bind? = some value
  number_eq_ok_iff : ∀ name value, bindings.number name = .ok value ↔
    bindings.lookup name = .ok (.number value)
  object_eq_ok_iff : ∀ name value, bindings.object name = .ok value ↔
    bindings.lookup name = .ok (.object value)
  number_iff : ∀ name given, IsFirst Prod.fst name pairs (name, given) →
    ((∃ value, bindings.number name = .ok value) ↔ given.isNumber = true)
  object_iff : ∀ name given, IsFirst Prod.fst name pairs (name, given) →
    ((∃ value, bindings.object name = .ok value) ↔ given.isNumber = false)
  bound_again : ofPairs bindings.givens = .ok bindings

theorem agrees_of_ofPairs (made : ofPairs pairs = .ok bindings) : bindings.Agrees pairs := by
  have entries := ofPairs_eq_ok_iff.mp made
  have names_eq : bindings.names = pairs.map Prod.fst := by
    have same := congrArg (List.map Prod.fst) entries
    rw [List.map_map, List.map_map] at same
    exact same.symm
  have lookup_iff (name : String) :
      (∃ value, bindings.lookup name = .ok value) ↔ name ∈ bindings.names := by
    rw [lookup, names]
    cases found : bindings.entries.lookup name with
    | none =>
      refine iff_of_false (by simp) fun member => ?_
      obtain ⟨entry, inEntries, rfl⟩ := List.mem_map.mp member
      simpa using List.lookup_eq_none_iff.mp found entry inEntries
    | some value =>
      obtain ⟨before, behind, split, _⟩ := lookup_eq_some_iff_isFirst.mp found
      exact iff_of_true ⟨value, rfl⟩ (by rw [split]; simp)
  have kind {name : String} {given : Given} (first : IsFirst Prod.fst name pairs (name, given)) :
      ∃ value, bindings.lookup name = .ok value ∧ value.isNumber = given.isNumber := by
    have member : name ∈ bindings.names := by
      obtain ⟨before, behind, split, _⟩ := first
      rw [names_eq, split]
      simp
    obtain ⟨value, found⟩ := (lookup_iff name).mpr member
    obtain ⟨other, again, bound⟩ := (lookup_eq_ok_iff made).mp found
    have same := lookup_eq_some_iff_isFirst.mpr first
    rw [lookup_eq_some_iff_isFirst.mpr again] at same
    cases same
    exact ⟨value, found, Given.isNumber_of_bind? bound⟩
  refine ⟨names_eq, ?_, entries.symm, fun _ => contains_iff, lookup_iff,
    fun _ _ => lookup_eq_ok_iff made, fun _ _ => number_eq_ok_iff_lookup,
    fun _ _ => object_eq_ok_iff_lookup, fun name given first => ?_, fun name given first => ?_,
    ofPairs_givens bindings⟩
  · have same := congrArg List.length names_eq
    rwa [names, List.length_map, List.length_map] at same
  · obtain ⟨value, found, same⟩ := kind first
    simp only [number_eq_ok_iff_lookup, found, ← same]
    cases value <;> simp [Bound.isNumber]
  · obtain ⟨value, found, same⟩ := kind first
    simp only [object_eq_ok_iff_lookup, found, ← same]
    cases value <;> simp [Bound.isNumber]

end Bindings

/-- Pairs are bound unless an integer or a fraction among them is too large, in whatever place. What
can be asked of the bindings then agrees with the pairs. -/
theorem bindings_agree (pairs : List (String × Given)) :
    (Bindings.ofPairs pairs = .error .bindingRange ↔ ∃ pair ∈ pairs, pair.2.TooLarge) ∧
      ((∀ pair ∈ pairs, ¬ pair.2.TooLarge) →
        ∃ bindings, Bindings.ofPairs pairs = .ok bindings ∧ bindings.Agrees pairs) := by
  constructor
  · rw [Bindings.ofPairs_eq_error_iff]
    exact and_iff_right rfl
  · intro inRange
    cases made : Bindings.ofPairs pairs with
    | error cause =>
      obtain ⟨_, pair, member, tooLarge⟩ := Bindings.ofPairs_eq_error_iff.mp made
      exact absurd tooLarge (inRange pair member)
    | ok bindings => exact ⟨bindings, rfl, Bindings.agrees_of_ofPairs made⟩

/-- A truth value in front of a number of the same name: both are listed, and the name is an
object. -/
theorem truth_value_hides_number :
    (∀ pair ∈ [("x", Given.datum (.bool true)), ("x", .datum (.int 3))], ¬ pair.2.TooLarge) ∧
      ∃ bindings, Bindings.ofPairs [("x", .datum (.bool true)), ("x", .datum (.int 3))] =
          .ok bindings ∧
        bindings.names = ["x", "x"] ∧ (∃ value, bindings.object "x" = .ok value) ∧
        ¬ (∃ value, bindings.number "x" = .ok value) ∧
        Bindings.ofPairs bindings.givens = .ok bindings := by
  have inRange : ∀ pair ∈ [("x", Given.datum (.bool true)), ("x", .datum (.int 3))],
      ¬ pair.2.TooLarge := by
    intro pair member tooLarge
    simp only [List.mem_cons, List.not_mem_nil, or_false] at member
    rcases member with rfl | rfl
    · cases tooLarge
    · rw [Given.tooLarge_int_iff] at tooLarge
      revert tooLarge
      decide +kernel
  obtain ⟨bindings, made, agrees⟩ := (bindings_agree _).2 inRange
  have first : IsFirst Prod.fst "x" [("x", Given.datum (.bool true)), ("x", .datum (.int 3))]
      ("x", .datum (.bool true)) := ⟨[], _, rfl, rfl, nofun⟩
  refine ⟨inRange, bindings, made, agrees.names_eq, (agrees.object_iff _ _ first).mpr rfl, ?_,
    agrees.bound_again⟩
  rw [agrees.number_iff _ _ first]
  exact Bool.false_ne_true

/-- A fraction is refused although it is no integer, and an integer above the greatest finite
binary64 value is bound: this value is the nearest. -/
theorem fraction_refused :
    (mkRat (10 ^ 400) 3).den = 3 ∧
      Bindings.ofPairs [("a", .datum (.rational (mkRat (10 ^ 400) 3)))] = .error .bindingRange ∧
      Format.double.units (Format.double.infinityCode - 1) =
        (2 ^ 1024 - 2 ^ 971) * Format.double.one ∧
      (2 ^ 1024 - 2 ^ 971 : Int) < 2 ^ 1024 - 2 ^ 970 - 1 ∧
      ∃ bindings, Bindings.ofPairs [("a", .datum (.int (2 ^ 1024 - 2 ^ 970 - 1)))] =
        .ok bindings := by
  have beyond : (Given.datum (.rational (mkRat (10 ^ 400) 3))).bind? = none :=
    Given.bind?_eq_none_iff.mpr (.rational (by decide +kernel))
  have within : ¬ (Given.datum (.int (2 ^ 1024 - 2 ^ 970 - 1))).TooLarge := by
    rw [Given.tooLarge_int_iff]
    decide +kernel
  refine ⟨by decide +kernel, ?_, by decide +kernel, by decide +kernel, ?_⟩
  · rw [Bindings.ofPairs, beyond]
  · obtain ⟨value, bound⟩ :=
      Option.ne_none_iff_exists'.mp (mt Given.bind?_eq_none_iff.mp within)
    exact ⟨⟨[("a", value)]⟩, Bindings.ofPairs_cons bound "a" []⟩

end Placement
