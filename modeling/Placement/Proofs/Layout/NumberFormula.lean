import Placement.Proofs.Formula.NumberText
import Placement.Proofs.Layout.Moments
import Placement.Proofs.Layout.PlanFormat
import Placement.Proofs.Layout.SiblingOrder

namespace Placement

namespace Batch

variable {limits : Limits}

/-- A text that names a variable the batch does not have is no valid formula. -/
theorem not_valid_of_name {text : List Char} {tokens : List Token} {items : List Item}
    (lexes : Lexes text tokens) (some : tokens ≠ [])
    (grouped : Grouped (limits.reader limits.levels 0).operand? tokens items) {name : String}
    (named : .variable name ∈ Item.nodesAll items) (noThis : name ≠ "this")
    (noIndex : name ≠ "index") : ¬Valid limits (String.ofList text) := by
  rintro ⟨nodes, this, index, objects, value, parsed, evaluated⟩
  rw [String.toList_ofList, parse_of_grouped lexes some grouped] at parsed
  cases parsed
  have ran := Context.evaluate_eq_ok_iff.mp evaluated
  have bound := Context.number_of_runSequence ran (Item.mem_arrange named)
  rcases (number_bindingsOf_iff this index objects name).mp bound with isThis | isIndex
  · exact noThis isThis
  · exact noIndex isIndex

/-- A sign before a number misses its left operand. -/
theorem not_valid_minus {digits : List Char} (valid : (Token.number digits).Valid) :
    ¬Valid limits (String.ofList ('-' :: digits)) := by
  rintro ⟨nodes, this, index, objects, value, parsed, evaluated⟩
  rw [String.toList_ofList, parse_of_grouped (lexes_minus (lexes_number valid))
    (List.cons_ne_nil _ _) (.operator _ (.operand rfl .nil))] at parsed
  cases parsed
  cases evaluated

theorem not_valid_scientific {mantissa exponent : List Char} {op : Operator}
    (before : (Token.number mantissa).Valid) (behind : (Token.number exponent).Valid) :
    ¬Valid limits (String.ofList (mantissa ++ 'e' :: Operator.symbol op :: exponent)) ∧
      ¬Valid limits (String.ofList ('-' :: (mantissa ++ 'e' :: Operator.symbol op :: exponent))) := by
  have lexes := @lexes_scientific mantissa exponent op before behind
  have grouped : Grouped (limits.reader limits.levels 0).operand?
      [.number mantissa, .identifier "e", .operator op, .number exponent] _ :=
    .operand rfl (.operand rfl (.operator op (.operand rfl .nil)))
  constructor
  · exact not_valid_of_name lexes (List.cons_ne_nil _ _) grouped
      (List.mem_cons_of_mem _ List.mem_cons_self) (by decide) (by decide)
  · exact not_valid_of_name (lexes_minus lexes) (List.cons_ne_nil _ _) (.operator _ grouped)
      (List.mem_cons_of_mem _ List.mem_cons_self) (by decide) (by decide)

theorem not_valid_name {name : String} (valid : (Token.identifier name).Valid)
    (noThis : name ≠ "this") (noIndex : name ≠ "index") :
    ¬Valid limits name ∧ ¬Valid limits (String.ofList ('-' :: name.toList)) := by
  have lexes := lexes_name valid (.of_headNot .nil) .nil
  rw [List.append_nil] at lexes
  have grouped : Grouped (limits.reader limits.levels 0).operand? [.identifier name] _ :=
    .operand rfl .nil
  constructor
  · have alone := not_valid_of_name lexes (List.cons_ne_nil _ _) grouped List.mem_cons_self noThis
      noIndex
    rwa [String.ofList_toList] at alone
  · exact not_valid_of_name (lexes_minus lexes) (List.cons_ne_nil _ _) (.operator _ grouped)
      List.mem_cons_self noThis noIndex

theorem not_valid_int {n : Int} (negative : n < 0) : ¬Valid limits (Datum.plainText (.int n)) := by
  have text := toList_plainText_int n
  rw [if_pos negative] at text
  rw [← String.ofList_toList (s := Datum.plainText (.int n)), text]
  exact not_valid_minus (numeralValue_toDigits n.natAbs).1

theorem not_valid_infinite {negative : Bool} {code : Fin (Format.double.infinityCode + 1)}
    (infinite : code.val = Format.double.infinityCode) :
    ¬Valid limits (Datum.plainText (.float (.signed negative code))) := by
  have word : (Token.identifier "inf").Valid := ⟨'i', ['n', 'f'], rfl, rfl, by simp [isNameChar]⟩
  obtain ⟨plain, minus⟩ := @not_valid_name limits _ word (by decide) (by decide)
  rw [plainText_infinite infinite]
  cases negative with
  | false => exact plain
  | true => exact minus

theorem not_valid_finite {negative : Bool} {code : Fin (Format.double.infinityCode + 1)}
    (finite : code.val ≠ Format.double.infinityCode)
    (beyond : ¬Datum.WrittenOut (.float (.signed negative code))) :
    ¬Valid limits (Datum.plainText (.float (.signed negative code))) := by
  obtain ⟨positional, scientific⟩ := @toList_plainText_float negative code finite
  rw [← String.ofList_toList (s := Datum.plainText (.float (.signed negative code)))]
  by_cases written : Datum.WrittenOut (.float (.signed false code))
  · rw [positional written]
    cases negative with
    | false => exact absurd written beyond
    | true => exact not_valid_minus (isNumeralOf_positional _ _).valid
  · obtain ⟨mantissa, op, exponent, before, behind, same⟩ := exists_scientific_eq Datum.numbers
      (Binary.shortest .double code).digits (Binary.shortest .double code).leading
    obtain ⟨plain, minus⟩ := @not_valid_scientific limits mantissa exponent op before behind
    rw [scientific written, same]
    cases negative with
    | false => exact plain
    | true => exact minus

/-- A number is a valid formula where it is written out. -/
theorem valid_numeric_iff {value : Datum} {x : Double} (numeric : value.IsNumeric x) :
    Valid limits value.plainText ↔ value.WrittenOut := by
  constructor
  · intro valid
    by_contra beyond
    cases numeric with
    | @int n inRange => exact not_valid_int (Int.not_le.mp beyond) valid
    | float x =>
      cases x with
      | nan =>
        have word : (Token.identifier "nan").Valid :=
          ⟨'n', ['a', 'n'], rfl, rfl, by simp [isNameChar]⟩
        exact (not_valid_name word (by decide) (by decide)).1 valid
      | signed negative code =>
        by_cases infinite : code.val = Format.double.infinityCode
        · exact not_valid_infinite infinite valid
        · exact not_valid_finite infinite beyond valid
  · intro written
    exact ⟨_, .nan, .nan, [], _, parse_writtenOut numeric written, rfl⟩

end Batch

/-- The value that a document gives for the formula of a field. -/
def Plan.Gives (document : Datum) (part : Part) (axis : Axis) (value : Datum) : Prop :=
  ∃ entries parts axes, document = .mapping entries ∧
    Datum.get? entries "expressions" = some (.mapping parts) ∧
    Datum.get? parts part.name = some (.mapping axes) ∧ Datum.get? axes axis.name = some value

theorem Datum.entriesOf_mapping_iff {entries others : List (Datum × Datum)} :
    EntriesOf (.mapping entries) others ↔ others = entries := by
  constructor
  · rintro (same | ⟨empty, rfl⟩)
    · cases same
      rfl
    · exact (List.isEmpty_iff.mp empty).symm
  · rintro rfl
    exact Or.inl rfl

theorem Plan.formula_of_gives {levels : Nat} {document value : Datum} {plan : Plan} {part : Part}
    {axis : Axis} (read : ofDatum levels document = .ok plan) (gives : Gives document part axis value)
    (some : value ≠ .null) : (plan.expressions.get part).get axis = value.plainText := by
  obtain ⟨entries, parts, axes, rfl, atExpressions, atPart, atAxis⟩ := gives
  obtain ⟨_, same, described⟩ := ofDatum_eq_ok_iff.mp read
  cases same
  obtain ⟨others, reads, formulas⟩ := described.expressions
  rw [atExpressions, Datum.understood_some_iff, Datum.entriesOf_mapping_iff] at reads
  subst reads
  obtain ⟨others, reads, each⟩ := formulas part
  rw [atPart, Datum.understood_some_iff, Datum.entriesOf_mapping_iff] at reads
  subst reads
  have means := each axis
  rw [atAxis, Datum.understood_some_iff] at means
  rcases means with ⟨null, _⟩ | ⟨_, text⟩
  · exact absurd null some
  · exact (Datum.plainText?_eq_ok_iff.mp text).2.symm

namespace Batch

variable {limits : Limits} {expressions : Expressions} {targets placed : List Target}
  {value : Datum} {x : Double} {part : Part} {axis : Axis}

/-- Where a number is written out, a field has it as its value whenever it has one, and it has one
for every target of a list in memory. -/
theorem fieldValue_of_writtenOut (numeric : value.IsNumeric x) (written : value.WrittenOut)
    (formula : (expressions.get part).get axis = value.plainText) (stage : Stage) (index : Nat)
    (target : Target) :
    (∀ y, fieldValue expressions limits stage index target part axis = .ok y →
      y = x.toSingle.toDouble) ∧
    (index < 2 ^ 1023 → ∀ failure,
      fieldValue expressions limits stage index target part axis ≠ .error failure) := by
  have parsed : parse limits ((expressions.get part).get axis).toList =
      .ok [.number x.toSingle] := by
    rw [formula]
    exact parse_writtenOut numeric written
  constructor
  · intro y same
    obtain ⟨nodes, bindings, single, again, _, evaluated, rfl⟩ := evaluateText_eq_ok_iff.mp same
    cases parsed.symm.trans again
    cases evaluated
    rfl
  · intro bound failure failed
    obtain ⟨k, whole⟩ := singleOfInt?_of_lt bound (Nat.le_refl 1023)
    rw [fieldValue, evaluateText_eq_ofTraced parsed (ofPairs_fieldVariables whole _ axis)] at failed
    cases failed

theorem apply_of_failing {reported : List String}
    (validated : failingFields expressions targets limits = .ok reported) (failing : reported ≠ []) :
    apply expressions targets limits = .error (.compile reported) := by
  obtain ⟨name, rest, rfl⟩ := List.exists_cons_of_ne_nil failing
  rw [apply, validated]

/-- A number that a plan gives for a field means itself where it is written out: then the field
is valid, does not stop the batch, and has this number, rounded to binary32, in every result. If
the number has a sign or an exponent in its written form, the field is refused, unless validation
ends with an error from outside. -/
theorem number_means_itself {levels : Nat} {document : Datum} {plan : Plan}
    (read : Plan.ofDatum levels document = .ok plan) (gives : Plan.Gives document part axis value)
    (numeric : value.IsNumeric x) (limits : Limits) :
    (¬ Unwritable plan.expressions plan.targets limits →
        ∃ reported, failingFields plan.expressions plan.targets limits = .ok reported ∧
          (fieldName part axis ∈ reported ↔ ¬value.WrittenOut) ∧
          (plan.targets.length ≤ 2 ^ 1023 →
            ((∃ error, apply plan.expressions plan.targets limits = .error error ∧
                fieldName part axis ∈ error.fields) ↔ ¬value.WrittenOut))) ∧
      ∀ placed, apply plan.expressions plan.targets limits = .ok placed →
        value.WrittenOut ∧
          ∀ result ∈ placed, (result.get part).get axis = x.toSingle.toDouble := by
  have formula := Plan.formula_of_gives read gives (by
    rintro rfl
    cases numeric)
  have valid : Valid limits ((plan.expressions.get part).get axis) ↔ value.WrittenOut := by
    rw [formula]
    exact valid_numeric_iff numeric
  refine ⟨fun writable => ?_, fun placed applied => ?_⟩
  · have validated := failingFields_of_writable writable
    have reported := (@fieldName_mem_invalidFields_iff limits plan.expressions part axis).trans
      (not_congr valid)
    refine ⟨_, validated, reported, fun bound => ⟨?_, fun beyond => ?_⟩⟩
    · rintro ⟨error, failed, named⟩ written
      by_cases none : invalidFields plan.expressions limits = []
      · rw [none] at validated
        obtain ⟨index, target, other, otherAxis, stage, failure, moment, atField, rfl⟩ :=
          (apply_eq_error_iff_moment validated).mp failed
        obtain ⟨rfl, rfl⟩ := fieldName_inj (List.mem_singleton.mp named)
        obtain ⟨within, _⟩ := List.getElem?_eq_some_iff.mp moment.atIndex
        rw [length_inSiblingOrder] at within
        exact (fieldValue_of_writtenOut numeric written formula stage index target).2
          (within.trans_le bound) failure atField
      · rw [apply_of_failing validated none] at failed
        cases failed
        exact reported.mp named written
    · have among := reported.mpr beyond
      exact ⟨_, apply_of_failing validated (List.ne_nil_of_mem among), among⟩
  · have written := valid.mp (failingFields_eq_nil_iff.mp (passed_of_apply applied) part axis)
    refine ⟨written, fun result among => ?_⟩
    obtain ⟨index, atPlaced⟩ := List.mem_iff_getElem?.mp among
    obtain ⟨within, _⟩ := List.getElem?_eq_some_iff.mp atPlaced
    rw [← (forall_moved_of_apply applied).length_eq] at within
    obtain ⟨stage, other, _, again, same⟩ :=
      exists_moment_of_apply applied (List.getElem?_eq_getElem within) part axis
    cases atPlaced.symm.trans again
    exact (fieldValue_of_writtenOut numeric written formula stage index _).1 _ same

/-- A half for the y of positions, and a whole number for the x. -/
theorem half_means_itself :
    let document : Datum := .mapping [
      (.text "expressions", .mapping [
        (.text "position", .mapping [(.text "x", .int 3), (.text "y", .float .half)])]),
      (.text "targets", .list [.mapping [(.text "name", .text "left")], .mapping []])]
    ∃ plan placed, Plan.ofDatum usualLevels document = .ok plan ∧
      apply plan.expressions plan.targets {} = .ok placed ∧ placed.length = 2 ∧
      ∀ result ∈ placed, result.position.y = Binary.toDouble (Binary.half : Double).toSingle := by
  intro document
  let targets : List Target := [{ name := "left" }, { name := "target1", siblingIndex := 1 }]
  let expressions : Expressions := { position := ⟨"3", "0.5", "this"⟩ }
  have parts : (Plan.ofDatum usualLevels document).toOption.map
      (fun plan => (plan.expressions, plan.targets)) = some (expressions, targets) := by
    decide +kernel
  have sorted : inSiblingOrder targets = targets := List.mergeSort_of_pairwise (by decide)
  obtain ⟨placed, applied⟩ : ∃ placed, apply expressions targets {} = .ok placed :=
    exists_apply_of_moves sorted (by decide +kernel) (by decide +kernel)
  have length := (forall_moved_of_apply applied).length_eq
  rw [sorted] at length
  cases read : Plan.ofDatum usualLevels document with
  | error error =>
    rw [read] at parts
    cases parts
  | ok plan =>
    rw [read] at parts
    obtain ⟨sameExpressions, sameTargets⟩ := Prod.mk.inj (Option.some.inj parts)
    rw [← sameExpressions, ← sameTargets] at applied
    have gives : Plan.Gives document .position .y (.float .half) :=
      ⟨_, _, _, rfl, rfl, rfl, rfl⟩
    obtain ⟨_, results⟩ := number_means_itself read gives (.float .half) {}
    exact ⟨plan, placed, rfl, applied, length.symm, (results placed applied).2⟩

/-- From `10 ^ 16` on numbers are written with an exponent, and this one is refused. -/
theorem large_number_refused :
    let value : Datum := .float (.ofInt (10 ^ 16))
    let document : Datum := .mapping [
      (.text "expressions", .mapping [(.text "position", .mapping [(.text "x", value)])]),
      (.text "targets", .list [.mapping [(.text "name", .text "a")]])]
    (Binary.ofInt (10 ^ 16) : Double).isFinite = true ∧
      (Binary.zero false).le (Binary.ofInt (10 ^ 16) : Double) = true ∧
      ∃ plan, Plan.ofDatum usualLevels document = .ok plan ∧
        Plan.Gives document .position .x value ∧
        failingFields plan.expressions plan.targets {} = .ok ["Position.X"] ∧
        ∀ placed, apply plan.expressions plan.targets {} ≠ .ok placed := by
  intro value document
  have fields : (Plan.ofDatum usualLevels document).toOption.map
      (fun plan => failingFields plan.expressions plan.targets {}) = some (.ok ["Position.X"]) := by
    decide +kernel
  refine ⟨by decide +kernel, by decide +kernel, ?_⟩
  cases read : Plan.ofDatum usualLevels document with
  | error error =>
    rw [read] at fields
    cases fields
  | ok plan =>
    rw [read] at fields
    have failing : failingFields plan.expressions plan.targets {} = .ok ["Position.X"] :=
      Option.some.inj fields
    refine ⟨plan, rfl, ⟨_, _, _, rfl, rfl, rfl, rfl⟩, failing, fun placed applied => ?_⟩
    cases (passed_of_apply applied).symm.trans failing

end Batch

end Placement
