import Placement.Datum
import Placement.Proofs.Decimal.Spelling
import Placement.Proofs.Formula.Writing

namespace Placement

/-- A number of a document and the binary64 value nearest to it. -/
inductive Datum.IsNumeric : Datum → Double → Prop where
  | int {n : Int} (inRange : (Binary.ofInt n : Double).isInfinite = false) :
    IsNumeric (.int n) (.ofInt n)
  | float (x : Double) : IsNumeric (.float x) x

/-- The numbers without sign and exponent in their written form: integers that are not negative,
zero unless it is negative, and the other positive numbers from `10 ^ (-4)` on and below
`10 ^ 16`. -/
def Datum.WrittenOut : Datum → Prop
  | .int n => 0 ≤ n
  | .float (.signed false code) => code.val = 0 ∨
    Format.double.one ≤ 10 ^ 4 * Format.double.units code.val ∧
      Format.double.units code.val < 10 ^ 16 * Format.double.one
  | _ => False

/-- The exponent by which the form of a value is chosen. -/
def scaleExponent (code : Nat) : Int :=
  if code = 0 then 0 else leadingExponent (Format.double.units code) Format.double.one

theorem writtenOut_iff_scaleExponent (code : Fin (Format.double.infinityCode + 1)) :
    Datum.WrittenOut (.float (.signed false code)) ↔
      Datum.numbers.lowest ≤ scaleExponent code ∧ scaleExponent code < Datum.numbers.highest := by
  rw [Datum.WrittenOut, scaleExponent]
  by_cases zero : code.val = 0
  · rw [if_pos zero]
    exact ⟨fun _ => by decide, fun _ => Or.inl zero⟩
  · rw [if_neg zero, or_iff_right zero]
    have units := Format.double.units_pos zero
    have one := Format.double.one_pos
    have onePos : (0 : ℚ) < Format.double.one := by exact_mod_cast one
    refine and_congr ?_ ?_
    · have exponent : Datum.numbers.lowest = -((4 : Nat) : Int) := rfl
      rw [le_leadingExponent_iff units one, le_div_iff₀ onePos, exponent, zpow_neg, zpow_natCast,
        inv_mul_le_iff₀ (by positivity)]
      exact_mod_cast Iff.rfl
    · have exponent : Datum.numbers.highest = ((16 : Nat) : Int) := rfl
      rw [← not_le (a := Datum.numbers.highest), le_leadingExponent_iff units one,
        le_div_iff₀ onePos, not_le, exponent, zpow_natCast]
      exact_mod_cast Iff.rfl

theorem finite_of_writtenOut {code : Fin (Format.double.infinityCode + 1)}
    (written : Datum.WrittenOut (.float (.signed false code))) :
    code.val ≠ Format.double.infinityCode := by
  intro infinite
  rw [Datum.WrittenOut, infinite] at written
  revert written
  decide +kernel

/-- The text of a number: a sign, and digits with a point or with an exponent. -/
theorem toList_plainText_float {negative : Bool} {code : Fin (Format.double.infinityCode + 1)}
    (finite : code.val ≠ Format.double.infinityCode) :
    let d := Binary.shortest .double code
    (Datum.WrittenOut (.float (.signed false code)) →
      (Datum.plainText (.float (.signed negative code))).toList = (if negative then ['-'] else []) ++
        Datum.numbers.positional (Nat.toDigits 10 d.digits) d.leading) ∧
    (¬Datum.WrittenOut (.float (.signed false code)) →
      (Datum.plainText (.float (.signed negative code))).toList = (if negative then ['-'] else []) ++
        Datum.numbers.scientific (Nat.toDigits 10 d.digits) d.leading) := by
  intro d
  have text : (Datum.plainText (.float (.signed negative code))).toList =
      Datum.numbers.write negative d (scaleExponent code) := by
    rw [Datum.plainText, Datum.written, Notation.shortest, Notation.writeWith, if_neg finite,
      String.toList_ofList]
    · rfl
    · exact nofun
    · exact nofun
    · exact nofun
  rw [text, writtenOut_iff_scaleExponent, Notation.write]
  exact ⟨fun fits => by rw [if_pos fits], fun beyond => by rw [if_neg beyond]⟩

theorem plainText_infinite {negative : Bool} {code : Fin (Format.double.infinityCode + 1)}
    (infinite : code.val = Format.double.infinityCode) :
    Datum.plainText (.float (.signed negative code)) = (if negative then "-" else "") ++ "inf" := by
  rw [Datum.plainText, Datum.written, Notation.shortest, Notation.writeWith, if_pos infinite]
  · rfl
  · exact nofun
  · exact nofun
  · exact nofun

theorem toList_plainText_int (n : Int) : (Datum.plainText (.int n)).toList =
    (if n < 0 then ['-'] else []) ++ Nat.toDigits 10 n.natAbs := by
  rw [Datum.plainText, Datum.written, writeInt, String.toList_ofList]
  · exact nofun
  · exact nofun
  · exact nofun

/-- What is written out is a number token with the value that is written. -/
theorem numeralValue_writtenOut {code : Fin (Format.double.infinityCode + 1)}
    (written : Datum.WrittenOut (.float (.signed false code))) :
    let d := Binary.shortest .double code
    let text := Datum.numbers.positional (Nat.toDigits 10 d.digits) d.leading
    (Token.number text).Valid ∧ numeralValue text = .signed false code := by
  intro d text
  have isNumeral := isNumeralOf_positional Datum.numbers d
  obtain ⟨reads, least⟩ := @Binary.readsBack_shortest .double code (by decide)
    (Nat.le_of_lt_succ code.isLt)
  refine ⟨isNumeral.valid, numeralValue_eq isNumeral reads code.isLt ?_⟩
  obtain ⟨low, _⟩ := (writtenOut_iff_scaleExponent code).mp written
  rw [scaleExponent] at low
  have lowest : Datum.numbers.lowest = -4 := rfl
  have bits : Format.double.fractionBits = 52 := rfl
  by_cases zero : code.val = 0
  · change -2047 ≤ (Binary.shortest .double code).exponent
    rw [Binary.shortest, if_pos zero]
    decide
  · have := least zero
    rw [if_neg zero] at low
    change -2047 ≤ (Binary.shortest .double code).exponent
    omega

variable {limits : Limits}

theorem parse_of_grouped {text : List Char} {tokens : List Token}
    {items : List Item} (lexes : Lexes text tokens) (some : tokens ≠ [])
    (grouped : Grouped (limits.reader limits.levels 0).operand? tokens items) :
    parse limits text = .ok (Item.arrange items) :=
  Limits.parse_eq_ok_iff.mpr ⟨lexes.not_blank some,
    Limits.sequences_eq_ok_iff.mpr ⟨tokens, [items], lexes, .last grouped, rfl⟩⟩

theorem lexes_number {digits : List Char} (valid : (Token.number digits).Valid) :
    Lexes digits [.number digits] := by
  have lexes := Lexes.token valid (.of_headNot .nil) .nil
  rwa [List.append_nil] at lexes

theorem lexes_minus {text : List Char} {tokens : List Token} (lexes : Lexes text tokens) :
    Lexes ('-' :: text) (.operator .subtract :: tokens) :=
  @Lexes.token (.operator .subtract) text tokens trivial trivial lexes

theorem lexes_name {name : String} (valid : (Token.identifier name).Valid) {text : List Char}
    {tokens : List Token} (ends : (Token.identifier name).Ends text) (lexes : Lexes text tokens) :
    Lexes (name.toList ++ text) (.identifier name :: tokens) :=
  Lexes.token valid ends lexes

theorem lexes_scientific {mantissa exponent : List Char} {op : Operator}
    (before : (Token.number mantissa).Valid) (behind : (Token.number exponent).Valid) :
    Lexes (mantissa ++ 'e' :: Operator.symbol op :: exponent)
      [.number mantissa, .identifier "e", .operator op, .number exponent] := by
  have name : (Token.identifier "e").Valid := ⟨'e', [], rfl, rfl, by simp⟩
  have atSign : Lexes (Operator.symbol op :: exponent) [.operator op, .number exponent] :=
    @Lexes.token (.operator op) exponent _ trivial trivial (lexes_number behind)
  have stop : (Token.identifier "e").Ends (Operator.symbol op :: exponent) := by
    refine .cons ?_ _
    cases op <;> rfl
  exact .token before (.cons rfl _) (lexes_name name stop atSign)

/-- A number that is written out is read as the binary32 value nearest to its binary64 value. -/
theorem parse_writtenOut {value : Datum} {x : Double} (numeric : value.IsNumeric x)
    (written : value.WrittenOut) :
    parse limits value.plainText.toList = .ok [.number x.toSingle] := by
  cases numeric with
  | @int n inRange =>
    obtain ⟨valid, same⟩ := numeralValue_toDigits n.natAbs
    have sign : ¬n < 0 := Int.not_lt.mpr written
    rw [toList_plainText_int, if_neg sign, List.nil_append]
    rw [Int.natAbs_of_nonneg written] at same
    rw [← same]
    exact parse_of_grouped (lexes_number valid) (List.cons_ne_nil _ _) (.operand rfl .nil)
  | float x =>
    match x, written with
    | .signed false code, written =>
      obtain ⟨valid, same⟩ := numeralValue_writtenOut written
      obtain ⟨text, _⟩ := @toList_plainText_float false code (finite_of_writtenOut written)
      rw [text written, if_neg Bool.false_ne_true, List.nil_append, ← same]
      exact parse_of_grouped (lexes_number valid) (List.cons_ne_nil _ _) (.operand rfl .nil)

end Placement
