import Placement.Decimal.Notation
import Placement.Proofs.Decimal.Shortest
import Placement.Proofs.Formula.Lexeme

namespace Placement

theorem nearest_zero {F : Format} {denominator : Nat} (positive : 0 < denominator) :
    F.nearest 0 denominator = 0 := by
  have scaled := F.nearest_scale 0 1 positive
  have exact := F.nearest_units (Nat.zero_le _)
  rw [F.units_zero] at exact
  rwa [exact, Nat.zero_mul, Nat.one_mul] at scaled

/-- A decimal whose size is in question is rounded by its value. -/
theorem Decimal.toBinary_eq {F : Format} {d : Decimal} {code : Nat}
    (reads : Binary.ReadsBack F code d) (within : code < F.infinityCode + 1)
    (high : d.exponent ≤ 2 ^ F.exponentBits)
    (low : -(2 ^ F.exponentBits) ≤ d.exponent + digitCount d.digits) (negative : Bool) :
    d.toBinary F negative = .signed negative ⟨code, within⟩ := by
  have power : ((Nat.pow 2 F.exponentBits : Nat) : Int) = 2 ^ F.exponentBits := by
    rw [Nat.pow_eq]
    push_cast
    rfl
  rw [toBinary, power]
  split
  · rename_i zero
    rw [Binary.ReadsBack, numerator, zero, Nat.zero_mul, Nat.zero_mul,
      nearest_zero d.denominator_pos] at reads
    subst reads
    rfl
  · rw [if_neg (by omega), if_neg (by omega), Binary.ofUnits]
    exact congrArg _ (Fin.ext reads)

theorem numeral_whole {digits : List Char} (all : ∀ c ∈ digits, c.isDigit = true) :
    numeral digits = ⟨Nat.ofDigitChars 10 digits 0, 0⟩ := by
  have everything := HeadNot.nil.takeWhile_append all
  have nothing := HeadNot.nil.dropWhile_append all
  rw [List.append_nil] at everything nothing
  simp only [numeral, nothing, everything, List.drop_nil, List.append_nil, List.length_nil]
  rfl

theorem numeral_point {whole : List Char} (all : ∀ c ∈ whole, c.isDigit = true)
    (fraction : List Char) : numeral (whole ++ '.' :: fraction) =
      ⟨Nat.ofDigitChars 10 (whole ++ fraction) 0, -fraction.length⟩ := by
  have stop : HeadNot Char.isDigit ('.' :: fraction) := .cons rfl _
  simp only [numeral, stop.takeWhile_append all, stop.dropWhile_append all, List.drop_succ_cons,
    List.drop_zero]

theorem count_point_eq_zero {digits : List Char} (all : ∀ c ∈ digits, c.isDigit = true) :
    digits.count '.' = 0 :=
  List.count_eq_zero.mpr fun member => ne_of_class (all '.' member) rfl rfl

namespace Token

theorem valid_whole {digits : List Char} (some : digits ≠ [])
    (all : ∀ c ∈ digits, c.isDigit = true) : (number digits).Valid := by
  obtain ⟨c, rest, rfl⟩ := List.exists_cons_of_ne_nil some
  obtain ⟨digit, others⟩ := List.forall_mem_cons.mp all
  refine ⟨⟨c, rest, rfl, digit, fun d member => isNumberChar_of_isDigit d (others d member)⟩, ?_⟩
  rw [count_point_eq_zero all]
  exact Nat.zero_le 1

theorem valid_point {whole fraction : List Char} (some : whole ≠ [])
    (atWhole : ∀ c ∈ whole, c.isDigit = true) (atFraction : ∀ c ∈ fraction, c.isDigit = true) :
    (number (whole ++ '.' :: fraction)).Valid := by
  obtain ⟨c, rest, rfl⟩ := List.exists_cons_of_ne_nil some
  obtain ⟨digit, others⟩ := List.forall_mem_cons.mp atWhole
  refine ⟨⟨c, rest ++ '.' :: fraction, rfl, digit, fun d member => ?_⟩, ?_⟩
  · rcases List.mem_append.mp member with before | behind
    · exact isNumberChar_of_isDigit d (others d before)
    · rcases List.mem_cons.mp behind with rfl | after
      · rfl
      · exact isNumberChar_of_isDigit d (atFraction d after)
  · rw [List.count_append, List.count_cons_self, count_point_eq_zero atWhole,
      count_point_eq_zero atFraction]

end Token

/-- A number token with the value of a decimal, and at most one more digit. -/
structure IsNumeralOf (text : List Char) (d : Decimal) : Prop where
  valid : (Token.number text).Valid
  value : (numeral text).value = d.value
  high : (numeral text).exponent ≤ 0
  low : min (-1) d.exponent ≤ (numeral text).exponent

theorem digits_isDigit (n : Nat) : ∀ c ∈ Nat.toDigits 10 n, c.isDigit = true :=
  fun _ member => Nat.isDigit_of_mem_toDigits (by decide) (by decide) member

/-- A text with all digits of a decimal and as many places as it has. -/
theorem isNumeralOf_point {d : Decimal} {whole fraction : List Char} (some : whole ≠ [])
    (atWhole : ∀ c ∈ whole, c.isDigit = true) (atFraction : ∀ c ∈ fraction, c.isDigit = true)
    (digits : Nat.ofDigitChars 10 (whole ++ fraction) 0 = d.digits)
    (places : -(fraction.length : Int) = d.exponent) :
    IsNumeralOf (whole ++ '.' :: fraction) d := by
  have same : numeral (whole ++ '.' :: fraction) = d := by
    rw [numeral_point atWhole, digits, places]
  refine ⟨Token.valid_point some atWhole atFraction, by rw [same], ?_, ?_⟩
  · rw [same]
    omega
  · rw [same]
    exact Int.min_le_right _ _

theorem zeros_isDigit (n : Nat) : ∀ c ∈ List.replicate n '0', c.isDigit = true := by
  intro c member
  rw [List.eq_of_mem_replicate member]
  rfl

/-- Zeros before the digits do not count. -/
theorem isNumeralOf_small {d : Decimal} {zeros : Nat}
    (places : -(zeros + digitCount d.digits : Int) = d.exponent) :
    IsNumeralOf ('0' :: '.' :: (List.replicate zeros '0' ++ Nat.toDigits 10 d.digits)) d := by
  refine @isNumeralOf_point d ['0'] _ (List.cons_ne_nil _ _) (zeros_isDigit 1) ?_ ?_ ?_
  · intro c member
    exact (List.mem_append.mp member).elim (zeros_isDigit zeros c) (digits_isDigit d.digits c)
  · rw [← List.append_assoc, Nat.ofDigitChars_append]
    change Nat.ofDigitChars 10 _ (Nat.ofDigitChars 10 (List.replicate (zeros + 1) '0') 0) = _
    rw [Nat.ofDigitChars_replicate_zero, Nat.mul_zero, Nat.ofDigitChars_ten_toDigits]
  · rw [List.length_append, List.length_replicate]
    push_cast
    exact places

/-- Zeros behind the digits make up for the exponent. -/
theorem isNumeralOf_padded {d : Decimal} {zeros : Nat} (places : (zeros : Int) = d.exponent)
    (point : Bool) : IsNumeralOf
      (Nat.toDigits 10 d.digits ++ List.replicate zeros '0' ++ if point then ['.', '0'] else [])
      d := by
  have all : ∀ c ∈ Nat.toDigits 10 d.digits ++ List.replicate zeros '0', c.isDigit = true :=
    fun c member => (List.mem_append.mp member).elim (digits_isDigit d.digits c)
      (zeros_isDigit zeros c)
  have some : Nat.toDigits 10 d.digits ++ List.replicate zeros '0' ≠ [] :=
    List.append_ne_nil_of_left_ne_nil Nat.toDigits_ne_nil _
  have digits : Nat.ofDigitChars 10 (Nat.toDigits 10 d.digits ++ List.replicate zeros '0') 0 =
      10 ^ zeros * d.digits := by
    rw [Nat.ofDigitChars_append, Nat.ofDigitChars_ten_toDigits, Nat.ofDigitChars_replicate_zero]
  have value : ((10 ^ zeros * d.digits : Nat) : ℚ) = d.value := by
    rw [Decimal.value, ← places, zpow_natCast]
    push_cast
    ring
  cases point with
  | false =>
    rw [if_neg Bool.false_ne_true, List.append_nil]
    have same := numeral_whole all
    rw [digits] at same
    refine ⟨Token.valid_whole some all, ?_, ?_, ?_⟩
    · rw [same, Decimal.value, zpow_zero, mul_one]
      exact value
    · rw [same]
    · rw [same]
      exact Int.le_trans (Int.min_le_left _ _) (by decide : (-1 : Int) ≤ 0)
  | true =>
    rw [if_pos rfl]
    have same := numeral_point all ['0']
    rw [Nat.ofDigitChars_append, digits] at same
    refine ⟨Token.valid_point some all (zeros_isDigit 1), ?_, ?_, ?_⟩
    · have last : Nat.ofDigitChars 10 ['0'] (10 ^ zeros * d.digits) =
          10 * (10 ^ zeros * d.digits) := Nat.ofDigitChars_cons_digitChar_of_lt_ten (by decide : 0 < 10)
      rw [same, Decimal.value, ← value, last, List.length_singleton]
      push_cast
      rw [zpow_neg_one]
      ring
    · rw [same]
      exact (by decide : (-1 : Int) ≤ 0)
    · rw [same]
      exact Int.min_le_left _ _

/-- A point between the digits makes up for the exponent. -/
theorem isNumeralOf_split {d : Decimal} {whole : Nat} (some : 0 < whole)
    (places : (whole : Int) - digitCount d.digits = d.exponent)
    (within : whole ≤ digitCount d.digits) :
    IsNumeralOf ((Nat.toDigits 10 d.digits).take whole ++ ['.'] ++
      (Nat.toDigits 10 d.digits).drop whole) d := by
  rw [List.append_assoc, List.singleton_append]
  refine isNumeralOf_point ?_
    (fun c member => digits_isDigit d.digits c (List.mem_of_mem_take member))
    (fun c member => digits_isDigit d.digits c (List.mem_of_mem_drop member)) ?_ ?_
  · refine List.ne_nil_of_length_pos ?_
    rw [List.length_take]
    exact Nat.lt_min.mpr ⟨some, digitCount_pos d.digits⟩
  · rw [List.take_append_drop, Nat.ofDigitChars_ten_toDigits]
  · rw [List.length_drop, ← digitCount]
    omega

theorem isNumeralOf_positional (style : Notation) (d : Decimal) :
    IsNumeralOf (style.positional (Nat.toDigits 10 d.digits) d.leading) d := by
  have some := digitCount_pos d.digits
  have leading : d.leading = d.exponent + digitCount d.digits - 1 := rfl
  have count : (Nat.toDigits 10 d.digits).length = digitCount d.digits := rfl
  unfold Notation.positional
  split
  · rename_i small
    exact isNumeralOf_small (by omega)
  · dsimp only
    rw [count]
    split
    · exact isNumeralOf_padded (by omega) style.wholePoint
    · exact isNumeralOf_split (by omega) (by omega) (by omega)

/-- What is written out with the digits of a value is read as this value. -/
theorem numeralValue_eq {text : List Char} {d : Decimal} (isNumeral : IsNumeralOf text d)
    {code : Nat} (reads : Binary.ReadsBack .double code d)
    (within : code < Format.double.infinityCode + 1) (low : -2047 ≤ d.exponent) :
    numeralValue text = .signed false ⟨code, within⟩ := by
  have some := digitCount_pos (numeral text).digits
  have bits : Format.double.exponentBits = 11 := rfl
  have high := isNumeral.high
  have least := isNumeral.low
  refine Decimal.toBinary_eq (reads.congr isNumeral.value) within ?_ ?_ false
  · rw [bits]
    omega
  · rw [bits]
    omega

/-- The text of a whole number is read as the number nearest to it. -/
theorem numeralValue_toDigits (n : Nat) :
    (Token.number (Nat.toDigits 10 n)).Valid ∧
      numeralValue (Nat.toDigits 10 n) = .ofInt n := by
  have isNumeral : IsNumeralOf (Nat.toDigits 10 n) ⟨n, 0⟩ := by
    have padded := @isNumeralOf_padded ⟨n, 0⟩ 0 rfl false
    rwa [List.replicate_zero, if_neg Bool.false_ne_true, List.append_nil, List.append_nil] at padded
  refine ⟨isNumeral.valid, ?_⟩
  have reads : Binary.ReadsBack .double (Format.double.nearest (n * Format.double.one) 1) ⟨n, 0⟩ := by
    rw [Binary.ReadsBack]
    simp [Decimal.numerator, Decimal.denominator]
  have low : (-2047 : Int) ≤ 0 := by decide
  rw [numeralValue_eq isNumeral reads (Nat.lt_succ_of_le (Format.nearest_le _ _ _)) low,
    ofInt_natCast]
  rfl

/-- The digits of an exponent, two at least. -/
def exponentDigits (n : Nat) : List Char :=
  if (Nat.toDigits 10 n).length < 2 then '0' :: Nat.toDigits 10 n else Nat.toDigits 10 n

theorem exponentDigits_ne_nil (n : Nat) : exponentDigits n ≠ [] := by
  unfold exponentDigits
  split
  · exact List.cons_ne_nil _ _
  · exact Nat.toDigits_ne_nil

theorem exponentDigits_isDigit (n : Nat) : ∀ c ∈ exponentDigits n, c.isDigit = true := by
  unfold exponentDigits
  split
  · exact List.forall_mem_cons.mpr ⟨rfl, digits_isDigit n⟩
  · exact digits_isDigit n

theorem ofDigitChars_exponentDigits (n : Nat) : Nat.ofDigitChars 10 (exponentDigits n) 0 = n := by
  unfold exponentDigits
  split
  · exact Nat.ofDigitChars_ten_toDigits
  · exact Nat.ofDigitChars_ten_toDigits

/-- In front of the exponent, the digits are written as those of a number with one digit in front
of its point. -/
theorem scientific_eq (style : Notation) (n : Nat) (leading : Int) :
    style.scientific (Nat.toDigits 10 n) leading =
      { style with wholePoint := style.singlePoint }.positional (Nat.toDigits 10 n) 0 ++
        'e' :: (if leading < 0 then '-' else '+') :: exponentDigits leading.natAbs := by
  obtain ⟨first, rest, digits⟩ := List.exists_cons_of_ne_nil (@Nat.toDigits_ne_nil n 10)
  rw [digits]
  cases rest with
  | nil => simp [Notation.scientific, Notation.positional, exponentDigits]
  | cons c more => simp [Notation.scientific, Notation.positional, exponentDigits]

theorem isNumeralOf_mantissa (style : Notation) (n : Nat) :
    IsNumeralOf (style.positional (Nat.toDigits 10 n) 0) ⟨n, 1 - digitCount n⟩ := by
  have isNumeral := isNumeralOf_positional style ⟨n, 1 - digitCount n⟩
  have single : (Decimal.mk n (1 - digitCount n)).leading = 0 := by
    rw [Decimal.leading]
    dsimp only
    omega
  rwa [single] at isNumeral

/-- A number with an exponent falls apart into a number, a name, a sign and a number. -/
theorem exists_scientific_eq (style : Notation) (n : Nat) (leading : Int) :
    ∃ mantissa op exponent, (Token.number mantissa).Valid ∧ (Token.number exponent).Valid ∧
      style.scientific (Nat.toDigits 10 n) leading =
        mantissa ++ 'e' :: Operator.symbol op :: exponent := by
  obtain ⟨op, sign⟩ : ∃ op, (if leading < 0 then '-' else '+') = Operator.symbol op := by
    split
    · exact ⟨.subtract, rfl⟩
    · exact ⟨.add, rfl⟩
  rw [scientific_eq, sign]
  exact ⟨_, op, _, (isNumeralOf_mantissa _ n).valid,
    Token.valid_whole (exponentDigits_ne_nil _) (exponentDigits_isDigit _), rfl⟩

end Placement
