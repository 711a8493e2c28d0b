import Placement.Decimal.Read
import Placement.Proofs.Decimal.Spelling

namespace Placement

theorem digitValue?_of_isDigit {c : Char} (digit : c.isDigit = true) :
    digitValue? c = some (c.toNat - 48) := by
  obtain ⟨low, high⟩ := toNat_of_isDigit digit
  have first : digitZeros.find? (fun first => first ≤ c.toNat && c.toNat < first + 10) = some 48 :=
    List.find?_cons_of_pos (by simp only [Bool.and_eq_true, decide_eq_true_eq]; omega)
  rw [digitValue?, first]
  rfl

/-- The characters that make a run of digits longer. -/
def prolongs (c : Char) : Bool := (digitValue? c).isSome || c == '_'

theorem skipSeparator_of_headNot {text : List Char} (stop : HeadNot (· == '_') text) :
    skipSeparator text = text := by
  unfold skipSeparator
  split
  · cases stop.of_cons
  · rfl

theorem readDigits_append {digits rest : List Char} (all : ∀ c ∈ digits, c.isDigit = true)
    (stop : HeadNot prolongs rest) :
    readDigits (digits ++ rest) = (digits.map fun c => c.toNat - 48, rest) := by
  induction digits with
  | nil =>
    cases rest with
    | nil => rw [List.append_nil, readDigits, List.map_nil]
    | cons c rest =>
      have none : digitValue? c = none := by
        have no := (Bool.or_eq_false_iff.mp stop.of_cons).1
        rwa [Option.isSome_eq_false_iff, Option.isNone_iff_eq_none] at no
      rw [List.nil_append, readDigits, none, List.map_nil]
  | cons c digits ih =>
    obtain ⟨digit, others⟩ := List.forall_mem_cons.mp all
    have noSeparator : HeadNot (· == '_') (digits ++ rest) := by
      refine HeadNot.append (fun d atHead => ?_)
        (stop.mono fun d no => (Bool.or_eq_false_iff.mp no).2)
      exact beq_false_of_ne (ne_of_class (others d (List.mem_of_head? atHead)) rfl)
    rw [List.cons_append, readDigits, digitValue?_of_isDigit digit,
      skipSeparator_of_headNot noSeparator, ih others, List.map_cons]

theorem numberOfDigits_map (digits : List Char) :
    numberOfDigits (digits.map fun c => c.toNat - 48) = Nat.ofDigitChars 10 digits 0 := by
  rw [numberOfDigits, List.foldl_map]
  rfl

/-- The text of a number token is digits, maybe with a point behind some of them. -/
theorem Token.number_cases {text : List Char} (valid : (Token.number text).Valid) :
    text ≠ [] ∧ (∀ c ∈ text, c.isDigit = true) ∨
      ∃ whole fraction, text = whole ++ '.' :: fraction ∧ whole ≠ [] ∧
        (∀ c ∈ whole, c.isDigit = true) ∧ ∀ c ∈ fraction, c.isDigit = true := by
  obtain ⟨word, points⟩ := valid
  have all := word.all isNumberChar_of_isDigit
  have digitOf {c : Char} (number : isNumberChar c = true) (noPoint : c ≠ '.') :
      c.isDigit = true := by
    rcases Bool.or_eq_true_iff.mp number with digit | point
    · exact digit
    · exact absurd (beq_iff_eq.mp point) noPoint
  by_cases point : '.' ∈ text
  · obtain ⟨whole, fraction, rfl⟩ := List.append_of_mem point
    have once : whole.count '.' = 0 ∧ fraction.count '.' = 0 := by
      rw [List.count_append, List.count_cons_self] at points
      omega
    obtain ⟨inWhole, behind⟩ := List.forall_mem_append.mp all
    obtain ⟨_, inFraction⟩ := List.forall_mem_cons.mp behind
    refine Or.inr ⟨whole, fraction, rfl, ?_, fun c member => ?_, fun c member => ?_⟩
    · rintro rfl
      cases word.head rfl
    · exact digitOf (inWhole c member) (ne_of_mem_of_not_mem member (List.count_eq_zero.mp once.1))
    · exact digitOf (inFraction c member)
        (ne_of_mem_of_not_mem member (List.count_eq_zero.mp once.2))
  · exact Or.inl ⟨word.ne_nil, fun c member =>
      digitOf (all c member) (ne_of_mem_of_not_mem member point)⟩

theorem readDecimal?_whole {text after : List Char} {digits : List Nat}
    (read : readDigits text = (digits, after)) (some : digits ≠ [])
    (noPoint : HeadNot (· == '.') after) :
    readDecimal? text =
      (readExponent? after).map fun exponent => ⟨numberOfDigits digits, exponent⟩ := by
  unfold readDecimal?
  rw [read]
  dsimp only
  split
  · cases noPoint.of_cons
  · simp [some]

theorem readDecimal?_point {text more after : List Char} {whole fraction : List Nat}
    (read : readDigits text = (whole, '.' :: more)) (some : whole ≠ [])
    (behind : readDigits more = (fraction, after)) :
    readDecimal? text = (readExponent? after).map fun exponent =>
      ⟨numberOfDigits (whole ++ fraction), exponent - fraction.length⟩ := by
  simp [readDecimal?, read, behind, some]

/-- A number token is read as its numeral, moved by the exponent that is read behind it. -/
theorem readDecimal?_append {text tail : List Char} (valid : (Token.number text).Valid)
    (stop : HeadNot (fun c => prolongs c || c == '.') tail) :
    readDecimal? (text ++ tail) = (readExponent? tail).map fun exponent =>
      ⟨(numeral text).digits, exponent + (numeral text).exponent⟩ := by
  have noDigit : HeadNot prolongs tail := stop.mono fun c no => (Bool.or_eq_false_iff.mp no).1
  have noPoint : HeadNot (· == '.') tail := stop.mono fun c no => (Bool.or_eq_false_iff.mp no).2
  rcases Token.number_cases valid with
    ⟨some, all⟩ | ⟨whole, fraction, rfl, some, inWhole, inFraction⟩
  · rw [readDecimal?_whole (readDigits_append all noDigit) (by simpa using some) noPoint,
      numeral_whole all, numberOfDigits_map]
    simp only [Int.add_zero]
  · have read : readDigits (whole ++ '.' :: (fraction ++ tail)) = _ :=
      readDigits_append inWhole (.cons rfl _)
    rw [List.append_assoc, List.cons_append, readDecimal?_point read (by simpa using some)
      (readDigits_append inFraction noDigit), numeral_point inWhole, ← List.map_append,
      numberOfDigits_map, List.length_map]
    simp only [Int.sub_eq_add_neg]

theorem readDigits_exponentDigits (n : Nat) :
    ∃ digits, readDigits (exponentDigits n) = (digits, []) ∧ digits ≠ [] ∧
      numberOfDigits digits = n := by
  have read := readDigits_append (exponentDigits_isDigit n) .nil
  rw [List.append_nil] at read
  exact ⟨_, read, by simpa using exponentDigits_ne_nil n,
    by rw [numberOfDigits_map, ofDigitChars_exponentDigits]⟩

theorem readExponent?_written (n : Int) :
    readExponent? ('e' :: (if n < 0 then '-' else '+') :: exponentDigits n.natAbs) = some n := by
  obtain ⟨digits, read, some, number⟩ := readDigits_exponentDigits n.natAbs
  obtain ⟨first, others, rfl⟩ := List.exists_cons_of_ne_nil some
  by_cases negative : n < 0
  · simp only [readExponent?, if_pos negative, readSign, read, number, true_or, if_true]
    exact congrArg Option.some (by omega)
  · simp only [readExponent?, if_neg negative, readSign, read, number, true_or, if_true,
      Bool.false_eq_true, if_false]
    exact congrArg Option.some (by omega)

/-- A text of the value of a decimal, without a sign and without space. -/
structure IsTextOf (text : List Char) (d : Decimal) : Prop where
  first : ∃ c rest, text = c :: rest ∧ c.isDigit = true
  plain : ∀ c ∈ text, isWhite c = false
  read : ∃ other, readDecimal? text = some other ∧ other.value = d.value

theorem isWhite_of_isNumberChar {c : Char} (number : isNumberChar c = true) :
    isWhite c = false := by
  rcases Bool.or_eq_true_iff.mp number with digit | point
  · have range := toNat_of_isDigit digit
    simp only [isWhite, Bool.or_eq_false_iff, Bool.and_eq_false_iff, decide_eq_false_iff_not,
      beq_eq_false_iff_ne]
    omega
  · rw [beq_iff_eq.mp point]
    rfl

/-- A number token, and an exponent behind it. -/
theorem isTextOf_append {text tail : List Char} {d : Decimal} {exponent : Int}
    (valid : (Token.number text).Valid) (plain : ∀ c ∈ tail, isWhite c = false)
    (stop : HeadNot (fun c => prolongs c || c == '.') tail)
    (read : readExponent? tail = some exponent)
    (value : (numeral text).value * 10 ^ exponent = d.value) : IsTextOf (text ++ tail) d where
  first := by
    obtain ⟨c, rest, rfl, digit, _⟩ := valid.1
    exact ⟨c, rest ++ tail, rfl, digit⟩
  plain := List.forall_mem_append.mpr ⟨fun c member =>
    isWhite_of_isNumberChar (valid.1.all isNumberChar_of_isDigit c member), plain⟩
  read := by
    refine ⟨_, by rw [readDecimal?_append valid stop, read, Option.map_some], ?_⟩
    rw [← value, Decimal.value, Decimal.value, add_comm, zpow_add₀ (by norm_num), mul_assoc]

theorem isTextOf_positional (style : Notation) (d : Decimal) :
    IsTextOf (style.positional (Nat.toDigits 10 d.digits) d.leading) d := by
  have isNumeral := isNumeralOf_positional style d
  have text := isTextOf_append (d := d) isNumeral.valid (List.forall_mem_nil _) .nil rfl
    (by rw [zpow_zero, mul_one, isNumeral.value])
  rwa [List.append_nil] at text

theorem isTextOf_scientific (style : Notation) (d : Decimal) :
    IsTextOf (style.scientific (Nat.toDigits 10 d.digits) d.leading) d := by
  have isNumeral := isNumeralOf_mantissa { style with wholePoint := style.singlePoint } d.digits
  rw [scientific_eq]
  refine isTextOf_append isNumeral.valid ?_ (.cons rfl _) (readExponent?_written d.leading) ?_
  · refine List.forall_mem_cons.mpr ⟨rfl, List.forall_mem_cons.mpr ⟨?_, fun c member => ?_⟩⟩
    · split <;> rfl
    · exact isWhite_of_isNumberChar
        (isNumberChar_of_isDigit c (exponentDigits_isDigit _ c member))
  · rw [isNumeral.value, Decimal.value, Decimal.value, mul_assoc, ← zpow_add₀ (by norm_num),
      Decimal.leading]
    congr 2
    dsimp only
    omega

theorem stripOf_eq_self {ends : Char → Bool} {text : List Char}
    (none : ∀ c ∈ text, ends c = false) : stripOf ends text = text := by
  have kept {other : List Char} (none : ∀ c ∈ other, ends c = false) :
      other.dropWhile ends = other := by
    cases other with
    | nil => rfl
    | cons c rest => rw [List.dropWhile_cons_of_neg (by simp [none c List.mem_cons_self])]
  rw [stripOf, kept none, kept fun c member => none c (List.mem_reverse.mp member),
    List.reverse_reverse]

theorem toLower_of_isDigit {c : Char} (digit : c.isDigit = true) : c.toLower = c := by
  have range := toNat_of_isDigit digit
  refine dif_neg fun upper => ?_
  have low : 65 ≤ c.toNat := UInt32.le_iff_toNat_le.mp upper.1
  omega

/-- What begins with a digit is no word that begins with a letter. -/
theorem word_ne {c letter : Char} (digit : c.isDigit = true) (rest : List Char) {word : String}
    (head : word.toList.head? = some letter) (noDigit : letter.isDigit = false) :
    String.ofList ((c :: rest).map Char.toLower) ≠ word := by
  rintro rfl
  rw [String.toList_ofList, List.map_cons, List.head?_cons, toLower_of_isDigit digit] at head
  exact ne_of_class digit noDigit (Option.some.inj head)

theorem readSign_append {c : Char} (digit : c.isDigit = true) (rest : List Char)
    (negative : Bool) :
    readSign ((if negative then ['-'] else []) ++ c :: rest) = (negative, c :: rest) := by
  cases negative with
  | true => rfl
  | false =>
    change readSign (c :: rest) = _
    unfold readSign
    split
    · rename_i same
      cases same
      cases digit
    · rename_i same
      cases same
      cases digit
    · rfl

/-- What is written of a decimal behind a sign is read as a decimal of the same value, and rounded
under this sign. -/
theorem IsTextOf.readBinary? {text : List Char} {d : Decimal} (isText : IsTextOf text d)
    (F : Format) (negative : Bool) : ∃ other : Decimal, other.value = d.value ∧
      Placement.readBinary? F ((if negative then ['-'] else []) ++ text) =
        some (other.toBinary F negative) := by
  obtain ⟨other, read, value⟩ := isText.read
  refine ⟨other, value, ?_⟩
  have plain : ∀ c ∈ (if negative then ['-'] else []) ++ text, isWhite c = false := by
    refine List.forall_mem_append.mpr ⟨?_, isText.plain⟩
    cases negative with
    | true => exact List.forall_mem_singleton.mpr rfl
    | false => exact List.forall_mem_nil _
  obtain ⟨c, rest, rfl, digit⟩ := isText.first
  have inf := word_ne digit rest (rfl : "inf".toList.head? = some 'i') rfl
  have infinity := word_ne digit rest (rfl : "infinity".toList.head? = some 'i') rfl
  have nan := word_ne digit rest (rfl : "nan".toList.head? = some 'n') rfl
  rw [Placement.readBinary?, stripOf_eq_self plain, readSign_append digit]
  dsimp only
  rw [if_neg (not_or.mpr ⟨inf, infinity⟩), if_neg nan, read, Option.map_some]

/-- Decimals are read as they were written, by their value. -/
theorem readBinary?_write (style : Notation) (F : Format) (negative : Bool) (d : Decimal)
    (scaleExponent : Int) : ∃ other : Decimal, other.value = d.value ∧
      readBinary? F (style.write negative d scaleExponent) = some (other.toBinary F negative) := by
  have isText : IsTextOf (if style.lowest ≤ scaleExponent ∧ scaleExponent < style.highest then
      style.positional (Nat.toDigits 10 d.digits) d.leading
    else style.scientific (Nat.toDigits 10 d.digits) d.leading) d := by
    split
    · exact isTextOf_positional style d
    · exact isTextOf_scientific style d
  exact isText.readBinary? F negative

end Placement
