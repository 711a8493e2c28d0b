import Placement.Command.Evaluate
import Placement.Proofs.Decimal.Reading
import Placement.Proofs.Decimal.Significant
import Placement.Proofs.Layout.Keeping

namespace Placement

namespace Binary

/-- A finite binary32 magnitude in binary64. -/
theorem exists_toDouble_eq {negative : Bool} {code : Fin (Format.single.infinityCode + 1)}
    (finite : code.val ≠ Format.single.infinityCode) :
    ∃ wide, wide.val ≠ Format.double.infinityCode ∧
      (Binary.signed negative code : Single).toDouble = .signed negative wide ∧
      (Format.double.units wide : ℚ) / Format.double.one =
        Format.single.units code / Format.single.one := by
  obtain ⟨other, below, same⟩ := exists_double_units
    (Nat.lt_of_le_of_ne (Nat.le_of_lt_succ code.isLt) finite)
  refine ⟨⟨other, by omega⟩, Nat.ne_of_lt below,
    convert_of_units_eq code ⟨other, by omega⟩ finite same negative, ?_⟩
  have single : (Format.single.one : ℚ) ≠ 0 := by exact_mod_cast Format.single.one_pos.ne'
  have double : (Format.double.one : ℚ) ≠ 0 := by exact_mod_cast Format.double.one_pos.ne'
  rw [div_eq_div_iff double single]
  exact_mod_cast same.symm

theorem convert_zero {F G : Format} (finite : (0 : Nat) ≠ F.infinityCode) (negative : Bool) :
    (zero negative : Binary F).convert G = zero negative := by
  refine convert_of_units_eq ⟨0, _⟩ ⟨0, _⟩ finite ?_ negative
  rw [F.units_zero, G.units_zero, Nat.zero_mul, Nat.zero_mul]

end Binary

namespace Command

/-- The decimal that is printed for a magnitude. -/
def printed (code : Nat) : Decimal :=
  if code = 0 then ⟨0, 0⟩
  else (Decimal.ofFraction 9 (Format.double.units code) Format.double.one).trim

theorem toList_writeResult {negative : Bool} {code : Fin (Format.double.infinityCode + 1)}
    (finite : code.val ≠ Format.double.infinityCode) :
    (writeResult (.signed negative code)).toList =
      resultNotation.write negative (printed code) (printed code).leading := by
  rw [writeResult, Notation.significant, Notation.writeWith, if_neg finite, String.toList_ofList]
  rfl

theorem printed_close {code : Nat} (some : code ≠ 0) :
    2 * 10 ^ 9 * |(printed code).value - Format.double.units code / Format.double.one| ≤
      10 * (Format.double.units code / Format.double.one) := by
  rw [printed, if_neg some, Decimal.value_trim]
  exact Decimal.ofFraction_close (Format.double.units_pos some) Format.double.one_pos 9

/-- The nine digits of a binary32 magnitude are read as this magnitude, in whatever form. -/
theorem toSingle_of_printed {code : Fin (Format.single.infinityCode + 1)} {wide : Nat}
    {d : Decimal} (finite : code.val ≠ Format.single.infinityCode)
    (same : (Format.double.units wide : ℚ) / Format.double.one =
      Format.single.units code / Format.single.one)
    (value : d.value = (printed wide).value) (negative : Bool) :
    (d.toBinary .double negative).toSingle = .signed negative code := by
  have zeros : wide = 0 ↔ code.val = 0 := by
    rw [← @Format.units_div_one_eq_zero_iff .double, same, Format.units_div_one_eq_zero_iff]
  by_cases none : wide = 0
  · have zero : code = ⟨0, Nat.succ_pos _⟩ := Fin.ext (zeros.mp none)
    rw [printed, if_pos none, Decimal.value, Decimal.value, Nat.cast_zero, zero_mul] at value
    rw [Decimal.toBinary_of_value_zero value, zero]
    exact Binary.convert_zero (by decide) negative
  · have close := printed_close none
    rw [same, ← value] at close
    exact Decimal.toSingle_toBinary (mt zeros.mpr none) finite close negative

/-- The text of a result is read as a number that is rounded to the result. -/
theorem readDouble?_writeResult (v : Single) :
    ∃ x, readDouble? (writeResult v.toDouble) = some x ∧ x.toSingle = v := by
  cases v with
  | nan => exact ⟨.nan, by decide +kernel, rfl⟩
  | signed negative code =>
    by_cases infinite : code.val = Format.single.infinityCode
    · obtain rfl : code = ⟨Format.single.infinityCode, Nat.lt_succ_self _⟩ := Fin.ext infinite
      refine ⟨.infinity negative, ?_, Binary.convert_infinity negative⟩
      cases negative <;> decide +kernel
    · obtain ⟨wide, finite, widened, same⟩ := @Binary.exists_toDouble_eq negative code infinite
      obtain ⟨d, value, read⟩ := readBinary?_write resultNotation .double negative (printed wide)
        (printed wide).leading
      refine ⟨d.toBinary .double negative, ?_, toSingle_of_printed infinite same value negative⟩
      rw [widened, readDouble?, toList_writeResult finite, read]

/-- Printed results tell the values apart. -/
theorem writeResult_injective {v w : Single}
    (same : writeResult v.toDouble = writeResult w.toDouble) : v = w := by
  obtain ⟨x, read, rfl⟩ := readDouble?_writeResult v
  obtain ⟨y, again, rfl⟩ := readDouble?_writeResult w
  rw [same, again] at read
  rw [Option.some.inj read]

/-- A binding is cut at its first equal sign. -/
theorem readBinding_append {name : String} (some : name ≠ "") (noEqual : '=' ∉ name.toList)
    {value : String} {x : Double} (read : readDouble? value = .some x) :
    readBinding (name ++ "=" ++ value) = .ok (name, .float x) := by
  have text : (name ++ "=" ++ value).toList = name.toList ++ '=' :: value.toList := by
    rw [String.toList_append, String.toList_append, List.append_assoc]
    rfl
  have all : ∀ c ∈ name.toList, (c != '=') = true := fun c member =>
    bne_iff_ne.mpr (ne_of_mem_of_not_mem member noEqual)
  have stop : HeadNot (· != '=') ('=' :: value.toList) := .cons rfl _
  have written : name.toList ≠ [] := fun none => some (String.toList_eq_nil_iff.mp none)
  obtain ⟨first, rest, atName⟩ := List.exists_cons_of_ne_nil written
  have made : String.ofList (first :: rest) = name := by rw [← atName, String.ofList_toList]
  unfold readBinding
  rw [text, stop.takeWhile_append all, stop.dropWhile_append all, atName]
  dsimp only
  rw [made, String.ofList_toList, read]

/-- What a formula evaluates to is printed as the text of a binary32 value. -/
theorem exists_evaluateReport_eq {expression : String} {bindings : List (String × Datum)}
    {setting : Option String} {limits : Limits} {x : Double}
    (limited : Limits.ofSetting setting = .ok limits)
    (evaluated : (evaluateText (.some expression)
      (bindings.map fun (name, value) => (name, Given.datum value)) [] limits).result = .ok x) :
    ∃ v : Single, x = v.toDouble ∧ evaluateReport expression bindings setting =
      { output := writeResult v.toDouble ++ "\n" } := by
  obtain ⟨_, _, v, _, _, _, rfl⟩ := evaluateText_eq_ok_iff.mp evaluated
  refine ⟨v, rfl, ?_⟩
  rw [evaluateReport, limited]
  dsimp only
  rw [evaluated]

/-- A printed result identifies the value. Bound to a name again, its text is a number, and the
variable has exactly this value. So no two results are printed alike. -/
theorem printed_result_identifies :
    (∀ (v : Single) (name : String), name ≠ "" → '=' ∉ name.toList →
      ∃ x, readBinding (name ++ "=" ++ writeResult v.toDouble) = .ok (name, .float x) ∧
        (Given.datum (.float x)).bind? = some (.number v)) ∧
      (∀ v w : Single, writeResult v.toDouble = writeResult w.toDouble → v = w) ∧
      ∀ expression bindings setting limits x, Limits.ofSetting setting = .ok limits →
        (evaluateText (some expression)
          (bindings.map fun (name, value) => (name, Given.datum value)) [] limits).result = .ok x →
        ∃ v : Single, x = v.toDouble ∧ evaluateReport expression bindings setting =
          { output := writeResult v.toDouble ++ "\n" } := by
  refine ⟨fun v name some noEqual => ?_, fun v w => writeResult_injective, ?_⟩
  · obtain ⟨x, read, rfl⟩ := readDouble?_writeResult v
    exact ⟨x, readBinding_append some noEqual read, rfl⟩
  · intro expression bindings setting limits x limited evaluated
    exact exists_evaluateReport_eq limited evaluated

/-- A half is printed, bound to a name again and printed as it was. -/
theorem printed_half_identifies :
    ∃ (v : Single) (x : Double),
      evaluateReport "this" [("this", .float .half)] none = { output := "0.5\n" } ∧
      readBinding "x=0.5" = .ok ("x", .float x) ∧
      (Given.datum (.float x)).bind? = some (.number v) ∧
      ∀ w : Single, writeResult w.toDouble = "0.5" → w = v := by
  obtain ⟨bound, injective, reports⟩ := printed_result_identifies
  have evaluated : (evaluateText (some "this") [("this", .datum (.float .half))] [] {}).result =
      .ok (Binary.half : Double).toSingle.toDouble := by
    rw [evaluateText_eq_ofTraced (parse_this {}) rfl]
    rfl
  obtain ⟨v, same, report⟩ := reports "this" [("this", .float .half)] none {} _ rfl evaluated
  have text : writeResult v.toDouble = "0.5" := by
    rw [← same]
    decide +kernel
  obtain ⟨x, read, value⟩ := bound v "x" (by decide) (by decide)
  rw [text] at report read
  exact ⟨v, x, report, read, value, fun w printed => injective w v (printed.trans text.symm)⟩

end Command

end Placement
