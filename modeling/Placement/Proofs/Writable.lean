import Placement.Datum

namespace Placement.Datum

variable {levels fewer more : Nat} {limit : Option Nat}

/-- Nothing keeps a value from being written if collections may nest `levels` deep. -/
def Writable (levels : Nat) (value : Datum) : Prop := value.hindrance? (some levels) = none

instance {value : Datum} : Decidable (Writable levels value) := inferInstanceAs (Decidable (_ = _))

theorem itemsHindrance?_eq_none_iff {items : List Datum} :
    itemsHindrance? limit items = none ↔ ∀ item ∈ items, item.hindrance? limit = none := by
  induction items with
  | nil => exact iff_of_true rfl (List.forall_mem_nil _)
  | cons item rest ih => rw [itemsHindrance?, Option.or_eq_none_iff, ih, List.forall_mem_cons]

theorem entriesHindrance?_eq_none_iff {entries : List (Datum × Datum)} :
    entriesHindrance? limit entries = none ↔ ∀ entry ∈ entries,
      entry.1.hindrance? limit = none ∧ entry.2.hindrance? limit = none := by
  induction entries with
  | nil => exact iff_of_true rfl (List.forall_mem_nil _)
  | cons entry rest ih =>
    rw [entriesHindrance?, Option.or_eq_none_iff, Option.or_eq_none_iff, ih, List.forall_mem_cons]

theorem fieldsHindrance?_eq_none_iff {fields : List (String × Datum)} :
    fieldsHindrance? limit fields = none ↔ ∀ field ∈ fields, field.2.hindrance? limit = none := by
  induction fields with
  | nil => exact iff_of_true rfl (List.forall_mem_nil _)
  | cons field rest ih => rw [fieldsHindrance?, Option.or_eq_none_iff, ih, List.forall_mem_cons]

theorem digitHindrance?_eq_none_iff {n : Int} :
    digitHindrance? n = none ↔ n.natAbs < Nat.pow 10 integerDigitLimit := by
  unfold digitHindrance?
  split
  · exact iff_of_true rfl ‹_›
  · exact iff_of_false nofun ‹_›

/-- A list takes one level for itself. -/
theorem writable_list_iff {items : List Datum} :
    Writable (levels + 1) (.list items) ↔ ∀ item ∈ items, Writable levels item := by
  rw [Writable, hindrance?]
  exact itemsHindrance?_eq_none_iff

theorem writable_mapping_iff {entries : List (Datum × Datum)} :
    Writable (levels + 1) (.mapping entries) ↔
      ∀ entry ∈ entries, Writable levels entry.1 ∧ Writable levels entry.2 := by
  rw [Writable, hindrance?]
  exact entriesHindrance?_eq_none_iff

theorem writable_record_iff {name : String} {fields : List (String × Datum)} :
    Writable (levels + 1) (.record name fields) ↔ ∀ field ∈ fields, Writable levels field.2 := by
  rw [Writable, hindrance?]
  exact fieldsHindrance?_eq_none_iff

/-- What can be written can be written with more levels. -/
theorem Writable.mono {value : Datum} (writable : Writable fewer value) (le : fewer ≤ more) :
    Writable more value := by
  induction fewer generalizing more value with
  | zero =>
    cases value with
    | list | mapping | record => cases writable
    | _ => exact writable
  | succ fewer ih =>
    obtain ⟨more, rfl⟩ : ∃ wide, more = wide + 1 := ⟨more - 1, by omega⟩
    have within : fewer ≤ more := Nat.le_of_succ_le_succ le
    cases value with
    | list items =>
      rw [writable_list_iff] at writable ⊢
      exact fun item member => ih (writable item member) within
    | mapping entries =>
      rw [writable_mapping_iff] at writable ⊢
      exact fun entry member => (writable entry member).imp (ih · within) (ih · within)
    | record name fields =>
      rw [writable_record_iff] at writable ⊢
      exact fun field member => ih (writable field member) within
    | _ => exact writable

/-- The items of a list that can be written can be written. -/
theorem Writable.item {items : List Datum} (writable : Writable levels (.list items))
    {item : Datum} (member : item ∈ items) : Writable levels item := by
  cases levels with
  | zero => cases writable
  | succ inside => exact (writable_list_iff.mp writable item member).mono (Nat.le_succ inside)

theorem exists_mem_of_get? {entries : List (Datum × Datum)} {name : String} {value : Datum}
    (found : get? entries name = some value) : ∃ entry ∈ entries, entry.2 = value := by
  obtain ⟨entry, first, same⟩ := Option.map_eq_some_iff.mp found
  exact ⟨entry, List.mem_of_find?_eq_some first, same⟩

theorem Writable.get? {entries : List (Datum × Datum)} (writable : Writable levels (.mapping entries))
    {name : String} {value : Datum} (found : Datum.get? entries name = some value) :
    Writable levels value := by
  obtain ⟨entry, member, rfl⟩ := exists_mem_of_get? found
  cases levels with
  | zero => cases writable
  | succ inside =>
    exact (writable_mapping_iff.mp writable entry member).2.mono (Nat.le_succ inside)

/-- A list of values of a mapping and of numbers nests no deeper than the mapping. -/
theorem Writable.components {entries : List (Datum × Datum)}
    (writable : Writable levels (.mapping entries)) (names : List String) (default : Double) :
    Writable levels (.list (names.map fun name => (Datum.get? entries name).getD (.float default))) := by
  cases levels with
  | zero => cases writable
  | succ inside =>
    rw [writable_list_iff, List.forall_mem_map]
    intro name _
    cases found : Datum.get? entries name with
    | none => rfl
    | some value =>
      obtain ⟨entry, member, rfl⟩ := exists_mem_of_get? found
      exact (writable_mapping_iff.mp writable entry member).2

theorem plainText?_eq_ok_iff {value : Datum} {text : String} :
    value.plainText? limit = .ok text ↔ value.hindrance? limit = none ∧ value.plainText = text := by
  rw [plainText?]
  cases value.hindrance? limit <;> simp

end Placement.Datum
