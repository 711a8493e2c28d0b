import Placement.Proofs.Layout.PlanFormat

namespace Placement

open Datum

/-- A reading that fails refuses what lacks a format, or meets what cannot be written. -/
def Rejects {α : Type} (result : Except PlanFailure α) (format writable : Prop) : Prop :=
  ∀ failure, result = .error failure → (∃ error, failure = .refused error) ∧ ¬ format ∨
    (∃ hindrance, failure = .unwritable hindrance) ∧ ¬ writable

namespace Rejects

variable {α β : Type} {levels : Nat} {format writable : Prop} {result : Except PlanFailure α}

theorem ok {value : α} : Rejects (.ok value) format writable := nofun

theorem mono {narrower fewer : Prop} (rejects : Rejects result format writable)
    (implies : narrower → format) (also : fewer → writable) : Rejects result narrower fewer :=
  fun failure failed => (rejects failure failed).imp (And.imp_right (mt implies))
    (And.imp_right (mt also))

theorem bind {next : α → Except PlanFailure β} (first : Rejects result format writable)
    (behind : ∀ value, result = .ok value → Rejects (next value) format writable) :
    Rejects (result >>= next) format writable := by
  intro failure failed
  rcases bind_eq_error_iff.mp failed with stopped | ⟨value, same, stopped⟩
  · exact first failure stopped
  · exact behind value same failure stopped

/-- An error is met as itself, or as what keeps its message from being written. -/
theorem raised {error : PlanError} (lacks : ¬ format)
    (free : writable → error.hindrance? levels = none) :
    Rejects (.error (.raised levels error) : Except PlanFailure α) format writable := by
  intro failure failed
  cases failed
  rw [PlanFailure.raised]
  split
  · exact Or.inl ⟨⟨error, rfl⟩, lacks⟩
  · rename_i hindrance hinders
    exact Or.inr ⟨⟨hindrance, rfl⟩, fun can => by cases (free can).symm.trans hinders⟩

theorem orError {error : PlanError} {found : Option α} (some : format → ∃ value, found = .some value)
    (free : writable → error.hindrance? levels = none) :
    Rejects (Plan.orError levels error found) format writable := by
  cases found with
  | some value => exact .ok
  | none =>
    refine raised (fun has => ?_) free
    obtain ⟨value, same⟩ := some has
    cases same

theorem textOf {value : Datum} :
    Rejects (Plan.textOf levels value) format (value.Writable levels) := by
  intro failure failed
  obtain ⟨hindrance, hindered, rfl⟩ := mapError_eq_error_iff.mp failed
  refine Or.inr ⟨⟨hindrance, rfl⟩, fun can => ?_⟩
  rw [Datum.plainText?, show value.hindrance? (some levels) = none from can] at hindered
  cases hindered

theorem mapM {items : List α} {f : α → Except PlanFailure β} {formatOf writableOf : α → Prop}
    (each : ∀ item, Rejects (f item) (formatOf item) (writableOf item)) :
    Rejects (items.mapM f) (∀ item ∈ items, formatOf item) (∀ item ∈ items, writableOf item) := by
  induction items with
  | nil => exact .ok
  | cons item rest ih =>
    rw [List.mapM_cons, List.forall_mem_cons, List.forall_mem_cons]
    refine ((each item).mono And.left And.left).bind fun _ _ => ?_
    exact (ih.mono And.right And.right).bind fun _ _ => .ok

theorem ofFnM {f : Axis → Except PlanFailure α} (each : ∀ axis, Rejects (f axis) format writable) :
    Rejects (PerAxis.ofFnM f) format writable :=
  (each .x).bind fun _ _ => (each .y).bind fun _ _ => (each .z).bind fun _ _ => .ok

end Rejects

namespace Datum

variable {levels : Nat} {value? : Option Datum}

theorem EntriesOf.writable {value : Datum} {entries : List (Datum × Datum)}
    (means : EntriesOf value entries) (writable : value.Writable levels) (name : String) :
    Allowed (Writable levels) (get? entries name) := by
  rcases means with rfl | ⟨_, rfl⟩
  · exact fun _ => writable.get?
  · exact allowed_nil

theorem ItemsOf.writable {value : Datum} {items : List Datum} (means : ItemsOf value items)
    (writable : value.Writable levels) : ∀ item ∈ items, item.Writable levels := by
  rcases means with rfl | ⟨_, rfl⟩
  · exact fun _ => writable.item
  · exact List.forall_mem_nil _

theorem writable_of_optionalMapping? {entries : List (Datum × Datum)}
    (found : optionalMapping? value? = some entries) (writable : Allowed (Writable levels) value?)
    (name : String) : Allowed (Writable levels) (get? entries name) := by
  cases Plan.optionalMapping?_eq_some_iff.mp found with
  | absent => exact allowed_nil
  | present means => exact means.writable (writable _ rfl) name

theorem writable_of_optionalList? {items : List Datum} (found : optionalList? value? = some items)
    (writable : Allowed (Writable levels) value?) : ∀ item ∈ items, item.Writable levels := by
  cases Plan.optionalList?_eq_some_iff.mp found with
  | absent => exact List.forall_mem_nil _
  | present means => exact means.writable (writable _ rfl)

/-- A value means the entries that are found in it, and no others. -/
theorem fits_of_optionalMapping? {entries : List (Datum × Datum)}
    {fits : List (Datum × Datum) → Prop} (found : optionalMapping? value? = some entries)
    (atNone : fits [])
    (allowed : Allowed (fun value => ∃ entries, EntriesOf value entries ∧ fits entries) value?) :
    fits entries := by
  obtain ⟨others, reads, fit⟩ := (exists_understood_and_iff atNone).mpr allowed
  cases found.symm.trans (Plan.optionalMapping?_eq_some_iff.mpr reads)
  exact fit

theorem fits_of_optionalList? {items : List Datum} {fits : List Datum → Prop}
    (found : optionalList? value? = some items) (atNone : fits [])
    (allowed : Allowed (fun value => ∃ items, ItemsOf value items ∧ fits items) value?) :
    fits items := by
  obtain ⟨others, reads, fit⟩ := (exists_understood_and_iff atNone).mpr allowed
  cases found.symm.trans (Plan.optionalList?_eq_some_iff.mpr reads)
  exact fit

theorem exists_optionalMapping? {fits : List (Datum × Datum) → Prop}
    (allowed : Allowed (fun value => ∃ entries, EntriesOf value entries ∧ fits entries) value?) :
    ∃ entries, optionalMapping? value? = some entries := by
  have any : Allowed (fun value => ∃ entries, EntriesOf value entries) value? :=
    fun value some => (allowed value some).imp fun _ => And.left
  obtain ⟨entries, reads⟩ := (exists_understood_iff fun _ => Iff.rfl).mpr any
  exact ⟨entries, Plan.optionalMapping?_eq_some_iff.mpr reads⟩

theorem exists_optionalList? {fits : List Datum → Prop}
    (allowed : Allowed (fun value => ∃ items, ItemsOf value items ∧ fits items) value?) :
    ∃ items, optionalList? value? = some items := by
  have any : Allowed (fun value => ∃ items, ItemsOf value items) value? :=
    fun value some => (allowed value some).imp fun _ => And.left
  obtain ⟨items, reads⟩ := (exists_understood_iff fun _ => Iff.rfl).mpr any
  exact ⟨items, Plan.optionalList?_eq_some_iff.mpr reads⟩

end Datum

namespace Plan

variable {levels : Nat} {value? : Option Datum} {entries : List (Datum × Datum)}

theorem readComponents_rejects {what : String} {value : Datum} {format : Prop}
    (components : format → ∃ x y z : Datum, value = .list [x, y, z] ∧
      x.IsNumber ∧ y.IsNumber ∧ z.IsNumber) :
    Rejects (readComponents levels what value) format (value.Writable levels) := by
  unfold readComponents
  split
  · refine .orError (fun has => ?_) id
    obtain ⟨_, _, _, same, ⟨x, atX⟩, ⟨y, atY⟩, ⟨z, atZ⟩⟩ := components has
    cases same
    exact ⟨⟨x, y, z⟩, by rw [atX, atY, atZ]; rfl⟩
  · rename_i noList
    refine .raised (fun has => ?_) id
    obtain ⟨x, y, z, rfl, _⟩ := components has
    exact noList x y z rfl

theorem readPoint_rejects {what : String} {default : Double} :
    Rejects (readPoint levels what default value?) (Allowed IsPoint value?)
      (Allowed (Writable levels) value?) := by
  unfold readPoint
  split
  · exact .ok
  · exact .ok
  · rename_i entries
    refine (readComponents_rejects fun allowed => ?_).mono id fun writable =>
      (writable _ rfl).components (Axis.all.map Axis.name) default
    cases allowed _ rfl with
    | mapping components =>
      have isNumber (axis : Axis) :
          ((get? entries axis.name).getD (.float default)).IsNumber := by
        cases found : get? entries axis.name with
        | none => exact ⟨default, rfl⟩
        | some value => exact components axis value found
      exact ⟨_, _, _, rfl, isNumber .x, isNumber .y, isNumber .z⟩
  · rename_i value noNull noMapping
    refine (readComponents_rejects fun allowed => ?_).mono id fun writable => writable _ rfl
    cases allowed _ rfl with
    | null => exact absurd rfl noNull
    | list atX atY atZ => exact ⟨_, _, _, rfl, atX, atY, atZ⟩
    | mapping components => exact absurd rfl (noMapping _)

theorem readExtent_rejects {name : String} (value : Datum) :
    Rejects (readExtent levels name value) (IsExtent value) (value.Writable levels) := by
  unfold readExtent
  split
  · rename_i entries
    refine (readPoint_rejects.mono ?_ fun writable _ => writable.get?).bind fun _ _ =>
      (readPoint_rejects.mono ?_ fun writable _ => writable.get?).bind fun _ _ => .ok
    · rintro ⟨_, same, low, _⟩
      cases same
      exact low
    · rintro ⟨_, same, _, high⟩
      cases same
      exact high
  · rename_i noMapping
    refine .raised (fun has => ?_) id
    obtain ⟨entries, rfl, _⟩ := has
    exact noMapping entries rfl

theorem readSize_rejects {name : String} : Rejects (readSize levels name entries)
    ((get? entries "bounds" = none → Allowed IsPoint (get? entries "size")) ∧
      ∀ bounds, get? entries "bounds" = some bounds →
        ∃ items, ItemsOf bounds items ∧ ∀ item ∈ items, IsExtent item)
    (∀ name, Allowed (Writable levels) (get? entries name)) := by
  unfold readSize
  cases atBounds : get? entries "bounds" with
  | none => exact readPoint_rejects.mono (fun has => has.1 rfl) fun writable => writable "size"
  | some bounds =>
    refine (Rejects.orError (fun has => exists_optionalList? has.2) fun _ => rfl).bind
      fun items found => ?_
    exact ((Rejects.mapM readExtent_rejects).mono
      (fun has => fits_of_optionalList? (orError_eq_ok_iff.mp found) (List.forall_mem_nil _) has.2)
      fun writable => writable_of_optionalList? (orError_eq_ok_iff.mp found)
        (atBounds ▸ writable "bounds")).bind fun _ _ => .ok

theorem readSiblingIndex_rejects {name : String} {index : Nat} :
    Rejects (readSiblingIndex levels name index value?) (Allowed IsWhole value?)
      (Allowed (Writable levels) value?) := by
  cases value? with
  | none => exact .ok
  | some value => exact .orError (fun allowed => allowed value rfl) fun writable => writable value rfl

theorem readName_rejects {index : Nat} {format : Prop} :
    Rejects (readName levels index value?) format (Allowed (Writable levels) value?) := by
  cases value? with
  | none => exact .ok
  | some value => exact Rejects.textOf.mono id fun writable => writable value rfl

theorem readTarget_rejects {index : Nat} (value : Datum) : Rejects (readTarget levels index value)
    (∃ entries, value = .mapping entries ∧ Target.IsEntries (fun _ => True) entries)
    (value.Writable levels) := by
  unfold readTarget
  split
  · rename_i entries
    have format (has : ∃ others, Datum.mapping entries = .mapping others ∧
        Target.IsEntries (fun _ => True) others) : Target.IsEntries (fun _ => True) entries := by
      obtain ⟨_, same, format⟩ := has
      cases same
      exact format
    have parts (writable : (Datum.mapping entries).Writable levels) (name : String) :
        Allowed (Writable levels) (get? entries name) := fun _ => writable.get?
    refine (readName_rejects.mono id fun writable => parts writable _).bind fun _ _ =>
      (readSize_rejects.mono (fun has => ⟨(format has).size, (format has).bounds⟩) parts).bind
      fun _ _ => ?_
    refine (readPoint_rejects.mono (fun has => (format has).position) fun writable =>
      parts writable _).bind fun _ _ => ?_
    refine (readPoint_rejects.mono (fun has => (format has).rotation) fun writable =>
      parts writable _).bind fun _ _ => ?_
    refine (readPoint_rejects.mono (fun has => (format has).scale) fun writable =>
      parts writable _).bind fun _ _ => ?_
    exact (readSiblingIndex_rejects.mono (fun has => (format has).siblingIndex) fun writable =>
      parts writable _).bind fun _ _ => .ok
  · rename_i noMapping
    intro failure failed
    cases failed
    refine Or.inl ⟨⟨_, rfl⟩, fun has => ?_⟩
    obtain ⟨entries, rfl, _⟩ := has
    exact noMapping entries rfl

theorem readTargets_rejects {index : Nat} {items : List Datum} :
    Rejects (readTargets levels index items)
      (∀ item ∈ items, ∃ entries, item = .mapping entries ∧
        Target.IsEntries (fun _ => True) entries)
      (∀ item ∈ items, item.Writable levels) := by
  induction items generalizing index with
  | nil => exact .ok
  | cons item rest ih =>
    rw [readTargets, List.forall_mem_cons, List.forall_mem_cons]
    refine ((readTarget_rejects item).mono And.left And.left).bind fun _ _ => ?_
    exact (ih.mono And.right And.right).bind fun _ _ => .ok

theorem axisExpression_rejects {axis : Axis} {format : Prop} :
    Rejects (axisExpression levels entries axis) format
      (Allowed (Writable levels) (get? entries axis.name)) := by
  unfold axisExpression
  split
  · exact .ok
  · exact .ok
  · rename_i value _ found
    exact Rejects.textOf.mono id fun writable => writable value found

/-- The format of the formulas of a part, whatever the formulas are. -/
def IsPart (value : Datum) : Prop :=
  ∃ axes, EntriesOf value axes ∧ ∀ axis : Axis, Allowed (fun _ => True) (get? axes axis.name)

theorem readPart_rejects {part : Part} : Rejects (readPart levels entries part)
    (Allowed IsPart (get? entries part.name))
    (Allowed (Writable levels) (get? entries part.name)) := by
  refine (Rejects.orError exists_optionalMapping? fun _ => rfl).bind fun axes found => ?_
  refine .ofFnM fun axis => axisExpression_rejects.mono id fun writable => ?_
  exact writable_of_optionalMapping? (orError_eq_ok_iff.mp found) writable axis.name

def AreParts (parts : List (Datum × Datum)) : Prop :=
  ∀ part : Part, Allowed IsPart (get? parts part.name)

theorem readExpressions_rejects : Rejects (readExpressions levels value?)
    (Allowed (fun value => ∃ parts, EntriesOf value parts ∧ AreParts parts) value?)
    (Allowed (Writable levels) value?) := by
  refine (Rejects.orError exists_optionalMapping? fun _ => rfl).bind fun parts found => ?_
  have areParts (allowed : Allowed _ value?) : AreParts parts :=
    fits_of_optionalMapping? (orError_eq_ok_iff.mp found) (fun _ _ => nofun) allowed
  have each (part : Part) : Rejects (readPart levels parts part) _ _ :=
    readPart_rejects.mono (fun allowed => areParts allowed part) fun writable =>
      writable_of_optionalMapping? (orError_eq_ok_iff.mp found) writable part.name
  exact (each .position).bind fun _ _ => (each .rotation).bind fun _ _ =>
    (each .scale).bind fun _ _ => .ok

/-- Why a document is not read: it lacks the format, or some part of it cannot be written. -/
theorem ofDatum_rejects (value : Datum) :
    Rejects (ofDatum levels value) (HasFormat (fun _ => True) value) (value.Writable levels) := by
  unfold ofDatum
  split
  · rename_i entries
    have format (has : HasFormat (fun _ => True) (.mapping entries)) :
        IsEntries (fun _ => True) entries := by
      obtain ⟨_, same, format⟩ := has
      cases same
      exact format
    have parts (writable : (Datum.mapping entries).Writable levels) (name : String) :
        Allowed (Writable levels) (get? entries name) := fun _ => writable.get?
    refine (readExpressions_rejects.mono (fun has => (format has).expressions) fun writable =>
      parts writable _).bind fun _ _ => ?_
    refine (Rejects.orError (fun has => exists_optionalList? (format has).targets)
      fun _ => rfl).bind fun items found => ?_
    exact (readTargets_rejects.mono
      (fun has => fits_of_optionalList? (orError_eq_ok_iff.mp found) (List.forall_mem_nil _)
        (format has).targets)
      fun writable => writable_of_optionalList? (orError_eq_ok_iff.mp found)
        (parts writable _)).bind fun _ _ => .ok
  · rename_i noMapping
    intro failure failed
    cases failed
    refine Or.inl ⟨⟨_, rfl⟩, fun has => ?_⟩
    obtain ⟨entries, rfl, _⟩ := has
    exact noMapping entries rfl

/-- A document is read as a plan exactly if it has the format of plans and its formulas and names
can be written, and the plan is the one that it describes. It is refused only if it lacks the
format, and nothing else stops reading but a part of it that cannot be written. So a document that
can be written is read if it has the format, and otherwise refused. -/
theorem ofDatum_format (levels : Nat) (value : Datum) :
    (HasFormat (Writable levels) value ↔ ∃ plan, ofDatum levels value = .ok plan) ∧
      (∀ plan, ofDatum levels value = .ok plan ↔
        ∃ entries, value = .mapping entries ∧ OfEntries levels entries plan) ∧
      (∀ error, ofDatum levels value = .error (.refused error) →
        ¬ HasFormat (fun _ => True) value) ∧
      (∀ hindrance, ofDatum levels value = .error (.unwritable hindrance) →
        ¬ value.Writable levels) ∧
      (value.Writable levels →
        (HasFormat (fun _ => True) value ↔ ∃ plan, ofDatum levels value = .ok plan) ∧
          (¬ HasFormat (fun _ => True) value ↔
            ∃ error, ofDatum levels value = .error (.refused error))) := by
  have rejects : Rejects (ofDatum levels value) _ _ := ofDatum_rejects value
  have refused (error : PlanError) (failed : ofDatum levels value = .error (.refused error)) :
      ¬ HasFormat (fun _ => True) value := by
    rcases rejects _ failed with ⟨_, lacks⟩ | ⟨⟨_, same⟩, _⟩
    · exact lacks
    · cases same
  have unwritable (hindrance : WritingError)
      (failed : ofDatum levels value = .error (.unwritable hindrance)) :
      ¬ value.Writable levels := by
    rcases rejects _ failed with ⟨⟨_, same⟩, _⟩ | ⟨_, hindered⟩
    · cases same
    · exact hindered
  have format {plan : Plan} (read : ofDatum levels value = .ok plan) :
      HasFormat (fun _ => True) value :=
    (exists_ofDatum_iff.mp ⟨plan, read⟩).mono fun _ _ => trivial
  refine ⟨exists_ofDatum_iff.symm, fun plan => ofDatum_eq_ok_iff, refused, unwritable,
    fun writable => ?_⟩
  cases read : ofDatum levels value with
  | ok plan =>
    have has := format read
    exact ⟨iff_of_true has ⟨plan, rfl⟩, iff_of_false (not_not.mpr has) nofun⟩
  | error failure =>
    cases failure with
    | refused error =>
      have lacks := refused error read
      exact ⟨iff_of_false lacks nofun, iff_of_true lacks ⟨error, rfl⟩⟩
    | unwritable hindrance => exact absurd writable (unwritable hindrance read)

/-- A target whose size has three components, and one whose size has two. -/
theorem format_of_sizes :
    let sized (size : Datum) : Datum :=
      .mapping [(.text "targets", .list [.mapping [(.text "size", size)]])]
    let three : Datum := .list [.int 1, .text "2", .bool true]
    let two : Datum := .list [.int 1, .int 2]
    ((sized three).Writable 4 ∧ ∃ plan, ofDatum 4 (sized three) = .ok plan) ∧
      (sized two).Writable 4 ∧ ∃ error, ofDatum 4 (sized two) = .error (.refused error) := by
  intro sized three two
  have writableThree : (sized three).Writable 4 := by decide +kernel
  have writableTwo : (sized two).Writable 4 := by decide +kernel
  obtain ⟨_, _, _, _, ofThree⟩ := ofDatum_format 4 (sized three)
  obtain ⟨_, _, _, _, ofTwo⟩ := ofDatum_format 4 (sized two)
  refine ⟨⟨writableThree, (ofThree writableThree).1.mp ?_⟩, writableTwo,
    (ofTwo writableTwo).2.mp ?_⟩
  · have isPoint : IsPoint three := .list ⟨.ofNat 1, by decide +kernel⟩
      ⟨.ofNat 2, by decide +kernel⟩ ⟨_, rfl⟩
    have isTarget : Target.IsEntries (fun _ => True) [(.text "size", three)] :=
      { name := nofun, position := nofun, rotation := nofun, scale := nofun, bounds := nofun
        siblingIndex := nofun
        size := fun _ value found => Option.some.inj found ▸ isPoint }
    refine ⟨_, rfl, { expressions := nofun, targets := fun value found => ?_ }⟩
    exact ⟨_, Or.inl (Option.some.inj found).symm, List.forall_mem_singleton.mpr ⟨_, rfl, isTarget⟩⟩
  · rintro ⟨_, same, _, targets⟩
    cases same
    obtain ⟨_, means, each⟩ := targets _ rfl
    rcases means with means | ⟨impossible, _⟩
    · cases means
      obtain ⟨_, same, format⟩ := each _ List.mem_cons_self
      cases same
      cases format.size rfl _ rfl
    · cases impossible

/-- Lists in one another. -/
def nested : Nat → Datum
  | 0 => .list []
  | depth + 1 => .list [nested depth]

theorem hindrance?_nested (levels : Nat) : (nested levels).hindrance? (some levels) = some .nesting := by
  induction levels with
  | zero => rfl
  | succ depth ih =>
    rw [nested, hindrance?]
    change itemsHindrance? (some depth) [nested depth] = _
    rw [itemsHindrance?, ih]
    rfl

theorem axisExpression_of_hindrance {axis : Axis} {value : Datum} {error : WritingError}
    (found : get? entries axis.name = some value)
    (hinders : value.hindrance? (some levels) = some error) :
    axisExpression levels entries axis = .error (.unwritable error) := by
  unfold axisExpression
  rw [found]
  split
  · cases ‹_ = none›
  · rename_i null
    cases null
    cases hinders
  · rename_i other _ same
    cases same
    rw [textOf, plainText?, hinders]
    rfl

/-- Nested deeper than is followed, a formula has no text, whatever the format is. -/
theorem deep_formula_stops_reading :
    let document : Datum := .mapping [(.text "expressions",
      .mapping [(.text "position", .mapping [(.text "x", nested usualLevels)])])]
    HasFormat (fun _ => True) document ∧
      ofDatum usualLevels document = .error (.unwritable .nesting) := by
  intro document
  constructor
  · refine ⟨_, rfl, { expressions := fun value found => ?_, targets := nofun }⟩
    refine ⟨_, Or.inl (Option.some.inj found).symm, fun part => ?_⟩
    cases part with
    | position =>
      intro axes found
      exact ⟨_, Or.inl (Option.some.inj found).symm, fun _ _ _ => trivial⟩
    | rotation | scale => exact nofun
  · have formula : axisExpression usualLevels [(.text "x", nested usualLevels)] .x =
        .error (.unwritable .nesting) := axisExpression_of_hindrance rfl (hindrance?_nested _)
    have part : readPart usualLevels
        [(.text "position", .mapping [(.text "x", nested usualLevels)])] .position =
          .error (.unwritable .nesting) :=
      bind_eq_error_iff.mpr (Or.inr ⟨_, rfl, bind_eq_error_iff.mpr (Or.inl formula)⟩)
    exact bind_eq_error_iff.mpr (Or.inl (bind_eq_error_iff.mpr (Or.inr ⟨_, rfl,
      bind_eq_error_iff.mpr (Or.inl part)⟩)))

end Plan

end Placement
