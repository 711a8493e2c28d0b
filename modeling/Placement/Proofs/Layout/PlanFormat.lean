import Mathlib.Data.List.Forall2
import Placement.Layout.Plan
import Placement.Proofs.Layout.PerAxis
import Placement.Proofs.Writable

namespace Placement

namespace Datum

variable {α : Type}

/-- How something that may be left out is understood: as a default where it is absent. -/
inductive Understood (default : α) (means : Datum → α → Prop) : Option Datum → α → Prop where
  | absent : Understood default means none default
  | present {value : Datum} {result : α} (meant : means value result) :
    Understood default means (some value) result

@[simp] theorem understood_none_iff {default result : α} {means : Datum → α → Prop} :
    Understood default means none result ↔ default = result := by
  constructor
  · rintro ⟨⟩
    rfl
  · rintro rfl
    exact .absent

@[simp] theorem understood_some_iff {default result : α} {means : Datum → α → Prop} {value : Datum} :
    Understood default means (some value) result ↔ means value result := by
  constructor
  · rintro (_ | meant)
    exact meant
  · intro meant
    exact .present meant

/-- The property of a value that may be left out. -/
def Allowed (format : Datum → Prop) (value? : Option Datum) : Prop :=
  ∀ value, value? = some value → format value

theorem allowed_nil {format : Datum → Prop} {name : String} : Allowed format (get? [] name) := by
  intro value some
  cases some

theorem Allowed.mono {format weaker : Datum → Prop} {value? : Option Datum}
    (allowed : Allowed format value?) (implies : ∀ value, format value → weaker value) :
    Allowed weaker value? :=
  fun value some => implies value (allowed value some)

theorem exists_understood_and_iff {default : α} {means : Datum → α → Prop} {fits : α → Prop}
    (atDefault : fits default) {value? : Option Datum} :
    (∃ result, Understood default means value? result ∧ fits result) ↔
      Allowed (fun value => ∃ result, means value result ∧ fits result) value? := by
  constructor
  · rintro ⟨result, reads, fit⟩ value rfl
    cases reads with
    | present meant => exact ⟨result, meant, fit⟩
  · intro allowed
    cases value? with
    | none => exact ⟨default, .absent, atDefault⟩
    | some value =>
      obtain ⟨result, meant, fit⟩ := allowed value rfl
      exact ⟨result, .present meant, fit⟩

theorem exists_understood_iff {default : α} {means : Datum → α → Prop} {format : Datum → Prop}
    (meant : ∀ value, (∃ result, means value result) ↔ format value) {value? : Option Datum} :
    (∃ result, Understood default means value? result) ↔ Allowed format value? := by
  have reads := @exists_understood_and_iff α default means (fun _ => True) trivial value?
  simp only [and_true, meant] at reads
  exact reads

/-- The entries of a mapping. What is void counts as a mapping without entries. -/
def EntriesOf (value : Datum) (entries : List (Datum × Datum)) : Prop :=
  value = .mapping entries ∨ value.isVoid = true ∧ entries = []

/-- The items of a list. What is void counts as a list without items. -/
def ItemsOf (value : Datum) (items : List Datum) : Prop :=
  value = .list items ∨ value.isVoid = true ∧ items = []

/-- A number, a truth value, or the text of a number. -/
def IsNumber (value : Datum) : Prop := ∃ x, value.toDouble? = some x

/-- A number with a whole part, or the text of a whole number. Truth values are none. -/
def IsWhole (value : Datum) : Prop := ∃ n, value.toInt? = some n

/-- Null, three numbers in a list, or numbers under the names of some axes. -/
inductive IsPoint : Datum → Prop where
  | null : IsPoint .null
  | list {x y z : Datum} (atX : x.IsNumber) (atY : y.IsNumber) (atZ : z.IsNumber) :
    IsPoint (.list [x, y, z])
  | mapping {entries : List (Datum × Datum)}
    (components : ∀ axis : Axis, Allowed IsNumber (get? entries axis.name)) :
    IsPoint (.mapping entries)

/-- The point that a value means. What an axis mapping leaves out has the default. -/
inductive PointOf (default : Double) : Datum → Point → Prop where
  | null : PointOf default .null (.const default)
  | list {x y z : Datum} {p : Point} (atX : x.toDouble? = some p.x) (atY : y.toDouble? = some p.y)
    (atZ : z.toDouble? = some p.z) : PointOf default (.list [x, y, z]) p
  | mapping {entries : List (Datum × Datum)} {p : Point}
    (components : ∀ axis : Axis,
      Understood default (fun value x => value.toDouble? = some x) (get? entries axis.name)
        (p.get axis)) :
    PointOf default (.mapping entries) p

/-- A box by two of its corners. -/
def IsExtent (value : Datum) : Prop :=
  ∃ entries, value = .mapping entries ∧ Allowed IsPoint (get? entries "min") ∧
    Allowed IsPoint (get? entries "max")

def ExtentOf (value : Datum) (extent : Extent) : Prop :=
  ∃ entries, value = .mapping entries ∧
    Understood Point.zero (PointOf (.zero false)) (get? entries "min") extent.low ∧
    Understood Point.zero (PointOf (.zero false)) (get? entries "max") extent.high

end Datum

open Datum

/-- The format of the entries of a target, with a name of which `named` holds. Where there are
bounds, its size does not count. -/
structure Target.IsEntries (named : Datum → Prop) (entries : List (Datum × Datum)) : Prop where
  name : Allowed named (get? entries "name")
  position : Allowed IsPoint (get? entries "position")
  rotation : Allowed IsPoint (get? entries "rotation")
  scale : Allowed IsPoint (get? entries "scale")
  size : get? entries "bounds" = none → Allowed IsPoint (get? entries "size")
  bounds : ∀ bounds, get? entries "bounds" = some bounds →
    ∃ items, ItemsOf bounds items ∧ ∀ item ∈ items, IsExtent item
  siblingIndex : Allowed IsWhole (get? entries "sibling_index")

/-- The target at an index that the entries of a mapping describe. -/
structure Target.OfEntries (levels index : Nat) (entries : List (Datum × Datum)) (target : Target) :
    Prop where
  name : Understood ("target" ++ writeInt index)
    (fun value name => value.plainText? (some levels) = .ok name) (get? entries "name") target.name
  position : Understood Point.zero (PointOf (.zero false)) (get? entries "position") target.position
  rotation : Understood Point.zero (PointOf (.zero false)) (get? entries "rotation") target.rotation
  scale : Understood Point.one (PointOf (.ofNat 1)) (get? entries "scale") target.scale
  size : get? entries "bounds" = none →
    Understood Point.zero (PointOf (.zero false)) (get? entries "size") target.size
  bounds : ∀ bounds, get? entries "bounds" = some bounds →
    ∃ items extents, ItemsOf bounds items ∧ List.Forall₂ ExtentOf items extents ∧
      target.size = unionSize extents
  siblingIndex : Understood (index : Int) (fun value n => value.toInt? = some n)
    (get? entries "sibling_index") target.siblingIndex

/-- The formula that a value means: null keeps the value as it is, all else counts as written. -/
def FormulaOf (levels : Nat) (value : Datum) (source : String) : Prop :=
  value = .null ∧ source = "this" ∨ value ≠ .null ∧ value.plainText? (some levels) = .ok source

/-- The three formulas of a part. -/
def FormulasOf (levels : Nat) (value? : Option Datum) (sources : PerAxis String) : Prop :=
  ∃ axes, Understood [] EntriesOf value? axes ∧
    ∀ axis : Axis, Understood "this" (FormulaOf levels) (get? axes axis.name) (sources.get axis)

namespace Plan

/-- The format of the entries of a plan, in which `spelled` holds of everything that counts as text:
the formulas, and the names of targets. -/
structure IsEntries (spelled : Datum → Prop) (entries : List (Datum × Datum)) : Prop where
  expressions : Allowed
    (fun value => ∃ parts, EntriesOf value parts ∧
      ∀ part : Part, Allowed (fun axes => ∃ axisEntries, EntriesOf axes axisEntries ∧
          ∀ axis : Axis, Allowed spelled (get? axisEntries axis.name))
        (get? parts part.name))
    (get? entries "expressions")
  targets : Allowed
    (fun value => ∃ items, ItemsOf value items ∧
      ∀ item ∈ items, ∃ targetEntries, item = .mapping targetEntries ∧
        Target.IsEntries spelled targetEntries)
    (get? entries "targets")

/-- The plan that the entries of a mapping describe: nine formulas, and one target for each item
of the list of targets, in its order. -/
structure OfEntries (levels : Nat) (entries : List (Datum × Datum)) (plan : Plan) : Prop where
  expressions : ∃ parts, Understood [] EntriesOf (get? entries "expressions") parts ∧
    ∀ part : Part, FormulasOf levels (get? parts part.name) (plan.expressions.get part)
  targets : ∃ items, Understood [] ItemsOf (get? entries "targets") items ∧
    List.Forall₂
      (fun item target => ∃ targetEntries, item.1 = .mapping targetEntries ∧
        Target.OfEntries levels item.2 targetEntries target)
      items.zipIdx plan.targets

variable {α : Type} {levels : Nat}

theorem orError_eq_ok_iff {error : PlanError} {found : Option α} {value : α} :
    orError levels error found = .ok value ↔ found = some value := by
  cases found with
  | none =>
    constructor
    · intro same
      cases same
    · intro same
      cases same
  | some other =>
    constructor
    · intro same
      cases same
      rfl
    · intro same
      cases same
      rfl

theorem optionalMapping?_of_isVoid {value : Datum} (isVoid : value.isVoid = true) :
    optionalMapping? (some value) = some [] := by
  cases value with
  | mapping entries =>
    obtain rfl := List.isEmpty_iff.mp isVoid
    rfl
  | _ => simp [optionalMapping?, isVoid]

theorem optionalList?_of_isVoid {value : Datum} (isVoid : value.isVoid = true) :
    optionalList? (some value) = some [] := by
  cases value with
  | list items =>
    obtain rfl := List.isEmpty_iff.mp isVoid
    rfl
  | _ => simp [optionalList?, isVoid]

theorem optionalMapping?_eq_some_iff {value? : Option Datum} {entries : List (Datum × Datum)} :
    optionalMapping? value? = some entries ↔ Understood [] EntriesOf value? entries := by
  constructor
  · intro found
    unfold optionalMapping? at found
    split at found
    · cases found
      exact .absent
    · cases found
      exact .present (Or.inl rfl)
    · obtain ⟨isVoid, same⟩ := Option.ite_none_right_eq_some.mp found
      cases same
      exact .present (Or.inr ⟨isVoid, rfl⟩)
  · intro reads
    cases reads with
    | absent => rfl
    | present meant =>
      rcases meant with rfl | ⟨isVoid, rfl⟩
      · rfl
      · exact optionalMapping?_of_isVoid isVoid

theorem optionalList?_eq_some_iff {value? : Option Datum} {items : List Datum} :
    optionalList? value? = some items ↔ Understood [] ItemsOf value? items := by
  constructor
  · intro found
    unfold optionalList? at found
    split at found
    · cases found
      exact .absent
    · cases found
      exact .present (Or.inl rfl)
    · obtain ⟨isVoid, same⟩ := Option.ite_none_right_eq_some.mp found
      cases same
      exact .present (Or.inr ⟨isVoid, rfl⟩)
  · intro reads
    cases reads with
    | absent => rfl
    | present meant =>
      rcases meant with rfl | ⟨isVoid, rfl⟩
      · rfl
      · exact optionalList?_of_isVoid isVoid

theorem readComponents_eq_ok_iff {what : String} {value : Datum} {p : Point} :
    readComponents levels what value = .ok p ↔ ∃ x y z : Datum, value = .list [x, y, z] ∧
      x.toDouble? = some p.x ∧ y.toDouble? = some p.y ∧ z.toDouble? = some p.z := by
  constructor
  · intro read
    unfold readComponents at read
    split at read
    · rename_i x y z
      have found := orError_eq_ok_iff.mp read
      simp only [Option.bind_eq_bind, Option.bind_eq_some_iff, Option.pure_def,
        Option.some.injEq] at found
      obtain ⟨atX, isX, atY, isY, atZ, isZ, rfl⟩ := found
      exact ⟨x, y, z, rfl, isX, isY, isZ⟩
    · cases read
  · rintro ⟨x, y, z, rfl, isX, isY, isZ⟩
    rw [readComponents, isX, isY, isZ]
    rfl

/-- A component that an axis mapping leaves out is the default. -/
theorem toDouble?_getD_iff {value? : Option Datum} {default x : Double} :
    (value?.getD (.float default)).toDouble? = some x ↔
      Understood default (fun value x => value.toDouble? = some x) value? x := by
  cases value? with
  | none => rw [understood_none_iff, Option.getD_none, toDouble?, Option.some.injEq]
  | some value => rw [understood_some_iff, Option.getD_some]

theorem readPoint_eq_ok_iff {what : String} {default : Double} {value? : Option Datum}
    {p : Point} : readPoint levels what default value? = .ok p ↔
      Understood (.const default) (PointOf default) value? p := by
  constructor
  · intro read
    unfold readPoint at read
    split at read
    · cases read
      exact .absent
    · cases read
      exact .present .null
    · obtain ⟨x, y, z, same, atX, atY, atZ⟩ := readComponents_eq_ok_iff.mp read
      cases same
      refine .present (.mapping fun axis => ?_)
      cases axis with
      | x => exact toDouble?_getD_iff.mp atX
      | y => exact toDouble?_getD_iff.mp atY
      | z => exact toDouble?_getD_iff.mp atZ
    · obtain ⟨x, y, z, rfl, atX, atY, atZ⟩ := readComponents_eq_ok_iff.mp read
      exact .present (.list atX atY atZ)
  · intro reads
    cases reads with
    | absent => rfl
    | present meant =>
      cases meant with
      | null => rfl
      | list atX atY atZ => exact readComponents_eq_ok_iff.mpr ⟨_, _, _, rfl, atX, atY, atZ⟩
      | mapping components =>
        exact readComponents_eq_ok_iff.mpr ⟨_, _, _, rfl, toDouble?_getD_iff.mpr (components .x),
          toDouble?_getD_iff.mpr (components .y), toDouble?_getD_iff.mpr (components .z)⟩

theorem readExtent_eq_ok_iff {name : String} {value : Datum} {extent : Extent} :
    readExtent levels name value = .ok extent ↔ ExtentOf value extent := by
  constructor
  · intro read
    unfold readExtent at read
    split at read
    · obtain ⟨low, atLow, read⟩ := bind_eq_ok_iff.mp read
      obtain ⟨high, atHigh, read⟩ := bind_eq_ok_iff.mp read
      cases read
      exact ⟨_, rfl, readPoint_eq_ok_iff.mp atLow, readPoint_eq_ok_iff.mp atHigh⟩
    · cases read
  · rintro ⟨entries, rfl, atLow, atHigh⟩
    exact bind_eq_ok_iff.mpr ⟨_, readPoint_eq_ok_iff.mpr atLow,
      bind_eq_ok_iff.mpr ⟨_, readPoint_eq_ok_iff.mpr atHigh, rfl⟩⟩

theorem readExtents_eq_ok_iff {name : String} {items : List Datum} {extents : List Extent} :
    items.mapM (readExtent levels name) = .ok extents ↔ List.Forall₂ ExtentOf items extents := by
  induction items generalizing extents with
  | nil =>
    rw [List.mapM_nil, List.forall₂_nil_left_iff]
    constructor
    · intro same
      cases same
      rfl
    · rintro rfl
      rfl
  | cons item rest ih =>
    rw [List.mapM_cons, bind_eq_ok_iff, List.forall₂_cons_left_iff]
    constructor
    · rintro ⟨first, atItem, read⟩
      obtain ⟨others, atRest, same⟩ := bind_eq_ok_iff.mp read
      cases same
      exact ⟨first, others, readExtent_eq_ok_iff.mp atItem, ih.mp atRest, rfl⟩
    · rintro ⟨first, others, atItem, atRest, rfl⟩
      exact ⟨first, readExtent_eq_ok_iff.mpr atItem,
        bind_eq_ok_iff.mpr ⟨others, ih.mpr atRest, rfl⟩⟩

theorem readSize_eq_ok_iff {name : String} {entries : List (Datum × Datum)} {size : Point} :
    readSize levels name entries = .ok size ↔
      (get? entries "bounds" = none →
        Understood Point.zero (PointOf (.zero false)) (get? entries "size") size) ∧
      ∀ bounds, get? entries "bounds" = some bounds →
        ∃ items extents, ItemsOf bounds items ∧ List.Forall₂ ExtentOf items extents ∧
          size = unionSize extents := by
  unfold readSize
  cases atBounds : get? entries "bounds" with
  | none =>
    constructor
    · intro read
      refine ⟨fun _ => readPoint_eq_ok_iff.mp read, fun bounds some => ?_⟩
      cases some
    · rintro ⟨reads, _⟩
      exact readPoint_eq_ok_iff.mpr (reads rfl)
  | some value =>
    constructor
    · intro read
      obtain ⟨items, found, read⟩ := bind_eq_ok_iff.mp read
      obtain ⟨extents, each, same⟩ := bind_eq_ok_iff.mp read
      cases same
      refine ⟨fun none => ?_, fun bounds some => ?_⟩
      · cases none
      · cases some
        cases optionalList?_eq_some_iff.mp (orError_eq_ok_iff.mp found) with
        | present meant => exact ⟨items, extents, meant, readExtents_eq_ok_iff.mp each, rfl⟩
    · rintro ⟨_, described⟩
      obtain ⟨items, extents, meant, each, rfl⟩ := described value rfl
      exact bind_eq_ok_iff.mpr
        ⟨items, orError_eq_ok_iff.mpr (optionalList?_eq_some_iff.mpr (.present meant)),
          bind_eq_ok_iff.mpr ⟨extents, readExtents_eq_ok_iff.mpr each, rfl⟩⟩

theorem readSiblingIndex_eq_ok_iff {name : String} {index : Nat} {value? : Option Datum} {n : Int} :
    readSiblingIndex levels name index value? = .ok n ↔
      Understood (index : Int) (fun value n => value.toInt? = some n) value? n := by
  rw [readSiblingIndex, orError_eq_ok_iff]
  cases value? with
  | none => rw [understood_none_iff, Option.getD_none, toInt?, Option.some.injEq]
  | some value => rw [understood_some_iff, Option.getD_some]

theorem textOf_eq_ok_iff {value : Datum} {source : String} :
    textOf levels value = .ok source ↔ value.plainText? (some levels) = .ok source :=
  mapError_eq_ok_iff

theorem readName_eq_ok_iff {index : Nat} {value? : Option Datum} {name : String} :
    readName levels index value? = .ok name ↔ Understood ("target" ++ writeInt index)
      (fun value name => value.plainText? (some levels) = .ok name) value? name := by
  cases value? with
  | none => rw [understood_none_iff, readName, Except.ok.injEq]
  | some value => rw [understood_some_iff, readName, textOf_eq_ok_iff]

theorem readTarget_eq_ok_iff {index : Nat} {value : Datum} {target : Target} :
    readTarget levels index value = .ok target ↔
      ∃ entries, value = .mapping entries ∧ Target.OfEntries levels index entries target := by
  constructor
  · intro read
    unfold readTarget at read
    split at read
    · rename_i entries
      obtain ⟨name, atName, read⟩ := bind_eq_ok_iff.mp read
      obtain ⟨size, atSize, read⟩ := bind_eq_ok_iff.mp read
      obtain ⟨position, atPosition, read⟩ := bind_eq_ok_iff.mp read
      obtain ⟨rotation, atRotation, read⟩ := bind_eq_ok_iff.mp read
      obtain ⟨scale, atScale, read⟩ := bind_eq_ok_iff.mp read
      obtain ⟨siblingIndex, atIndex, read⟩ := bind_eq_ok_iff.mp read
      cases read
      obtain ⟨bySize, byBounds⟩ := readSize_eq_ok_iff.mp atSize
      exact ⟨entries, rfl, {
        name := readName_eq_ok_iff.mp atName
        position := readPoint_eq_ok_iff.mp atPosition
        rotation := readPoint_eq_ok_iff.mp atRotation
        scale := readPoint_eq_ok_iff.mp atScale
        size := bySize
        bounds := byBounds
        siblingIndex := readSiblingIndex_eq_ok_iff.mp atIndex }⟩
    · cases read
  · rintro ⟨entries, rfl, described⟩
    exact bind_eq_ok_iff.mpr ⟨_, readName_eq_ok_iff.mpr described.name,
      bind_eq_ok_iff.mpr ⟨_, readSize_eq_ok_iff.mpr ⟨described.size, described.bounds⟩,
      bind_eq_ok_iff.mpr ⟨_, readPoint_eq_ok_iff.mpr described.position,
      bind_eq_ok_iff.mpr ⟨_, readPoint_eq_ok_iff.mpr described.rotation,
      bind_eq_ok_iff.mpr ⟨_, readPoint_eq_ok_iff.mpr described.scale,
      bind_eq_ok_iff.mpr ⟨_, readSiblingIndex_eq_ok_iff.mpr described.siblingIndex, rfl⟩⟩⟩⟩⟩⟩

/-- The items of a list with the index of the first, one target for each. -/
theorem readTargets_eq_ok_iff {index : Nat} {items : List Datum} {targets : List Target} :
    readTargets levels index items = .ok targets ↔
      List.Forall₂
        (fun item target => ∃ entries, item.1 = .mapping entries ∧
          Target.OfEntries levels item.2 entries target)
        (items.zipIdx index) targets := by
  induction items generalizing index targets with
  | nil =>
    rw [readTargets, List.zipIdx_nil, List.forall₂_nil_left_iff]
    constructor
    · intro same
      cases same
      rfl
    · rintro rfl
      rfl
  | cons item rest ih =>
    rw [readTargets, bind_eq_ok_iff, List.zipIdx_cons, List.forall₂_cons_left_iff]
    constructor
    · rintro ⟨first, atItem, read⟩
      obtain ⟨others, atRest, same⟩ := bind_eq_ok_iff.mp read
      cases same
      exact ⟨first, others, readTarget_eq_ok_iff.mp atItem, ih.mp atRest, rfl⟩
    · rintro ⟨first, others, atItem, atRest, rfl⟩
      exact ⟨first, readTarget_eq_ok_iff.mpr atItem,
        bind_eq_ok_iff.mpr ⟨others, ih.mpr atRest, rfl⟩⟩

theorem axisExpression_eq_ok_iff {entries : List (Datum × Datum)} {axis : Axis}
    {source : String} : axisExpression levels entries axis = .ok source ↔
      Understood "this" (FormulaOf levels) (get? entries axis.name) source := by
  unfold axisExpression
  split
  · rename_i absent
    rw [absent, understood_none_iff, Except.ok.injEq]
  · rename_i null
    rw [null, understood_some_iff, Except.ok.injEq]
    constructor
    · rintro rfl
      exact Or.inl ⟨rfl, rfl⟩
    · rintro (⟨_, rfl⟩ | ⟨some, _⟩)
      · rfl
      · exact absurd rfl some
  · rename_i value some found
    rw [found, understood_some_iff, textOf_eq_ok_iff]
    constructor
    · intro text
      exact Or.inr ⟨some, text⟩
    · rintro (⟨rfl, _⟩ | ⟨_, text⟩)
      · exact absurd rfl some
      · exact text

theorem readPart_eq_ok_iff {entries : List (Datum × Datum)} {part : Part}
    {sources : PerAxis String} : readPart levels entries part = .ok sources ↔
      FormulasOf levels (get? entries part.name) sources := by
  rw [readPart, bind_eq_ok_iff]
  constructor
  · rintro ⟨axes, found, each⟩
    exact ⟨axes, optionalMapping?_eq_some_iff.mp (orError_eq_ok_iff.mp found),
      fun axis => axisExpression_eq_ok_iff.mp (PerAxis.ofFnM_eq_ok_iff.mp each axis)⟩
  · rintro ⟨axes, reads, each⟩
    exact ⟨axes, orError_eq_ok_iff.mpr (optionalMapping?_eq_some_iff.mpr reads),
      PerAxis.ofFnM_eq_ok_iff.mpr fun axis => axisExpression_eq_ok_iff.mpr (each axis)⟩

theorem readExpressions_eq_ok_iff {value? : Option Datum} {expressions : Expressions} :
    readExpressions levels value? = .ok expressions ↔ ∃ parts, Understood [] EntriesOf value? parts ∧
      ∀ part : Part, FormulasOf levels (get? parts part.name) (expressions.get part) := by
  rw [readExpressions, bind_eq_ok_iff]
  constructor
  · rintro ⟨parts, found, read⟩
    obtain ⟨position, atPosition, read⟩ := bind_eq_ok_iff.mp read
    obtain ⟨rotation, atRotation, read⟩ := bind_eq_ok_iff.mp read
    obtain ⟨scale, atScale, read⟩ := bind_eq_ok_iff.mp read
    cases read
    refine ⟨parts, optionalMapping?_eq_some_iff.mp (orError_eq_ok_iff.mp found), fun part => ?_⟩
    cases part with
    | position => exact readPart_eq_ok_iff.mp atPosition
    | rotation => exact readPart_eq_ok_iff.mp atRotation
    | scale => exact readPart_eq_ok_iff.mp atScale
  · rintro ⟨parts, reads, each⟩
    exact ⟨parts, orError_eq_ok_iff.mpr (optionalMapping?_eq_some_iff.mpr reads),
      bind_eq_ok_iff.mpr ⟨_, readPart_eq_ok_iff.mpr (each .position),
      bind_eq_ok_iff.mpr ⟨_, readPart_eq_ok_iff.mpr (each .rotation),
      bind_eq_ok_iff.mpr ⟨_, readPart_eq_ok_iff.mpr (each .scale), rfl⟩⟩⟩⟩

/-- What is read is described, and what is described is read. -/
theorem ofDatum_eq_ok_iff {value : Datum} {plan : Plan} :
    ofDatum levels value = .ok plan ↔
      ∃ entries, value = .mapping entries ∧ OfEntries levels entries plan := by
  constructor
  · intro read
    unfold ofDatum at read
    split at read
    · rename_i entries
      obtain ⟨expressions, atExpressions, read⟩ := bind_eq_ok_iff.mp read
      obtain ⟨items, found, read⟩ := bind_eq_ok_iff.mp read
      obtain ⟨targets, each, same⟩ := bind_eq_ok_iff.mp read
      cases same
      exact ⟨entries, rfl, readExpressions_eq_ok_iff.mp atExpressions, items,
        optionalList?_eq_some_iff.mp (orError_eq_ok_iff.mp found), readTargets_eq_ok_iff.mp each⟩
    · cases read
  · rintro ⟨entries, rfl, atExpressions, items, reads, each⟩
    exact bind_eq_ok_iff.mpr ⟨_, readExpressions_eq_ok_iff.mpr atExpressions,
      bind_eq_ok_iff.mpr
        ⟨items, orError_eq_ok_iff.mpr (optionalList?_eq_some_iff.mpr reads),
          bind_eq_ok_iff.mpr ⟨_, readTargets_eq_ok_iff.mpr each, rfl⟩⟩⟩

end Plan

namespace Datum

variable {α β : Type}

theorem exists_forall₂_iff {R : α → β → Prop} {items : List α} :
    (∃ results, List.Forall₂ R items results) ↔ ∀ item ∈ items, ∃ result, R item result := by
  induction items with
  | nil => exact ⟨fun _ item among => absurd among List.not_mem_nil, fun _ => ⟨[], .nil⟩⟩
  | cons item rest ih =>
    rw [List.forall_mem_cons, ← ih]
    constructor
    · rintro ⟨results, related⟩
      cases related with
      | cons first others => exact ⟨⟨_, first⟩, _, others⟩
    · rintro ⟨⟨result, first⟩, results, others⟩
      exact ⟨result :: results, .cons first others⟩

theorem exists_pointOf_iff (default : Double) (value : Datum) :
    (∃ p, PointOf default value p) ↔ IsPoint value := by
  constructor
  · rintro ⟨p, meant⟩
    cases meant with
    | null => exact .null
    | list atX atY atZ => exact .list ⟨_, atX⟩ ⟨_, atY⟩ ⟨_, atZ⟩
    | mapping components =>
      exact .mapping fun axis => (exists_understood_iff fun _ => Iff.rfl).mp ⟨_, components axis⟩
  · intro format
    cases format with
    | null => exact ⟨_, .null⟩
    | list atX atY atZ =>
      obtain ⟨x, atX⟩ := atX
      obtain ⟨y, atY⟩ := atY
      obtain ⟨z, atZ⟩ := atZ
      exact ⟨⟨x, y, z⟩, .list atX atY atZ⟩
    | @mapping entries components =>
      have each (axis : Axis) : ∃ x, Understood default (fun value x => value.toDouble? = some x)
          (get? entries axis.name) x := (exists_understood_iff fun _ => Iff.rfl).mpr (components axis)
      choose component meant using each
      refine ⟨.ofFn component, .mapping fun axis => ?_⟩
      rw [PerAxis.get_ofFn]
      exact meant axis

theorem exists_understood_point_iff {p : Point} {default : Double} {value? : Option Datum} :
    (∃ result, Understood p (PointOf default) value? result) ↔ Allowed IsPoint value? :=
  exists_understood_iff (exists_pointOf_iff default)

theorem exists_extentOf_iff (value : Datum) : (∃ extent, ExtentOf value extent) ↔ IsExtent value := by
  constructor
  · rintro ⟨extent, entries, rfl, atLow, atHigh⟩
    exact ⟨entries, rfl, exists_understood_point_iff.mp ⟨_, atLow⟩,
      exists_understood_point_iff.mp ⟨_, atHigh⟩⟩
  · rintro ⟨entries, rfl, atLow, atHigh⟩
    obtain ⟨low, atLow⟩ := exists_understood_point_iff.mpr atLow
    obtain ⟨high, atHigh⟩ := exists_understood_point_iff.mpr atHigh
    exact ⟨⟨low, high⟩, entries, rfl, atLow, atHigh⟩

end Datum

variable {levels : Nat}

theorem Datum.exists_plainText?_iff (value : Datum) :
    (∃ text, value.plainText? (some levels) = .ok text) ↔ value.Writable levels := by
  simp [plainText?_eq_ok_iff, Writable]

theorem exists_formulaOf_iff (value : Datum) :
    (∃ source, FormulaOf levels value source) ↔ value.Writable levels := by
  by_cases null : value = .null
  · subst null
    exact iff_of_true ⟨"this", Or.inl ⟨rfl, rfl⟩⟩ rfl
  · simp only [FormulaOf, null, false_and, false_or, not_false_iff, true_and, ne_eq,
      value.exists_plainText?_iff]

theorem exists_formulasOf_iff {value? : Option Datum} :
    (∃ sources, FormulasOf levels value? sources) ↔
      Allowed (fun axes => ∃ entries, EntriesOf axes entries ∧
        ∀ axis : Axis, Allowed (Writable levels) (get? entries axis.name)) value? := by
  rw [← exists_understood_and_iff fun _ => allowed_nil]
  constructor
  · rintro ⟨sources, axes, reads, each⟩
    exact ⟨axes, reads, fun axis => (exists_understood_iff exists_formulaOf_iff).mp ⟨_, each axis⟩⟩
  · rintro ⟨axes, reads, each⟩
    have formula (axis : Axis) : ∃ source,
        Understood "this" (FormulaOf levels) (get? axes axis.name) source :=
      (exists_understood_iff exists_formulaOf_iff).mpr (each axis)
    choose source means using formula
    refine ⟨.ofFn source, axes, reads, fun axis => ?_⟩
    rw [PerAxis.get_ofFn]
    exact means axis

theorem Target.exists_ofEntries_iff (index : Nat) {entries : List (Datum × Datum)} :
    (∃ target, OfEntries levels index entries target) ↔ IsEntries (Writable levels) entries := by
  constructor
  · rintro ⟨target, described⟩
    refine
      { name := (exists_understood_iff exists_plainText?_iff).mp ⟨_, described.name⟩
        position := exists_understood_point_iff.mp ⟨_, described.position⟩
        rotation := exists_understood_point_iff.mp ⟨_, described.rotation⟩
        scale := exists_understood_point_iff.mp ⟨_, described.scale⟩
        size := fun none => exists_understood_point_iff.mp ⟨_, described.size none⟩
        bounds := fun bounds atBounds => ?_
        siblingIndex := (exists_understood_iff fun _ => Iff.rfl).mp ⟨_, described.siblingIndex⟩ }
    obtain ⟨items, extents, meant, each, _⟩ := described.bounds bounds atBounds
    refine ⟨items, meant, fun item among => (exists_extentOf_iff item).mp ?_⟩
    exact exists_forall₂_iff.mp ⟨extents, each⟩ item among
  · intro format
    obtain ⟨name, atName⟩ := (exists_understood_iff exists_plainText?_iff).mpr format.name
    obtain ⟨position, atPosition⟩ := exists_understood_point_iff.mpr format.position
    obtain ⟨rotation, atRotation⟩ := exists_understood_point_iff.mpr format.rotation
    obtain ⟨scale, atScale⟩ := exists_understood_point_iff.mpr format.scale
    obtain ⟨siblingIndex, atIndex⟩ := (exists_understood_iff fun _ => Iff.rfl).mpr format.siblingIndex
    obtain ⟨size, bySize, byBounds⟩ : ∃ size, (get? entries "bounds" = none →
          Understood Point.zero (PointOf (.zero false)) (get? entries "size") size) ∧
        ∀ bounds, get? entries "bounds" = some bounds →
          ∃ items extents, ItemsOf bounds items ∧ List.Forall₂ ExtentOf items extents ∧
            size = unionSize extents := by
      cases atBounds : get? entries "bounds" with
      | none =>
        obtain ⟨size, reads⟩ := exists_understood_point_iff.mpr (format.size atBounds)
        refine ⟨size, fun _ => reads, fun bounds some => ?_⟩
        cases some
      | some value =>
        obtain ⟨items, meant, each⟩ := format.bounds value atBounds
        obtain ⟨extents, related⟩ := exists_forall₂_iff.mpr fun item among =>
          (exists_extentOf_iff item).mpr (each item among)
        refine ⟨unionSize extents, fun none => ?_, fun bounds some => ?_⟩
        · cases none
        · cases some
          exact ⟨items, extents, meant, related, rfl⟩
    exact ⟨⟨name, position, rotation, scale, size, siblingIndex⟩,
      { name := atName
        position := atPosition
        rotation := atRotation
        scale := atScale
        size := bySize
        bounds := byBounds
        siblingIndex := atIndex }⟩

/-- The targets of a list can be described where each of its items can. -/
theorem exists_targets_iff {items : List Datum} :
    (∃ targets, List.Forall₂
      (fun item target => ∃ entries, item.1 = Datum.mapping entries ∧
        Target.OfEntries levels item.2 entries target)
      items.zipIdx targets) ↔
      ∀ item ∈ items, ∃ entries, item = .mapping entries ∧
        Target.IsEntries (Writable levels) entries := by
  have described (item : Datum × Nat) :
      (∃ target, ∃ entries, item.1 = Datum.mapping entries ∧
        Target.OfEntries levels item.2 entries target) ↔
      ∃ entries, item.1 = .mapping entries ∧ Target.IsEntries (Writable levels) entries := by
    rw [exists_comm]
    exact exists_congr fun entries => by
      rw [exists_and_left, Target.exists_ofEntries_iff]
  have each := List.forall_mem_map (f := Prod.fst) (l := items.zipIdx)
    (P := fun item => ∃ entries, item = Datum.mapping entries ∧
      Target.IsEntries (Writable levels) entries)
  rw [List.zipIdx_map_fst] at each
  rw [exists_forall₂_iff, each]
  exact forall₂_congr fun item _ => described item

namespace Plan

theorem exists_ofEntries_iff {entries : List (Datum × Datum)} :
    (∃ plan, OfEntries levels entries plan) ↔ IsEntries (Writable levels) entries := by
  constructor
  · rintro ⟨plan, ⟨parts, reads, formulas⟩, items, readsItems, each⟩
    refine ⟨?_, ?_⟩
    · exact (exists_understood_and_iff fun _ => allowed_nil).mp
        ⟨parts, reads, fun part => exists_formulasOf_iff.mp ⟨_, formulas part⟩⟩
    · exact (exists_understood_and_iff (List.forall_mem_nil _)).mp
        ⟨items, readsItems, exists_targets_iff.mp ⟨_, each⟩⟩
  · intro format
    obtain ⟨items, readsItems, each⟩ :=
      (exists_understood_and_iff (List.forall_mem_nil _)).mpr format.targets
    obtain ⟨parts, reads, allowed⟩ :=
      (exists_understood_and_iff fun _ => allowed_nil).mpr format.expressions
    obtain ⟨targets, described⟩ := exists_targets_iff.mpr each
    obtain ⟨position, atPosition⟩ := exists_formulasOf_iff.mpr (allowed .position)
    obtain ⟨rotation, atRotation⟩ := exists_formulasOf_iff.mpr (allowed .rotation)
    obtain ⟨scale, atScale⟩ := exists_formulasOf_iff.mpr (allowed .scale)
    refine ⟨⟨⟨position, rotation, scale⟩, targets⟩, ⟨parts, reads, fun part => ?_⟩, items,
      readsItems, described⟩
    cases part with
    | position => exact atPosition
    | rotation => exact atRotation
    | scale => exact atScale

/-- The documents that are plans, in which `spelled` holds of everything that counts as text. -/
def HasFormat (spelled : Datum → Prop) (value : Datum) : Prop :=
  ∃ entries, value = .mapping entries ∧ IsEntries spelled entries

theorem HasFormat.mono {spelled weaker : Datum → Prop} {value : Datum}
    (format : HasFormat spelled value) (implies : ∀ value, spelled value → weaker value) :
    HasFormat weaker value := by
  obtain ⟨entries, rfl, expressions, targets⟩ := format
  refine ⟨entries, rfl, expressions.mono ?_, targets.mono ?_⟩
  · rintro _ ⟨parts, means, each⟩
    refine ⟨parts, means, fun part => (each part).mono ?_⟩
    rintro _ ⟨axes, meansAxes, formulas⟩
    exact ⟨axes, meansAxes, fun axis => (formulas axis).mono implies⟩
  · rintro _ ⟨items, means, each⟩
    refine ⟨items, means, fun item member => ?_⟩
    obtain ⟨targetEntries, same, has⟩ := each item member
    exact ⟨targetEntries, same, { has with name := has.name.mono implies }⟩

/-- The documents that are read as plans. -/
theorem exists_ofDatum_iff {value : Datum} :
    (∃ plan, ofDatum levels value = .ok plan) ↔ HasFormat (Writable levels) value := by
  simp only [HasFormat, ofDatum_eq_ok_iff, ← exists_ofEntries_iff]
  constructor
  · rintro ⟨plan, entries, same, described⟩
    exact ⟨entries, same, plan, described⟩
  · rintro ⟨entries, same, plan, described⟩
    exact ⟨plan, entries, same, described⟩

end Plan

end Placement
