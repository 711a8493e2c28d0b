import Placement.Proofs.Binary.Extreme
import Placement.Proofs.Formula.Selection
import Placement.Proofs.Layout.PlanFormat

namespace Placement

/-- Where all items have a rank, the first of the lowest rank is at most as high as each. -/
theorem Foremost.lowest {α : Type} {rank : α → Option Int} {first item : α} {rest : List α}
    (foremost : Foremost rank first rest item)
    (ranked : ∀ other ∈ first :: rest, rank other ≠ none) :
    item ∈ first :: rest ∧ ∃ r, rank item = some r ∧
      ∀ other ∈ first :: rest, ∃ s, rank other = some s ∧ r ≤ s := by
  obtain ⟨before, behind, r, split, atItem, lowest, _⟩ :=
    foremost.ranked (ranked first List.mem_cons_self)
  refine ⟨?_, r, atItem, fun other among => ?_⟩
  · rw [split]
    exact List.mem_append_right _ List.mem_cons_self
  · obtain ⟨s, atOther⟩ := Option.ne_none_iff_exists'.mp (ranked other among)
    exact ⟨s, atOther, lowest other among s atOther⟩

namespace Binary

variable {F : Format} {values others : List (Binary F)} {x y z : Binary F}

/-- The two zeros are one number, and not-a-number counts as a number of its own. -/
def SameNumber (x y : Binary F) : Prop := x.order? = y.order?

theorem le_trans (low : x.le y = true) (high : y.le z = true) : x.le z = true := by
  obtain ⟨r, s, atX, atY, below⟩ := le_iff.mp low
  obtain ⟨again, t, same, atZ, above⟩ := le_iff.mp high
  cases atY.symm.trans same
  exact le_iff.mpr ⟨r, t, atX, atZ, Int.le_trans below above⟩

theorem sameNumber_of_le (low : x.le y = true) (high : y.le x = true) : SameNumber x y := by
  obtain ⟨r, s, atX, atY, below⟩ := le_iff.mp low
  obtain ⟨again, t, same, atX', above⟩ := le_iff.mp high
  cases atY.symm.trans same
  cases atX.symm.trans atX'
  rw [SameNumber, atX, atY, Int.le_antisymm below above]

theorem sameNumber_signed_iff {negative other : Bool} {code place : Fin (F.infinityCode + 1)} :
    SameNumber (signed negative code) (signed other place) ↔
      code = place ∧ (code.val ≠ 0 → negative = other) := by
  rw [SameNumber, Fin.ext_iff]
  cases negative <;> cases other <;> simp only [order?, Option.some.injEq] <;> grind

/-- Only zeros are written with two signs. -/
theorem SameNumber.exists_signs (same : SameNumber x y) : x = nan ∧ y = nan ∨
    ∃ negative other code, x = signed negative code ∧ y = signed other code ∧
      (code.val ≠ 0 → negative = other) := by
  cases x with
  | nan =>
    cases y with
    | nan => exact Or.inl ⟨rfl, rfl⟩
    | signed other place => cases other <;> cases same
  | signed negative code =>
    cases y with
    | nan => cases negative <;> cases same
    | signed other place =>
      obtain ⟨rfl, sign⟩ := sameNumber_signed_iff.mp same
      exact Or.inr ⟨negative, other, code, rfl, rfl, sign⟩

theorem SameNumber.neg (same : SameNumber x y) : SameNumber x.neg y.neg := by
  rcases same.exists_signs with ⟨rfl, rfl⟩ | ⟨negative, other, code, rfl, rfl, sign⟩
  · rfl
  · exact sameNumber_signed_iff.mpr ⟨rfl, fun some => congrArg not (sign some)⟩

theorem signedUnits_eq {negative other : Bool} {code : Nat} (sign : code ≠ 0 → negative = other) :
    signedUnits F negative code = signedUnits F other code := by
  by_cases none : code = 0
  · subst none
    cases negative <;> cases other <;> simp [signedUnits, F.units_zero]
  · rw [sign none]

/-- The sign of a zero does not count in a sum, unless the sum is a zero itself. -/
theorem SameNumber.add {x x' y y' : Double} (left : SameNumber x x') (right : SameNumber y y') :
    SameNumber (x.add y) (x'.add y') := by
  have some {code : Nat} (infinite : code = Format.double.infinityCode) : code ≠ 0 := by
    rw [infinite]
    decide
  rcases left.exists_signs with ⟨rfl, rfl⟩ | ⟨s, s', a, rfl, rfl, signA⟩
  · rfl
  · rcases right.exists_signs with ⟨rfl, rfl⟩ | ⟨t, t', b, rfl, rfl, signB⟩
    · rfl
    · unfold Binary.add
      by_cases atA : a.val = Format.double.infinityCode
      · obtain rfl := signA (some atA)
        by_cases atB : b.val = Format.double.infinityCode
        · obtain rfl := signB (some atB)
          rfl
        · simp only [atA, atB, false_and, if_true, if_false]
          rfl
      · by_cases atB : b.val = Format.double.infinityCode
        · obtain rfl := signB (some atB)
          simp only [atA, atB, if_true, if_false]
          rfl
        · simp only [atA, atB, if_false, signedUnits_eq signA, signedUnits_eq signB]
          split
          · exact sameNumber_signed_iff.mpr ⟨rfl, fun some => absurd rfl some⟩
          · rfl

theorem SameNumber.sub {x x' y y' : Double} (left : SameNumber x x') (right : SameNumber y y') :
    SameNumber (x - y) (x' - y') :=
  left.add right.neg

/-- One of some values, and no smaller than any of them. -/
def GreatestOf (values : List (Binary F)) (x : Binary F) : Prop :=
  x ∈ values ∧ ∀ other ∈ values, other.le x = true

/-- One of some values, and no larger than any of them. -/
def LeastOf (values : List (Binary F)) (x : Binary F) : Prop :=
  x ∈ values ∧ ∀ other ∈ values, x.le other = true

theorem order?_ne_none (number : x.isNaN = false) : x.order? ≠ none := by
  rw [Ne, order?_eq_none_iff, number]
  exact Bool.false_ne_true

theorem leastOf_minFrom {first : Binary F} {rest : List (Binary F)}
    (numbers : ∀ other ∈ first :: rest, other.isNaN = false) :
    LeastOf (first :: rest) (minFrom first rest) := by
  obtain ⟨among, r, atLeast, lowest⟩ := (firstLeast_foldl id first rest).lowest
    fun other among => order?_ne_none (numbers other among)
  refine ⟨among, fun other among => ?_⟩
  obtain ⟨s, atOther, below⟩ := lowest other among
  exact le_iff.mpr ⟨r, s, atLeast, atOther, below⟩

theorem greatestOf_maxFrom {first : Binary F} {rest : List (Binary F)}
    (numbers : ∀ other ∈ first :: rest, other.isNaN = false) :
    GreatestOf (first :: rest) (maxFrom first rest) := by
  obtain ⟨among, r, atGreatest, lowest⟩ := (firstGreatest_foldl id first rest).lowest
    fun other among => by
      rw [Ne, Option.map_eq_none_iff]
      exact order?_ne_none (numbers other among)
  refine ⟨among, fun other among => ?_⟩
  obtain ⟨s, atOther, below⟩ := lowest other among
  obtain ⟨a, isA, rfl⟩ := Option.map_eq_some_iff.mp atGreatest
  obtain ⟨b, isB, rfl⟩ := Option.map_eq_some_iff.mp atOther
  exact le_iff.mpr ⟨b, a, isB, isA, Int.neg_le_neg_iff.mp below⟩

/-- More values have the same greatest one as long as none of them is above all the old ones. -/
theorem GreatestOf.sameNumber (greatest : GreatestOf values x) (again : GreatestOf others y)
    (among : values ⊆ others) (covered : ∀ other ∈ others, ∃ v ∈ values, other.le v = true) :
    SameNumber y x := by
  obtain ⟨v, member, below⟩ := covered y again.1
  exact sameNumber_of_le (le_trans below (greatest.2 v member)) (again.2 x (among greatest.1))

theorem LeastOf.sameNumber (least : LeastOf values x) (again : LeastOf others y)
    (among : values ⊆ others) (covered : ∀ other ∈ others, ∃ v ∈ values, v.le other = true) :
    SameNumber y x := by
  obtain ⟨v, member, below⟩ := covered y again.1
  exact sameNumber_of_le (again.2 x (among least.1)) (le_trans (least.2 v member) below)

end Binary

open Binary Datum

/-- No corner of the box has not-a-number. -/
def Extent.IsNumeric (e : Extent) : Prop :=
  ∀ axis, (e.low.get axis).isNaN = false ∧ (e.high.get axis).isNaN = false

/-- The box starts nowhere below all the boxes and ends nowhere above them all. -/
def Extent.Within (e : Extent) (extents : List Extent) : Prop :=
  ∀ axis, (∃ other ∈ extents, (other.low.get axis).le (e.low.get axis) = true) ∧
    ∃ other ∈ extents, (e.high.get axis).le (other.high.get axis) = true

/-- Points of the same numbers. -/
def Point.SameNumbers (p q : Point) : Prop := ∀ axis, SameNumber (p.get axis) (q.get axis)

/-- The size of the union of some boxes, which is taken on each axis of its own. Where they stand,
how often, and what lies within them changes no component of it. -/
structure Extent.UnionOf (extents : List Extent) (size : Point) : Prop where
  difference : ∀ axis, ∃ high low,
    GreatestOf (extents.map fun extent => extent.high.get axis) high ∧
    LeastOf (extents.map fun extent => extent.low.get axis) low ∧ size.get axis = high - low
  rearranged : ∀ others : List Extent, (∀ extent, extent ∈ others ↔ extent ∈ extents) →
    (unionSize others).SameNumbers size
  extended : ∀ extent : Extent, extent.Within extents → ∀ others, others.Perm (extent :: extents) →
    (unionSize others).SameNumbers size

section

variable {extents others : List Extent} {e : Extent}

theorem Extent.within_of_mem (numeric : e.IsNumeric) (among : e ∈ extents) : e.Within extents := by
  have self {x : Double} (number : x.isNaN = false) : x.le x = true := by
    obtain ⟨r, atX⟩ := Option.ne_none_iff_exists'.mp (order?_ne_none number)
    exact le_iff.mpr ⟨r, r, atX, atX, Int.le_refl r⟩
  exact fun axis => ⟨⟨e, among, self (numeric axis).1⟩, e, among, self (numeric axis).2⟩

/-- What can be compared is a number. -/
theorem Extent.Within.isNumeric (within : e.Within extents) : e.IsNumeric := by
  have number {x : Double} {r : Int} (atX : x.order? = some r) : x.isNaN = false := by
    rw [← Bool.not_eq_true, ← order?_eq_none_iff, atX]
    exact Option.some_ne_none r
  intro axis
  obtain ⟨⟨_, _, low⟩, _, _, high⟩ := within axis
  obtain ⟨_, _, _, atLow, _⟩ := le_iff.mp low
  obtain ⟨_, _, atHigh, _⟩ := le_iff.mp high
  exact ⟨number atLow, number atHigh⟩

theorem unionSize_difference (some : extents ≠ []) (numeric : ∀ e ∈ extents, e.IsNumeric)
    (axis : Axis) : ∃ high low,
      GreatestOf (extents.map fun extent => extent.high.get axis) high ∧
      LeastOf (extents.map fun extent => extent.low.get axis) low ∧
      (unionSize extents).get axis = high - low := by
  obtain ⟨first, rest, rfl⟩ := List.exists_cons_of_ne_nil some
  have highs : ∀ x ∈ (first :: rest).map fun extent => extent.high.get axis, x.isNaN = false :=
    List.forall_mem_map.mpr fun e among => (numeric e among axis).2
  have lows : ∀ x ∈ (first :: rest).map fun extent => extent.low.get axis, x.isNaN = false :=
    List.forall_mem_map.mpr fun e among => (numeric e among axis).1
  exact ⟨_, _, greatestOf_maxFrom highs, leastOf_minFrom lows, PerAxis.get_ofFn _ axis⟩

/-- Boxes more that all lie within do not count. -/
theorem sameNumbers_of_within (some : extents ≠ []) (among : extents ⊆ others)
    (within : ∀ e ∈ others, e.Within extents) :
    (unionSize others).SameNumbers (unionSize extents) := by
  intro axis
  have someOther : others ≠ [] := fun none => some (List.subset_nil.mp (none ▸ among))
  have numeric (e : Extent) (member : e ∈ others) : e.IsNumeric := (within e member).isNumeric
  obtain ⟨high, low, greatest, least, size⟩ :=
    unionSize_difference some (fun e member => numeric e (among member)) axis
  obtain ⟨top, bottom, greatestOther, leastOther, sizeOther⟩ :=
    unionSize_difference someOther numeric axis
  rw [size, sizeOther]
  refine (greatest.sameNumber greatestOther (List.map_subset _ among) ?_).sub
    (least.sameNumber leastOther (List.map_subset _ among) ?_)
  · refine List.forall_mem_map.mpr fun e member => ?_
    obtain ⟨other, inside, below⟩ := (within e member axis).2
    exact ⟨_, List.mem_map_of_mem inside, below⟩
  · refine List.forall_mem_map.mpr fun e member => ?_
    obtain ⟨other, inside, below⟩ := (within e member axis).1
    exact ⟨_, List.mem_map_of_mem inside, below⟩

theorem unionOf_unionSize (some : extents ≠ []) (numeric : ∀ e ∈ extents, e.IsNumeric) :
    Extent.UnionOf extents (unionSize extents) where
  difference := unionSize_difference some numeric
  rearranged others same := by
    refine sameNumbers_of_within some (fun e among => (same e).mpr among) fun e member => ?_
    have among := (same e).mp member
    exact Extent.within_of_mem (numeric e among) among
  extended extent within others perm := by
    have among : extents ⊆ others := fun e member =>
      perm.mem_iff.mpr (List.mem_cons_of_mem extent member)
    refine sameNumbers_of_within some among fun e member => ?_
    rcases List.mem_cons.mp (perm.mem_iff.mp member) with rfl | inside
    · exact within
    · exact Extent.within_of_mem (numeric e inside) inside

end

namespace Plan

variable {levels : Nat}

theorem readSize_of_meant {entries : List (Datum × Datum)} {items : List Datum}
    {extents : List Extent} (bounds : get? entries "bounds" = some (.list items))
    (meant : List.Forall₂ ExtentOf items extents) (name : String) :
    readSize levels name entries = .ok (unionSize extents) := by
  refine readSize_eq_ok_iff.mpr ⟨fun none => ?_, fun value atBounds => ?_⟩
  · rw [bounds] at none
    cases none
  · cases bounds.symm.trans atBounds
    exact ⟨items, extents, Or.inl rfl, meant, rfl⟩

/-- A target that is read has the size of the boxes that its bounds mean, and they mean some. -/
theorem size_of_readTarget {index : Nat} {entries : List (Datum × Datum)} {items : List Datum}
    {target : Target} (bounds : get? entries "bounds" = some (.list items))
    (read : readTarget levels index (.mapping entries) = .ok target) :
    (∃ extents, List.Forall₂ ExtentOf items extents) ∧
      ∀ extents, List.Forall₂ ExtentOf items extents → target.size = unionSize extents := by
  obtain ⟨_, same, described⟩ := readTarget_eq_ok_iff.mp read
  cases same
  constructor
  · obtain ⟨others, extents, meant, each, _⟩ := described.bounds _ bounds
    rcases meant with same | ⟨isVoid, rfl⟩
    · cases same
      exact ⟨extents, each⟩
    · obtain rfl : items = [] := List.isEmpty_iff.mp isVoid
      exact ⟨extents, each⟩
  · intro extents meant
    have size : readSize levels target.name entries = .ok target.size :=
      readSize_eq_ok_iff.mpr ⟨described.size, described.bounds⟩
    exact Except.ok.inj (size.symm.trans (readSize_of_meant bounds meant _))

/-- The size of some boxes without not-a-number is that of their union. So is the size that a
target has from its bounds, where these may mean the boxes in any form. -/
theorem bounds_size_unionOf (levels : Nat) :
    (∀ extents : List Extent, extents ≠ [] → (∀ e ∈ extents, e.IsNumeric) →
      Extent.UnionOf extents (unionSize extents)) ∧
    ∀ index entries target items, readTarget levels index (.mapping entries) = .ok target →
      get? entries "bounds" = some (.list items) →
      (∃ extents, List.Forall₂ ExtentOf items extents) ∧
      ∀ extents, List.Forall₂ ExtentOf items extents → target.size = unionSize extents ∧
        (items ≠ [] → (∀ e ∈ extents, e.IsNumeric) → Extent.UnionOf extents target.size) := by
  refine ⟨fun _ => unionOf_unionSize, fun index entries target items read bounds => ?_⟩
  obtain ⟨some, sized⟩ := size_of_readTarget bounds read
  refine ⟨some, fun extents meant => ⟨sized extents meant, fun some numeric => ?_⟩⟩
  rw [sized extents meant]
  refine unionOf_unionSize (fun none => some ?_) numeric
  subst none
  exact List.forall₂_nil_right_iff.mp meant

/-- Two boxes, one with a corner left out and one with a corner on one axis only. -/
theorem bounds_size_two :
    let corners : List (List (Datum × Datum)) :=
      [[(.text "max", .list [.float .half, .float (.infinity false), .float .half])],
        [(.text "min", .mapping [(.text "y", .float (.infinity true))]), (.text "max", .null)]]
    let entries := [(.text "bounds", .list (corners.map .mapping))]
    let high : Extent := ⟨.zero, .half, .infinity false, .half⟩
    let low : Extent := ⟨⟨.zero false, .infinity true, .zero false⟩, .zero⟩
    ∃ target, readTarget usualLevels 0 (.mapping entries) = .ok target ∧
      Extent.UnionOf [high, low] target.size := by
  intro corners entries high low
  have meant : List.Forall₂ ExtentOf (corners.map .mapping) [high, low] := by
    refine .cons ⟨_, rfl, .absent, .present (.list rfl rfl rfl)⟩
      (.cons ⟨_, rfl, .present (.mapping fun axis => ?_), .present .null⟩ .nil)
    cases axis with
    | x => exact .absent
    | y => exact .present rfl
    | z => exact .absent
  have numeric : ∀ e ∈ [high, low], e.IsNumeric := by
    simp only [List.forall_mem_cons]
    refine ⟨fun axis => ?_, fun axis => ?_, List.forall_mem_nil _⟩
    · cases axis <;> exact ⟨rfl, rfl⟩
    · cases axis <;> exact ⟨rfl, rfl⟩
  have described : Target.OfEntries usualLevels 0 entries
      { name := "target" ++ writeInt 0, size := unionSize [high, low] } :=
    { name := .absent
      position := .absent
      rotation := .absent
      scale := .absent
      size := nofun
      bounds := fun value same => by
        cases same
        exact ⟨_, _, Or.inl rfl, meant, rfl⟩
      siblingIndex := .absent }
  have read := readTarget_eq_ok_iff.mpr ⟨entries, rfl, described⟩
  obtain ⟨_, sized⟩ := (bounds_size_unionOf usualLevels).2 0 entries _ _ read rfl
  exact ⟨_, read, (sized _ meant).2 (List.cons_ne_nil _ _) numeric⟩

end Plan

end Placement
