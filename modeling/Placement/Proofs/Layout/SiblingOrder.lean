import Placement.Proofs.Layout.Moments

namespace Placement

/-- The same items with rising keys. Items with one key stand as they stood before. -/
structure StablySorted {α : Type} (key : α → Int) (items sorted : List α) : Prop where
  rising : sorted.Pairwise fun first second => key first ≤ key second
  stable : ∀ k, (sorted.filter fun item => key item = k) = items.filter fun item => key item = k

namespace StablySorted

variable {α : Type} {key : α → Int} {items sorted others : List α}

theorem mem_iff (isSorted : StablySorted key items sorted) {item : α} :
    item ∈ sorted ↔ item ∈ items := by
  have among (list : List α) :
      item ∈ list ↔ item ∈ list.filter fun other => key other = key item := by simp
  rw [among sorted, isSorted.stable, ← among]

/-- What stands first has the least key, and of the items with this key it is the first. -/
theorem head_eq {first second : α} {rest behind : List α}
    (isSorted : StablySorted key items (first :: rest))
    (again : StablySorted key items (second :: behind)) : first = second := by
  have least {a b : α} {l m : List α} (rising : StablySorted key items (a :: l))
      (other : StablySorted key items (b :: m)) : key a ≤ key b := by
    have member : b ∈ a :: l := rising.mem_iff.mpr (other.mem_iff.mp List.mem_cons_self)
    rcases List.mem_cons.mp member with rfl | inRest
    · exact le_rfl
    · exact (List.pairwise_cons.mp rising.rising).1 b inRest
  have same := Int.le_antisymm (least isSorted again) (least again isSorted)
  have classes := (isSorted.stable (key first)).trans (again.stable (key first)).symm
  rw [List.filter_cons_of_pos (by simp), List.filter_cons_of_pos (by simp [same])] at classes
  exact (List.cons.inj classes).1

/-- There is only one stable order. -/
theorem unique (isSorted : StablySorted key items sorted)
    (again : StablySorted key items others) : sorted = others := by
  induction sorted generalizing items others with
  | nil =>
    refine (List.eq_nil_iff_forall_not_mem.mpr fun item member => ?_).symm
    cases isSorted.mem_iff.mpr (again.mem_iff.mp member)
  | cons first rest ih =>
    cases others with
    | nil => cases again.mem_iff.mpr (isSorted.mem_iff.mp List.mem_cons_self)
    | cons second behind =>
      obtain rfl := head_eq isSorted again
      have tails : StablySorted key behind rest := by
        refine ⟨(List.pairwise_cons.mp isSorted.rising).2, fun k => ?_⟩
        have classes := (isSorted.stable k).trans (again.stable k).symm
        rw [List.filter_cons, List.filter_cons] at classes
        split at classes
        · exact (List.cons.inj classes).2
        · exact classes
      rw [ih tails ⟨(List.pairwise_cons.mp again.rising).2, fun _ => rfl⟩]

/-- Where no key occurs twice, there is only one order. -/
theorem of_perm (isSorted : StablySorted key items sorted) (same : others.Perm items)
    (distinct : (items.map key).Nodup) : StablySorted key others sorted := by
  refine ⟨isSorted.rising, fun k => (isSorted.stable k).trans ?_⟩
  have classes := same.filter fun item => key item = k
  have apart : (items.filter fun item => key item = k).Pairwise fun a b => key a ≠ key b :=
    (List.pairwise_map.mp distinct).filter _
  cases inClass : items.filter fun item => key item = k with
  | nil =>
    rw [inClass] at classes
    exact classes.eq_nil.symm
  | cons item rest =>
    have ofClass {other : α} (member : other ∈ item :: rest) : key other = k := by
      rw [← inClass] at member
      simpa using (List.mem_filter.mp member).2
    rw [inClass] at classes apart
    cases rest with
    | nil => exact (List.perm_singleton.mp classes).symm
    | cons next others =>
      have differ := (List.pairwise_cons.mp apart).1 next List.mem_cons_self
      exact absurd ((ofClass List.mem_cons_self).trans
        (ofClass (List.mem_cons_of_mem _ List.mem_cons_self)).symm) differ

/-- Every item stands there as often as before. -/
theorem perm [DecidableEq α] (isSorted : StablySorted key items sorted) : sorted.Perm items := by
  refine List.perm_iff_count.mpr fun item => ?_
  have among (list : List α) :
      (list.filter fun other => key other = key item).count item = list.count item :=
    List.count_filter (by simp)
  rw [← among sorted, isSorted.stable, among]

/-- Sorting by merging is stable. -/
theorem mergeSort (key : α → Int) (items : List α) :
    StablySorted key items (items.mergeSort fun a b => key a ≤ key b) := by
  have linked (a b c : α) (first : decide (key a ≤ key b) = true)
      (second : decide (key b ≤ key c) = true) : decide (key a ≤ key c) = true :=
    decide_eq_true ((of_decide_eq_true first).trans (of_decide_eq_true second))
  have related (a b : α) : (decide (key a ≤ key b) || decide (key b ≤ key a)) = true := by
    simpa using Int.le_total (key a) (key b)
  refine ⟨(List.pairwise_mergeSort linked related items).imp of_decide_eq_true, fun k => ?_⟩
  -- The items with one key are in order as they stand, so they are kept as they stand.
  have ofClass {item : α} (member : item ∈ items.filter fun other => key other = k) :
      key item = k := of_decide_eq_true (List.mem_filter.mp member).2
  have level : (items.filter fun item => key item = k).Pairwise
      fun a b => decide (key a ≤ key b) = true :=
    List.pairwise_of_forall_mem_list fun a inClass b alsoInClass =>
      decide_eq_true ((ofClass inClass).trans (ofClass alsoInClass).symm).le
  have kept := (List.sublist_mergeSort linked related level List.filter_sublist).filter
    fun item => key item = k
  have same := List.mergeSort_perm items fun a b => decide (key a ≤ key b)
  have count := (same.filter fun item => key item = k).length_eq
  simp only [List.filter_filter, Bool.and_self] at kept
  exact (kept.eq_of_length count.symm).symm

end StablySorted

namespace Batch

variable {expressions : Expressions} {targets others placed : List Target} {limits : Limits}

theorem stablySorted_inSiblingOrder (targets : List Target) :
    StablySorted Target.siblingIndex targets (inSiblingOrder targets) :=
  .mergeSort _ targets

/-- A target after its formulas were applied: all but its position, its rotation and its scale
is as it was. -/
def Moved (target result : Target) : Prop :=
  ∃ position rotation scale, result = { target with position, rotation, scale }

theorem forall_moved_of_apply (applied : apply expressions targets limits = .ok placed) :
    List.Forall₂ Moved (inSiblingOrder targets) placed := by
  have length : placed.length = (inSiblingOrder targets).length := by
    rw [apply_of_passed (passed_of_apply applied), map_eq_ok_iff] at applied
    obtain ⟨stage, reached, rfl⟩ := applied
    exact (progress_of_stageAt (Nat.le_refl _) reached).length
  refine List.forall₂_iff_get.mpr ⟨length.symm, fun j within inPlaced => ?_⟩
  obtain ⟨result, isResult, atPlaced⟩ := isResult_of_apply applied within
  obtain ⟨target, _, position, rotation, scale, atPlace, _, _, _, _, rfl⟩ := isResult
  obtain ⟨_, same⟩ := List.getElem?_eq_some_iff.mp atPlace
  obtain ⟨_, again⟩ := List.getElem?_eq_some_iff.mp atPlaced
  exact ⟨position, rotation, scale, by rw [List.get_eq_getElem, List.get_eq_getElem, same, again]⟩

theorem perm_of_inSiblingOrder (same : inSiblingOrder others = inSiblingOrder targets) :
    others.Perm targets :=
  (stablySorted_inSiblingOrder others).perm.symm.trans
    (same ▸ (stablySorted_inSiblingOrder targets).perm)

/-- Two batches in one sibling order are laid out alike. -/
theorem apply_congr (same : inSiblingOrder others = inSiblingOrder targets) :
    apply expressions others limits = apply expressions targets limits := by
  rw [apply, apply, same, failingFields_of_perm (perm_of_inSiblingOrder same)]

/-- A batch that is laid out holds its targets in their stable order by sibling index, each of
them once, with new positions, rotations and scales and all else as it was. What becomes of a
batch depends on this order only, and so on the targets only where their indexes are distinct. -/
theorem apply_of_sibling_order (expressions : Expressions) (targets : List Target)
    (limits : Limits) :
    (∀ placed, apply expressions targets limits = .ok placed → placed.length = targets.length ∧
        ∃ sorted, StablySorted Target.siblingIndex targets sorted ∧ sorted.Perm targets ∧
          List.Forall₂ Moved sorted placed) ∧
      (∀ others sorted, StablySorted Target.siblingIndex targets sorted →
        StablySorted Target.siblingIndex others sorted →
        apply expressions others limits = apply expressions targets limits) ∧
      ((targets.map Target.siblingIndex).Nodup → ∀ others : List Target, others.Perm targets →
        apply expressions others limits = apply expressions targets limits) := by
  have isSorted := stablySorted_inSiblingOrder targets
  have alike {others sorted : List Target}
      (ofTargets : StablySorted Target.siblingIndex targets sorted)
      (ofOthers : StablySorted Target.siblingIndex others sorted) :
      apply expressions others limits = apply expressions targets limits := by
    refine apply_congr ?_
    rw [(stablySorted_inSiblingOrder others).unique ofOthers, isSorted.unique ofTargets]
  refine ⟨fun placed applied => ?_, fun others sorted => alike, fun distinct others same => ?_⟩
  · have moved := forall_moved_of_apply applied
    refine ⟨?_, inSiblingOrder targets, isSorted, isSorted.perm, moved⟩
    rw [← moved.length_eq, length_inSiblingOrder]
  · exact alike isSorted (isSorted.of_perm same distinct)

/-- Two targets given the wrong way round, and three of which two share an index. -/
theorem left_before_right :
    let left : Target := { name := "left" }
    let twin : Target := { name := "twin" }
    let right : Target := { name := "right", siblingIndex := 1 }
    let expressions : Expressions :=
      { position := ⟨"space_between(this, index)", "center(this, index)", "this"⟩ }
    (∃ placed, apply expressions [left, right] {} = .ok placed ∧ placed.length = 2 ∧
        ∃ sorted, StablySorted Target.siblingIndex [left, right] sorted ∧
          sorted.Perm [left, right] ∧ List.Forall₂ Moved sorted placed) ∧
      apply expressions [right, left] {} = apply expressions [left, right] {} ∧
      apply expressions [left, right, twin] {} = apply expressions [right, left, twin] {} := by
  intro left twin right expressions
  obtain ⟨frame, _, permuted⟩ := apply_of_sibling_order expressions [left, right] {}
  refine ⟨?_, permuted (by decide) _ (List.Perm.swap _ _ _), ?_⟩
  · obtain ⟨placed, applied⟩ : ∃ placed, apply expressions [left, right] {} = .ok placed :=
      exists_apply_of_moves (List.mergeSort_of_pairwise (by decide)) (by decide +kernel)
        (by decide +kernel)
    exact ⟨placed, applied, frame placed applied⟩
  · have stable (k : Int) : ([left, twin, right].filter fun item => item.siblingIndex = k) =
          ([right, left, twin].filter fun item => item.siblingIndex = k) ∧
        ([left, twin, right].filter fun item => item.siblingIndex = k) =
          [left, right, twin].filter fun item => item.siblingIndex = k := by
      by_cases atZero : k = 0
      · simp [left, twin, right, atZero]
      · simp [List.filter_cons, left, twin, right, Ne.symm atZero]
    exact (apply_of_sibling_order expressions [right, left, twin] {}).2.1 _ [left, twin, right]
      ⟨by decide, fun k => (stable k).1⟩ ⟨by decide, fun k => (stable k).2⟩

end Batch

end Placement
