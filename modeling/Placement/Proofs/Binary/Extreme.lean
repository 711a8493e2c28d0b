import Placement.Binary.Basic

/-!
The first item with the least or the greatest key. A pass from left to right finds it that takes
a later item only where its key is strictly less, or greater, than that of the item held. So
not-a-number is passed over, but kept where it comes first.
-/

namespace Placement

/-- The first item of the lowest rank. Items without a rank do not count, but where the very first
one has none it is this one. -/
structure Foremost {α : Type} (rank : α → Option Int) (first : α) (rest : List α) (item : α) :
    Prop where
  unranked : rank first = none → item = first
  ranked : rank first ≠ none → ∃ before behind r, first :: rest = before ++ item :: behind ∧
    rank item = some r ∧ (∀ other ∈ first :: rest, ∀ s, rank other = some s → r ≤ s) ∧
    ∀ other ∈ before, ∀ s, rank other = some s → r < s

/-- Strictly lower in rank, which only items that have one can be. -/
def ahead {α : Type} (rank : α → Option Int) (a b : α) : Bool :=
  match rank a, rank b with
  | some r, some s => r < s
  | _, _ => false

theorem ahead_iff {α : Type} {rank : α → Option Int} {a b : α} :
    ahead rank a b = true ↔ ∃ r s, rank a = some r ∧ rank b = some s ∧ r < s := by
  unfold ahead
  cases rank a <;> cases rank b <;> simp

namespace Foremost

variable {α : Type} {rank : α → Option Int} {first item : α} {passed : List α}

theorem start (rank : α → Option Int) (first : α) : Foremost rank first [] first where
  unranked _ := rfl
  ranked isRanked := by
    obtain ⟨r, atFirst⟩ := Option.ne_none_iff_exists'.mp isRanked
    refine ⟨[], [], r, rfl, atFirst, fun other member s atOther => ?_, nofun⟩
    rw [List.mem_singleton.mp member, atFirst] at atOther
    exact Int.le_of_eq (Option.some.inj atOther)

/-- One item more, which is taken if it is ahead of the item held. -/
theorem step (foremost : Foremost rank first passed item) (next : α) :
    Foremost rank first (passed ++ [next]) (if ahead rank next item then next else item) where
  unranked noRank := by
    have stays : ¬ ahead rank next first = true := by
      rw [ahead_iff]
      rintro ⟨_, _, _, atFirst, _⟩
      rw [noRank] at atFirst
      cases atFirst
    rw [foremost.unranked noRank, if_neg stays]
  ranked isRanked := by
    obtain ⟨before, behind, r, split, atItem, lowest, strictly⟩ := foremost.ranked isRanked
    have bounds {r : Int} (inPassed : ∀ other ∈ first :: passed, ∀ s, rank other = some s → r ≤ s)
        (atNext : ∀ s, rank next = some s → r ≤ s) :
        ∀ other ∈ first :: (passed ++ [next]), ∀ s, rank other = some s → r ≤ s :=
      List.forall_mem_append.mpr ⟨inPassed, List.forall_mem_singleton.mpr atNext⟩
    by_cases isAhead : ahead rank next item = true
    · obtain ⟨s, _, atNext, again, less⟩ := ahead_iff.mp isAhead
      cases atItem.symm.trans again
      have below : ∀ other ∈ first :: passed, ∀ t, rank other = some t → s < t :=
        fun other member t atOther => Int.lt_of_lt_of_le less (lowest other member t atOther)
      rw [if_pos isAhead]
      refine ⟨first :: passed, [], s, rfl, atNext, bounds ?_ ?_, below⟩
      · exact fun other member t atOther => Int.le_of_lt (below other member t atOther)
      · exact fun t again => Int.le_of_eq (Option.some.inj (atNext.symm.trans again))
    · rw [if_neg isAhead]
      refine ⟨before, behind ++ [next], r, ?_, atItem, bounds lowest fun t atNext => ?_, strictly⟩
      · rw [← List.cons_append, split, List.append_assoc, List.cons_append]
      · exact Int.not_lt.mp fun less => isAhead (ahead_iff.mpr ⟨t, r, atNext, atItem, less⟩)

theorem foldl (foremost : Foremost rank first passed item) (rest : List α) :
    Foremost rank first (passed ++ rest)
      (rest.foldl (fun held next => if ahead rank next held then next else held) item) := by
  induction rest generalizing passed item with
  | nil => rwa [List.append_nil]
  | cons next rest ih =>
    have behind := ih (foremost.step next)
    rwa [List.append_assoc] at behind

/-- What items are ranked by is all that matters. -/
theorem map {β : Type} (f : α → β) (rank : β → Option Int) {rest : List α}
    (foremost : Foremost (fun a => rank (f a)) first rest item) :
    Foremost rank (f first) (rest.map f) (f item) where
  unranked noRank := congrArg f (foremost.unranked noRank)
  ranked isRanked := by
    obtain ⟨before, behind, r, split, atItem, lowest, strictly⟩ := foremost.ranked isRanked
    refine ⟨before.map f, behind.map f, r, ?_, atItem, ?_, List.forall_mem_map.mpr strictly⟩
    · rw [← List.map_cons, split, List.map_append, List.map_cons]
    · rw [← List.map_cons]
      exact List.forall_mem_map.mpr lowest

/-- There is only one such item. -/
theorem unique {rest : List α} {other : α} (foremost : Foremost rank first rest item)
    (again : Foremost rank first rest other) : item = other := by
  by_cases noRank : rank first = none
  · rw [foremost.unranked noRank, again.unranked noRank]
  · obtain ⟨before, behind, r, split, atItem, lowest, strictly⟩ := foremost.ranked noRank
    obtain ⟨front, back, s, splitOther, atOther, lowestOther, strictlyOther⟩ :=
      again.ranked noRank
    have same : r = s := Int.le_antisymm
      (lowest other (by rw [splitOther]; simp) s atOther)
      (lowestOther item (by rw [split]; simp) r atItem)
    -- Neither of the two stands before the other, for it would be strictly higher there.
    rcases List.append_eq_append_iff.mp (split.symm.trans splitOther) with
      ⟨between, rfl, tail⟩ | ⟨between, rfl, tail⟩
    · cases between with
      | nil => exact (List.cons.inj tail).1
      | cons next others =>
        obtain ⟨rfl, _⟩ := List.cons.inj tail
        have less := strictlyOther item (by simp) r atItem
        omega
    · cases between with
      | nil => exact (List.cons.inj tail).1.symm
      | cons next others =>
        obtain ⟨rfl, _⟩ := List.cons.inj tail
        have less := strictly other (by simp) s atOther
        omega

end Foremost

variable {F : Format} {α : Type}

/-- The first item with the least key, where not-a-number does not count unless it comes first. -/
def FirstLeast (key : α → Binary F) : α → List α → α → Prop :=
  Foremost fun item => (key item).order?

/-- The first item with the greatest key, where not-a-number does not count unless it comes
first. -/
def FirstGreatest (key : α → Binary F) : α → List α → α → Prop :=
  Foremost fun item => (key item).order?.map Neg.neg

theorem firstLeast_foldl (key : α → Binary F) (first : α) (rest : List α) :
    FirstLeast key first rest
      (rest.foldl (fun held next => if (key next).lt (key held) then next else held) first) :=
  (Foremost.start _ first).foldl rest

theorem firstGreatest_foldl (key : α → Binary F) (first : α) (rest : List α) :
    FirstGreatest key first rest
      (rest.foldl (fun held next => if (key held).lt (key next) then next else held) first) := by
  have backwards (held next : α) : (key held).lt (key next) =
      ahead (fun item => (key item).order?.map Neg.neg) next held := by
    simp only [Binary.lt, ahead]
    cases (key held).order? <;> cases (key next).order? <;> simp
  simp only [backwards]
  exact (Foremost.start _ first).foldl rest

end Placement
