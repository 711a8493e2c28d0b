import Placement.Formula.Evaluation
import Placement.Proofs.Binary.Extreme

namespace Placement

namespace Binary

variable {F : Format}

theorem order?_eq_none_iff {x : Binary F} : x.order? = none ↔ x.isNaN = true := by
  cases x with
  | nan => simp [isNaN, order?]
  | signed negative code => cases negative <;> simp [isNaN, order?]

theorem le_iff {x y : Binary F} :
    x.le y = true ↔ ∃ r s, x.order? = some r ∧ y.order? = some s ∧ r ≤ s := by
  unfold le
  cases x.order? <;> cases y.order? <;> simp

end Binary

/-- A value meets all numbers of a list, as the relation has it. -/
def MeetsAll (meets : Single → Single → Bool) (values : List Single) (x : Single) : Prop :=
  ∀ other ∈ values, other.isNaN = false → meets x other = true

/-- The first value of a list that meets all numbers of the list. If the list begins with
not-a-number, it is that. -/
structure Selected (meets : Single → Single → Bool) (first : Single) (rest : List Single)
    (value : Single) : Prop where
  member : value ∈ first :: rest
  isNaN_iff : value.isNaN = true ↔ first.isNaN = true
  earliest : first.isNaN = false → ∃ before behind, first :: rest = before ++ value :: behind ∧
    MeetsAll meets (first :: rest) value ∧
    ∀ other ∈ before, ¬ MeetsAll meets (first :: rest) other

/-- A relation on numbers that compares ranks. -/
structure Compares (rank : Single → Option Int) (meets : Single → Single → Bool) : Prop where
  none_iff : ∀ x, rank x = none ↔ x.isNaN = true
  meets_iff : ∀ x y, meets x y = true ↔ ∃ r s, rank x = some r ∧ rank y = some s ∧ r ≤ s

theorem compares_least : Compares Binary.order? Binary.le where
  none_iff _ := Binary.order?_eq_none_iff
  meets_iff _ _ := Binary.le_iff

theorem compares_greatest :
    Compares (fun x => x.order?.map Neg.neg) (fun x other => other.le x) where
  none_iff x := by rw [Option.map_eq_none_iff, Binary.order?_eq_none_iff]
  meets_iff x y := by
    rw [Binary.le_iff]
    constructor
    · rintro ⟨s, r, atY, atX, le⟩
      exact ⟨-r, -s, by rw [atX]; rfl, by rw [atY]; rfl, Int.neg_le_neg le⟩
    · rintro ⟨r, s, atX, atY, le⟩
      obtain ⟨a, isA, rfl⟩ := Option.map_eq_some_iff.mp atX
      obtain ⟨b, isB, rfl⟩ := Option.map_eq_some_iff.mp atY
      exact ⟨b, a, isB, isA, Int.neg_le_neg_iff.mp le⟩

theorem Foremost.selected {rank : Single → Option Int} {meets : Single → Single → Bool}
    (compares : Compares rank meets) {first value : Single} {rest : List Single}
    (foremost : Foremost rank first rest value) : Selected meets first rest value := by
  by_cases isNaN : first.isNaN = true
  · obtain rfl := foremost.unranked ((compares.none_iff _).mpr isNaN)
    exact ⟨List.mem_cons_self, Iff.rfl, fun isNumber => by rw [isNaN] at isNumber; cases isNumber⟩
  · have isRanked : rank first ≠ none := fun none => isNaN ((compares.none_iff first).mp none)
    obtain ⟨before, behind, r, split, atValue, lowest, strictly⟩ := foremost.ranked isRanked
    have member : value ∈ first :: rest := by
      rw [split]
      exact List.mem_append_right _ List.mem_cons_self
    have isNumber : ¬ value.isNaN = true := by
      rw [← compares.none_iff, atValue]
      exact Option.some_ne_none r
    refine ⟨member, iff_of_false isNumber isNaN, fun _ => ⟨before, behind, split, ?_, ?_⟩⟩
    · intro other atOther someNumber
      have ranked : rank other ≠ none := by
        rw [Ne, compares.none_iff, someNumber]
        exact Bool.false_ne_true
      obtain ⟨s, isRank⟩ := Option.ne_none_iff_exists'.mp ranked
      exact (compares.meets_iff _ _).mpr ⟨r, s, atValue, isRank, lowest other atOther s isRank⟩
    · intro other atOther all
      -- It would have to meet the value that stands behind it, which is strictly ahead of it.
      have met := all value member (Bool.not_eq_true _ ▸ isNumber)
      obtain ⟨s, t, isRank, again, le⟩ := (compares.meets_iff _ _).mp met
      cases atValue.symm.trans again
      have less := strictly other atOther s isRank
      omega

/-- What the built-in function of a name gives. -/
def Builtin.apply (name : String) (arguments : List Single) : Except EvaluationError Single := do
  (← registry.get name).call arguments

/-- A built-in function selects one of its arguments, of which it needs one. Formulas call it
whatever functions are supplied. -/
structure Selects (name : String) (meets : Single → Single → Bool) : Prop where
  called : ∀ (context : Context) arguments,
    context.call name arguments = .ofExcept (Builtin.apply name arguments)
  selected : ∀ first rest, ∃ value, Builtin.apply name (first :: rest) = .ok value ∧
    Selected meets first rest value
  reordered : ∀ arguments others value, (∀ x ∈ arguments, x.isNaN = false) →
    arguments.Perm others → Builtin.apply name arguments = .ok value →
    ∃ other, Builtin.apply name others = .ok other ∧ value.le other = true ∧ other.le value = true
  missing : Builtin.apply name [] = .error (.fewArguments name 1 0)

/-- Without not-a-number, the value selected meets all others. -/
theorem Selected.meetsAll {meets : Single → Single → Bool} {first value : Single}
    {rest : List Single} (selected : Selected meets first rest value)
    (numbers : ∀ x ∈ first :: rest, x.isNaN = false) :
    ∀ other ∈ first :: rest, meets value other = true := by
  obtain ⟨_, _, _, all, _⟩ := selected.earliest (numbers first List.mem_cons_self)
  exact fun other member => all other member (numbers other member)

theorem Selects.of_foremost {name : String} {rank : Single → Option Int}
    {meets : Single → Single → Bool} {choose : Single → List Single → Single}
    (compares : Compares rank meets)
    (equal : ∀ x y, meets x y = true → meets y x = true → x.le y = true ∧ y.le x = true)
    (foremost : ∀ first rest, Foremost rank first rest (choose first rest))
    (called : ∀ (context : Context) arguments,
      context.call name arguments = .ofExcept (Builtin.apply name arguments))
    (apply : ∀ first rest, Builtin.apply name (first :: rest) = .ok (choose first rest))
    (missing : Builtin.apply name [] = .error (.fewArguments name 1 0)) : Selects name meets where
  called := called
  selected first rest := ⟨_, apply first rest, (foremost first rest).selected compares⟩
  reordered arguments others value numbers perm applied := by
    cases arguments with
    | nil =>
      rw [missing] at applied
      cases applied
    | cons first rest =>
      obtain ⟨head, tail, rfl⟩ : ∃ head tail, others = head :: tail :=
        List.exists_cons_of_ne_nil fun none => by simp [none] at perm
      cases (apply first rest).symm.trans applied
      have one := (foremost first rest).selected compares
      have two := (foremost head tail).selected compares
      refine ⟨_, apply head tail, equal _ _ ?_ ?_⟩
      · exact one.meetsAll numbers _ (perm.mem_iff.mpr two.member)
      · refine two.meetsAll (fun x member => ?_) _ (perm.mem_iff.mp one.member)
        exact numbers x (perm.mem_iff.mpr member)
  missing := missing

/-- `max` selects the first argument that no other number exceeds, `min` the first that exceeds no
other number. -/
theorem max_min_select :
    Selects "max" (fun x other => other.le x) ∧ Selects "min" (fun x other => x.le other) := by
  constructor
  · exact .of_foremost compares_greatest (fun _ _ le ge => ⟨ge, le⟩)
      (firstGreatest_foldl fun x : Single => x) (fun _ _ => rfl) (fun _ _ => rfl) rfl
  · exact .of_foremost compares_least (fun _ _ le ge => ⟨le, ge⟩)
      (firstLeast_foldl fun x : Single => x) (fun _ _ => rfl) (fun _ _ => rfl) rfl

/-- Of the two zeros the earlier one is taken, and not-a-number only where it comes first. -/
example : Builtin.apply "max" [.zero true, .nan, .zero false] = .ok (.zero true) ∧
    Builtin.apply "min" [.nan, .zero true] = .ok .nan := ⟨rfl, rfl⟩

end Placement
