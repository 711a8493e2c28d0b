import Placement.Layout.Batch
import Placement.Proofs.Binary.Exact
import Placement.Proofs.Formula.Acceptance
import Placement.Proofs.Formula.Parallel
import Placement.Proofs.Layout.Spacing
import Placement.Proofs.Writable

namespace Placement

/-- A sibling index that is too long to be written. -/
def Target.LongIndex (t : Target) : Prop := Nat.pow 10 integerDigitLimit ≤ t.siblingIndex.natAbs

theorem Target.hindrance?_record (t : Target) :
    t.record.hindrance? none = Datum.digitHindrance? t.siblingIndex := by
  simp only [record, Point.record, Datum.hindrance?, Datum.levelsInside?, Datum.fieldsHindrance?,
    Option.none_or, Option.or_none]

theorem Target.hindrance?_records_of_long {targets : List Target}
    (long : ∃ t ∈ targets, t.LongIndex) : (Datum.list (targets.map record)).hindrance? none =
      some (.foreign .tooManyDigits) := by
  rw [Datum.hindrance?]
  change Datum.itemsHindrance? none _ = _
  induction targets with
  | nil =>
    obtain ⟨_, member, _⟩ := long
    cases member
  | cons t rest ih =>
    rw [List.map_cons, Datum.itemsHindrance?, hindrance?_record, Datum.digitHindrance?]
    split
    · rename_i short
      obtain ⟨other, member, beyond⟩ := long
      rcases List.mem_cons.mp member with rfl | among
      · exact absurd short (Nat.not_lt.mpr beyond)
      · exact ih ⟨other, among, beyond⟩
    · rfl

theorem Target.hindrance?_records_of_short {targets : List Target}
    (short : ¬ ∃ t ∈ targets, t.LongIndex) :
    (Datum.list (targets.map record)).hindrance? none = none := by
  rw [Datum.hindrance?]
  refine Datum.itemsHindrance?_eq_none_iff.mpr (List.forall_mem_map.mpr fun t member => ?_)
  rw [hindrance?_record, Datum.digitHindrance?_eq_none_iff]
  exact Nat.not_le.mp fun beyond => short ⟨t, member, beyond⟩

namespace Batch

/-- The variables of a formula: two numbers, and objects. -/
def bindingsOf (this index : Single) (objects : List (String × Datum)) : Bindings :=
  ⟨("this", .number this) :: ("index", .number index) ::
    objects.map fun entry => (entry.1, .object entry.2)⟩

/-- The objects that formulas can only name. -/
def testObjects (targets : List Target) : List (String × Datum) :=
  [("targets", .list (targets.map fun _ => .int 0)),
    ("objects", .list (targets.map Target.record))]

/-- What formulas are tried on, but for the objects. -/
def bareVariables : List (String × Given) :=
  [("this", .datum (.float (.zero false))), ("index", .datum (.int 0)),
    ("targets", .datum (.list []))]

/-- The number on which formulas are tried. -/
def testValue : Single := (Binary.zero false : Double).toSingle

/-- All trials have the same numbers. -/
theorem exists_ofPairs_trial : ∃ index, singleOfInt? 0 = some index ∧
    (∀ targets, Bindings.ofPairs (testVariables targets) =
      .ok (bindingsOf testValue index (testObjects targets))) ∧
    Bindings.ofPairs bareVariables =
      .ok (bindingsOf testValue index [("targets", .list [])]) := by
  obtain ⟨index, atIndex, _⟩ := singleOfInt?_of_small (n := 0) (by decide)
  have bound : (Given.datum (.int 0)).bind? = some (.number index) :=
    congrArg (Option.map Bound.number) atIndex
  refine ⟨index, atIndex, fun targets => ?_, ?_⟩
  · rw [testVariables, Bindings.ofPairs_cons rfl, Bindings.ofPairs_cons bound,
      Bindings.ofPairs_cons rfl, Bindings.ofPairs_cons rfl]
    rfl
  · rw [bareVariables, Bindings.ofPairs_cons rfl, Bindings.ofPairs_cons bound,
      Bindings.ofPairs_cons rfl]
    rfl

theorem number_bindingsOf (this index : Single) (objects : List (String × Datum)) (name : String) :
    (bindingsOf this index objects).number name =
      if name = "this" then .ok this else if name = "index" then .ok index
      else Bindings.number ⟨objects.map fun entry => (entry.1, .object entry.2)⟩ name := by
  by_cases isThis : name = "this"
  · rw [if_pos isThis, isThis, bindingsOf, Bindings.number_cons_self]
  · rw [if_neg isThis, bindingsOf, Bindings.number_cons_of_ne isThis]
    by_cases isIndex : name = "index"
    · rw [if_pos isIndex, isIndex, Bindings.number_cons_self]
    · rw [if_neg isIndex, Bindings.number_cons_of_ne isIndex]

theorem number_objects (objects : List (String × Datum)) (name : String) (value : Single) :
    Bindings.number ⟨objects.map fun entry => (entry.1, .object entry.2)⟩ name ≠ .ok value := by
  induction objects with
  | nil => exact nofun
  | cons entry rest ih =>
    by_cases same : name = entry.1
    · subst same
      rw [List.map_cons, Bindings.number_cons_object]
      exact nofun
    · rw [List.map_cons, Bindings.number_cons_of_ne same]
      exact ih

/-- Which names are numbers does not depend on the values. -/
theorem number_bindingsOf_iff (this index : Single) (objects : List (String × Datum))
    (name : String) : (∃ value, (bindingsOf this index objects).number name = .ok value) ↔
      name = "this" ∨ name = "index" := by
  rw [number_bindingsOf]
  constructor
  · rintro ⟨value, found⟩
    by_cases isThis : name = "this"
    · exact Or.inl isThis
    · by_cases isIndex : name = "index"
      · exact Or.inr isIndex
      · rw [if_neg isThis, if_neg isIndex] at found
        exact absurd found (number_objects objects name value)
  · rintro (rfl | rfl)
    · exact ⟨this, if_pos rfl⟩
    · exact ⟨index, rfl⟩

theorem bindingsOf_follow {this index : Single} {objects : List (String × Datum)}
    (otherThis otherIndex : Single) (others : List (String × Datum)) {name : String}
    {value : Single} (found : (bindingsOf this index objects).number name = .ok value) :
    ∃ other, (bindingsOf otherThis otherIndex others).number name = .ok other :=
  (number_bindingsOf_iff otherThis otherIndex others name).mpr
    ((number_bindingsOf_iff this index objects name).mp ⟨value, found⟩)

/-- What formulas are tried in. -/
def trial (this index : Single) (objects : List (String × Datum)) : Context :=
  ⟨bindingsOf this index objects, Spacing.standIns⟩

theorem standIn_gives {stops : FormulaError → Prop} (name : String) (given : List Single)
    (bindings : Bindings) :
    Gives stops ((Spacing.asSupplied name fun _ _ => .ok (.zero false)).call given bindings).result
      fun _ => True :=
  @Spacing.call_asSupplied_gives _ (fun _ => False) _ _ _ _ (.ok trivial) nofun

/-- A trial gets as far as another one. -/
theorem trial_follows_trial (this index otherThis otherIndex : Single)
    (objects others : List (String × Datum)) :
    (trial this index objects).Follows (trial otherThis otherIndex others) (fun _ _ => True)
      fun _ => False where
  numbers _ _ found := bindingsOf_follow this index objects found
  calls name _ _ _ _ _ _ length called := by
    refine Context.call_gives called length fun f found => ⟨f, found, ?_⟩
    rcases Spacing.findFunction?_cases (Stage.start []) name with ⟨_, none⟩ | ⟨_, _, _, standIn⟩
    · rw [trial, none] at found
      cases found
    · rw [trial, standIn] at found
      cases found
      exact standIn_gives name _ _

/-- The objects are missing. -/
def objectsMissing : FormulaError := .evaluation (.unknownVariable "objects")

/-- What an error of a trial without objects becomes if they are there. -/
inductive Restores (targets : List Target) : FormulaError → FormulaError → Prop
  | missing : Restores targets objectsMissing
      (.evaluation (.numberExpected (.object (.list (targets.map Target.record)))))
  | other {error became : FormulaError} : error ≠ objectsMissing → became.hindrance? = none →
      Restores targets error became

theorem hindrance?_zeros (targets : List Target) :
    (Datum.list (targets.map fun _ => .int 0)).hindrance? none = none := by
  have short (limit : Nat) : 0 < Nat.pow 10 limit := Nat.pow_pos (by decide)
  rw [Datum.hindrance?]
  refine Datum.itemsHindrance?_eq_none_iff.mpr (List.forall_mem_map.mpr fun _ _ => ?_)
  rw [Datum.hindrance?, Datum.digitHindrance?_eq_none_iff, Int.natAbs_zero]
  exact short _

theorem trial_call (this index : Single) (targets : List Target) (name : String)
    (given : List Single) : Parallel (Restores targets)
      ((trial this index [("targets", .list [])]).call name given).result
      ((trial this index (testObjects targets)).call name given).result := by
  cases builtin : Builtin.registry.find? name with
  | some f =>
    rw [Context.call_builtin builtin, Context.call_builtin builtin, Definition.call]
    split
    · exact .error (.other nofun rfl)
    · exact .ok _
  | none =>
    rcases Spacing.findFunction?_cases (Stage.start []) name with ⟨_, none⟩ | ⟨_, _, _, standIn⟩
    · rw [Context.call_unknown builtin none, Context.call_unknown builtin none]
      exact .error (.other nofun rfl)
    · rw [Context.call_supplied builtin standIn, Context.call_supplied builtin standIn]
      exact .ok _

/-- A trial without objects has the same values as one with them. -/
theorem trial_mirrors (this index : Single) (targets : List Target) :
    (trial this index [("targets", .list [])]).Mirrors (trial this index (testObjects targets))
      (Restores targets) where
  calls := trial_call this index targets
  stack cause ofStack := by cases ofStack <;> exact .other nofun rfl
  numbers name := by
    rw [trial, trial, number_bindingsOf, number_bindingsOf]
    split
    · exact .ok _
    · split
      · exact .ok _
      · by_cases isTargets : name = "targets"
        · subst isTargets
          exact .error (.other nofun (hindrance?_zeros targets))
        · by_cases isObjects : name = "objects"
          · subst isObjects
            exact .error .missing
          · rw [testObjects, List.map_cons, List.map_cons, Bindings.number_cons_of_ne isTargets,
              Bindings.number_cons_of_ne isTargets, List.map_cons,
              Bindings.number_cons_of_ne isObjects]
            refine .error (.other (fun same => ?_) rfl)
            cases same
            exact isObjects rfl

/-- A text that is read to nodes which have a value on test values. -/
def Valid (limits : Limits) (source : String) : Prop :=
  ∃ nodes this index objects value, parse limits source.toList = .ok nodes ∧
    ((trial this index objects).evaluate nodes).result = .ok value

/-- A formula that comes to the objects before anything else stops it: without them it fails for
lack of them. -/
def MissesObjects (limits : Limits) (source : String) : Prop :=
  (evaluateText (some source) bareVariables Spacing.standIns limits).result =
    .error (.formula objectsMissing)

variable {limits : Limits} {source : String} {targets : List Target}

/-- What becomes of a trial does not depend on the targets. -/
theorem isValue_trial_iff (targets : List Target) :
    (∃ tried, attempt (some source) (testVariables targets) Spacing.standIns limits = .ok tried ∧
      tried.isValue = true) ↔ Valid limits source := by
  obtain ⟨index, _, bound, _⟩ := exists_ofPairs_trial
  rw [attempt_isValue_iff]
  constructor
  · rintro ⟨x, evaluated⟩
    obtain ⟨nodes, bindings, value, parsed, again, atNodes, _⟩ :=
      evaluateText_eq_ok_iff.mp evaluated
    obtain rfl := Except.ok.inj ((bound targets).symm.trans again)
    exact ⟨nodes, _, index, _, value, parsed, atNodes⟩
  · rintro ⟨nodes, otherThis, otherIndex, others, value, parsed, atNodes⟩
    have follows :=
      trial_follows_trial testValue index otherThis otherIndex (testObjects targets) others
    obtain ⟨other, same⟩ := (follows.evaluate (fun _ _ => trivial) atNodes).exists_ok
    exact ⟨_, evaluateText_eq_ok_iff.mpr ⟨nodes, _, other, parsed, bound targets, same, rfl⟩⟩

/-- A trial ends in a foreign error exactly where it comes to objects that cannot be written. -/
theorem attempt_trial_eq_error_iff {error : ForeignError} :
    attempt (some source) (testVariables targets) Spacing.standIns limits = .error error ↔
      error = .tooManyDigits ∧ MissesObjects limits source ∧ ∃ t ∈ targets, t.LongIndex := by
  obtain ⟨index, _, bound, bare⟩ := exists_ofPairs_trial
  rw [attempt_eq_error_iff, MissesObjects]
  cases parsed : parse limits source.toList with
  | error failure =>
    simp only [evaluateText, Option.getD_some, parsed, Except.error.injEq]
    constructor
    · rintro rfl
      exact absurd parsed parse_ne_foreign
    · rintro ⟨_, rfl, _⟩
      exact absurd parsed parse_ne_evaluation
  | ok nodes =>
    rw [evaluateText_eq_ofTraced parsed (bound targets), evaluateText_eq_ofTraced parsed bare,
      Outcome.result_ofTraced_error_iff, Outcome.result_ofTraced_error_iff]
    have parallel := (trial_mirrors testValue index targets).evaluate nodes
    constructor
    · rintro ⟨became, failed, met⟩
      have hinders := Failure.raised_eq_foreign_iff.mp met
      obtain ⟨without, stopped, restores⟩ := parallel.exists_left failed
      cases restores with
      | missing =>
        by_cases long : ∃ t ∈ targets, t.LongIndex
        · cases (Target.hindrance?_records_of_long long).symm.trans hinders
          exact ⟨rfl, ⟨_, stopped, rfl⟩, long⟩
        · cases (Target.hindrance?_records_of_short long).symm.trans hinders
      | other _ free => cases free.symm.trans hinders
    · rintro ⟨rfl, ⟨without, stopped, met⟩, long⟩
      obtain ⟨rfl, _⟩ := Failure.raised_eq_formula_iff.mp met
      obtain ⟨became, failed, restores⟩ := parallel.exists_right stopped
      refine ⟨became, failed, Failure.raised_eq_foreign_iff.mpr ?_⟩
      cases restores with
      | missing => exact Target.hindrance?_records_of_long long
      | other different _ => exact absurd rfl different

/-- The formulas come to objects that cannot be written. -/
def Unwritable (expressions : Expressions) (targets : List Target) (limits : Limits) : Prop :=
  (∃ t ∈ targets, t.LongIndex) ∧
    ∃ part axis, MissesObjects limits ((expressions.get part).get axis)

open scoped Classical in
/-- The fields whose formulas have no value on test values. -/
noncomputable def invalidFields (expressions : Expressions) (limits : Limits) : List String :=
  (expressions.fields.filter fun field => ¬ Valid limits field.2).map Prod.fst

variable {expressions : Expressions}

theorem mem_fields_iff {field : String × String} : field ∈ expressions.fields ↔
    ∃ part axis, field = (fieldName part axis, (expressions.get part).get axis) := by
  rw [Expressions.fields, List.mem_flatMap]
  constructor
  · rintro ⟨part, _, inPart⟩
    obtain ⟨axis, _, same⟩ := List.mem_map.mp inPart
    exact ⟨part, axis, same.symm⟩
  · rintro ⟨part, axis, rfl⟩
    exact ⟨part, by cases part <;> decide, List.mem_map_of_mem (Axis.mem_all axis)⟩

theorem fieldName_inj {part other : Part} {axis otherAxis : Axis}
    (same : fieldName part axis = fieldName other otherAxis) : part = other ∧ axis = otherAxis := by
  revert same
  cases part <;> cases other <;> cases axis <;> cases otherAxis <;> decide

theorem mem_invalidFields_iff {name : String} : name ∈ invalidFields expressions limits ↔
    ∃ part axis, name = fieldName part axis ∧ ¬ Valid limits ((expressions.get part).get axis) := by
  rw [invalidFields, List.mem_map]
  constructor
  · rintro ⟨field, kept, rfl⟩
    obtain ⟨listed, fails⟩ := List.mem_filter.mp kept
    obtain ⟨part, axis, rfl⟩ := mem_fields_iff.mp listed
    exact ⟨part, axis, rfl, by simpa using fails⟩
  · rintro ⟨part, axis, rfl, fails⟩
    refine ⟨_, List.mem_filter.mpr ⟨mem_fields_iff.mpr ⟨part, axis, rfl⟩, ?_⟩, rfl⟩
    simpa using fails

theorem fieldName_mem_invalidFields_iff {part : Part} {axis : Axis} :
    fieldName part axis ∈ invalidFields expressions limits ↔
      ¬ Valid limits ((expressions.get part).get axis) := by
  rw [mem_invalidFields_iff]
  constructor
  · rintro ⟨other, otherAxis, named, fails⟩
    obtain ⟨rfl, rfl⟩ := fieldName_inj named
    exact fails
  · intro fails
    exact ⟨part, axis, rfl, fails⟩

theorem invalidFields_eq_nil_iff : invalidFields expressions limits = [] ↔
    ∀ part axis, Valid limits ((expressions.get part).get axis) := by
  rw [invalidFields, List.map_eq_nil_iff, List.filter_eq_nil_iff]
  constructor
  · intro none part axis
    simpa using none _ (mem_fields_iff.mpr ⟨part, axis, rfl⟩)
  · intro valid field listed
    obtain ⟨part, axis, rfl⟩ := mem_fields_iff.mp listed
    simpa using valid part axis

/-- Which fields are reported is decided by the formulas that are valid. -/
theorem invalidFields_congr {otherLimits : Limits}
    (same : ∀ part axis, Valid limits ((expressions.get part).get axis) ↔
      Valid otherLimits ((expressions.get part).get axis)) :
    invalidFields expressions limits = invalidFields expressions otherLimits := by
  rw [invalidFields, invalidFields]
  refine congrArg _ (List.filter_congr fun field listed => ?_)
  obtain ⟨part, axis, rfl⟩ := mem_fields_iff.mp listed
  exact decide_eq_decide.mpr (not_congr (same part axis))

theorem settled_eq (expressions : Expressions) (targets : List Target) (limits : Limits) :
    settled expressions targets limits = expressions.fields.mapM fun field =>
      (attempt (some field.2) (testVariables targets) Spacing.standIns limits).map (field.1, ·) := by
  rw [settled, attempts, List.mapM_map]
  rfl

theorem settled_of_unwritable (unwritable : Unwritable expressions targets limits) :
    settled expressions targets limits = .error .tooManyDigits := by
  obtain ⟨long, part, axis, misses⟩ := unwritable
  rw [settled_eq]
  refine mapM_eq_error (fun field _ error failed => ?_) ⟨_, mem_fields_iff.mpr ⟨part, axis, rfl⟩, ?_⟩
  · exact (attempt_trial_eq_error_iff.mp (map_eq_error_iff.mp failed)).1
  · exact map_eq_error_iff.mpr (attempt_trial_eq_error_iff.mpr ⟨rfl, misses, long⟩)

/-- Where no objects stand in the way, every field has its attempt. -/
theorem exists_settled (writable : ¬ Unwritable expressions targets limits) :
    ∃ tried : String × String → Attempt, settled expressions targets limits =
        .ok (expressions.fields.map fun field => (field.1, tried field)) ∧
      ∀ field ∈ expressions.fields, attempt (some field.2) (testVariables targets)
          Spacing.standIns limits = .ok (tried field) ∧
        ((tried field).isValue = true ↔ Valid limits field.2) := by
  have each : ∀ field ∈ expressions.fields, ∃ became, attempt (some field.2)
      (testVariables targets) Spacing.standIns limits = .ok became := by
    intro field listed
    obtain ⟨part, axis, rfl⟩ := mem_fields_iff.mp listed
    cases became : attempt _ (testVariables targets) Spacing.standIns limits with
    | ok outcome => exact ⟨outcome, rfl⟩
    | error error =>
      obtain ⟨_, misses, long⟩ := attempt_trial_eq_error_iff.mp became
      exact absurd ⟨long, part, axis, misses⟩ writable
  have : Nonempty Attempt := ⟨.blank⟩
  choose! tried became using each
  refine ⟨tried, ?_, fun field listed => ⟨became field listed, ?_⟩⟩
  · rw [settled_eq]
    exact mapM_eq_ok fun field listed => by rw [became field listed]; rfl
  · rw [← isValue_trial_iff targets, became field listed]
    simp

theorem failingFields_of_unwritable (unwritable : Unwritable expressions targets limits) :
    failingFields expressions targets limits = .error .tooManyDigits := by
  rw [failingFields, settled_of_unwritable unwritable]
  rfl

theorem failingFields_of_writable (writable : ¬ Unwritable expressions targets limits) :
    failingFields expressions targets limits = .ok (invalidFields expressions limits) := by
  obtain ⟨tried, settles, isValue⟩ := exists_settled writable
  rw [failingFields, settles, invalidFields, Except.map, List.filter_map, List.map_map]
  refine congrArg (fun kept => Except.ok (List.map Prod.fst kept))
    (List.filter_congr fun field listed => ?_)
  simp [← (isValue field listed).2]

theorem Unwritable.of_perm {others : List Target} (same : others.Perm targets)
    (unwritable : Unwritable expressions others limits) : Unwritable expressions targets limits := by
  obtain ⟨⟨t, member, long⟩, misses⟩ := unwritable
  exact ⟨⟨t, same.mem_iff.mp member, long⟩, misses⟩

/-- Validation does not heed the order of the targets. -/
theorem failingFields_of_perm {others : List Target} (same : others.Perm targets) :
    failingFields expressions others limits = failingFields expressions targets limits := by
  by_cases unwritable : Unwritable expressions targets limits
  · rw [failingFields_of_unwritable unwritable,
      failingFields_of_unwritable (unwritable.of_perm same.symm)]
  · rw [failingFields_of_writable unwritable,
      failingFields_of_writable fun other => unwritable (other.of_perm same)]

/-- What validation reports, unless it comes to objects that cannot be written. -/
theorem failingFields_eq_ok_iff {reported : List String} :
    failingFields expressions targets limits = .ok reported ↔
      ¬ Unwritable expressions targets limits ∧ invalidFields expressions limits = reported := by
  by_cases unwritable : Unwritable expressions targets limits
  · rw [failingFields_of_unwritable unwritable]
    exact iff_of_false nofun fun reports => reports.1 unwritable
  · rw [failingFields_of_writable unwritable, Except.ok.injEq, and_iff_right unwritable]

/-- What has a value without objects does not miss them. -/
theorem Valid.not_missesObjects (valid : Valid limits source) : ¬ MissesObjects limits source := by
  obtain ⟨nodes, otherThis, otherIndex, others, value, parsed, atNodes⟩ := valid
  obtain ⟨index, _, _, bare⟩ := exists_ofPairs_trial
  have follows := trial_follows_trial testValue index otherThis otherIndex [("targets", .list [])] others
  obtain ⟨other, same⟩ := (follows.evaluate (fun _ _ => trivial) atNodes).exists_ok
  intro misses
  cases misses.symm.trans (evaluateText_eq_ok_iff.mpr ⟨nodes, _, other, parsed, bare, same, rfl⟩)

/-- Validation passes exactly if all formulas are valid, whatever the targets are. -/
theorem failingFields_eq_nil_iff : failingFields expressions targets limits = .ok [] ↔
    ∀ part axis, Valid limits ((expressions.get part).get axis) := by
  rw [failingFields_eq_ok_iff, invalidFields_eq_nil_iff]
  refine and_iff_right_of_imp fun valid => ?_
  rintro ⟨_, part, axis, misses⟩
  exact (valid part axis).not_missesObjects misses

end Batch

end Placement
