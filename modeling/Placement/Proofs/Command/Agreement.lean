import Placement.Command.Run
import Placement.Proofs.Formula.Depth
import Placement.Proofs.Layout.Moments

namespace Placement

namespace Batch

variable {expressions : Expressions} {targets : List Target} {limits others : Limits}

/-- A limit on the depth only takes away the formulas that nest deeper. -/
theorem valid_iff_depth (usual : limits.levels = usualLevels) {source : String} :
    Valid limits source ↔ Valid {} source ∧
      ∀ nodes, parse {} source.toList = .ok nodes → limits.Allows (Node.depthSequence nodes) := by
  constructor
  · rintro ⟨nodes, this, index, objects, value, parsed, atNodes⟩
    obtain ⟨unlimited, allowed⟩ := (Limits.parse_eq_ok_iff_of_usual usual).mp parsed
    refine ⟨⟨nodes, this, index, objects, value, unlimited, atNodes⟩, fun other again => ?_⟩
    cases unlimited.symm.trans again
    exact allowed
  · rintro ⟨⟨nodes, this, index, objects, value, parsed, atNodes⟩, allowed⟩
    exact ⟨nodes, this, index, objects, value,
      (Limits.parse_eq_ok_iff_of_usual usual).mpr ⟨parsed, allowed nodes parsed⟩, atNodes⟩

/-- A formula that comes to the objects under a limit comes to them without. -/
theorem MissesObjects.unlimited (usual : limits.levels = usualLevels) {source : String}
    (misses : MissesObjects limits source) : MissesObjects {} source := by
  rw [MissesObjects] at misses ⊢
  cases parsed : parse limits source.toList with
  | error failure =>
    simp only [evaluateText, Option.getD_some, parsed, Except.error.injEq] at misses
    exact absurd (misses ▸ parsed) parse_ne_evaluation
  | ok nodes =>
    obtain ⟨index, _, _, bare⟩ := exists_ofPairs_trial
    have unlimited := ((Limits.parse_eq_ok_iff_of_usual usual).mp parsed).1
    rw [evaluateText_eq_ofTraced parsed bare] at misses
    rw [evaluateText_eq_ofTraced unlimited bare, misses]

theorem Unwritable.unlimited (usual : limits.levels = usualLevels)
    (unwritable : Unwritable expressions targets limits) : Unwritable expressions targets {} := by
  obtain ⟨long, part, axis, misses⟩ := unwritable
  exact ⟨long, part, axis, misses.unlimited usual⟩

/-- Where formulas come to objects without a limit, none passes under one. -/
theorem Unwritable.exists_invalid (usual : limits.levels = usualLevels)
    (unwritable : Unwritable expressions targets {}) : invalidFields expressions limits ≠ [] := by
  intro none
  obtain ⟨_, part, axis, misses⟩ := unwritable
  have valid := invalidFields_eq_nil_iff.mp none part axis
  exact ((valid_iff_depth usual).mp valid).1.not_missesObjects misses

/-- Two limits report the same fields exactly if the same formulas are valid under them. -/
theorem invalidFields_eq_iff :
    invalidFields expressions limits = invalidFields expressions others ↔
      ∀ part axis, Valid limits ((expressions.get part).get axis) ↔
        Valid others ((expressions.get part).get axis) := by
  refine ⟨fun same part axis => ?_, invalidFields_congr⟩
  rw [← not_iff_not, ← fieldName_mem_invalidFields_iff, ← fieldName_mem_invalidFields_iff, same]

/-- A limit changes nothing of what is reported if no valid formula nests deeper. -/
theorem invalidFields_unlimited_iff (usual : limits.levels = usualLevels) :
    invalidFields expressions limits = invalidFields expressions {} ↔
      ∀ part axis nodes, Valid {} ((expressions.get part).get axis) →
        parse {} ((expressions.get part).get axis).toList = .ok nodes →
        limits.Allows (Node.depthSequence nodes) := by
  simp only [invalidFields_eq_iff, valid_iff_depth usual]
  constructor
  · exact fun same part axis nodes valid => ((same part axis).mpr valid).2 nodes
  · intro within part axis
    exact ⟨And.left, fun valid => ⟨valid, fun nodes => within part axis nodes valid⟩⟩

theorem exists_field_of_mem {name : String} (reported : name ∈ invalidFields expressions limits) :
    ∃ part axis, name = fieldName part axis := by
  obtain ⟨part, axis, named, _⟩ := mem_invalidFields_iff.mp reported
  exact ⟨part, axis, named⟩

end Batch

theorem comma_notMem_fieldName (part : Part) (axis : Axis) : ',' ∉ (fieldName part axis).toList := by
  cases part <;> cases axis <;> decide

/-- The words that are joined by commas can be told apart if none holds a comma. -/
theorem intercalate_comma_inj {first second : List (List Char)}
    (noFirst : ∀ word ∈ first, ',' ∉ word) (noSecond : ∀ word ∈ second, ',' ∉ word)
    (someFirst : first ≠ []) (someSecond : second ≠ [])
    (same : [',', ' '].intercalate first = [',', ' '].intercalate second) : first = second := by
  have cut {word : List Char} (noComma : ',' ∉ word) (behind : List Char) :
      (word ++ ',' :: behind).takeWhile (· != ',') = word :=
    HeadNot.takeWhile_append (.cons rfl _) fun c member =>
      bne_iff_ne.mpr (ne_of_mem_of_not_mem member noComma)
  induction first generalizing second with
  | nil => exact absurd rfl someFirst
  | cons word rest ih =>
    have inWord := noFirst word List.mem_cons_self
    match rest, second, someSecond with
    | [], [other], _ => simpa using same
    | [], other :: next :: more, _ =>
      simp only [List.intercalate_singleton, List.intercalate_cons_cons] at same
      exact absurd (by simp [same]) inWord
    | next :: more, [other], _ =>
      simp only [List.intercalate_singleton, List.intercalate_cons_cons] at same
      exact absurd (by simp [← same]) (noSecond other List.mem_cons_self)
    | next :: more, other :: after :: last, _ =>
      simp only [List.intercalate_cons_cons, List.append_assoc, List.cons_append] at same
      have atHead := congrArg (List.takeWhile (· != ',')) same
      rw [cut inWord, cut (noSecond other List.mem_cons_self)] at atHead
      subst atHead
      have behind := List.append_cancel_left same
      simp only [List.cons.injEq, true_and, List.nil_append] at behind
      rw [ih (fun w member => noFirst w (List.mem_cons_of_mem _ member))
        (fun w member => noSecond w (List.mem_cons_of_mem _ member)) (List.cons_ne_nil _ _)
        (List.cons_ne_nil _ _) behind]

theorem exists_compile_message : ∃ front : String, front.toList.head? = some 'F' ∧ ∀ fields,
    (BatchError.compile fields).message = front ++ ", ".intercalate fields :=
  ⟨"Failed to compile expression in ", rfl, fun _ => rfl⟩

/-- The message names the fields at fault. -/
theorem compile_message_inj {first second : List String}
    (fieldsFirst : ∀ name ∈ first, ∃ part axis, name = fieldName part axis)
    (fieldsSecond : ∀ name ∈ second, ∃ part axis, name = fieldName part axis)
    (someFirst : first ≠ []) (someSecond : second ≠ [])
    (same : (BatchError.compile first).message = (BatchError.compile second).message) :
    first = second := by
  have noComma {names : List String}
      (fields : ∀ name ∈ names, ∃ part axis, name = fieldName part axis) :
      ∀ word ∈ names.map String.toList, ',' ∉ word := by
    intro word member
    obtain ⟨name, inNames, rfl⟩ := List.mem_map.mp member
    obtain ⟨part, axis, rfl⟩ := fields name inNames
    exact comma_notMem_fieldName part axis
  have comma : ", ".toList = [',', ' '] := rfl
  obtain ⟨front, _, message⟩ := exists_compile_message
  rw [message, message] at same
  have spelled := congrArg String.toList same
  rw [String.toList_append, String.toList_append, String.toList_intercalate,
    String.toList_intercalate, comma] at spelled
  have words := intercalate_comma_inj (noComma fieldsFirst) (noComma fieldsSecond)
    (by simpa using someFirst) (by simpa using someSecond) (List.append_cancel_left spelled)
  exact (List.map_inj_right fun _ _ => String.toList_injective).mp words

namespace Command

/-- The report that the formulas of some fields do not compile, as validating gives it. -/
def refusal (fields : List String) : Report :=
  { exit := 1, output := (BatchError.compile fields).message ++ "\n" }

/-- The two commands agree on the plan in a file: they refuse it for the same fields, and what
is valid for one is valid for the other. -/
structure Agree (surroundings : Surroundings) (path : String) (plan : Plan) : Prop where
  refuse : ∀ fields, run surroundings ["layout", "validate", path] = refusal fields ↔
    run surroundings ["layout", "apply", path] = .failed (BatchError.compile fields).message
  pass : (run surroundings ["layout", "validate", path]).exit = 0 →
    ∃ limits, Limits.ofSetting surroundings.depthSetting = .ok limits ∧
      Batch.failingFields plan.expressions plan.targets limits = .ok []

variable {surroundings : Surroundings} {path text : String} {plan : Plan}

theorem read_operand (isOperand : asksForOption path.toList = false) (known : List Switch) :
    Line.read known true [path] = .ok { operands := [path] } := by
  have noDashes : path ≠ "--" := by
    rintro rfl
    cases isOperand
  rw [Line.read, if_neg noDashes, isOperand]
  rfl

theorem planFile_operand (found : surroundings.look path = .file text) :
    planFile surroundings { operands := [path] } = .ok (path, text) := by
  have named : Line.operand { operands := [path] } planPlace = .ok path := rfl
  rw [planFile, named]
  simp only [bind, Except.bind, found]
  rfl

theorem report_ok_bind {α : Type} (page : Page) (value : α) (next : α → Except UsageError Report) :
    page.report (.ok value >>= next) = page.report (next value) := rfl

theorem report_pure (page : Page) (report : Report) : page.report (pure report) = report := rfl

/-- A command on one operand. -/
theorem run_operand (page : Page) (known : List Switch) (body : Line → Except UsageError Report)
    (isOperand : asksForOption path.toList = false) :
    page.run known body [path] = page.report (body { operands := [path] }) := by
  have noHelp : Line.has { operands := [path] } .help = false := rfl
  rw [Page.run, read_operand isOperand, report_ok_bind, noHelp, if_neg Bool.false_ne_true]

theorem run_validate (isOperand : asksForOption path.toList = false)
    (found : surroundings.look path = .file text)
    (loaded : Plan.ofText (tidyPath path) text = .ok plan) :
    run surroundings ["layout", "validate", path] = validateReport false plan := by
  have chosen : run surroundings ["layout", "validate", path] =
      validate surroundings false [path] := rfl
  rw [chosen, validate, run_operand _ _ _ isOperand, planFile_operand found, report_ok_bind,
    report_pure, withPlan, loaded]

theorem run_apply (isOperand : asksForOption path.toList = false)
    (found : surroundings.look path = .file text)
    (loaded : Plan.ofText (tidyPath path) text = .ok plan) :
    run surroundings ["layout", "apply", path] =
      applyReport false plan .output surroundings.depthSetting := by
  have chosen : run surroundings ["layout", "apply", path] =
      apply surroundings false [path] := rfl
  have toOutput : destination surroundings { operands := [path] } = .ok .output := rfl
  rw [chosen, apply, run_operand _ _ _ isOperand, toOutput, report_ok_bind,
    planFile_operand found, report_ok_bind, report_pure, withPlan, loaded]

theorem failed_inj {first second : String} (same : Report.failed first = Report.failed second) :
    first = second := by
  have spoken : "Error: " ++ first ++ "\n" = "Error: " ++ second ++ "\n" :=
    congrArg Report.diagnostics same
  rwa [String.append_left_inj, String.append_right_inj] at spoken

theorem refusal_eq_iff {first second : List String} : refusal first = refusal second ↔
    (BatchError.compile first).message = (BatchError.compile second).message := by
  constructor
  · intro same
    have spoken : (BatchError.compile first).message ++ "\n" =
        (BatchError.compile second).message ++ "\n" := congrArg Report.output same
    rwa [String.append_left_inj] at spoken
  · intro same
    rw [refusal, refusal, same]

theorem logged_nil (report : Report) : report.logged [] = report := by
  obtain ⟨exit, output, diagnostics, written⟩ := report
  exact congrArg (Report.mk exit output · written) (String.empty_append)

theorem exit_validateReport
    (passed : Batch.failingFields plan.expressions plan.targets {} = .ok []) :
    (validateReport false plan).exit = 0 := by
  rw [validateReport, passed]
  rfl

theorem validateReport_of_failing {name : String} {rest : List String}
    (failing : Batch.failingFields plan.expressions plan.targets {} = .ok (name :: rest)) :
    validateReport false plan = refusal (name :: rest) := by
  rw [validateReport, failing]
  exact logged_nil _

theorem validateReport_of_unwritable
    (unwritable : Batch.Unwritable plan.expressions plan.targets {}) :
    validateReport false plan = .silent := by
  rw [validateReport, Batch.failingFields_of_unwritable unwritable]
  exact logged_nil _

theorem silent_ne_refusal (fields : List String) : .silent ≠ refusal fields := by
  intro same
  have spoken := congrArg (fun report : Report => report.output.toList) same
  simp [Report.silent, refusal] at spoken

/-- A message that begins with another letter is not that formulas do not compile. -/
theorem ne_compile_message (front : String) {message rest : String} {c : Char}
    (atFront : front.toList.head? = some c) (different : c ≠ 'F') (split : message = front ++ rest)
    (fields : List String) : message ≠ (BatchError.compile fields).message := by
  obtain ⟨other, atOther, compiles⟩ := exists_compile_message
  intro same
  rw [compiles, split] at same
  have spoken := congrArg (fun message => message.toList.head?) same
  simp only [String.toList_append, List.head?_append, atFront, atOther, Option.some_or,
    Option.some.injEq] at spoken
  exact different spoken

theorem limit_message_ne (error : LimitError) (fields : List String) :
    error.message ≠ (BatchError.compile fields).message := by
  cases error with
  | negative depth =>
    exact ne_compile_message "max_depth must be non-negative, got " rfl (by decide) rfl fields
  | notAnInteger text =>
    exact ne_compile_message "TRANSFORMEXPR_MAX_DEPTH must be an integer, got " rfl (by decide) rfl
      fields

theorem diagnostics_targetsReport (targets : List Target) :
    (targetsReport targets .output).diagnostics = "" := by
  unfold targetsReport
  cases writeTargets targets <;> rfl

section

variable {setting : Option String} {limits : Limits}

theorem applyReport_of_failing {name : String} {rest : List String}
    (allowed : Limits.ofSetting setting = .ok limits)
    (failing : Batch.failingFields plan.expressions plan.targets limits = .ok (name :: rest)) :
    applyReport false plan .output setting =
      .failed (BatchError.compile (name :: rest)).message := by
  have refused : Batch.apply plan.expressions plan.targets limits =
      .error (.compile (name :: rest)) := by
    rw [Batch.apply, failing]
  rw [applyReport, allowed]
  dsimp only
  rw [refused]
  exact (logged_nil _).trans (logged_nil _)

/-- Past validation, the formulas are not said not to compile. -/
theorem applyReport_ne (allowed : Limits.ofSetting setting = .ok limits)
    (passed : Batch.failingFields plan.expressions plan.targets limits = .ok [])
    (fields : List String) :
    applyReport false plan .output setting ≠ .failed (BatchError.compile fields).message := by
  intro same
  rw [applyReport, allowed] at same
  dsimp only at same
  cases applied : Batch.apply plan.expressions plan.targets limits with
  | ok targets =>
    rw [applied] at same
    have spoken := congrArg (fun report => report.diagnostics.toList) same
    simp [tryLog, Report.logged, Report.failed, diagnostics_targetsReport] at spoken
  | error error =>
    obtain ⟨_, target, part, axis, _, failure, _, _, rfl⟩ :=
      (Batch.apply_eq_error_iff_moment passed).mp applied
    rw [applied] at same
    have spoken := congrArg (fun report => report.diagnostics.toList.head?) same
    -- a line of the log comes before the message
    simp [tryLog, Report.logged, Report.failed, failureLog, String.join] at spoken

theorem applyReport_of_unwritable (allowed : Limits.ofSetting setting = .ok limits)
    (unwritable : Batch.Unwritable plan.expressions plan.targets limits) :
    applyReport false plan .output setting = .failed ForeignError.tooManyDigits.message := by
  have escaped : Batch.apply plan.expressions plan.targets limits =
      .error (.foreign .tooManyDigits) := by
    rw [Batch.apply, Batch.failingFields_of_unwritable unwritable]
  rw [applyReport, allowed]
  dsimp only
  rw [escaped]
  exact logged_nil _

/-- A setting says nothing of how deep anything may nest but calls. -/
theorem levels_of_setting (allowed : Limits.ofSetting setting = .ok limits) :
    limits.levels = usualLevels := by
  unfold Limits.ofSetting at allowed
  dsimp only at allowed
  split at allowed
  · cases allowed
    rfl
  · split at allowed
    · unfold Limits.ofDepth at allowed
      split at allowed <;> cases allowed
      rfl
    · cases allowed

end

theorem agree_iff_of_unwritable (isOperand : asksForOption path.toList = false)
    (found : surroundings.look path = .file text)
    (loaded : Plan.ofText (tidyPath path) text = .ok plan)
    (unwritable : Batch.Unwritable plan.expressions plan.targets {}) :
    Agree surroundings path plan ↔ ∀ limits,
      Limits.ofSetting surroundings.depthSetting = .ok limits →
      Batch.Unwritable plan.expressions plan.targets limits := by
  have validated := run_validate isOperand found loaded
  have applied := run_apply isOperand found loaded
  rw [validateReport_of_unwritable unwritable] at validated
  constructor
  · intro agree limits allowed
    by_contra writable
    have some := unwritable.exists_invalid (levels_of_setting allowed)
    obtain ⟨name, rest, invalid⟩ := List.exists_cons_of_ne_nil some
    have failing := Batch.failingFields_of_writable writable
    rw [invalid] at failing
    have refused := (agree.refuse (name :: rest)).mpr
      (by rw [applied, applyReport_of_failing allowed failing])
    exact silent_ne_refusal _ (validated.symm.trans refused)
  · intro escapes
    refine ⟨fun fields => iff_of_false ?_ ?_, fun exit => ?_⟩
    · rw [validated]
      exact silent_ne_refusal fields
    · rw [applied]
      intro refused
      cases allowed : Limits.ofSetting surroundings.depthSetting with
      | error error =>
        rw [applyReport, allowed] at refused
        exact limit_message_ne _ _ (failed_inj refused)
      | ok limits =>
        rw [applyReport_of_unwritable allowed (escapes limits allowed)] at refused
        exact ne_compile_message "Exceeds the limit (" rfl (by decide) (String.append_assoc ..) fields
          (failed_inj refused)
    · rw [validated] at exit
      cases exit

theorem agree_iff_of_writable (isOperand : asksForOption path.toList = false)
    (found : surroundings.look path = .file text)
    (loaded : Plan.ofText (tidyPath path) text = .ok plan)
    (writable : ¬ Batch.Unwritable plan.expressions plan.targets {}) :
    Agree surroundings path plan ↔ ∃ limits,
      Limits.ofSetting surroundings.depthSetting = .ok limits ∧
      Batch.invalidFields plan.expressions limits = Batch.invalidFields plan.expressions {} := by
  have validated := run_validate isOperand found loaded
  have applied := run_apply isOperand found loaded
  have unlimited := Batch.failingFields_of_writable writable
  have limited {limits : Limits} (allowed : Limits.ofSetting surroundings.depthSetting = .ok limits) :
      Batch.failingFields plan.expressions plan.targets limits =
        .ok (Batch.invalidFields plan.expressions limits) :=
    Batch.failingFields_of_writable fun beyond =>
      writable (beyond.unlimited (levels_of_setting allowed))
  constructor
  · intro agree
    cases failing : Batch.invalidFields plan.expressions {} with
    | nil =>
      rw [failing] at unlimited
      obtain ⟨limits, allowed, passed⟩ :=
        agree.pass (by rw [validated, exit_validateReport unlimited])
      exact ⟨limits, allowed, (Batch.failingFields_eq_ok_iff.mp passed).2⟩
    | cons name rest =>
      rw [failing] at unlimited
      have refused := (agree.refuse (name :: rest)).mp
        (by rw [validated, validateReport_of_failing unlimited])
      rw [applied] at refused
      cases allowed : Limits.ofSetting surroundings.depthSetting with
      | error error =>
        rw [applyReport, allowed] at refused
        exact absurd (failed_inj refused) (limit_message_ne _ _)
      | ok limits =>
        have failed := limited allowed
        cases invalid : Batch.invalidFields plan.expressions limits with
        | nil =>
          rw [invalid] at failed
          exact absurd refused (applyReport_ne allowed failed _)
        | cons other more =>
          rw [invalid] at failed
          rw [applyReport_of_failing allowed failed] at refused
          refine ⟨limits, rfl, invalid.trans ?_⟩
          refine compile_message_inj (fun name member => ?_) (fun name member => ?_)
            (List.cons_ne_nil _ _) (List.cons_ne_nil _ _) (failed_inj refused)
          · exact Batch.exists_field_of_mem (invalid ▸ member)
          · exact Batch.exists_field_of_mem (failing ▸ member)
  · rintro ⟨limits, allowed, same⟩
    have failed := limited allowed
    rw [same] at failed
    cases failing : Batch.invalidFields plan.expressions {} with
    | nil =>
      rw [failing] at unlimited failed
      refine ⟨fun fields => ?_, fun _ => ⟨limits, allowed, failed⟩⟩
      rw [validated, applied]
      constructor
      · intro refused
        have exit := congrArg Report.exit refused
        rw [exit_validateReport unlimited] at exit
        cases exit
      · intro refused
        exact absurd refused (applyReport_ne allowed failed fields)
    | cons name rest =>
      rw [failing] at unlimited failed
      refine ⟨fun fields => ?_, fun exit => ?_⟩
      · rw [validated, applied, validateReport_of_failing unlimited,
          applyReport_of_failing allowed failed, refusal_eq_iff]
        exact ⟨congrArg Report.failed, failed_inj⟩
      · rw [validated, validateReport_of_failing unlimited] at exit
        cases exit

/-- The commands agree on a plan exactly if the setting is a limit, or none, and no formula that
is valid without limit nests its calls deeper. Where a formula comes to objects that cannot be
written, validating says nothing, and the commands agree exactly if applying ends in the same way
or refuses the setting. -/
theorem agree_iff (isOperand : asksForOption path.toList = false)
    (found : surroundings.look path = .file text)
    (loaded : Plan.ofText (tidyPath path) text = .ok plan) :
    Agree surroundings path plan ↔
      (¬ Batch.Unwritable plan.expressions plan.targets {} ∧ ∃ limits,
        Limits.ofSetting surroundings.depthSetting = .ok limits ∧
        ∀ part axis nodes, Batch.Valid {} ((plan.expressions.get part).get axis) →
          parse {} ((plan.expressions.get part).get axis).toList = .ok nodes →
          limits.Allows (Node.depthSequence nodes)) ∨
      Batch.Unwritable plan.expressions plan.targets {} ∧ ∀ limits,
        Limits.ofSetting surroundings.depthSetting = .ok limits →
        Batch.Unwritable plan.expressions plan.targets limits := by
  by_cases unwritable : Batch.Unwritable plan.expressions plan.targets {}
  · rw [agree_iff_of_unwritable isOperand found loaded unwritable]
    simp [unwritable]
  · rw [agree_iff_of_writable isOperand found loaded unwritable]
    simp only [unwritable, not_false_eq_true, true_and, false_and, or_false]
    exact exists_congr fun _ => and_congr_right fun allowed =>
      Batch.invalidFields_unlimited_iff (levels_of_setting allowed)

/-- A plan file whose first formula calls a function. -/
def oneCallText : String := "expressions:\n  position:\n    x: abs(this)\n"

def oneCallPlan : Plan where
  expressions := { position := ⟨"abs(this)", "this", "this"⟩ }

/-- Surroundings with this plan file only. -/
def oneCall (setting : Option String) : Surroundings where
  look := fun path => if path = "plan.yaml" then .file oneCallText else .absent
  depthSetting := setting

theorem ofText_oneCall : Plan.ofText (tidyPath "plan.yaml") oneCallText = .ok oneCallPlan := by
  have fields : ((Plan.ofText (tidyPath "plan.yaml") oneCallText).toOption.map
      fun plan => (plan.expressions, plan.targets)) =
        some (oneCallPlan.expressions, oneCallPlan.targets) := by decide +kernel
  cases loaded : Plan.ofText (tidyPath "plan.yaml") oneCallText with
  | error error =>
    rw [loaded] at fields
    cases fields
  | ok plan =>
    rw [loaded] at fields
    obtain ⟨expressions, targets⟩ := plan
    obtain ⟨rfl, rfl⟩ := Prod.mk.inj (Option.some.inj fields)
    rfl

/-- One call is within a limit of one. -/
theorem oneCall_agree : asksForOption "plan.yaml".toList = false ∧
    (oneCall (some "1")).look "plan.yaml" = .file oneCallText ∧
    Plan.ofText (tidyPath "plan.yaml") oneCallText = .ok oneCallPlan ∧
    Agree (oneCall (some "1")) "plan.yaml" oneCallPlan := by
  have call : parse {} "abs(this)".toList = .ok [.call "abs" [[.variable "this"]]] := by decide +kernel
  have plain : parse {} "this".toList = .ok [.variable "this"] := by decide +kernel
  have allowed : Limits.ofSetting (some "1") = .ok { maxDepth := some 1 } := by
    have read : (Limits.ofSetting (some "1")).toOption = some { maxDepth := some 1 } := by decide +kernel
    cases setting : Limits.ofSetting (some "1") with
    | error error =>
      rw [setting] at read
      cases read
    | ok limits =>
      rw [setting] at read
      exact congrArg Except.ok (Option.some.inj read)
  have shallow {source : String} (shown : source = "abs(this)" ∨ source = "this")
      {nodes : List Node} (parsed : parse {} source.toList = .ok nodes) :
      Node.depthSequence nodes ≤ 1 := by
    rcases shown with rfl | rfl
    · obtain rfl := Except.ok.inj (call.symm.trans parsed)
      decide
    · obtain rfl := Except.ok.inj (plain.symm.trans parsed)
      decide
  have writable : ¬ Batch.Unwritable oneCallPlan.expressions oneCallPlan.targets {} := by
    rintro ⟨⟨_, member, _⟩, _⟩
    cases member
  refine ⟨rfl, rfl, ofText_oneCall, (agree_iff rfl rfl ofText_oneCall).mpr (Or.inl ⟨writable,
    { maxDepth := some 1 }, allowed, fun part axis nodes _ parsed limit atLimit => ?_⟩)⟩
  cases atLimit
  refine shallow ?_ parsed
  cases part <;> cases axis <;> decide

/-- Without calls allowed, validating accepts the plan, and applying refuses it. -/
theorem oneCall_disagree :
    (run (oneCall (some "0")) ["layout", "validate", "plan.yaml"]).exit = 0 ∧
      run (oneCall (some "0")) ["layout", "apply", "plan.yaml"] =
        .failed (BatchError.compile ["Position.X"]).message ∧
      ¬ Agree (oneCall (some "0")) "plan.yaml" oneCallPlan := by
  have accepted : (run (oneCall (some "0")) ["layout", "validate", "plan.yaml"]).exit = 0 := by
    decide +kernel
  have refused : run (oneCall (some "0")) ["layout", "apply", "plan.yaml"] =
      .failed (BatchError.compile ["Position.X"]).message := by decide +kernel
  refine ⟨accepted, refused, fun agree => ?_⟩
  have both := (agree.refuse ["Position.X"]).mpr refused
  rw [both] at accepted
  cases accepted

end Command

end Placement
