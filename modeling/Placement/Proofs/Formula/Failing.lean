import Placement.Proofs.Formula.Acceptance

namespace Placement

namespace Builtin

/-- The numbers of arguments that an implementation takes. -/
inductive Takes : (List Single → Single) → Nat → Prop
  | unary (f : Single → Single) : Takes (unary f) 1
  | binary (f : Single → Single → Single) : Takes (binary f) 2
  | ternary (f : Single → Single → Single → Single) : Takes (ternary f) 3
  | logarithm : Takes logarithm 1
  | logarithmToBase : Takes logarithm 2
  | largest (count : Nat) : Takes largest (count + 1)
  | least (count : Nat) : Takes least (count + 1)

/-- The parameters say how many arguments the implementation takes. -/
def Fits (f : Definition Single) : Prop :=
  ∀ count, f.minArguments ≤ count → (∀ most, f.maxArguments? = some most → count ≤ most) →
    Takes f.implementation count

theorem fits_of_fixed {f : Definition Single} {count : Nat} (takes : Takes f.implementation count)
    (least : f.minArguments = count) (most : f.maxArguments? = some count) : Fits f := by
  intro given enough within
  obtain rfl : given = count := Nat.le_antisymm (within count most) (least ▸ enough)
  exact takes

theorem fits_of_variadic {f : Definition Single}
    (takes : ∀ count, Takes f.implementation (count + 1)) (least : f.minArguments = 1) :
    Fits f := by
  intro given enough _
  obtain ⟨count, rfl⟩ := Nat.exists_eq_succ_of_ne_zero (n := given) (by omega)
  exact takes count

theorem fits_of_logarithm {f : Definition Single} (same : f.implementation = logarithm)
    (least : f.minArguments = 1) (most : f.maxArguments? = some 2) : Fits f := by
  intro given enough within
  have upper := within 2 most
  rw [same]
  obtain rfl | rfl : given = 1 ∨ given = 2 := by omega
  · exact .logarithm
  · exact .logarithmToBase

theorem fits_of_mem {f : Definition Single} (member : f ∈ definitions) : Fits f := by
  revert f
  simp only [definitions, List.forall_mem_cons]
  and_intros
  all_goals first
    | exact fits_of_fixed (.unary _) rfl rfl
    | exact fits_of_fixed (.binary _) rfl rfl
    | exact fits_of_fixed (.ternary _) rfl rfl
    | exact fits_of_variadic .largest rfl
    | exact fits_of_variadic .least rfl
    | exact fits_of_logarithm rfl rfl rfl
    | exact nofun

theorem length_relevant {f : Definition Single} {arguments : List Single}
    (enough : f.minArguments ≤ arguments.length) :
    f.minArguments ≤ (f.relevant arguments).length ∧
      ∀ most, f.maxArguments? = some most → (f.relevant arguments).length ≤ most := by
  unfold Definition.relevant
  split
  · rename_i most bounded
    have wide : f.minArguments ≤ most := by
      unfold Definition.maxArguments? at bounded
      split at bounded <;> cases bounded
      exact List.countP_le_length
    rw [List.length_take]
    refine ⟨Nat.le_min.mpr ⟨wide, enough⟩, fun other same => ?_⟩
    cases bounded.symm.trans same
    exact Nat.min_le_left _ _
  · rename_i unbounded
    exact ⟨enough, fun most bounded => by rw [unbounded] at bounded; cases bounded⟩

/-- An implementation is only given as many arguments as it takes. -/
theorem takes_of_call {name : String} {f : Definition Single}
    (found : registry.find? name = some f) {arguments : List Single} {value : Single}
    (called : f.call arguments = .ok value) :
    value = f.implementation (f.relevant arguments) ∧
      Takes f.implementation (f.relevant arguments).length := by
  unfold Definition.call at called
  split at called <;> cases called
  rename_i enough
  obtain ⟨lower, upper⟩ := length_relevant (Nat.not_lt.mp enough)
  exact ⟨rfl, fits_of_mem (List.mem_of_find?_eq_some found) _ lower upper⟩

end Builtin

/-- The error that stands for what a body raised, or returned in the place of a number. Errors of
formulas stand for themselves, if their message can be written. -/
inductive SuppliedFunction.Reports (f : SuppliedFunction) :
    Except BodyFailure Datum → FormulaError → Prop
  | formula {error : FormulaError} : error.hindrance? = none →
      Reports f (.error (.formula error)) error
  | unwritable {error : FormulaError} {hindrance : WritingError} :
      error.hindrance? = some hindrance → Reports f (.error (.formula error))
        (.evaluation (.callFailed f.name (.ok hindrance.message)))
  | other (reason : Except WritingError String) :
      Reports f (.error (.other reason)) (.evaluation (.callFailed f.name reason))
  | range {n : Int} : singleOfInt? n = none →
      Reports f (.ok (.int n)) (.evaluation (.resultRange f.name))
  | rationalRange {q : Rat} : singleOfRat? q = none →
      Reports f (.ok (.rational q)) (.evaluation (.resultRange f.name))
  | kind {value : Datum} : (∀ x, value ≠ .float x) → (∀ n, value ≠ .int n) →
      (∀ q, value ≠ .rational q) →
      Reports f (.ok value) (.evaluation (.resultKind f.name value.kind))

theorem SuppliedFunction.eq_none_of_inRange {f : SuppliedFunction} {value : Option Single}
    {error : FormulaError} (failed : f.inRange value = .error error) :
    value = none ∧ error = .evaluation (.resultRange f.name) := by
  cases value with
  | none =>
    cases failed
    exact ⟨rfl, rfl⟩
  | some x => cases failed

theorem SuppliedFunction.reports_of_result {f : SuppliedFunction}
    {returned : Except BodyFailure Datum} {error : FormulaError}
    (failed : f.result returned = .error error) : f.Reports returned error := by
  cases returned with
  | error failure =>
    cases failure with
    | formula other =>
      rw [result, Except.error.injEq, passOn] at failed
      split at failed
      · subst failed
        exact .formula ‹_›
      · subst failed
        exact .unwritable ‹_›
    | other reason =>
      cases failed
      exact .other reason
  | ok value =>
    cases value with
    | float x => cases failed
    | int n =>
      obtain ⟨range, rfl⟩ := eq_none_of_inRange failed
      exact .range range
    | rational q =>
      obtain ⟨range, rfl⟩ := eq_none_of_inRange failed
      exact .rationalRange range
    | _ =>
      cases failed
      refine .kind ?_ ?_ ?_ <;> (intro _ same; cases same)

/-- What a body reports is met as an error from outside only where the text of what it raised is. -/
theorem SuppliedFunction.Reports.foreign {f : SuppliedFunction} {returned : Except BodyFailure Datum}
    {error : FormulaError} (reports : f.Reports returned error) {foreign : ForeignError}
    (met : Failure.raised error = .foreign foreign) :
    returned = .error (.other (.error (.foreign foreign))) := by
  cases reports with
  | formula free =>
    rw [Failure.raised_of_hindrance free] at met
    cases met
  | other reason =>
    cases reason with
    | ok text => cases met
    | error hindrance =>
      cases hindrance with
      | nesting => cases met
      | foreign other =>
        cases met
        rfl
  | unwritable | range | rationalRange | kind => cases met

namespace Context

/-- What a call of a supplied function comes to, by what its body raised or returned. -/
def Gave (context : Context) (call : Call) (result : Except FormulaError Single) : Prop :=
  ∃ f, findFunction? context.functions call.name = some f ∧
    f.result (f.body call.arguments context.bindings) = result

/-- Errors whose message can be written unless it tells of an object that cannot be. -/
def Tells (context : Context) (cause : EvaluationError) : Prop :=
  ∀ hindrance, cause.hindrance? = some hindrance → ∃ name value,
    context.bindings.lookup name = .ok (.object value) ∧ value.hindrance? none = some hindrance

theorem tells_of_number {context : Context} {name : String} {cause : EvaluationError}
    (failed : context.bindings.number name = .error cause) : context.Tells cause := by
  intro hindrance hinders
  unfold Bindings.number at failed
  cases found : context.bindings.lookup name with
  | error other =>
    rw [found] at failed
    cases failed
    unfold Bindings.lookup at found
    split at found <;> cases found
    cases hinders
  | ok bound =>
    rw [found] at failed
    cases bound with
    | number value => cases failed
    | object value =>
      cases failed
      exact ⟨name, value, found, hinders⟩

/-- How the calls made account for the result: each of them gave a number, or else the last one
gave the error of the whole. -/
inductive Accounts {α : Type} (context : Context) (traced : Traced α) : Prop
  | own : (∀ call ∈ traced.calls, ∃ value, context.Gave call (.ok value)) →
      (∀ error, traced.result = .error error →
        ∃ cause, error = .evaluation cause ∧ context.Tells cause) →
      Accounts context traced
  | last {before : List Call} {call : Call} {error : FormulaError} :
      traced.calls = before ++ [call] →
      (∀ other ∈ before, ∃ value, context.Gave other (.ok value)) →
      context.Gave call (.error error) → traced.result = .error error → Accounts context traced

variable {context : Context} {α β : Type}

namespace Accounts

theorem pure (value : α) : context.Accounts (Pure.pure value : Traced α) := .own nofun nofun

theorem fail {cause : EvaluationError} (tells : context.Tells cause) :
    context.Accounts (Traced.fail cause : Traced α) := by
  refine .own nofun fun error same => ⟨cause, ?_, tells⟩
  cases same
  rfl

theorem ofExcept {result : Except EvaluationError α}
    (tells : ∀ cause, result = .error cause → context.Tells cause) :
    context.Accounts (Traced.ofExcept result) := by
  cases result with
  | ok value => exact .pure value
  | error cause => exact .fail (tells cause rfl)

theorem bind {first : Traced α} {next : α → Traced β} (accounts : context.Accounts first)
    (behind : ∀ value, context.Accounts (next value)) : context.Accounts (first >>= next) := by
  obtain ⟨calls, result⟩ := first
  cases accounts with
  | own gave cause =>
    cases result with
    | error error => exact .own gave fun _ same => cause _ (by cases same; rfl)
    | ok value =>
      cases behind value with
      | own others rest =>
        refine .own (fun call member => ?_) rest
        exact (List.mem_append.mp member).elim (gave call) (others call)
      | @last before call error split others failed same =>
        refine @last _ _ _ (calls ++ before) call error ?_ (fun other member => ?_) failed same
        · exact (congrArg (calls ++ ·) split).trans (List.append_assoc _ _ _).symm
        · exact (List.mem_append.mp member).elim (gave other) (others other)
  | last split others failed same =>
    -- The second part does not run.
    cases same
    exact .last split others failed rfl

end Accounts

theorem call_accounts (context : Context) (name : String) (given : List Single) :
    context.Accounts (context.call name given) := by
  cases builtin : Builtin.registry.find? name with
  | some f =>
    rw [call_builtin builtin]
    refine .ofExcept fun cause failed => ?_
    unfold Definition.call at failed
    split at failed <;> cases failed
    exact nofun
  | none =>
    cases found : findFunction? context.functions name with
    | none =>
      rw [call_unknown builtin found]
      exact .fail nofun
    | some f =>
      have named : f.name = name := by simpa using List.find?_some found
      have gave : context.Gave ⟨f.name, given.map Binary.toDouble⟩
          (f.call given context.bindings).result := ⟨f, by rw [named]; exact found, rfl⟩
      rw [call_supplied builtin found]
      cases result : (f.call given context.bindings).result with
      | ok value =>
        refine .own (fun call member => ?_) fun error same => ?_
        · obtain rfl := List.mem_singleton.mp member
          exact ⟨value, result ▸ gave⟩
        · rw [result] at same
          cases same
      | error error => exact .last (List.nil_append _).symm nofun (result ▸ gave) result

theorem onlyValue_accounts (stack : List Single) : context.Accounts (onlyValue stack) := by
  match stack with
  | [value] => exact .pure value
  | [] | _ :: _ :: _ => exact .fail nofun

mutual

theorem runNode_accounts (context : Context) : ∀ (node : Node) (stack : List Single),
    context.Accounts (context.runNode node stack)
  | .number value, stack => by
    rw [runNode]
    exact .pure _
  | .variable name, stack => by
    rw [runNode]
    exact (Accounts.ofExcept fun _ => tells_of_number).bind fun value => .pure _
  | .operator op, stack => by
    match stack with
    | right :: left :: below => exact .pure _
    | [] | [_] => exact .fail nofun
  | .call name arguments, stack => by
    rw [runNode]
    refine (evaluateArguments_accounts context arguments).bind fun values => ?_
    exact (call_accounts context name values).bind fun value => .pure _
  | .marker kind, stack => .fail nofun

theorem runSequence_accounts (context : Context) : ∀ (nodes : List Node) (stack : List Single),
    context.Accounts (context.runSequence nodes stack)
  | [], stack => by
    rw [runSequence]
    exact .pure _
  | node :: rest, stack => by
    rw [runSequence_cons]
    exact (runNode_accounts context node stack).bind fun after =>
      runSequence_accounts context rest after

theorem evaluateArguments_accounts (context : Context) : ∀ arguments : List (List Node),
    context.Accounts (context.evaluateArguments arguments)
  | [] => by
    rw [evaluateArguments]
    exact .pure _
  | argument :: rest => by
    have value : context.Accounts (context.evaluate argument) :=
      (runSequence_accounts context argument []).bind onlyValue_accounts
    rw [evaluateArguments_cons]
    exact value.bind fun value =>
      (evaluateArguments_accounts context rest).bind fun values => .pure _

end

theorem evaluate_accounts (context : Context) (nodes : List Node) :
    context.Accounts (context.evaluate nodes) :=
  (runSequence_accounts context nodes []).bind onlyValue_accounts

end Context

/-- Where a failure comes from: the text is not read, a variable cannot be bound, the evaluation
itself fails while all bodies gave numbers, or the body called last reports an error. -/
inductive Stops (text : List Char) (given : List (String × Given))
    (functions : List SuppliedFunction) (limits : Limits) (calls : List Call) : Failure → Prop
  | reading {failure : Failure} : parse limits text = .error failure → failure.IsReading →
      calls = [] → Stops text given functions limits calls failure
  | nesting : parse limits text = .error .nesting → Nests (limits.levels + 1) text → calls = [] →
      Stops text given functions limits calls .nesting
  | binding {name : String} {value : Given} : (name, value) ∈ given → value.bind? = none →
      calls = [] → Stops text given functions limits calls (.formula (.evaluation .bindingRange))
  | evaluation {bindings : Bindings} {cause : EvaluationError} :
      Bindings.ofPairs given = .ok bindings →
      (∀ call ∈ calls, ∃ value, Context.Gave ⟨bindings, functions⟩ call (.ok value)) →
      Context.Tells ⟨bindings, functions⟩ cause →
      Stops text given functions limits calls (.raised (.evaluation cause))
  | body {bindings : Bindings} {before : List Call} {call : Call} {f : SuppliedFunction}
      {error : FormulaError} : Bindings.ofPairs given = .ok bindings → calls = before ++ [call] →
      findFunction? functions call.name = some f →
      f.Reports (f.body call.arguments bindings) error →
      Stops text given functions limits calls (.raised error)

/-- Why an error from outside ends an evaluation: the object that a name stands for, or the error
that the body called last raised, cannot be written. -/
inductive Escapes (given : List (String × Given)) (functions : List SuppliedFunction)
    (calls : List Call) (error : ForeignError) : Prop
  | object {bindings : Bindings} {name : String} {value : Datum} :
      Bindings.ofPairs given = .ok bindings → bindings.lookup name = .ok (.object value) →
      value.hindrance? none = some (.foreign error) → Escapes given functions calls error
  | body {bindings : Bindings} {before : List Call} {call : Call} {f : SuppliedFunction} :
      Bindings.ofPairs given = .ok bindings → calls = before ++ [call] →
      findFunction? functions call.name = some f →
      f.body call.arguments bindings = .error (.other (.error (.foreign error))) →
      Escapes given functions calls error

variable {expression : Option String} {given : List (String × Given)}
  {functions : List SuppliedFunction} {limits : Limits}

theorem Stops.escapes {text : List Char} {calls : List Call} {failure : Failure}
    (stops : Stops text given functions limits calls failure) {error : ForeignError}
    (foreign : failure = .foreign error) : Escapes given functions calls error := by
  cases stops with
  | reading parsed _ _ => exact absurd (foreign ▸ parsed) parse_ne_foreign
  | nesting | binding => cases foreign
  | evaluation bound _ tells =>
    obtain ⟨name, value, found, hinders⟩ := tells _ (Failure.raised_eq_foreign_iff.mp foreign)
    exact .object bound found hinders
  | body bound split found reports => exact .body bound split found (reports.foreign foreign)

/-- An evaluation without a value stops for one of the reasons there are. -/
theorem stops_of_evaluateText {failure : Failure}
    (failed : (evaluateText expression given functions limits).result = .error failure) :
    Stops (expression.getD "").toList given functions limits
      (evaluateText expression given functions limits).calls failure := by
  cases parsed : parse limits (expression.getD "").toList with
  | error other =>
    simp only [evaluateText, parsed] at failed ⊢
    cases failed
    rcases parse_fails parsed with reading | ⟨rfl, nests⟩
    · exact .reading parsed reading rfl
    · exact .nesting parsed nests rfl
  | ok nodes =>
    cases bound : Bindings.ofPairs given with
    | error cause =>
      simp only [evaluateText, parsed, bound] at failed ⊢
      cases failed
      obtain ⟨rfl, entry, member, free⟩ := Bindings.of_ofPairs_eq_error bound
      exact .binding member free rfl
    | ok bindings =>
      simp only [evaluateText, parsed, bound] at failed ⊢
      obtain ⟨error, stopped, rfl⟩ := Outcome.result_ofTraced_error_iff.mp failed
      cases Context.evaluate_accounts ⟨bindings, functions⟩ nodes with
      | own gave cause =>
        obtain ⟨cause, rfl, tells⟩ := cause error stopped
        exact .evaluation bound gave tells
      | last split _ gave same =>
        cases stopped.symm.trans same
        obtain ⟨f, found, reported⟩ := gave
        exact .body bound split found (f.reports_of_result reported)

/-- A body that raises what cannot be written ends the evaluation that calls it. -/
theorem escapes_of_call {bindings : Bindings} (bound : Bindings.ofPairs given = .ok bindings)
    {call : Call} (made : call ∈ (evaluateText expression given functions limits).calls)
    {f : SuppliedFunction} (found : findFunction? functions call.name = some f)
    {error : ForeignError}
    (raised : f.body call.arguments bindings = .error (.other (.error (.foreign error)))) :
    (evaluateText expression given functions limits).result = .error (.foreign error) := by
  cases parsed : parse limits (expression.getD "").toList with
  | error other =>
    simp only [evaluateText, parsed] at made
    cases made
  | ok nodes =>
    simp only [evaluateText, parsed, bound] at made ⊢
    have failed : ∀ result, Context.Gave ⟨bindings, functions⟩ call result →
        result = .error (.evaluation (.callFailed f.name (.error (.foreign error)))) := by
      rintro result ⟨g, again, rfl⟩
      cases found.symm.trans again
      rw [raised]
      rfl
    cases Context.evaluate_accounts ⟨bindings, functions⟩ nodes with
    | own gave =>
      obtain ⟨value, gave⟩ := gave call made
      cases failed _ gave
    | @last before last stop split others gave same =>
      have made : call ∈ before ++ [last] := split ▸ made
      rcases List.mem_append.mp made with earlier | atLast
      · obtain ⟨value, gave⟩ := others call earlier
        cases failed _ gave
      · obtain rfl := List.mem_singleton.mp atLast
        cases failed _ gave
        exact Outcome.result_ofTraced_error_iff.mpr ⟨_, same, rfl⟩

/-- The ways to evaluate a formula agree. The evaluation gives a value, or a failure that has one
of the known reasons, and no built-in function is ever applied to fewer or more arguments than it
takes. The attempt has this value in the first case, and none, which counts as not-a-number, in
the second one, unless an error from outside ends both. For this an object must be bound, or an
error be raised by a body, that cannot be written. -/
theorem attempt_agrees (expression : Option String) (given : List (String × Given))
    (functions : List SuppliedFunction) (limits : Limits) :
    let strict := evaluateText expression given functions limits
    let tried := attempt expression given functions limits
    ((∃ x, strict.result = .ok x) ∨ ∃ failure, strict.result = .error failure ∧
      Stops (expression.getD "").toList given functions limits strict.calls failure) ∧
    (∀ x, tried = .ok (.value x) ↔ strict.result = .ok x) ∧
    ((∃ became, tried = .ok became ∧ (became.isValue, became.toDouble) = (false, .nan)) ↔
      ∃ failure, strict.result = .error failure ∧ ∀ error, failure ≠ .foreign error) ∧
    (∀ error, tried = .error error ↔ strict.result = .error (.foreign error)) ∧
    evaluateOrNaN expression given functions limits = tried.map Attempt.toDouble ∧
    (∀ error, strict.result = .error (.foreign error) →
      Escapes given functions strict.calls error) ∧
    (∀ bindings, Bindings.ofPairs given = .ok bindings → ∀ call ∈ strict.calls,
      ∀ f, findFunction? functions call.name = some f → ∀ error,
        f.body call.arguments bindings = .error (.other (.error (.foreign error))) →
          strict.result = .error (.foreign error)) ∧
    ∀ name f, Builtin.registry.find? name = some f → ∀ arguments value,
      f.call arguments = .ok value →
        Builtin.Takes f.implementation (f.relevant arguments).length := by
  intro strict tried
  have valued (x : Double) : tried = .ok (.value x) ↔ strict.result = .ok x := attempt_eq_value_iff
  have escaped (error : ForeignError) :
      tried = .error error ↔ strict.result = .error (.foreign error) := attempt_eq_error_iff
  refine ⟨?_, valued, ?_, escaped, rfl,
    fun error foreign => (stops_of_evaluateText foreign).escapes rfl,
    fun bindings bound call made f found error => escapes_of_call bound made found,
    fun name f found arguments value called => (Builtin.takes_of_call found called).2⟩
  · cases result : strict.result with
    | ok x => exact Or.inl ⟨x, rfl⟩
    | error failure => exact Or.inr ⟨failure, rfl, stops_of_evaluateText result⟩
  · constructor
    · rintro ⟨became, same, noValue⟩
      cases result : strict.result with
      | ok x =>
        rw [(valued x).mpr result] at same
        cases same
        cases noValue
      | error failure =>
        refine ⟨failure, rfl, ?_⟩
        rintro error rfl
        rw [(escaped error).mpr result] at same
        cases same
    · rintro ⟨failure, failed, known⟩
      cases became : tried with
      | error error =>
        rw [(escaped error).mp became] at failed
        cases failed
        exact absurd rfl (known error)
      | ok outcome =>
        refine ⟨outcome, rfl, ?_⟩
        cases outcome with
        | value x =>
          rw [(valued x).mp became] at failed
          cases failed
        | blank | failed _ => rfl

/-- A body fails in its own way, in an argument of another call. -/
theorem agrees_of_failed_body :
    let functions : List SuppliedFunction := [⟨"f", fun _ _ => .error (.other (.ok "no"))⟩]
    let given : List (String × Given) := [("x", .datum (.float .half))]
    (evaluateText (some "max(x, f(x))") given functions {}).result =
        .error (.formula (.evaluation (.callFailed "f" (.ok "no")))) ∧
      evaluateOrNaN (some "max(x, f(x))") given functions {} = .ok .nan := by
  intro functions given
  have parsed : parse {} "max(x, f(x))".toList =
      .ok [.call "max" [[.variable "x"], [.call "f" [[.variable "x"]]]]] := by decide +kernel
  have bound : Bindings.ofPairs given = .ok ⟨[("x", .number Binary.half.toSingle)]⟩ := rfl
  have failed : (evaluateText (some "max(x, f(x))") given functions {}).result =
      .error (.formula (.evaluation (.callFailed "f" (.ok "no")))) := by
    rw [evaluateText_eq_ofTraced parsed bound]
    rfl
  obtain ⟨_, _, tried, _, same, _⟩ := attempt_agrees (some "max(x, f(x))") given functions {}
  obtain ⟨became, attempted, noValue⟩ := tried.mpr ⟨_, failed, nofun⟩
  rw [attempted] at same
  exact ⟨failed, same.trans (congrArg Except.ok (Prod.mk.inj noValue).2)⟩

/-- A body raises an error about an integer that is too long to be written. -/
theorem escape_of_long_integer :
    let raises : SuppliedFunction :=
      ⟨"f", fun _ _ => .error (.other ((Datum.int (10 ^ 5000)).plainText? none))⟩
    (evaluateText (some "f()") [] [raises] {}).result = .error (.foreign .tooManyDigits) ∧
      attempt (some "f()") [] [raises] {} = .error .tooManyDigits ∧
      evaluateOrNaN (some "f()") [] [raises] {} = .error .tooManyDigits := by
  have long : (Datum.int (10 ^ 5000)).plainText? none = .error (.foreign .tooManyDigits) := by
    have beyond : ¬ (10 ^ 5000 : Int).natAbs < Nat.pow 10 integerDigitLimit := by decide +kernel
    rw [Datum.plainText?, Datum.hindrance?, Datum.digitHindrance?, if_neg beyond]
  rw [long]
  intro raises
  have parsed : parse {} "f()".toList = .ok [.call "f" []] := by decide +kernel
  have failed : (evaluateText (some "f()") [] [raises] {}).result =
      .error (.foreign .tooManyDigits) := by
    rw [evaluateText_eq_ofTraced parsed rfl]
    rfl
  have tried : attempt (some "f()") [] [raises] {} = .error .tooManyDigits :=
    attempt_eq_error_iff.mpr failed
  exact ⟨failed, tried, by rw [evaluateOrNaN, tried]; rfl⟩

end Placement
