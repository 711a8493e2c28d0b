import Placement.Proofs.Formula.Failing
import Placement.Proofs.Layout.Trial

namespace Placement

namespace Batch

def fieldObjects (axis : Axis) : List (String × Datum) :=
  [(Spacing.axisVariable, .text axis.name)]

theorem ofPairs_fieldVariables {n : Nat} {index : Single} (whole : singleOfInt? n = some index)
    (this : Double) (axis : Axis) : Bindings.ofPairs (fieldVariables this n axis) =
      .ok (bindingsOf this.toSingle index (fieldObjects axis)) := by
  have bound : (Given.datum (.int n)).bind? = some (.number index) :=
    congrArg (Option.map Bound.number) whole
  rw [fieldVariables, Bindings.ofPairs_cons rfl, Bindings.ofPairs_cons bound,
    Bindings.ofPairs_cons rfl]
  rfl

theorem ofPairs_fieldVariables_none {n : Nat} (beyond : singleOfInt? n = none) (this : Double)
    (axis : Axis) : Bindings.ofPairs (fieldVariables this n axis) = .error .bindingRange := by
  have unbound : (Given.datum (.int n)).bind? = none :=
    congrArg (Option.map Bound.number) beyond
  rw [fieldVariables, Bindings.ofPairs_cons rfl, Bindings.ofPairs, unbound]
  rfl

theorem number_index (this index : Single) (objects : List (String × Datum)) :
    (bindingsOf this index objects).number "index" = .ok index := by
  rw [bindingsOf, Bindings.number_cons_of_ne (by decide), Bindings.number_cons_self]

theorem ready (this index : Single) (axis : Axis) :
    Spacing.Ready (bindingsOf this index (fieldObjects axis)) axis :=
  ⟨rfl, this, rfl⟩

theorem exists_of_fieldVariables {this : Double} {n : Nat} {axis : Axis} {bindings : Bindings}
    (bound : Bindings.ofPairs (fieldVariables this n axis) = .ok bindings) :
    ∃ index, bindings = bindingsOf this.toSingle index (fieldObjects axis) := by
  cases whole : singleOfInt? n with
  | none =>
    rw [ofPairs_fieldVariables_none whole] at bound
    cases bound
  | some index =>
    rw [ofPairs_fieldVariables whole] at bound
    exact ⟨index, (Except.ok.inj bound).symm⟩

theorem ready_of_fieldVariables {this : Double} {n : Nat} {axis : Axis} {bindings : Bindings}
    (bound : Bindings.ofPairs (fieldVariables this n axis) = .ok bindings) :
    Spacing.Ready bindings axis := by
  obtain ⟨index, rfl⟩ := exists_of_fieldVariables bound
  exact ready _ _ _

theorem object_of_fieldObjects {this index : Single} {axis : Axis} {name : String} {value : Datum}
    (found : (bindingsOf this index (fieldObjects axis)).lookup name = .ok (.object value)) :
    value = .text axis.name := by
  rw [Bindings.lookup] at found
  split at found
  · rename_i other same
    cases found
    obtain ⟨_, _, split, _⟩ := List.lookup_eq_some_iff.mp same
    have among : (name, Bound.object value) ∈ (bindingsOf this index (fieldObjects axis)).entries :=
      split ▸ List.mem_append_right _ List.mem_cons_self
    simp only [bindingsOf, fieldObjects, List.map_cons, List.map_nil, List.mem_cons,
      Prod.mk.injEq, reduceCtorEq, and_false, false_or, List.not_mem_nil, or_false,
      Bound.object.injEq] at among
    exact among.2
  · cases found

/-- What the formula of a field is evaluated in. -/
def field (stage : Stage) (this index : Single) (axis : Axis) : Context :=
  ⟨bindingsOf this index (fieldObjects axis), Spacing.functions stage⟩

/-- A trial gets as far as the formula of a field. -/
theorem trial_follows_field (this index otherThis otherIndex : Single)
    (objects : List (String × Datum)) (stage : Stage) (axis : Axis) :
    (trial this index objects).Follows (field stage otherThis otherIndex axis) (fun _ _ => True)
      fun _ => False where
  numbers _ _ found := bindingsOf_follow this index objects found
  calls name _ _ _ _ _ _ length called := by
    refine Context.call_gives called length fun f found => ?_
    rcases Spacing.findFunction?_cases stage name with ⟨none, _⟩ | ⟨_, _, _, standIn⟩
    · rw [field, none] at found
      cases found
    · exact ⟨_, standIn, standIn_gives name _ _⟩

/-- The functions of a batch give a value where their arguments are in place. -/
theorem field_call_gives {tolerated : SpacingError → Prop} {stops : FormulaError → Prop}
    {stage : Stage} {this index : Single} {axis : Axis} {name : String} {others : List Single}
    {f : SuppliedFunction} (found : findFunction? Spacing.standIns name = some f)
    (current : Spacing.Placed tolerated (others.map Binary.toDouble) stage.current.length)
    (snapshot : Spacing.Placed tolerated (others.map Binary.toDouble) stage.snapshot.length)
    (raised : ∀ error, tolerated error → Spacing.OfArguments error ∧
      ∀ name, name = "space_between" ∨ name = "center" →
        stops (.evaluation (.callFailed name (.ok error.message)))) :
    ∃ g, findFunction? (field stage this index axis).functions name = some g ∧
      Gives stops (g.call others (field stage this index axis).bindings).result
        fun _ => True := by
  rcases Spacing.findFunction?_cases stage name with ⟨_, none⟩ | ⟨f, named, supplied, _⟩
  · rw [none] at found
    cases found
  · refine ⟨_, supplied, ?_⟩
    have stop (error : SpacingError) (tolerates : tolerated error) :=
      (raised error tolerates).imp id fun stop => stop name (named.imp And.left And.left)
    rcases named with ⟨rfl, rfl⟩ | ⟨rfl, rfl⟩
    · exact Spacing.call_asSupplied_gives
        (Spacing.spaceBetween_gives (ready this index axis) current) stop
    · exact Spacing.call_asSupplied_gives
        (Spacing.center_gives (ready this index axis) snapshot) stop

/-- The formula of a field gets as far as a trial, unless a function of the batch fails. -/
theorem field_follows_trial (stage : Stage) (this index otherThis otherIndex : Single) (axis : Axis)
    (objects : List (String × Datum)) :
    (field stage this index axis).Follows (trial otherThis otherIndex objects) (fun _ _ => True)
      Spacing.CallFailed where
  numbers _ _ found := bindingsOf_follow this index _ found
  calls name _ _ others _ _ _ length called := by
    refine Context.call_gives called length fun f found => ?_
    exact field_call_gives found (Spacing.placed_ofArguments _ _) (Spacing.placed_ofArguments _ _)
      fun error ofArguments => ⟨ofArguments, fun name named => ⟨name, _, named, rfl⟩⟩

/-- The second argument is the index. -/
def Indexed (name : String) (arguments : List (List Node)) : Prop :=
  name = "space_between" ∨ name = "center" → arguments[1]? = some [.variable "index"]

/-- With indexes of the batch in all calls of its functions, the formula of a field gets as far
as a trial. -/
theorem field_follows_indexed {stage : Stage} {n : Nat} {index : Single}
    (whole : index.toDouble.toInt? = some (n : Int)) (inCurrent : n < stage.current.length)
    (inSnapshot : n < stage.snapshot.length) (this otherThis otherIndex : Single) (axis : Axis)
    (objects : List (String × Datum)) :
    (field stage this index axis).Follows (trial otherThis otherIndex objects) Indexed
      fun _ => False where
  numbers _ _ found := bindingsOf_follow this index _ found
  calls name arguments _ others _ indexed evaluated length called := by
    refine Context.call_gives called length fun f found => ?_
    have named : name = "space_between" ∨ name = "center" := by
      rcases Spacing.findFunction?_cases stage name with ⟨_, none⟩ | ⟨_, named, _, _⟩
      · rw [trial, none] at found
        cases found
      · exact named.imp And.left And.left
    have second : (others.map Binary.toDouble)[1]? = some index.toDouble := by
      obtain ⟨value, atPlace, evaluated⟩ :=
        Context.evaluate_of_evaluateArguments evaluated (indexed named)
      have isIndex := Context.evaluate_variable evaluated
      rw [field, number_index] at isIndex
      obtain rfl := Except.ok.inj isIndex
      rw [List.getElem?_map, atPlace]
      rfl
    exact field_call_gives found (Spacing.placed_of_index second whole inCurrent)
      (Spacing.placed_of_index second whole inSnapshot) fun _ tolerated => tolerated.elim

/-- A formula that has a value for some target is valid. -/
theorem valid_of_field {limits : Limits} {source : String} {stage : Stage} {this x : Double}
    {n : Nat} {axis : Axis}
    (evaluated : (evaluateText (some source) (fieldVariables this n axis)
      (Spacing.functions stage) limits).result = .ok x) : Valid limits source := by
  obtain ⟨nodes, bindings, value, parsed, bound, atNodes, _⟩ :=
    evaluateText_eq_ok_iff.mp evaluated
  obtain ⟨index, rfl⟩ := exists_of_fieldVariables bound
  have follows := trial_follows_field this.toSingle index this.toSingle index [] stage axis
  obtain ⟨other, same⟩ := (follows.evaluate (fun _ _ => trivial) atNodes).exists_ok
  exact ⟨nodes, _, _, _, other, parsed, same⟩

/-- A valid formula fails only in a function of the batch. -/
theorem field_gives_of_valid {limits : Limits} {source : String} (valid : Valid limits source)
    {n : Nat} (bound : n < 2 ^ 1023) (stage : Stage) (this : Double) (axis : Axis) :
    Gives (fun failure => ∃ error, failure = .formula error ∧ Spacing.CallFailed error)
      (evaluateText (some source) (fieldVariables this n axis) (Spacing.functions stage)
        limits).result fun _ => True := by
  obtain ⟨nodes, otherThis, otherIndex, objects, value, parsed, atNodes⟩ := valid
  obtain ⟨index, whole⟩ := singleOfInt?_of_lt bound (Nat.le_refl 1023)
  rw [evaluateText_eq_ofTraced parsed (ofPairs_fieldVariables whole this axis)]
  have follows := field_follows_trial stage this.toSingle index otherThis otherIndex axis objects
  refine (Outcome.gives_ofTraced (follows.evaluate (fun _ _ => trivial) atNodes)).tolerate ?_
  rintro failure ⟨error, rfl, failed⟩
  exact ⟨error, Failure.raised_of_hindrance failed.hindrance?, failed⟩

/-- All calls of functions of the batch have the index as their second argument. -/
def AllIndexed (limits : Limits) (source : String) : Prop :=
  ∀ nodes, parse limits source.toList = .ok nodes →
    ∀ call ∈ Node.callsAll nodes, Indexed call.1 call.2

/-- A valid formula with the index in all calls has a value for every target of a batch. -/
theorem field_gives_of_indexed {limits : Limits} {source : String} (valid : Valid limits source)
    (indexed : AllIndexed limits source) {n : Nat} (small : n < 2 ^ 24) {stage : Stage}
    (inCurrent : n < stage.current.length) (inSnapshot : n < stage.snapshot.length)
    (this : Double) (axis : Axis) :
    Gives (fun _ => False) (evaluateText (some source) (fieldVariables this n axis)
      (Spacing.functions stage) limits).result fun _ => True := by
  obtain ⟨nodes, otherThis, otherIndex, objects, value, parsed, atNodes⟩ := valid
  obtain ⟨index, whole, exact⟩ := singleOfInt?_of_small small
  rw [evaluateText_eq_ofTraced parsed (ofPairs_fieldVariables whole this axis)]
  have follows := field_follows_indexed exact inCurrent inSnapshot this.toSingle otherThis
    otherIndex axis objects
  exact (Outcome.gives_ofTraced (follows.evaluate (indexed nodes parsed) atNodes)).tolerate
    fun _ ⟨_, _, impossible⟩ => impossible

/-- No field ends with an error from outside: the one object in reach is the name of an axis. -/
theorem field_ne_foreign {limits : Limits} {source : String} {stage : Stage} {this : Double}
    {n : Nat} {axis : Axis} {error : ForeignError} :
    (evaluateText (some source) (fieldVariables this n axis) (Spacing.functions stage)
      limits).result ≠ .error (.foreign error) := by
  intro failed
  cases (stops_of_evaluateText failed).escapes rfl with
  | object bound found hinders =>
    obtain ⟨index, rfl⟩ := exists_of_fieldVariables bound
    obtain rfl := object_of_fieldObjects found
    cases hinders
  | @body _ _ call f _ _ found raised =>
    rcases Spacing.findFunction?_cases stage call.name with ⟨none, _⟩ | ⟨_, _, supplied, _⟩
    · cases none.symm.trans found
    · cases supplied.symm.trans found
      exact Spacing.body_asSupplied_ne raised

/-- A part gives its three components, or the failure of a field. -/
theorem evaluatePart_eq {expressions : Expressions} {limits : Limits} {stage : Stage} {n : Nat}
    {target : Target} {part : Part} : evaluatePart expressions limits stage n target part =
      PerAxis.ofFnM fun axis =>
        (evaluateText (some ((expressions.get part).get axis))
          (fieldVariables ((target.get part).get axis) n axis) (Spacing.functions stage)
          limits).result.mapError (.field (fieldName part axis) target.name) := by
  rw [evaluatePart]
  congr 1
  funext axis
  dsimp only
  split
  · rename_i same
    rw [same]
    rfl
  · exact absurd ‹_› field_ne_foreign
  · rename_i same
    rw [same]
    rfl

theorem ofFnM_gives {ε α : Type} {tolerated : ε → Prop} {f : Axis → Except ε α}
    (each : ∀ axis, Gives tolerated (f axis) fun _ => True) :
    Gives tolerated (PerAxis.ofFnM f) fun _ => True := by
  refine (each .x).bind fun _ _ _ => (each .y).bind fun _ _ _ => ?_
  exact (each .z).bind fun _ _ _ => .ok trivial

/-- A field that failed in a tolerated way. -/
def FieldFailed (stops : Failure → Prop) (error : BatchError) : Prop :=
  ∃ part axis target failure, error = .field (fieldName part axis) target failure ∧ stops failure

section

variable {expressions : Expressions} {limits : Limits} {count : Nat} {stops : Failure → Prop}

/-- Every formula gives a value for every target of a batch, or fails in a tolerated way. -/
def AllGive (expressions : Expressions) (limits : Limits) (count : Nat) (stops : Failure → Prop) :
    Prop :=
  ∀ (part : Part) (stage : Stage) (n : Nat) (this : Double) (axis : Axis), n < count →
    stage.current.length = count → stage.snapshot.length = count →
    Gives stops (evaluateText (some ((expressions.get part).get axis)) (fieldVariables this n axis)
      (Spacing.functions stage) limits).result fun _ => True

theorem evaluatePart_gives (all : AllGive expressions limits count stops) {stage : Stage} {n : Nat}
    (within : n < count) (inCurrent : stage.current.length = count)
    (inSnapshot : stage.snapshot.length = count) (target : Target) (part : Part) :
    Gives (FieldFailed stops) (evaluatePart expressions limits stage n target part)
      fun _ => True := by
  rw [evaluatePart_eq]
  refine ofFnM_gives fun axis => ?_
  rcases all part stage n ((target.get part).get axis) axis within inCurrent inSnapshot with
    ⟨x, same, _⟩ | ⟨failure, same, tolerates⟩
  · simp only [same]
    exact .ok trivial
  · simp only [same]
    exact Or.inr ⟨_, rfl, part, axis, target.name, failure, rfl, tolerates⟩

theorem moveTarget_gives (all : AllGive expressions limits count stops) {stage : Stage} {n : Nat}
    (within : n < count) (inCurrent : stage.current.length = count)
    (inSnapshot : stage.snapshot.length = count) (target : Target) :
    Gives (FieldFailed stops) (moveTarget expressions limits stage n target)
      fun after => after.current.length = count ∧ after.snapshot.length = count := by
  have keeps (stage : Stage) (target : Target) (length : stage.current.length = count) :
      (stage.update n target).current.length = count := by
    rw [Stage.update, List.length_set, length]
  refine (evaluatePart_gives all within inCurrent inSnapshot target .position).bind
    fun position _ _ => ?_
  have moved := keeps stage { target with position } inCurrent
  refine (evaluatePart_gives all within moved inSnapshot target .rotation).bind
    fun rotation _ _ => ?_
  refine (evaluatePart_gives all within moved inSnapshot target .scale).bind fun scale _ _ => ?_
  exact .ok ⟨keeps _ _ moved, inSnapshot⟩

theorem moveFrom_gives (all : AllGive expressions limits count stops) (targets : List Target)
    (n : Nat) (stage : Stage) (within : n + targets.length ≤ count)
    (inCurrent : stage.current.length = count) (inSnapshot : stage.snapshot.length = count) :
    Gives (FieldFailed stops) (moveFrom expressions limits n targets stage) fun _ => True := by
  induction targets generalizing n stage with
  | nil =>
    rw [moveFrom]
    exact .ok trivial
  | cons target rest ih =>
    rw [List.length_cons] at within
    rw [moveFrom]
    refine (moveTarget_gives all (by omega) inCurrent inSnapshot target).bind
      fun after _ lengths => ?_
    exact ih (n + 1) after (by omega) lengths.1 lengths.2

theorem length_inSiblingOrder (targets : List Target) :
    (inSiblingOrder targets).length = targets.length := List.length_mergeSort _

theorem apply_gives {targets : List Target}
    (all : AllGive expressions limits targets.length stops)
    (passed : failingFields expressions targets limits = .ok []) :
    Gives (FieldFailed stops) (apply expressions targets limits) fun _ => True := by
  have length := length_inSiblingOrder targets
  have moved := moveFrom_gives all (inSiblingOrder targets) 0 (Stage.start (inSiblingOrder targets))
    (by omega) length length
  rw [apply, passed]
  rcases moved with ⟨after, same, _⟩ | ⟨error, same, failed⟩
  · exact Or.inl ⟨after.current, by simp only [same]; rfl, trivial⟩
  · exact Or.inr ⟨error, by simp only [same]; rfl, failed⟩

end

/-- Which fields validation reports does not depend on the targets, except that it ends with an
error from outside where a formula comes to the objects and one of them has an index that is too
long to be written. What is reported fails for every target of every batch. Where nothing is,
applying the formulas fails only in a function of the batch, and not at all if every call of such
a function has the index as its second argument. The first bound is only there because an index
past the doubles is not a number: no list in memory comes near it. -/
theorem failingFields_decides (expressions : Expressions) (limits : Limits) :
    ∃ reported : List String,
      (∀ targets, (Unwritable expressions targets limits →
          failingFields expressions targets limits = .error .tooManyDigits) ∧
        (¬ Unwritable expressions targets limits →
          failingFields expressions targets limits = .ok reported)) ∧
      (∀ part axis, fieldName part axis ∈ reported →
        ∀ (stage : Stage) (this : Double) (n : Nat), ∃ failure,
          (evaluateText (some ((expressions.get part).get axis)) (fieldVariables this n axis)
            (Spacing.functions stage) limits).result = .error failure) ∧
      ∀ targets, failingFields expressions targets limits = .ok [] →
        (targets.length ≤ 2 ^ 1023 → ∀ error, apply expressions targets limits = .error error →
          FieldFailed (fun failure => ∃ cause, failure = .formula cause ∧
            Spacing.CallFailed cause) error) ∧
        ((∀ part axis, AllIndexed limits ((expressions.get part).get axis)) →
          targets.length ≤ 2 ^ 24 → ∃ placed, apply expressions targets limits = .ok placed) := by
  refine ⟨invalidFields expressions limits,
    fun targets => ⟨failingFields_of_unwritable, failingFields_of_writable⟩,
    fun part axis reported stage this n => ?_,
    fun targets passed => ⟨fun bound error failed => ?_, fun indexed small => ?_⟩⟩
  · cases evaluated : (evaluateText (some ((expressions.get part).get axis))
        (fieldVariables this n axis) (Spacing.functions stage) limits).result with
    | error failure => exact ⟨failure, rfl⟩
    | ok x => exact absurd (valid_of_field evaluated) (fieldName_mem_invalidFields_iff.mp reported)
  · have all : AllGive expressions limits targets.length _ :=
      fun part stage n this axis within _ _ =>
        field_gives_of_valid (failingFields_eq_nil_iff.mp passed part axis)
          (Nat.lt_of_lt_of_le within bound) stage this axis
    rcases apply_gives all passed with ⟨placed, same, _⟩ | ⟨other, same, tolerated⟩
    · rw [failed] at same
      cases same
    · rw [failed] at same
      cases same
      exact tolerated
  · have all : AllGive expressions limits targets.length fun _ => False :=
      fun part stage n this axis within inCurrent inSnapshot =>
        field_gives_of_indexed (failingFields_eq_nil_iff.mp passed part axis) (indexed part axis)
          (Nat.lt_of_lt_of_le within small) (by omega) (by omega) this axis
    refine ((apply_gives all passed).tolerate ?_).exists_ok
    rintro error ⟨_, _, _, _, _, impossible⟩
    exact impossible

/-- Two targets behind each other, a formula without an operand, and an index out of range. -/
theorem two_targets_validated :
    let targets : List Target := [{ name := "left" }, { name := "right" }]
    (∃ placed, apply { position := ⟨"space_between(this, index)", "this", "this"⟩ } targets {} =
        .ok placed) ∧
      (∀ (stage : Stage) (this : Double) (n : Nat), ∃ failure,
        (evaluateText (some "1 +") (fieldVariables this n .z) (Spacing.functions stage)
          {}).result = .error failure) ∧
      ∃ error, apply { scale := ⟨"this", "center(this, 0 - 7)", "this"⟩ } targets {} =
          .error error ∧
        FieldFailed (fun failure => ∃ cause, failure = .formula cause ∧ Spacing.CallFailed cause)
          error := by
  intro targets
  refine ⟨?_, fun stage this n => ?_, ?_⟩
  · have call : parse {} "space_between(this, index)".toList =
        .ok [.call "space_between" [[.variable "this"], [.variable "index"]]] := by decide +kernel
    have plain : parse {} "this".toList = .ok [.variable "this"] := by decide +kernel
    have callIndexed : AllIndexed {} "space_between(this, index)" := by
      intro nodes parsed found member
      obtain rfl := Except.ok.inj (call.symm.trans parsed)
      simp only [Node.callsAll, Node.calls, Node.callsEach, List.append_nil,
        List.mem_singleton] at member
      subst member
      exact fun _ => rfl
    have plainIndexed : AllIndexed {} "this" := by
      intro nodes parsed found member
      obtain rfl := Except.ok.inj (plain.symm.trans parsed)
      simp [Node.callsAll, Node.calls] at member
    obtain ⟨_, _, _, applies⟩ := failingFields_decides
      { position := ⟨"space_between(this, index)", "this", "this"⟩ } {}
    refine (applies targets (by decide +kernel)).2 ?_ (by decide)
    intro part axis
    cases part <;> cases axis <;> first | exact callIndexed | exact plainIndexed
  · obtain ⟨reported, reports, fails, _⟩ :=
      failingFields_decides { rotation := ⟨"this", "this", "1 +"⟩ } {}
    have tried : failingFields { rotation := ⟨"this", "this", "1 +"⟩ } targets {} =
        .ok ["Rotation.Z"] := by decide +kernel
    have writable : ¬ Unwritable { rotation := ⟨"this", "this", "1 +"⟩ } targets {} :=
      (failingFields_eq_ok_iff.mp tried).1
    obtain rfl := Except.ok.inj (((reports targets).2 writable).symm.trans tried)
    exact fails .rotation .z (by decide) stage this n
  · have passed : failingFields { scale := ⟨"this", "center(this, 0 - 7)", "this"⟩ } targets {} =
        .ok [] := by decide +kernel
    have sorted : inSiblingOrder targets = targets := List.mergeSort_of_pairwise (by decide)
    have fails : (moveFrom { scale := ⟨"this", "center(this, 0 - 7)", "this"⟩ } {} 0 targets
        (Stage.start targets)).toOption.isNone = true := by decide +kernel
    cases moved : moveFrom { scale := ⟨"this", "center(this, 0 - 7)", "this"⟩ } {} 0 targets
        (Stage.start targets) with
    | ok after =>
      rw [moved] at fails
      cases fails
    | error error =>
      have failed : apply { scale := ⟨"this", "center(this, 0 - 7)", "this"⟩ } targets {} =
          .error error := by
        rw [apply, passed]
        simp only [sorted, moved]
        rfl
      obtain ⟨_, _, _, applies⟩ :=
        failingFields_decides { scale := ⟨"this", "center(this, 0 - 7)", "this"⟩ } {}
      exact ⟨error, failed, (applies targets passed).1 (by decide +kernel) error failed⟩

/-- The same formulas without targets, and with one whose index cannot be written. -/
theorem long_index_ends_validation :
    let expressions : Expressions := { position := ⟨"objects", "this", "this"⟩ }
    failingFields expressions [] {} = .ok ["Position.X"] ∧
      failingFields expressions [{ name := "far", siblingIndex := 10 ^ 5000 }] {} =
        .error .tooManyDigits := by
  decide +kernel

end Batch

end Placement
