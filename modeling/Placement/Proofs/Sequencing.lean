import Placement.Formula.Evaluation

namespace Placement

variable {α β γ ε : Type}

instance decidableEqOk [DecidableEq α] (result : Except ε α) (value : α) :
    Decidable (result = .ok value) :=
  match result with
  | .ok other => decidable_of_iff (other = value) ⟨congrArg Except.ok, Except.ok.inj⟩
  | .error _ => isFalse nofun

theorem bind_eq_ok_iff {first : Except ε α} {next : α → Except ε β} {result : β} :
    (first >>= next) = .ok result ↔ ∃ value, first = .ok value ∧ next value = .ok result := by
  cases first with
  | error e =>
    constructor
    · intro ran
      cases ran
    · rintro ⟨value, ran, _⟩
      cases ran
  | ok value =>
    constructor
    · intro ran
      exact ⟨value, rfl, ran⟩
    · rintro ⟨other, same, ran⟩
      cases same
      exact ran

theorem bind_eq_error_iff {first : Except ε α} {next : α → Except ε β} {error : ε} :
    (first >>= next) = .error error ↔ first = .error error ∨
      ∃ value, first = .ok value ∧ next value = .error error := by
  cases first with
  | error e =>
    constructor
    · intro ran
      cases ran
      exact Or.inl rfl
    · rintro (same | ⟨value, ran, _⟩)
      · cases same
        rfl
      · cases ran
  | ok value =>
    constructor
    · intro ran
      exact Or.inr ⟨value, rfl, ran⟩
    · rintro (ran | ⟨other, same, ran⟩)
      · cases ran
      · cases same
        exact ran

theorem map_eq_ok_iff {first : Except ε α} {f : α → β} {result : β} :
    first.map f = .ok result ↔ ∃ value, first = .ok value ∧ f value = result := by
  cases first with
  | error e =>
    constructor
    · intro ran
      cases ran
    · rintro ⟨value, ran, _⟩
      cases ran
  | ok value =>
    constructor
    · intro ran
      cases ran
      exact ⟨value, rfl, rfl⟩
    · rintro ⟨other, same, rfl⟩
      cases same
      rfl

theorem map_eq_error_iff {first : Except ε α} {f : α → β} {error : ε} :
    first.map f = .error error ↔ first = .error error := by
  cases first with
  | error e =>
    constructor
    · intro ran
      cases ran
      rfl
    · intro same
      cases same
      rfl
  | ok value => exact iff_of_false nofun nofun

theorem mapError_eq_ok_iff {first : Except ε α} {f : ε → γ} {value : α} :
    first.mapError f = .ok value ↔ first = .ok value := by
  cases first with
  | error cause => exact iff_of_false nofun nofun
  | ok other =>
    constructor
    · intro same
      cases same
      rfl
    · intro same
      cases same
      rfl

theorem mapError_eq_error_iff {first : Except ε α} {f : ε → γ} {error : γ} :
    first.mapError f = .error error ↔ ∃ cause, first = .error cause ∧ f cause = error := by
  cases first with
  | error cause =>
    constructor
    · intro same
      exact ⟨cause, rfl, Except.error.inj same⟩
    · rintro ⟨_, same, rfl⟩
      cases same
      rfl
  | ok value =>
    constructor
    · intro same
      cases same
    · rintro ⟨_, same, _⟩
      cases same

theorem mapM_eq_ok {f : α → Except ε β} {g : α → β} {items : List α}
    (each : ∀ item ∈ items, f item = .ok (g item)) : items.mapM f = .ok (items.map g) := by
  induction items with
  | nil => rfl
  | cons item rest ih =>
    rw [List.mapM_cons, each item List.mem_cons_self,
      ih fun other member => each other (List.mem_cons_of_mem _ member)]
    rfl

/-- Where there is one error only, it is that of the whole. -/
theorem mapM_eq_error {f : α → Except ε β} {items : List α} {error : ε}
    (only : ∀ item ∈ items, ∀ other, f item = .error other → other = error)
    (some : ∃ item ∈ items, f item = .error error) : items.mapM f = .error error := by
  induction items with
  | nil =>
    obtain ⟨_, member, _⟩ := some
    cases member
  | cons item rest ih =>
    rw [List.mapM_cons]
    cases first : f item with
    | error other =>
      rw [only item List.mem_cons_self other first]
      rfl
    | ok value =>
      have behind : ∃ later ∈ rest, f later = .error error := by
        obtain ⟨later, member, failed⟩ := some
        rcases List.mem_cons.mp member with rfl | among
        · cases first.symm.trans failed
        · exact ⟨later, among, failed⟩
      have stopped := ih (fun other member => only other (List.mem_cons_of_mem _ member)) behind
      rw [stopped]
      rfl

namespace Traced

theorem ext {first second : Traced α} (calls : first.calls = second.calls)
    (result : first.result = second.result) : first = second := by
  cases first
  cases second
  cases calls
  cases result
  rfl

@[simp] theorem result_pure (value : α) : (pure value : Traced α).result = .ok value := rfl

@[simp] theorem result_fail (cause : EvaluationError) :
    (fail cause : Traced α).result = .error (.evaluation cause) := rfl

theorem result_ofExcept_ok_iff {given : Except EvaluationError α} {value : α} :
    (ofExcept given).result = .ok value ↔ given = .ok value := by
  cases given with
  | ok other =>
    constructor
    · intro same
      cases same
      rfl
    · intro same
      cases same
      rfl
  | error cause =>
    constructor
    · intro same
      cases same
    · intro same
      cases same

@[simp] theorem result_bind (first : Traced α) (next : α → Traced β) :
    (first >>= next).result = first.result >>= fun value => (next value).result := by
  obtain ⟨calls, result⟩ := first
  cases result <;> rfl

theorem pure_bind (value : α) (next : α → Traced β) : pure value >>= next = next value := rfl

theorem bind_pure (first : Traced α) : first >>= pure = first := by
  obtain ⟨calls, result⟩ := first
  cases result with
  | error e => rfl
  | ok value => exact ext (List.append_nil calls) rfl

theorem bind_assoc (first : Traced α) (next : α → Traced β) (last : β → Traced γ) :
    first >>= next >>= last = first >>= fun value => next value >>= last := by
  obtain ⟨calls, result⟩ := first
  cases result with
  | error e => rfl
  | ok value =>
    change Traced.bind ⟨calls ++ (next value).calls, (next value).result⟩ last =
      ⟨calls ++ (Traced.bind (next value) last).calls, (Traced.bind (next value) last).result⟩
    generalize next value = second
    obtain ⟨more, result⟩ := second
    cases result with
    | error e => rfl
    | ok other => exact ext (List.append_assoc calls more _) rfl

end Traced

theorem Outcome.result_ofTraced_congr {first second : Traced Single}
    (same : first.result = second.result) : (ofTraced first).result = (ofTraced second).result := by
  rw [ofTraced, ofTraced, same]

theorem Outcome.result_ofTraced_ok_iff {traced : Traced Single} {x : Double} :
    (ofTraced traced).result = .ok x ↔ ∃ value, traced.result = .ok value ∧ value.toDouble = x := by
  obtain ⟨calls, result⟩ := traced
  cases result with
  | error e => simp [ofTraced]
  | ok value => simp [ofTraced]

theorem Outcome.result_ofTraced_error_iff {traced : Traced Single} {failure : Failure} :
    (ofTraced traced).result = .error failure ↔
      ∃ error, traced.result = .error error ∧ Failure.raised error = failure := by
  obtain ⟨calls, result⟩ := traced
  cases result with
  | error e => simp [ofTraced]
  | ok value => simp [ofTraced]

theorem Failure.raised_of_hindrance {error : FormulaError} (free : error.hindrance? = none) :
    raised error = formula error := by
  rw [raised, free]

/-- Errors of formulas are met as they are, or not as errors of formulas. -/
theorem Failure.raised_eq_formula_iff {error other : FormulaError} :
    raised error = formula other ↔ error = other ∧ error.hindrance? = none := by
  rw [raised]
  cases error.hindrance? with
  | none => simp
  | some hindrance => cases hindrance <;> simp

/-- What keeps a message from being written is met in its place. -/
theorem Failure.raised_eq_foreign_iff {error : FormulaError} {foreign : ForeignError} :
    raised error = .foreign foreign ↔ error.hindrance? = some (.foreign foreign) := by
  rw [raised]
  cases error.hindrance? with
  | none => simp
  | some hindrance => cases hindrance <;> simp

end Placement
