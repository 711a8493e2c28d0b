import Placement.Layout.Axis
import Placement.Proofs.Sequencing

namespace Placement

/-- The axes computed before an axis. -/
def Axis.before : Axis → List Axis
  | x => []
  | y => [x]
  | z => [x, y]

namespace PerAxis

variable {ε α : Type} {f : Axis → Except ε α}

theorem ofFnM_eq_ok_iff {v : PerAxis α} : ofFnM f = .ok v ↔ ∀ axis, f axis = .ok (v.get axis) := by
  rw [ofFnM, bind_eq_ok_iff]
  constructor
  · rintro ⟨x, atX, rest⟩
    obtain ⟨y, atY, rest⟩ := bind_eq_ok_iff.mp rest
    obtain ⟨z, atZ, same⟩ := bind_eq_ok_iff.mp rest
    cases same
    intro axis
    cases axis
    · exact atX
    · exact atY
    · exact atZ
  · intro each
    refine ⟨v.x, each .x, bind_eq_ok_iff.mpr ⟨v.y, each .y, ?_⟩⟩
    exact bind_eq_ok_iff.mpr ⟨v.z, each .z, rfl⟩

/-- Three computations fail with the first of them that does. -/
theorem ofFnM_eq_error_iff {error : ε} : ofFnM f = .error error ↔
    ∃ axis : Axis, (∀ other ∈ axis.before, ∃ value, f other = .ok value) ∧
      f axis = .error error := by
  rw [ofFnM, bind_eq_error_iff]
  constructor
  · rintro (atX | ⟨x, atX, rest⟩)
    · exact ⟨.x, nofun, atX⟩
    · rcases bind_eq_error_iff.mp rest with atY | ⟨y, atY, rest⟩
      · exact ⟨.y, by simp [Axis.before, atX], atY⟩
      · rcases bind_eq_error_iff.mp rest with atZ | ⟨z, _, done⟩
        · exact ⟨.z, by simp [Axis.before, atX, atY], atZ⟩
        · cases done
  · rintro ⟨axis, earlier, failed⟩
    cases axis with
    | x => exact Or.inl failed
    | y =>
      obtain ⟨x, atX⟩ := earlier .x (by simp [Axis.before])
      exact Or.inr ⟨x, atX, bind_eq_error_iff.mpr (Or.inl failed)⟩
    | z =>
      obtain ⟨x, atX⟩ := earlier .x (by simp [Axis.before])
      obtain ⟨y, atY⟩ := earlier .y (by simp [Axis.before])
      exact Or.inr ⟨x, atX, bind_eq_error_iff.mpr (Or.inr ⟨y, atY,
        bind_eq_error_iff.mpr (Or.inl failed)⟩)⟩

end PerAxis

end Placement
