import Placement.Layout.Plan
import Placement.Proofs.Sequencing

namespace Placement

namespace Plan

variable {levels : Nat}

/-- A written target does not depend on its place in a list. -/
theorem readTarget_document (index : Nat) (target : Target) :
    readTarget levels index target.document = .ok target := rfl

theorem readTargets_document (index : Nat) (targets : List Target) :
    readTargets levels index (targets.map Target.document) = .ok targets := by
  induction targets generalizing index with
  | nil => rfl
  | cons target rest ih =>
    rw [List.map_cons, readTargets, readTarget_document]
    exact bind_eq_ok_iff.mpr ⟨target, rfl, bind_eq_ok_iff.mpr ⟨rest, ih (index + 1), rfl⟩⟩

/-- Written targets are a plan with these targets, and formulas that leave them as they are. -/
theorem ofDatum_entries (targets : List Target) :
    ofDatum levels (.mapping (targetEntries targets)) = .ok { targets } :=
  bind_eq_ok_iff.mpr ⟨{}, rfl,
    bind_eq_ok_iff.mpr ⟨targets.map Target.document, rfl,
      bind_eq_ok_iff.mpr ⟨targets, readTargets_document 0 targets, rfl⟩⟩⟩

/-- Targets that are written as a plan come back as they are, in the same order and with the
formulas that keep every value. So a plan that is read keeps its targets however often they are
written and read. -/
theorem targets_come_back (levels : Nat) (targets : List Target) :
    ofDatum levels (.mapping (targetEntries targets)) = .ok { targets } ∧
      ∀ value plan, ofDatum levels value = .ok plan →
        ofDatum levels (.mapping (targetEntries plan.targets)) = .ok { targets := plan.targets } :=
  ⟨ofDatum_entries targets, fun _ plan _ => ofDatum_entries plan.targets⟩

/-- A target given by two boxes and axis mappings, and one of which only the name is given. -/
theorem boxes_come_back :
    let box (low high : Datum) : Datum :=
      .mapping [(.text "min", low), (.text "max", .list [high, .float .half, .text " 2_0 "])]
    let value : Datum := .mapping [(.text "targets", .list [
      .mapping [(.text "bounds", .list [box .null (.int 1), box .null (.bool true)]),
        (.text "scale", .mapping [(.text "y", .text "-inf")]), (.text "sibling_index", .text "-7")],
      .mapping [(.text "name", .int 3)]])]
    ∃ plan, ofDatum usualLevels value = .ok plan ∧ plan.targets.map Target.name = ["target0", "3"] ∧
      ofDatum usualLevels (.mapping (targetEntries plan.targets)) =
        .ok { targets := plan.targets } := by
  intro box value
  have names : (ofDatum usualLevels value).toOption.map (fun plan => plan.targets.map Target.name) =
      some ["target0", "3"] := by decide +kernel
  cases read : ofDatum usualLevels value with
  | error error =>
    rw [read] at names
    cases names
  | ok plan =>
    rw [read] at names
    exact ⟨plan, rfl, Option.some.inj names,
      (targets_come_back usualLevels plan.targets).2 value plan read⟩

end Plan

end Placement
