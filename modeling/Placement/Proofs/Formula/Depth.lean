import Placement.Proofs.Formula.Conversion

namespace Placement

namespace Item

mutual

theorem mem_of_shunt {node : Node} : ∀ (item : Item) (waiting : List Operator),
    node ∈ (shunt item waiting).1 → node ∈ nodes item ∨ ∃ op, node = .operator op
  | operand _, _, member => Or.inl member
  | operator _, waiting, member => by
    obtain ⟨op, _, same⟩ := List.mem_map.mp member
    exact Or.inr ⟨op, same.symm⟩
  | group items, waiting, member => by
    rcases List.mem_append.mp member with inside | inWaiting
    · exact mem_of_shuntAll items [] inside
    · obtain ⟨op, _, same⟩ := List.mem_map.mp inWaiting
      exact Or.inr ⟨op, same.symm⟩

theorem mem_of_shuntAll {node : Node} : ∀ (items : List Item) (waiting : List Operator),
    node ∈ (shuntAll items waiting).1 → node ∈ nodesAll items ∨ ∃ op, node = .operator op
  | [], _, member => by cases member
  | item :: rest, waiting, member => by
    rcases List.mem_append.mp member with atHead | inRest
    · exact (mem_of_shunt item waiting atHead).imp_left (List.mem_append_left _)
    · exact (mem_of_shuntAll rest _ inRest).imp_left (List.mem_append_right _)

end

/-- A postfix sequence holds the operands of its items, and operators. -/
theorem mem_of_arrange {node : Node} {items : List Item} (member : node ∈ arrange items) :
    node ∈ nodesAll items ∨ ∃ op, node = .operator op := by
  rcases List.mem_append.mp member with sent | inWaiting
  · exact mem_of_shuntAll items [] sent
  · obtain ⟨op, _, same⟩ := List.mem_map.mp inWaiting
    exact Or.inr ⟨op, same.symm⟩

end Item

theorem Grouped.exists_token {operand? : Token → Option Node} {tokens : List Token}
    {items : List Item} (grouped : Grouped operand? tokens items) {node : Node}
    (member : node ∈ Item.nodesAll items) : ∃ token, operand? token = some node := by
  induction grouped with
  | nil => cases member
  | operand isOperand _ ih =>
    rcases List.mem_cons.mp member with rfl | inRest
    · exact ⟨_, isOperand⟩
    · exact ih inRest
  | operator op _ ih => exact ih member
  | group _ _ ihInside ih =>
    rcases List.mem_append.mp member with inside | inRest
    · exact ihInside inside
    · exact ih inRest

theorem Parted.exists_token {operand? : Token → Option Node} {tokens : List Token}
    {parts : List (List Item)} (parted : Parted operand? tokens parts) {items : List Item}
    (atPart : items ∈ parts) {node : Node} (member : node ∈ Item.nodesAll items) :
    ∃ token, operand? token = some node := by
  induction parted with
  | last grouped =>
    obtain rfl := List.mem_singleton.mp atPart
    exact grouped.exists_token member
  | more grouped _ ih =>
    rcases List.mem_cons.mp atPart with rfl | inRest
    · exact grouped.exists_token member
    · exact ih inRest

namespace Node

theorem exists_depth_eq {nodes : List Node} (deep : 0 < depthSequence nodes) :
    ∃ node ∈ nodes, depth node = depthSequence nodes := by
  induction nodes with
  | nil => exact absurd deep (by simp [depthSequence])
  | cons first rest ih =>
    rw [depthSequence] at deep ⊢
    by_cases less : depth first < depthSequence rest
    · obtain ⟨node, member, same⟩ := ih (by omega)
      exact ⟨node, List.mem_cons_of_mem _ member, by omega⟩
    · exact ⟨first, List.mem_cons_self, by omega⟩

theorem exists_depthSequence_eq {sequences : List (List Node)}
    (deep : 0 < depthArguments sequences) :
    ∃ nodes ∈ sequences, depthSequence nodes = depthArguments sequences := by
  induction sequences with
  | nil => exact absurd deep (by simp [depthArguments])
  | cons first rest ih =>
    rw [depthArguments] at deep ⊢
    by_cases less : depthSequence first < depthArguments rest
    · obtain ⟨nodes, member, same⟩ := ih (by omega)
      exact ⟨nodes, List.mem_cons_of_mem _ member, by omega⟩
    · exact ⟨first, List.mem_cons_self, by omega⟩

end Node

namespace Limits

/-- What is read nests no deeper than it may. -/
theorem depth_of_sequences {limits : Limits} {levels depth : Nat} {text : List Char}
    {found : List (List Node)}
    (read : Placement.sequences limits levels depth text = .ok found) :
    Node.depthArguments found ≤ levels ∧
      (0 < Node.depthArguments found → limits.Allows (depth + Node.depthArguments found)) := by
  induction levels using Nat.strongRecOn generalizing depth text found with
  | ind levels ih =>
    obtain ⟨tokens, parts, lexes, parted, rfl⟩ := sequences_eq_ok_iff.mp read
    by_cases deep : 0 < Node.depthArguments (parts.map Item.arrange)
    · obtain ⟨nodes, atPart, sameNodes⟩ := Node.exists_depthSequence_eq deep
      obtain ⟨node, inNodes, same⟩ := Node.exists_depth_eq (sameNodes ▸ deep)
      rw [← sameNodes, ← same] at deep ⊢
      obtain ⟨items, inParts, rfl⟩ := List.mem_map.mp atPart
      rcases Item.mem_of_arrange inNodes with member | ⟨op, rfl⟩
      · obtain ⟨token, made⟩ := parted.exists_token inParts member
        cases token with
        | number | identifier =>
          cases made
          cases deep
        | constant name =>
          obtain ⟨value, _, rfl⟩ := Option.map_eq_some_iff.mp made
          cases deep
        | operator | leftParen | rightParen | comma => cases made
        | call name arguments =>
          obtain ⟨allowed, inner, sequences, rfl, rfl, readInner⟩ :=
            reader_eq_ok_iff.mp (operand?_call_iff.mp made)
          rw [Node.depth]
          split at readInner
          · subst readInner
            exact ⟨by simp [Node.depthArguments], fun _ => allowed⟩
          · obtain ⟨within, allows⟩ := ih inner (Nat.lt_succ_self inner) readInner
            refine ⟨by omega, fun _ => ?_⟩
            by_cases more : 0 < Node.depthArguments sequences
            · exact allows_of_le (allows more) (by omega)
            · exact allows_of_le allowed (by omega)
      · cases deep
    · exact ⟨by omega, fun more => absurd more deep⟩

theorem allows_zero (limits : Limits) : limits.Allows 0 := fun limit _ => Nat.zero_le limit

/-- What is read nests no deeper than it may. -/
theorem depth_of_parse {limits : Limits} {text : List Char} {nodes : List Node}
    (read : parse limits text = .ok nodes) :
    Node.depthSequence nodes ≤ limits.levels ∧ limits.Allows (Node.depthSequence nodes) := by
  obtain ⟨_, sequence⟩ := parse_eq_ok_iff.mp read
  obtain ⟨within, allowed⟩ := depth_of_sequences sequence
  rw [Node.depthArguments_singleton] at within allowed
  rw [Nat.zero_add] at allowed
  refine ⟨within, ?_⟩
  by_cases deep : 0 < Node.depthSequence nodes
  · exact allowed deep
  · exact allows_of_le limits.allows_zero (Nat.le_of_not_lt deep)

/-- What is read under some limits is read under all others that admit its depth. -/
theorem parse_transfer {limits others : Limits} {text : List Char} {nodes : List Node}
    (read : parse limits text = .ok nodes) (within : Node.depthSequence nodes ≤ others.levels)
    (allowed : others.Allows (Node.depthSequence nodes)) : parse others text = .ok nodes := by
  have single := Node.depthArguments_singleton nodes
  obtain ⟨written, sequence⟩ := parse_eq_ok_iff.mp read
  exact parse_eq_ok_iff.mpr ⟨written, sequences_transfer sequence (by rwa [single])
    (by rwa [single, Nat.zero_add])⟩

/-- Limits decide whether a text is read, but not as what. -/
theorem parse_unique {limits others : Limits} {text : List Char} {nodes again : List Node}
    (read : parse limits text = .ok nodes) (reread : parse others text = .ok again) :
    nodes = again := by
  let wide : Limits := { levels := max limits.levels others.levels }
  have first : parse wide text = .ok nodes := parse_transfer read
    (Nat.le_trans (depth_of_parse read).1 (Nat.le_max_left _ _)) (unlimited_allows _ _)
  have second : parse wide text = .ok again := parse_transfer reread
    (Nat.le_trans (depth_of_parse reread).1 (Nat.le_max_right _ _)) (unlimited_allows _ _)
  exact Except.ok.inj (first.symm.trans second)

/-- A text is read under a limit exactly if it is read without one and calls nest no deeper. -/
theorem parse_eq_ok_iff_depth {limits : Limits} {text : List Char} {nodes : List Node} :
    parse limits text = .ok nodes ↔ parse { limits with maxDepth := none } text = .ok nodes ∧
      limits.Allows (Node.depthSequence nodes) := by
  constructor
  · intro read
    obtain ⟨within, allowed⟩ := depth_of_parse read
    exact ⟨parse_transfer read within (unlimited_allows _ _), allowed⟩
  · rintro ⟨read, allowed⟩
    exact parse_transfer read (depth_of_parse read).1 allowed

theorem parse_eq_ok_iff_of_usual {limits : Limits} (usual : limits.levels = usualLevels)
    {text : List Char} {nodes : List Node} : parse limits text = .ok nodes ↔
      parse {} text = .ok nodes ∧ limits.Allows (Node.depthSequence nodes) := by
  obtain ⟨maxDepth, levels⟩ := limits
  cases usual
  exact parse_eq_ok_iff_depth

end Limits

end Placement
