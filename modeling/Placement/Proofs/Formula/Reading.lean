import Placement.Proofs.Formula.Depth
import Placement.Proofs.Formula.Occurrence
import Placement.Proofs.Formula.Sentence

namespace Placement

/-- What is referred to by name. -/
inductive Reference where
  | variable (name : String)
  | function (name : String)
  deriving DecidableEq

def Token.reference? : Token → Option Reference
  | identifier name => some (.variable name)
  | call name _ => some (.function name)
  | _ => none

namespace Node

def reference? : Node → Option Reference
  | .variable name => some (.variable name)
  | call name _ => some (.function name)
  | _ => none

mutual

/-- The operands in a node. Those in the arguments of a call are before the call. -/
def operands : Node → List Node
  | .number value => [.number value]
  | .variable name => [.variable name]
  | .operator _ => []
  | .call name arguments => operandsEach arguments ++ [.call name arguments]
  | .marker _ => []

def operandsAll : List Node → List Node
  | [] => []
  | node :: rest => operands node ++ operandsAll rest

def operandsEach : List (List Node) → List Node
  | [] => []
  | argument :: rest => operandsAll argument ++ operandsEach rest

end

theorem operandsAll_eq_flatMap (nodes : List Node) :
    operandsAll nodes = nodes.flatMap operands := by
  induction nodes with
  | nil => rw [operandsAll, List.flatMap_nil]
  | cons node rest ih => rw [operandsAll, List.flatMap_cons, ih]

theorem operandsEach_eq_flatMap (sequences : List (List Node)) :
    operandsEach sequences = sequences.flatMap (·.flatMap operands) := by
  induction sequences with
  | nil => rw [operandsEach, List.flatMap_nil]
  | cons argument rest ih => rw [operandsEach, List.flatMap_cons, ih, operandsAll_eq_flatMap]

end Node

/-- An operand stands in a text as the node that its own text is read as. -/
def Occurrence.ReadsAs (levels : Nat) (o : Occurrence) (node : Node) : Prop :=
  o.token.reference? = node.reference? ∧ parse { levels } o.token.lexeme = .ok [node]

theorem forall₂_flatMap {α β γ : Type} {R : α → β → Prop} {entries : List γ} {f : γ → List α}
    {g : γ → List β} (each : ∀ entry ∈ entries, List.Forall₂ R (f entry) (g entry)) :
    List.Forall₂ R (entries.flatMap f) (entries.flatMap g) := by
  induction entries with
  | nil => exact .nil
  | cons entry rest ih =>
    rw [List.flatMap_cons, List.flatMap_cons]
    exact List.rel_append (each entry List.mem_cons_self) (ih fun other member =>
      each other (List.mem_cons_of_mem _ member))

namespace Limits

variable {limits : Limits} {levels most depth : Nat} {text : List Char}

/-- Whatever operators do not count for is found in the nodes in the order of the text. -/
theorem flatMap_of_sequences {found : List (List Node)}
    (read : Placement.sequences limits levels depth text = .ok found) {α : Type}
    {f : Node → List α} (none : ∀ op, f (.operator op) = []) :
    found.flatMap (·.flatMap f) = (scan text).tokens.flatMap fun placed =>
      ((limits.reader levels depth).operand? placed.token).toList.flatMap f := by
  obtain ⟨tokens, parts, lexes, parted, rfl⟩ := sequences_eq_ok_iff.mp read
  rw [parted.flatMap_arrange none, ← (lexes.scanFrom 0).2, List.flatMap_map]
  rfl

/-- An operand that stands alone is read as it is among others. -/
theorem parse_lexeme {token : Token} {node : Node} (valid : token.Valid)
    (within : levels ≤ most)
    (made : (limits.reader levels depth).operand? token = some node) :
    parse { levels := most } token.lexeme = .ok [node] := by
  have lexes : Lexes token.lexeme [token] := by
    simpa only [List.append_nil] using Lexes.token valid (.of_headNot .nil) .nil
  have read : Placement.sequences limits levels depth token.lexeme = .ok [[node]] :=
    sequences_eq_ok_iff.mpr ⟨[token], [[.operand node]], lexes, .last (.operand made .nil), rfl⟩
  have deep := (depth_of_sequences read).1
  exact parse_eq_ok_iff.mpr ⟨lexes.not_blank (List.cons_ne_nil _ _),
    sequences_transfer read (Nat.le_trans deep within) nofun⟩

/-- Every operand of a text that is read has a node, the one that it is read as alone. -/
theorem operand_of_sequences {found : List (List Node)}
    (read : Placement.sequences limits levels depth text = .ok found)
    (within : levels ≤ most) {placed : Placed} (member : placed ∈ (scan text).tokens)
    {token : Token} (isToken : placed.token = token) (isOperand : token.isOperand = true) :
    ∃ node, (limits.reader levels depth).operand? token = some node ∧
      parse { levels := most } token.lexeme = .ok [node] := by
  obtain ⟨tokens, parts, lexes, parted, rfl⟩ := sequences_eq_ok_iff.mp read
  have inTokens : placed.token ∈ tokens := (lexes.scanFrom 0).2 ▸ List.mem_map_of_mem member
  rw [isToken] at inTokens
  obtain ⟨node, made⟩ := parted.operand_of_mem inTokens isOperand
  exact ⟨node, made, parse_lexeme (lexes.valid token inTokens) within made⟩

/-- The operands of a text are those in the nodes that are read of it. -/
theorem readsAs_of_sequences (offset : Nat) {found : List (List Node)}
    (read : Placement.sequences limits levels depth text = .ok found)
    (within : levels ≤ most) :
    List.Forall₂ (Occurrence.ReadsAs most)
      ((closingOrder depth offset text).filter (·.token.isOperand)) (Node.operandsEach found) := by
  induction levels using Nat.strongRecOn generalizing depth offset text found with
  | ind levels ih =>
    have none : ∀ op, Node.operands (.operator op) = [] := fun op => by rw [Node.operands]
    rw [closingOrder, walk_eq, List.filter_flatMap, Node.operandsEach_eq_flatMap,
      flatMap_of_sequences read none]
    refine forall₂_flatMap fun placed member => ?_
    cases isToken : placed.token with
    | call name arguments =>
      obtain ⟨node, made, alone⟩ := operand_of_sequences read within member isToken rfl
      obtain ⟨_, inner, nodes, rfl, rfl, readInner⟩ :=
        reader_eq_ok_iff.mp (operand?_call_iff.mp made)
      rw [made, Option.toList_some, List.flatMap_singleton, Node.operands, List.filter_append,
        walkInside]
      -- On both sides the operands in the arguments come first, and then the call.
      refine List.rel_append ?_ (.cons ⟨rfl, alone⟩ .nil)
      split at readInner
      · rename_i blank
        rw [readInner, walk_of_blank _ _ _ blank, Node.operandsEach]
        exact .nil
      · exact ih inner (Nat.lt_succ_self inner) _ readInner (by omega)
    | number | identifier =>
      obtain ⟨node, made, alone⟩ := operand_of_sequences read within member isToken rfl
      cases made
      exact .cons ⟨rfl, alone⟩ .nil
    | constant name =>
      obtain ⟨node, made, alone⟩ := operand_of_sequences read within member isToken rfl
      obtain ⟨value, _, rfl⟩ := Option.map_eq_some_iff.mp made
      rw [made]
      exact .cons ⟨rfl, alone⟩ .nil
    | operator | leftParen | rightParen | comma => exact .nil

end Limits

theorem readsAs_of_parse {limits : Limits} {text : List Char} {nodes : List Node}
    (parsed : parse limits text = .ok nodes) :
    List.Forall₂ (Occurrence.ReadsAs limits.levels)
      ((closingOrder 0 0 text).filter (·.token.isOperand)) (Node.operandsAll nodes) := by
  obtain ⟨_, read⟩ := Limits.parse_eq_ok_iff.mp parsed
  have all := Limits.readsAs_of_sequences 0 read (Nat.le_refl _)
  rwa [Node.operandsEach, Node.operandsEach, List.append_nil] at all

end Placement
