import Placement.Formula.Conversion
import Placement.Proofs.Formula.Lexeme

namespace Placement

/-- A part of a formula as it is read: an operand, an operator, or a group in parentheses. -/
inductive Item where
  | operand (node : Node)
  | operator (op : Operator)
  | group (items : List Item)

/-- Whether a waiting operator goes to the output before another one waits. -/
def Operator.calls (op top : Operator) : Bool := (Pending.operator top).precedes op

namespace Item

mutual

/-- What an item sends to the output, and the operators that wait behind it. -/
def shunt : Item → List Operator → List Node × List Operator
  | operand node, waiting => ([node], waiting)
  | operator op, waiting =>
    ((waiting.takeWhile op.calls).map .operator, op :: waiting.dropWhile op.calls)
  | group items, waiting =>
    let inside := shuntAll items []
    (inside.1 ++ inside.2.map .operator, waiting)

def shuntAll : List Item → List Operator → List Node × List Operator
  | [], waiting => ([], waiting)
  | item :: rest, waiting =>
    let first := shunt item waiting
    let behind := shuntAll rest first.2
    (first.1 ++ behind.1, behind.2)

end

/-- The postfix sequence of some items. -/
def arrange (items : List Item) : List Node :=
  (shuntAll items []).1 ++ (shuntAll items []).2.map .operator

@[simp] theorem shuntAll_nil (waiting : List Operator) : shuntAll [] waiting = ([], waiting) := by
  simp only [shuntAll]

theorem shuntAll_operand (node : Node) (rest : List Item) (waiting : List Operator) :
    shuntAll (.operand node :: rest) waiting =
      (node :: (shuntAll rest waiting).1, (shuntAll rest waiting).2) := by
  simp only [shuntAll, shunt, List.singleton_append]

theorem shuntAll_operator (op : Operator) (rest : List Item) (waiting : List Operator) :
    shuntAll (.operator op :: rest) waiting =
      ((waiting.takeWhile op.calls).map .operator ++
          (shuntAll rest (op :: waiting.dropWhile op.calls)).1,
        (shuntAll rest (op :: waiting.dropWhile op.calls)).2) := by
  simp only [shuntAll, shunt]

theorem shuntAll_group (items rest : List Item) (waiting : List Operator) :
    shuntAll (.group items :: rest) waiting =
      (arrange items ++ (shuntAll rest waiting).1, (shuntAll rest waiting).2) := by
  simp only [shuntAll, shunt, arrange]

theorem shuntAll_append (first second : List Item) (waiting : List Operator) :
    shuntAll (first ++ second) waiting =
      ((shuntAll first waiting).1 ++ (shuntAll second (shuntAll first waiting).2).1,
        (shuntAll second (shuntAll first waiting).2).2) := by
  induction first generalizing waiting with
  | nil => simp
  | cons item rest ih => simp only [List.cons_append, shuntAll, ih, List.append_assoc]

mutual

/-- The operands of an item, those inside of groups included, in the order of the text. -/
def nodes : Item → List Node
  | operand node => [node]
  | operator _ => []
  | group items => nodesAll items

def nodesAll : List Item → List Node
  | [] => []
  | item :: rest => nodes item ++ nodesAll rest

end

mutual

theorem mem_shunt {node : Node} :
    ∀ (item : Item) (waiting : List Operator), node ∈ nodes item → node ∈ (shunt item waiting).1
  | operand _, _, member => member
  | operator _, _, member => by cases member
  | group items, _, member =>
    List.mem_append_left _ (mem_shuntAll items [] member)

theorem mem_shuntAll {node : Node} : ∀ (items : List Item) (waiting : List Operator),
    node ∈ nodesAll items → node ∈ (shuntAll items waiting).1
  | [], _, member => by cases member
  | item :: rest, waiting, member => by
    rcases List.mem_append.mp member with atHead | inRest
    · exact List.mem_append_left _ (mem_shunt item waiting atHead)
    · exact List.mem_append_right _ (mem_shuntAll rest _ inRest)

end

theorem mem_arrange {node : Node} {items : List Item} (member : node ∈ nodesAll items) :
    node ∈ arrange items :=
  List.mem_append_left _ (mem_shuntAll items [] member)

theorem flatMap_operators {α : Type} {f : Node → List α} (none : ∀ op, f (.operator op) = [])
    (operators : List Operator) : (operators.map Node.operator).flatMap f = [] :=
  List.flatMap_eq_nil_iff.mpr fun node member => by
    obtain ⟨op, _, rfl⟩ := List.mem_map.mp member
    exact none op

mutual

theorem flatMap_shunt {α : Type} {f : Node → List α} (none : ∀ op, f (.operator op) = []) :
    ∀ (item : Item) (waiting : List Operator),
      (shunt item waiting).1.flatMap f = (nodes item).flatMap f
  | operand node, waiting => by rw [shunt, nodes]
  | operator op, waiting => by rw [shunt, nodes, flatMap_operators none, List.flatMap_nil]
  | group items, waiting => by
    rw [shunt, nodes]
    dsimp only
    rw [List.flatMap_append, flatMap_operators none, List.append_nil,
      flatMap_shuntAll none items []]

theorem flatMap_shuntAll {α : Type} {f : Node → List α} (none : ∀ op, f (.operator op) = []) :
    ∀ (items : List Item) (waiting : List Operator),
      (shuntAll items waiting).1.flatMap f = (nodesAll items).flatMap f
  | [], waiting => by rw [shuntAll_nil, nodesAll]
  | item :: rest, waiting => by
    rw [shuntAll, nodesAll, List.flatMap_append, List.flatMap_append,
      flatMap_shunt none item waiting, flatMap_shuntAll none rest]

end

theorem flatMap_arrange {α : Type} {f : Node → List α} (none : ∀ op, f (.operator op) = [])
    (items : List Item) : (arrange items).flatMap f = (nodesAll items).flatMap f := by
  rw [arrange, List.flatMap_append, flatMap_operators none, List.append_nil,
    flatMap_shuntAll none]

end Item

/-- Tokens read as items. The node of an operand is given by `operand?`. -/
inductive Grouped (operand? : Token → Option Node) : List Token → List Item → Prop
  | nil : Grouped operand? [] []
  | operand {token : Token} {node : Node} {tokens : List Token} {items : List Item} :
      operand? token = some node → Grouped operand? tokens items →
      Grouped operand? (token :: tokens) (.operand node :: items)
  | operator {tokens : List Token} {items : List Item} (op : Operator) :
      Grouped operand? tokens items →
      Grouped operand? (.operator op :: tokens) (.operator op :: items)
  | group {inner tokens : List Token} {inside items : List Item} :
      Grouped operand? inner inside → Grouped operand? tokens items →
      Grouped operand? (.leftParen :: (inner ++ .rightParen :: tokens)) (.group inside :: items)

/-- Tokens read as the items between their commas. -/
inductive Parted (operand? : Token → Option Node) : List Token → List (List Item) → Prop
  | last {tokens : List Token} {items : List Item} :
      Grouped operand? tokens items → Parted operand? tokens [items]
  | more {tokens rest : List Token} {items : List Item} {parts : List (List Item)} :
      Grouped operand? tokens items → Parted operand? rest parts →
      Parted operand? (tokens ++ .comma :: rest) (items :: parts)

/-- Tokens that close `depth` parentheses opened before them. -/
inductive Unwound (operand? : Token → Option Node) : Nat → List Token → Prop
  | parted {tokens : List Token} {parts : List (List Item)} :
      Parted operand? tokens parts → Unwound operand? 0 tokens
  | close {depth : Nat} {inner tokens : List Token} {items : List Item} :
      Grouped operand? inner items → Unwound operand? depth tokens →
      Unwound operand? (depth + 1) (inner ++ .rightParen :: tokens)

theorem Unwound.closes {operand? : Token → Option Node} {depth : Nat} {tokens : List Token}
    (unwound : Unwound operand? (depth + 1) tokens) :
    ∃ inner rest items, tokens = inner ++ .rightParen :: rest ∧ Grouped operand? inner items ∧
      Unwound operand? depth rest := by
  cases unwound with
  | close grouped rest => exact ⟨_, _, _, rfl, grouped, rest⟩

theorem Unwound.parts {operand? : Token → Option Node} {tokens : List Token}
    (unwound : Unwound operand? 0 tokens) : ∃ parts, Parted operand? tokens parts := by
  cases unwound with
  | parted parted => exact ⟨_, parted⟩

namespace Grouped

variable {operand? : Token → Option Node}

theorem append {first second : List Token} {items others : List Item}
    (grouped : Grouped operand? first items) (behind : Grouped operand? second others) :
    Grouped operand? (first ++ second) (items ++ others) := by
  induction grouped with
  | nil => exact behind
  | operand isOperand _ ih => exact .operand isOperand ih
  | operator op _ ih => exact .operator op ih
  | @group inner tokens inside items grouped _ _ ih =>
    rw [List.cons_append, List.append_assoc]
    exact .group grouped ih

/-- The nodes of the operands that occur decide how tokens are read. -/
theorem mono {other : Token → Option Node} {tokens : List Token} {items : List Item}
    (grouped : Grouped operand? tokens items)
    (same : ∀ token node, node ∈ Item.nodesAll items → operand? token = some node →
      other token = some node) : Grouped other tokens items := by
  induction grouped with
  | nil => exact .nil
  | @operand token node tokens items isOperand _ ih =>
    refine .operand (same token node List.mem_cons_self isOperand) (ih fun t n member => ?_)
    exact same t n (List.mem_cons_of_mem _ member)
  | operator op _ ih => exact .operator op (ih same)
  | group _ _ ihInside ih =>
    exact .group (ihInside fun t n member => same t n (List.mem_append_left _ member))
      (ih fun t n member => same t n (List.mem_append_right _ member))

/-- Items in front of a comma, a closing parenthesis or the end can be put before what is
there already. -/
theorem append_parted {first second : List Token} {items : List Item} {parts : List (List Item)}
    (grouped : Grouped operand? first items) (parted : Parted operand? second parts) :
    ∃ all, Parted operand? (first ++ second) all ∧ all.length = parts.length := by
  cases parted with
  | last behind => exact ⟨_, .last (grouped.append behind), rfl⟩
  | more behind rest =>
    rw [← List.append_assoc]
    exact ⟨_, .more (grouped.append behind) rest, rfl⟩

theorem append_unwound {first second : List Token} {items : List Item} {depth : Nat}
    (grouped : Grouped operand? first items) (unwound : Unwound operand? depth second) :
    Unwound operand? depth (first ++ second) := by
  cases unwound with
  | parted parted =>
    obtain ⟨all, together, _⟩ := grouped.append_parted parted
    exact .parted together
  | close behind rest =>
    rw [← List.append_assoc]
    exact .close (grouped.append behind) rest

end Grouped

theorem Parted.mono {operand? other : Token → Option Node} {tokens : List Token}
    {parts : List (List Item)} (parted : Parted operand? tokens parts)
    (same : ∀ token node items, items ∈ parts → node ∈ Item.nodesAll items →
      operand? token = some node → other token = some node) : Parted other tokens parts := by
  induction parted with
  | last grouped =>
    exact .last (grouped.mono fun t n member => same t n _ List.mem_cons_self member)
  | more grouped _ ih =>
    exact .more (grouped.mono fun t n member => same t n _ List.mem_cons_self member)
      (ih fun t n items inRest => same t n items (List.mem_cons_of_mem _ inRest))

end Placement
