import Placement.Proofs.Formula.DepthLimit
import Placement.Proofs.Formula.Running

namespace Placement

/-- What may stand between the commas of a call, and what it is read as: a formula, or nothing
but space. -/
inductive IsArgument : List Char → List Node → Prop
  | formula {text : List Char} {nodes : List Node} : parse {} text = .ok nodes →
      IsArgument text nodes
  | space {text : List Char} : text.all isSpace = true → IsArgument text []

/-- A call of some texts. -/
def callText (name : String) (texts : List (List Char)) : List Char :=
  name.toList ++ '(' :: ([','].intercalate texts ++ [')'])

namespace Limits

/-- A call that takes more levels than are left is not followed. -/
def shortage? (levels depth fewer : Nat) (placed : Placed) : Option Failure :=
  match placed.token with
  | .call name arguments =>
    match reader {} levels depth name arguments placed.position with
    | .ok node => if node.depth ≤ fewer then none else some .nesting
    | .error _ => none
  | _ => none

theorem shortage?_call {levels depth fewer : Nat} {placed : Placed} {name : String}
    {arguments : List Char} {node : Node} (isCall : placed.token = .call name arguments)
    (made : reader {} levels depth name arguments placed.position = .ok node) :
    shortage? levels depth fewer placed =
      if node.depth ≤ fewer then none else some .nesting := by
  simp only [shortage?, isCall, made]

theorem eq_nesting_of_shortage? {levels depth fewer : Nat} {placed : Placed} {failure : Failure}
    (short : shortage? levels depth fewer placed = some failure) : failure = .nesting := by
  unfold shortage? at short
  split at short
  · split at short
    · split at short <;> cases short
      rfl
    · cases short
  · cases short

/-- How many levels a call takes decides whether it is read with fewer of them. -/
theorem reader_fewer {levels depth fewer around : Nat} {name : String} {arguments : List Char}
    {position : Nat} {node : Node}
    (inside : ∀ inner less found, levels = inner + 1 →
      Placement.sequences {} inner (depth + 1) arguments = .ok found →
      Placement.sequences {} less (around + 1) arguments =
        if Node.depthArguments found ≤ less then .ok found else .error .nesting)
    (made : reader {} levels depth name arguments position = .ok node) :
    reader {} fewer around name arguments position =
      if node.depth ≤ fewer then .ok node else .error .nesting := by
  obtain ⟨_, inner, found, rfl, rfl, readInner⟩ := reader_eq_ok_iff.mp made
  rw [Node.depth]
  cases fewer with
  | zero =>
    rw [if_neg (Nat.not_succ_le_zero _)]
    rfl
  | succ less =>
    change callNode (Placement.sequences {} less (around + 1)) name arguments = _
    unfold callNode
    split
    · rename_i blank
      rw [if_pos blank] at readInner
      rw [readInner, Node.depthArguments, if_pos (by omega)]
    · rename_i written
      rw [if_neg written] at readInner
      rw [inside inner less found rfl readInner]
      by_cases within : Node.depthArguments found ≤ less
      · rw [if_pos within, if_pos (Nat.succ_le_succ within)]
        rfl
      · rw [if_neg within, if_neg (fun less => within (Nat.le_of_succ_le_succ less))]
        rfl

/-- A text that is read is also read with fewer levels, or calls nest too deep in it for them. -/
theorem sequences_fewer {levels depth : Nat} {text : List Char} {found : List (List Node)}
    (read : Placement.sequences {} levels depth text = .ok found) (fewer around : Nat) :
    Placement.sequences {} fewer around text =
      if Node.depthArguments found ≤ fewer then .ok found else .error .nesting := by
  induction levels using Nat.strongRecOn generalizing depth text found fewer around with
  | ind levels ih =>
    by_cases within : Node.depthArguments found ≤ fewer
    · rw [if_pos within]
      exact sequences_transfer read within (unlimited_allows _ _)
    rw [if_neg within]
    have shortened : Placement.sequences {} fewer around text =
        ((scan text).tokens.findSome? (shortage? levels depth fewer)).elim (.ok found) .error := by
      rw [sequences_eq_run] at read ⊢
      refine Conversion.run_refused (fun placed _ state next stepped => ?_) read
      refine Conversion.step_refused (fun name arguments isCall node made => ?_) (fun noCall => ?_)
        stepped
      · rw [shortage?_call isCall made, reader_fewer (fun inner less found same readInner =>
          ih inner (by omega) readInner less (around + 1)) made]
        split <;> rfl
      · cases isToken : placed.token with
        | call name arguments =>
          rw [isToken] at noCall
          cases noCall
        | _ => simp only [shortage?, isToken]
    cases short : (scan text).tokens.findSome? (shortage? levels depth fewer) with
    | none =>
      rw [short] at shortened
      exact absurd (depth_of_sequences shortened).1 within
    | some failure =>
      obtain ⟨_, placed, _, _, atPlaced, _⟩ := List.findSome?_eq_some_iff.mp short
      rw [shortened, short, eq_nesting_of_shortage? atPlaced]
      rfl

end Limits

/-- A text that is a single call is read as the node of this call. -/
theorem Conversion.run_call {call : CallReader} {name : String} {arguments : List Char}
    (valid : (Token.call name arguments).Valid) :
    run call (Token.call name arguments).lexeme =
      (call name arguments 0).map fun node => [[node]] := by
  have scanned := @scanFrom_lexeme _ [] valid trivial 0
  rw [List.append_nil, Placement.scanFrom] at scanned
  rw [run, scan, scanned]
  cases called : call name arguments 0 with
  | error failure =>
    simp only [List.foldlM_cons, step, called]
    rfl
  | ok node =>
    simp only [List.foldlM_cons, step, called]
    rfl

theorem parse_lexeme_call {name : String} {arguments : List Char}
    (valid : (Token.call name arguments).Valid) :
    parse {} (Token.call name arguments).lexeme =
      (callNode (sequences {} (usualLevels - 1) 1) name arguments).map fun node => [node] := by
  obtain ⟨c, member, written⟩ := valid.exists_not_blank
  have made : Limits.reader {} usualLevels 0 name arguments 0 =
      callNode (sequences {} (usualLevels - 1) 1) name arguments := rfl
  unfold parse
  rw [if_neg (by simpa using ⟨c, member, written⟩), Limits.sequences_eq_run,
    Conversion.run_call valid, made]
  cases callNode (sequences {} (usualLevels - 1) 1) name arguments <;> rfl

/-- Texts that are read one by one are read between commas, each as its own sequence. -/
theorem sequences_intercalate {limits : Limits} {levels depth : Nat} {texts : List (List Char)}
    {arguments : List (List Node)} (written : texts ≠ [])
    (each : List.Forall₂ (fun text nodes => sequences limits levels depth text = .ok [nodes])
      texts arguments) :
    sequences limits levels depth ([','].intercalate texts) = .ok arguments := by
  induction each with
  | nil => exact absurd rfl written
  | @cons text nodes texts arguments first rest ih =>
    cases texts with
    | nil =>
      cases rest
      rwa [List.intercalate_singleton]
    | cons next others =>
      obtain ⟨tokens, parts, lexes, parted, same⟩ := Limits.sequences_eq_ok_iff.mp first
      obtain ⟨more, others, lexesMore, partedMore, rfl⟩ :=
        Limits.sequences_eq_ok_iff.mp (ih (List.cons_ne_nil _ _))
      obtain ⟨items, rfl, rfl⟩ := List.map_eq_singleton_iff.mp same.symm
      cases parted with
      | more _ behind => cases behind
      | last grouped =>
        rw [List.intercalate_cons_cons]
        refine Limits.sequences_eq_ok_iff.mpr ⟨_, _, ?_, .more grouped partedMore, rfl⟩
        rw [List.append_assoc]
        exact lexes.append (.cons rfl _) lexesMore.comma

theorem IsArgument.sequences {text : List Char} {nodes : List Node}
    (read : IsArgument text nodes) : sequences {} usualLevels 0 text = .ok [nodes] := by
  cases read with
  | formula parsed => exact (Limits.parse_eq_ok_iff.mp parsed).2
  | space blank =>
    have lexes : Lexes (text ++ []) [] := Lexes.spaces (List.all_eq_true.mp blank) .nil
    rw [List.append_nil] at lexes
    exact Limits.sequences_eq_ok_iff.mpr ⟨[], [[]], lexes, .last .nil, rfl⟩

theorem callText_eq_lexeme (name : String) (texts : List (List Char)) :
    callText name texts = (Token.call name ([','].intercalate texts)).lexeme := by
  rw [callText, Token.lexeme, List.append_assoc, List.append_assoc, List.singleton_append]

theorem sequences_of_arguments {texts : List (List Char)} {arguments : List (List Node)}
    (written : texts ≠ []) (read : List.Forall₂ IsArgument texts arguments) :
    sequences {} usualLevels 0 ([','].intercalate texts) = .ok arguments :=
  sequences_intercalate written (read.imp fun _ _ => IsArgument.sequences)

theorem valid_call_of_sequences {limits : Limits} {levels depth : Nat} {name : String}
    {text : List Char} {found : List (List Node)}
    (word : IsWord Char.isLower isNameChar name.toList)
    (read : sequences limits levels depth text = .ok found) : (Token.call name text).Valid := by
  obtain ⟨tokens, parts, lexes, parted, _⟩ := Limits.sequences_eq_ok_iff.mp read
  exact ⟨word, parted.balanced lexes⟩

/-- Between the parentheses of a call there are only blanks if there is only space, and no comma. -/
theorem not_blank_of_arguments {texts : List (List Char)} {arguments : List (List Node)}
    (written : texts ≠ []) (read : List.Forall₂ IsArgument texts arguments)
    (notSpace : ∀ gap, texts = [gap] → gap.all isSpace = false) :
    ([','].intercalate texts).all isBlank = false := by
  cases read with
  | nil => exact absurd rfl written
  | @cons text nodes texts arguments first rest =>
    cases rest with
    | nil =>
      rw [List.intercalate_singleton]
      cases first with
      | formula parsed => exact (Limits.parse_eq_ok_iff.mp parsed).1
      | space gap =>
        rw [notSpace text rfl] at gap
        cases gap
    | cons _ _ =>
      rw [List.intercalate_cons_cons, List.all_append, List.all_append]
      simp [show isBlank ',' = false from rfl]

/-- Where an argument is empty, a call has no value. -/
theorem Context.runNode_empty_argument (context : Context) (name : String)
    {arguments : List (List Node)} (empty : [] ∈ arguments) (stack : List Single) :
    ∃ error, (context.runNode (.call name arguments) stack).result = .error error := by
  cases ran : (context.runNode (.call name arguments) stack).result with
  | error error => exact ⟨error, rfl⟩
  | ok after =>
    obtain ⟨given, _, evaluated, _⟩ := runNode_call_eq_ok_iff.mp ran
    obtain ⟨place, atPlace⟩ := List.mem_iff_getElem?.mp empty
    obtain ⟨value, _, nothing⟩ := evaluate_of_evaluateArguments evaluated atPlace
    rw [evaluate_eq_ok_iff] at nothing
    cases nothing

/-- A call of some texts is read as one node, with each text read by itself as an argument. A single
text of space is no argument. Calls nested as deep as is ever followed cannot stand in one more
call. Where one of several texts is nothing but space, the call is read but has no value. -/
theorem parse_callText {name : String} {texts : List (List Char)} {arguments : List (List Node)}
    (word : IsWord Char.isLower isNameChar name.toList) (written : texts ≠ [])
    (read : List.Forall₂ IsArgument texts arguments) :
    ((∀ gap, texts = [gap] → gap.all isSpace = false) →
      parse {} (callText name texts) =
        if Node.depthArguments arguments < usualLevels then .ok [.call name arguments]
        else .error .nesting) ∧
    (∀ gap, texts = [gap] → gap.all isSpace = true →
      parse {} (callText name texts) = .ok [.call name []]) ∧
    ∀ (context : Context) (called : String) (others : List (List Node)) (stack : List Single),
      [] ∈ others → ∃ error, (context.runNode (.call called others) stack).result = .error error := by
  have inside := sequences_of_arguments written read
  have parsed := parse_lexeme_call (valid_call_of_sequences word inside)
  rw [← callText_eq_lexeme] at parsed
  refine ⟨fun notSpace => ?_, ?_, fun context called others stack empty =>
    context.runNode_empty_argument called empty stack⟩
  · rw [parsed, callNode, not_blank_of_arguments written read notSpace,
      Limits.sequences_fewer inside]
    by_cases within : Node.depthArguments arguments < usualLevels
    · rw [if_pos within, if_pos (Nat.le_sub_one_of_lt within)]
      rfl
    · rw [if_neg within, if_neg (fun less => within (Nat.lt_of_le_sub_one (by decide) less))]
      rfl
  · rintro gap rfl space
    have blank : ([','].intercalate [gap]).all isBlank = true := by
      rw [List.intercalate_singleton]
      exact List.all_eq_true.mpr fun c member =>
        isBlank_of_isSpace (List.all_eq_true.mp space c member)
    rw [parsed, callNode, if_pos blank]
    rfl

/-- Three texts, one of them with a comma of its own and one of them of space. -/
theorem call_of_three_texts :
    let texts := ["x + y".toList, "max(x, y)".toList, " ".toList]
    let arguments : List (List Node) := [[.variable "x", .variable "y", .operator .add],
      [.call "max" [[.variable "x"], [.variable "y"]]], []]
    List.Forall₂ IsArgument texts arguments ∧ callText "f2" texts = "f2(x + y,max(x, y), )".toList ∧
      parse {} (callText "f2" texts) = .ok [.call "f2" arguments] ∧
      ∃ error, (Context.runNode {} (.call "f2" arguments) []).result = .error error := by
  intro texts arguments
  have read : List.Forall₂ IsArgument texts arguments := by
    refine .cons (.formula ?_) (.cons (.formula ?_) (.cons (.space ?_) .nil)) <;> decide +kernel
  have within : Node.depthArguments arguments < usualLevels := by decide +kernel
  obtain ⟨parsed, _, valueless⟩ := @parse_callText "f2" texts arguments
    ⟨'f', ['2'], rfl, rfl, by simp [isNameChar]⟩ (List.cons_ne_nil _ _) read
  have several : ∀ gap, texts = [gap] → gap.all isSpace = false := by
    intro gap same
    simp [texts] at same
  exact ⟨read, by decide +kernel, by rw [parsed several, if_pos within],
    valueless {} "f2" arguments [] (by simp [arguments])⟩

end Placement
