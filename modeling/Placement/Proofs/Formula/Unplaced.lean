import Mathlib.Data.List.Forall2
import Placement.Proofs.Formula.Conversion

namespace Placement

/-- The error wherever it is. Its kind and all that its message says in front of the place stay. -/
def FormulaError.unplaced : FormulaError → FormulaError
  | lexical cause _ => lexical cause 0
  | parse cause position => parse cause (position.map fun _ => 0)
  | evaluation cause => evaluation cause

theorem FormulaError.description_unplaced (error : FormulaError) :
    error.unplaced.description = error.description := by
  cases error <;> rfl

def Failure.unplaced : Failure → Failure
  | formula error => formula error.unplaced
  | nesting => nesting
  | foreign error => foreign error

/-- Two results that are both values, and related, or the same failure but for its place. -/
inductive UpToPlace {α β : Type} (R : α → β → Prop) : Except Failure α → Except Failure β → Prop
  | ok {value : α} {other : β} : R value other → UpToPlace R (.ok value) (.ok other)
  | error {failure other : Failure} : failure.unplaced = other.unplaced →
      UpToPlace R (.error failure) (.error other)

namespace UpToPlace

variable {α β γ δ : Type} {R : α → β → Prop} {S : γ → δ → Prop}
  {here : Except Failure α} {there : Except Failure β}

theorem bind {next : α → Except Failure γ} {others : β → Except Failure δ}
    (first : UpToPlace R here there)
    (behind : ∀ value other, R value other → UpToPlace S (next value) (others other)) :
    UpToPlace S (here >>= next) (there >>= others) := by
  cases first with
  | ok related => exact behind _ _ related
  | error same => exact .error same

theorem map {f : α → γ} {g : β → δ} (first : UpToPlace R here there)
    (behind : ∀ value other, R value other → S (f value) (g other)) :
    UpToPlace S (here.map f) (there.map g) := by
  cases first with
  | ok related => exact .ok (behind _ _ related)
  | error same => exact .error same

theorem refl (result : Except Failure α) : UpToPlace Eq result result := by
  cases result with
  | ok value => exact .ok rfl
  | error failure => exact .error rfl

theorem trans {first second third : Except Failure α} (before : UpToPlace Eq first second)
    (behind : UpToPlace Eq second third) : UpToPlace Eq first third := by
  cases before with
  | ok same =>
    cases behind with
    | ok again => exact .ok (same.trans again)
  | error same =>
    cases behind with
    | error again => exact .error (same.trans again)

end UpToPlace

/-- What waits, but for the places of open parentheses. -/
inductive Pending.Alike : Pending → Pending → Prop
  | operator (op : Operator) : Alike (.operator op) (.operator op)
  | openParen (here there : Nat) : Alike (.openParen here) (.openParen there)

/-- The same token, but for the text of the arguments of a call. -/
inductive Token.Alike (R : List Char → List Char → Prop) : Token → Token → Prop
  | same {token : Token} : (∀ name arguments, token ≠ .call name arguments) → Alike R token token
  | call {name : String} {arguments others : List Char} : R arguments others →
      Alike R (.call name arguments) (.call name others)

/-- The same conversion under way, but for the places of open parentheses. -/
structure Conversion.Alike (here there : Conversion) : Prop where
  finished : here.finished = there.finished
  output : here.output = there.output
  stack : List.Forall₂ Pending.Alike here.stack there.stack

/-- Two scans with the same tokens, and both at an end or stopped by the same error. -/
structure Scan.Alike (R : List Char → List Char → Prop) (here there : Scan) : Prop where
  tokens : List.Forall₂ (fun first second => first.token.Alike R second.token)
    here.tokens there.tokens
  ending : UpToPlace (fun _ _ => True) (here.ending.mapError .formula)
    (there.ending.mapError .formula)

theorem Token.Alike.refl {R : List Char → List Char → Prop} (related : ∀ text, R text text)
    (token : Token) : token.Alike R token := by
  cases token with
  | call name arguments => exact .call (related arguments)
  | _ => exact .same nofun

namespace Scan.Alike

variable {R : List Char → List Char → Prop}

theorem ends (position other : Nat) : Alike R ⟨[], .ok position⟩ ⟨[], .ok other⟩ :=
  ⟨.nil, .ok trivial⟩

theorem stops (cause : LexicalError) (position other : Nat) :
    Alike R ⟨[], .error (.lexical cause position)⟩ ⟨[], .error (.lexical cause other)⟩ :=
  ⟨.nil, .error rfl⟩

theorem token {first second : Token} (same : first.Alike R second) (position other : Nat)
    {here there : Scan} (behind : Alike R here there) :
    Alike R ⟨⟨first, position⟩ :: here.tokens, here.ending⟩
      ⟨⟨second, other⟩ :: there.tokens, there.ending⟩ :=
  ⟨.cons same behind.tokens, behind.ending⟩

end Scan.Alike

/-- A text has the same tokens wherever it begins. -/
theorem scanFrom_alike {R : List Char → List Char → Prop} (related : ∀ text, R text text)
    (position other : Nat) (text : List Char) :
    (scanFrom position text).Alike R (scanFrom other text) := by
  induction position, text using scanFrom.induct generalizing other with
  | case1 position =>
    rw [scanFrom, scanFrom]
    exact .ends position other
  | case2 position c rest space ih =>
    rw [scanFrom_space space, scanFrom_space space]
    exact ih (other + 1)
  | case3 position c rest noSpace cause offset read =>
    rw [scanFrom_error noSpace read, scanFrom_error noSpace read]
    exact .stops cause _ _
  | case4 position c rest noSpace token after read ih =>
    obtain ⟨text, valid, ends⟩ := readToken_eq_ok_iff.mp read
    rw [← text, scanFrom_lexeme valid ends, scanFrom_lexeme valid ends]
    exact .token (.refl related token) position other (ih _)

theorem popToOpen_alike {here there : List Pending}
    (alike : List.Forall₂ Pending.Alike here there) :
    (popToOpen here = none ∧ popToOpen there = none) ∨ ∃ nodes below others,
      popToOpen here = some (nodes, below) ∧ popToOpen there = some (nodes, others) ∧
        List.Forall₂ Pending.Alike below others := by
  induction alike with
  | nil => exact .inl ⟨rfl, rfl⟩
  | cons top below ih =>
    cases top with
    | openParen => exact .inr ⟨[], _, _, rfl, rfl, below⟩
    | operator op =>
      rcases ih with ⟨noHere, noThere⟩ | ⟨nodes, rest, others, atHere, atThere, alike⟩
      · exact .inl ⟨by rw [popToOpen, noHere]; rfl, by rw [popToOpen, noThere]; rfl⟩
      · exact .inr ⟨.operator op :: nodes, rest, others, by rw [popToOpen, atHere]; rfl,
          by rw [popToOpen, atThere]; rfl, alike⟩

theorem popAll_alike {here there : List Pending} (alike : List.Forall₂ Pending.Alike here there) :
    (∃ nodes, popAll here = .ok nodes ∧ popAll there = .ok nodes) ∨
      ∃ position other, popAll here = .error position ∧ popAll there = .error other := by
  induction alike with
  | nil => exact .inl ⟨[], rfl, rfl⟩
  | cons top below ih =>
    cases top with
    | openParen position other => exact .inr ⟨position, other, rfl, rfl⟩
    | operator op =>
      rcases ih with ⟨nodes, atHere, atThere⟩ | ⟨position, other, atHere, atThere⟩
      · exact .inl ⟨.operator op :: nodes, by rw [popAll, atHere]; rfl, by rw [popAll, atThere]; rfl⟩
      · exact .inr ⟨position, other, by rw [popAll, atHere]; rfl, by rw [popAll, atThere]; rfl⟩

theorem precedes_alike (op : Operator) {here there : List Pending}
    (alike : List.Forall₂ Pending.Alike here there) :
    (here.takeWhile (Pending.precedes op)).map Pending.node =
        (there.takeWhile (Pending.precedes op)).map Pending.node ∧
      List.Forall₂ Pending.Alike (here.dropWhile (Pending.precedes op))
        (there.dropWhile (Pending.precedes op)) := by
  induction alike with
  | nil => exact ⟨rfl, .nil⟩
  | @cons top other _ _ same below ih =>
    have precedes : Pending.precedes op top = Pending.precedes op other := by
      cases same <;> rfl
    have node : top.node = other.node := by
      cases same <;> rfl
    rw [List.takeWhile_cons, List.takeWhile_cons, List.dropWhile_cons, List.dropWhile_cons, precedes]
    split
    · exact ⟨by rw [List.map_cons, List.map_cons, node, ih.1], ih.2⟩
    · exact ⟨rfl, .cons same below⟩

namespace Conversion

variable {R : List Char → List Char → Prop} {here there : Conversion}

theorem Alike.emit (alike : Alike here there) (node : Node) :
    Alike (here.emit node) (there.emit node) :=
  ⟨alike.finished, congrArg (· ++ [node]) alike.output, alike.stack⟩

theorem Alike.closeParen (alike : Alike here there) (position other : Nat) :
    UpToPlace Alike (here.closeParen position) (there.closeParen other) := by
  unfold Conversion.closeParen
  rcases popToOpen_alike alike.stack with ⟨noHere, noThere⟩ |
    ⟨nodes, below, others, atHere, atThere, waiting⟩
  · rw [noHere, noThere]
    exact .error rfl
  · rw [atHere, atThere]
    exact .ok ⟨alike.finished, congrArg (· ++ nodes) alike.output, waiting⟩

theorem Alike.endSequence (alike : Alike here there) :
    UpToPlace Alike here.endSequence there.endSequence := by
  unfold Conversion.endSequence
  rcases popAll_alike alike.stack with ⟨nodes, atHere, atThere⟩ |
    ⟨position, other, atHere, atThere⟩
  · rw [atHere, atThere, alike.finished, alike.output]
    exact .ok ⟨rfl, rfl, .nil⟩
  · rw [atHere, atThere]
    exact .error rfl

variable {call calls : CallReader}

/-- A step does the same for the same token, wherever it is. -/
theorem Alike.step (made : ∀ name arguments others position other, R arguments others →
      UpToPlace Eq (call name arguments position) (calls name others other))
    (alike : Alike here there) {first second : Placed} (token : first.token.Alike R second.token) :
    UpToPlace Alike (Conversion.step call here first) (Conversion.step calls there second) := by
  obtain ⟨token, position⟩ := first
  obtain ⟨other, place⟩ := second
  cases token with
  | call related =>
    exact (made _ _ _ position place related).map fun _ _ same => same ▸ alike.emit _
  | same noCall =>
    cases token with
    | number | identifier => exact .ok (alike.emit _)
    | constant name =>
      simp only [Conversion.step]
      cases Builtin.constant? name with
      | some value => exact .ok (alike.emit _)
      | none => exact .error rfl
    | call name arguments => exact absurd rfl (noCall name arguments)
    | operator op =>
      obtain ⟨nodes, waiting⟩ := precedes_alike op alike.stack
      exact .ok ⟨alike.finished, congrArg₂ List.append alike.output nodes,
        .cons (.operator op) waiting⟩
    | leftParen =>
      exact .ok ⟨alike.finished, alike.output, .cons (.openParen position place) alike.stack⟩
    | rightParen => exact alike.closeParen position place
    | comma => exact alike.endSequence

theorem Alike.foldlM (made : ∀ name arguments others position other, R arguments others →
      UpToPlace Eq (call name arguments position) (calls name others other))
    {tokens others : List Placed}
    (same : List.Forall₂ (fun first second => first.token.Alike R second.token) tokens others)
    (alike : Alike here there) :
    UpToPlace Alike (tokens.foldlM (Conversion.step call) here)
      (others.foldlM (Conversion.step calls) there) := by
  induction same generalizing here there with
  | nil => exact .ok alike
  | cons token _ ih =>
    rw [List.foldlM_cons, List.foldlM_cons]
    exact (alike.step made token).bind fun _ _ next => ih next

theorem run_alike (made : ∀ name arguments others position other, R arguments others →
      UpToPlace Eq (call name arguments position) (calls name others other))
    {text other : List Char} (scans : (scan text).Alike R (scan other)) :
    UpToPlace Eq (run call text) (run calls other) := by
  have start : Alike {} {} := ⟨rfl, rfl, .nil⟩
  unfold run
  refine (start.foldlM made scans.tokens).bind fun state others alike => ?_
  have endings := scans.ending
  cases atHere : (scan text).ending <;> cases atThere : (scan other).ending <;>
    rw [atHere, atThere] at endings <;> cases endings
  · rename_i same
    exact .error same
  · exact alike.endSequence.bind fun _ _ done => .ok done.finished

end Conversion

/-- Texts that are read alike: the same tokens, with the arguments of calls related again. -/
structure ReadAlike (R : List Char → List Char → Prop) : Prop where
  scan {text other : List Char} : R text other → (scan text).Alike R (scan other)
  blank {text other : List Char} : R text other → text.all isBlank = other.all isBlank

namespace ReadAlike

variable {R : List Char → List Char → Prop} (alike : ReadAlike R)
include alike

theorem callNode {read : List Char → Except Failure (List (List Node))}
    (reads : ∀ text other, R text other → UpToPlace Eq (read text) (read other)) (name : String)
    {arguments others : List Char} (related : R arguments others) :
    UpToPlace Eq (callNode read name arguments) (callNode read name others) := by
  unfold Placement.callNode
  rw [alike.blank related]
  split
  · exact .ok rfl
  · exact (reads _ _ related).map fun _ _ same => congrArg _ same

theorem reader {limits : Limits} {levels depth : Nat} (reads : ∀ fewer around text other,
      fewer < levels → R text other → UpToPlace Eq
        (sequences limits fewer around text) (sequences limits fewer around other))
    (name : String) (arguments others : List Char) (position other : Nat)
    (related : R arguments others) : UpToPlace Eq
      (limits.reader levels depth name arguments position)
      (limits.reader levels depth name others other) := by
  have admitted : UpToPlace Eq ( limits.admit (depth + 1) name position)
      ( limits.admit (depth + 1) name other) := by
    unfold Limits.admit
    split
    · split
      · exact .error rfl
      · exact .ok rfl
    · exact .ok rfl
  cases levels with
  | zero => exact admitted.bind fun _ _ _ => .error rfl
  | succ levels =>
    refine admitted.bind fun _ _ _ => alike.callNode (fun text other same => ?_) name related
    exact reads levels _ text other (Nat.lt_succ_self levels) same

theorem sequences {limits : Limits} {levels depth : Nat} {text other : List Char}
    (related : R text other) : UpToPlace Eq (Placement.sequences limits levels depth text)
      (Placement.sequences limits levels depth other) := by
  induction levels using Nat.strongRecOn generalizing depth text other with
  | ind levels ih =>
    rw [Limits.sequences_eq_run, Limits.sequences_eq_run]
    refine Conversion.run_alike (alike.reader fun fewer around text other less same => ?_)
      (alike.scan related)
    exact ih fewer less same

/-- Texts that are read alike have the same nodes, or fail alike in different places. -/
theorem parse (limits : Limits) {text other : List Char} (related : R text other) :
    UpToPlace Eq (parse limits text) (parse limits other) := by
  unfold Placement.parse
  rw [alike.blank related]
  split
  · exact .error rfl
  · have read : UpToPlace Eq (Placement.sequences limits limits.levels 0 text)
        (Placement.sequences limits limits.levels 0 other) := alike.sequences related
    match Placement.sequences limits limits.levels 0 text,
      Placement.sequences limits limits.levels 0 other, read with
    | .error _, .error _, .error same => exact .error same
    | .ok [nodes], .ok _, .ok rfl => exact .ok rfl
    | .ok [], .ok _, .ok rfl => exact .error rfl
    | .ok (_ :: _ :: _), .ok _, .ok rfl => exact .error rfl

end ReadAlike

end Placement
