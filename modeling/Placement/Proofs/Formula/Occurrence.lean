import Mathlib.Data.List.Perm.Basic
import Placement.Proofs.Formula.Lexeme

namespace Placement

/-- What is read of a text stands in it. -/
theorem mem_scanFrom_within {position : Nat} {text : List Char} {placed : Placed}
    (member : placed ∈ (scanFrom position text).tokens) :
    0 < placed.token.lexeme.length ∧ position ≤ placed.position ∧
      placed.position + placed.token.lexeme.length ≤ position + text.length := by
  obtain ⟨valid, before, after, rfl, place⟩ := mem_scanFrom member
  have some := List.length_pos_iff.mpr valid.lexeme_ne_nil
  rw [List.length_append, List.length_append]
  omega

/-- Tokens follow one another and do not overlap. -/
theorem scanFrom_pairwise (position : Nat) (text : List Char) :
    (scanFrom position text).tokens.Pairwise fun first second =>
      first.position + first.token.lexeme.length ≤ second.position := by
  induction position, text using scanFrom.induct with
  | case1 position =>
    rw [scanFrom]
    exact .nil
  | case2 position c rest space ih =>
    rw [scanFrom_space space]
    exact ih
  | case3 position c rest noSpace cause offset read =>
    rw [scanFrom_error noSpace read]
    exact .nil
  | case4 position c rest noSpace token after read ih =>
    obtain ⟨text, valid, ends⟩ := readToken_eq_ok_iff.mp read
    rw [← text, scanFrom_lexeme valid ends]
    exact .cons (fun placed member => (mem_scanFrom_within member).2.1) ih

theorem scan_pairwise_position (text : List Char) :
    (scan text).tokens.Pairwise (·.position < ·.position) :=
  (scanFrom_pairwise 0 text).imp_of_mem fun atFirst _ apart => by
    have some := (mem_scanFrom_within atFirst).1
    omega

/-- Blank text holds no tokens, whichever blanks it is made of. -/
theorem scan_of_blank {text : List Char} (blank : text.all isBlank = true) :
    (scan text).tokens = [] := by
  refine List.eq_nil_iff_forall_not_mem.mpr fun placed member => ?_
  obtain ⟨valid, before, after, rfl, _⟩ := mem_scanFrom member
  obtain ⟨c, inLexeme, written⟩ := valid.exists_not_blank
  rw [List.all_eq_true.mp blank c (by simp [inLexeme])] at written
  cases written

/-- A token where it stands. `position` counts from the start of the text that the token is read
from, `start` from the start of the whole text, and `depth` is the number of calls around it. -/
structure Occurrence where
  token : Token
  position : Nat
  start : Nat
  depth : Nat

/-- The place of the last character: for a call, of the parenthesis that closes it. -/
def Occurrence.last (o : Occurrence) : Nat := o.start + o.token.lexeme.length - 1

def Token.isCall : Token → Bool
  | call _ _ => true
  | _ => false

theorem Token.length_lexeme_call (name : String) (arguments : List Char) :
    (Token.call name arguments).lexeme.length = name.toList.length + arguments.length + 2 := by
  simp only [lexeme, List.length_append, List.length_cons, List.length_nil]
  omega

/-- Around the arguments of a call stand its name and two parentheses. -/
theorem arguments_length_add_three_le {text : List Char} {placed : Placed} {name : String}
    {arguments : List Char} (member : placed ∈ (scan text).tokens)
    (isCall : placed.token = .call name arguments) : arguments.length + 3 ≤ text.length := by
  have valid := (mem_scanFrom member).1
  have upper := (mem_scanFrom_within member).2.2
  rw [isCall] at valid upper
  rw [Token.length_lexeme_call] at upper
  have named := List.length_pos_iff.mpr valid.1.ne_nil
  omega

theorem arguments_length_lt {text : List Char} {placed : Placed} {name : String}
    {arguments : List Char} (member : placed ∈ (scan text).tokens)
    (isCall : placed.token = .call name arguments) : arguments.length < text.length := by
  have shorter := arguments_length_add_three_le member isCall
  omega

/-- The tokens of a text that stands at `offset` inside of `depth` calls, and those of the
arguments of its calls, which `join` puts together with the call. -/
def walk (join : Occurrence → List Occurrence → List Occurrence) (depth offset : Nat)
    (text : List Char) : List Occurrence :=
  (scan text).tokens.attach.flatMap fun placed =>
    join ⟨placed.1.token, placed.1.position, offset + placed.1.position, depth⟩ <|
      match _isCall : placed.1.token with
      | .call name arguments =>
        walk join (depth + 1) (offset + placed.1.position + name.toList.length + 1) arguments
      | _ => []
termination_by text.length
decreasing_by exact arguments_length_lt placed.2 _isCall

/-- The occurrences inside of a token. Only calls have any. -/
def walkInside (join : Occurrence → List Occurrence → List Occurrence) (depth start : Nat) :
    Token → List Occurrence
  | .call name arguments => walk join (depth + 1) (start + name.toList.length + 1) arguments
  | _ => []

theorem walk_eq (join : Occurrence → List Occurrence → List Occurrence) (depth offset : Nat)
    (text : List Char) : walk join depth offset text = (scan text).tokens.flatMap fun placed =>
      join ⟨placed.token, placed.position, offset + placed.position, depth⟩
        (walkInside join depth (offset + placed.position) placed.token) := by
  have unattached (f : Placed → List Occurrence) : (scan text).tokens.flatMap f =
      (scan text).tokens.attach.flatMap fun placed => f placed.1 := by
    rw [← List.flatMap_map Subtype.val f, List.attach_map_subtype_val]
  rw [walk, unattached]
  refine congrArg (List.flatMap · _) (funext fun placed => ?_)
  split
  · rename_i isCall
    rw [isCall, walkInside]
  · rename_i noCall
    unfold walkInside
    split
    · rename_i isCall
      exact absurd isCall (noCall _ _)
    · rfl

/-- A token and those inside of it, in whatever order. -/
def Keeps (join : Occurrence → List Occurrence → List Occurrence) : Prop :=
  ∀ o inside, (join o inside).Perm (o :: inside)

namespace Keeps

variable {join : Occurrence → List Occurrence → List Occurrence}

theorem first : Keeps List.cons := fun _ _ => .refl _

theorem last : Keeps fun o inside => inside ++ [o] := fun o inside =>
  List.perm_append_singleton o inside

theorem mem_iff (keeps : Keeps join) {o other : Occurrence} {inside : List Occurrence} :
    other ∈ join o inside ↔ other = o ∨ other ∈ inside := by
  rw [(keeps o inside).mem_iff, List.mem_cons]

/-- Tokens stand in the text that they are found in. -/
theorem within (keeps : Keeps join) {depth offset : Nat} {text : List Char} {o : Occurrence}
    (member : o ∈ walk join depth offset text) : 0 < o.token.lexeme.length ∧ offset ≤ o.start ∧
      o.start + o.token.lexeme.length ≤ offset + text.length := by
  rw [walk_eq] at member
  obtain ⟨placed, atPlaced, joined⟩ := List.mem_flatMap.mp member
  obtain ⟨some, lower, upper⟩ := mem_scanFrom_within atPlaced
  rcases keeps.mem_iff.mp joined with rfl | inside
  · dsimp only
    omega
  · cases isCall : placed.token with
    | call name arguments =>
      have shorter := arguments_length_lt atPlaced isCall
      rw [isCall] at inside
      obtain ⟨positive, after, before⟩ := keeps.within inside
      rw [isCall, Token.length_lexeme_call] at upper
      omega
    | _ =>
      rw [isCall] at inside
      cases inside
termination_by text.length

/-- Tokens at any depth are lexemes of their kind. -/
theorem valid (keeps : Keeps join) {depth offset : Nat} {text : List Char} {o : Occurrence}
    (member : o ∈ walk join depth offset text) : o.token.Valid := by
  rw [walk_eq] at member
  obtain ⟨placed, atPlaced, joined⟩ := List.mem_flatMap.mp member
  rcases keeps.mem_iff.mp joined with rfl | inside
  · exact (mem_scanFrom atPlaced).1
  · cases isCall : placed.token with
    | call name arguments =>
      have shorter := arguments_length_lt atPlaced isCall
      rw [isCall] at inside
      exact keeps.valid inside
    | _ =>
      rw [isCall] at inside
      cases inside
termination_by text.length

/-- Tokens inside of a call stand between its first and its last character. -/
theorem inside (keeps : Keeps join) {depth start : Nat} {token : Token} {o : Occurrence}
    (member : o ∈ walkInside join depth start token) : 0 < o.token.lexeme.length ∧
      start < o.start ∧ o.start + o.token.lexeme.length < start + token.lexeme.length := by
  cases token with
  | call name arguments =>
    obtain ⟨positive, lower, upper⟩ := keeps.within member
    rw [Token.length_lexeme_call]
    omega
  | _ => cases member

theorem perm (keeps : Keeps join) (depth offset : Nat) (text : List Char) :
    (walk join depth offset text).Perm (walk List.cons depth offset text) := by
  rw [walk_eq, walk_eq]
  refine List.Perm.flatMap_left _ fun placed atPlaced => (keeps _ _).trans (.cons _ ?_)
  unfold walkInside
  split
  · rename_i name arguments isCall
    have shorter := arguments_length_lt atPlaced isCall
    exact keeps.perm _ _ _
  · exact .refl _
termination_by text.length

theorem joined (keeps : Keeps join) {depth : Nat} {o other : Occurrence}
    (some : 0 < o.token.lexeme.length)
    (member : other ∈ join o (walkInside join depth o.start o.token)) :
    0 < other.token.lexeme.length ∧ o.start ≤ other.start ∧
      other.start + other.token.lexeme.length ≤ o.start + o.token.lexeme.length := by
  rcases keeps.mem_iff.mp member with rfl | inside
  · exact ⟨some, Nat.le_refl _, Nat.le_refl _⟩
  · obtain ⟨positive, after, before⟩ := keeps.inside inside
    exact ⟨positive, by omega, by omega⟩

/-- A relation holds all along if it holds between tokens that follow one another, and between a
call and the tokens inside of it. -/
theorem pairwise (keeps : Keeps join) {R : Occurrence → Occurrence → Prop}
    (follows : ∀ first second : Occurrence, 0 < first.token.lexeme.length →
      0 < second.token.lexeme.length →
      first.start + first.token.lexeme.length ≤ second.start → R first second)
    (around : ∀ (o : Occurrence) (inside : List Occurrence), inside.Pairwise R →
      (∀ other ∈ inside, 0 < other.token.lexeme.length ∧ o.start < other.start ∧
        other.start + other.token.lexeme.length < o.start + o.token.lexeme.length) →
      (join o inside).Pairwise R)
    (depth offset : Nat) (text : List Char) : (walk join depth offset text).Pairwise R := by
  rw [walk_eq, List.pairwise_flatMap]
  constructor
  · intro placed atPlaced
    refine around _ _ ?_ fun other member => keeps.inside member
    unfold walkInside
    split
    · rename_i name arguments isCall
      have shorter := arguments_length_lt atPlaced isCall
      exact keeps.pairwise follows around _ _ _
    · exact .nil
  · refine (scanFrom_pairwise 0 text).imp_of_mem fun {first second} atFirst atSecond apart => ?_
    intro o inFirst other inSecond
    obtain ⟨some, _, upper⟩ := keeps.joined (mem_scanFrom_within atFirst).1 inFirst
    obtain ⟨someOther, lower, _⟩ := keeps.joined (mem_scanFrom_within atSecond).1 inSecond
    dsimp only at upper lower
    exact follows o other some someOther (by omega)
termination_by text.length

end Keeps

theorem walk_of_blank (join : Occurrence → List Occurrence → List Occurrence)
    (depth offset : Nat) {text : List Char} (blank : text.all isBlank = true) :
    walk join depth offset text = [] := by
  rw [walk_eq, scan_of_blank blank, List.flatMap_nil]

/-- The tokens of a text in reading order. -/
def occurrences (text : List Char) : List Occurrence := walk List.cons 0 0 text

/-- Reading order is the order of the places where tokens begin. -/
theorem occurrences_pairwise (text : List Char) :
    (occurrences text).Pairwise (·.start < ·.start) :=
  Keeps.first.pairwise (fun _ _ some _ before => by omega)
    (fun _ _ pairwise between => .cons (fun o member => (between o member).2.1) pairwise) 0 0 text

/-- The tokens of a text, with a call behind those inside of it. -/
def closingOrder (depth offset : Nat) (text : List Char) : List Occurrence :=
  walk (fun o inside => inside ++ [o]) depth offset text

/-- Behind those inside of it, a call stands in the order of the places where tokens end. -/
theorem closingOrder_pairwise (depth offset : Nat) (text : List Char) :
    (closingOrder depth offset text).Pairwise (·.last < ·.last) := by
  refine Keeps.last.pairwise (fun first second some others before => ?_)
    (fun o inside ordered within => ?_) depth offset text
  · unfold Occurrence.last
    omega
  · have closes : ∀ other ∈ inside, other.last < o.last := by
      intro other member
      obtain ⟨some, _, before⟩ := within other member
      unfold Occurrence.last
      omega
    refine List.pairwise_append.mpr ⟨ordered, List.pairwise_singleton _ _, ?_⟩
    intro other member call isCall
    exact List.mem_singleton.mp isCall ▸ closes other member

/-- The same tokens in both orders. -/
theorem closingOrder_perm (text : List Char) : (closingOrder 0 0 text).Perm (occurrences text) :=
  Keeps.last.perm 0 0 text

end Placement
