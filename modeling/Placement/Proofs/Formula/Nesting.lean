import Placement.Formula.Scan

namespace Placement

/-- The number of open parentheses behind a text that begins inside of `depth` of them. There
is none once more are closed than were opened. -/
def openAfter : Nat → List Char → Option Nat
  | depth, [] => some depth
  | depth, c :: rest =>
    if c = '(' then openAfter (depth + 1) rest
    else if c = ')' then
      match depth with
      | 0 => none
      | outer + 1 => openAfter outer rest
    else openAfter depth rest

/-- Every parenthesis of the text has its partner in the text. -/
def Balanced (text : List Char) : Prop := openAfter 0 text = some 0

/-- No parenthesis. -/
def IsPlain (c : Char) : Prop := c ≠ '(' ∧ c ≠ ')'

theorem paren_cases (c : Char) : c = '(' ∨ c = ')' ∨ IsPlain c := by
  by_cases isOpen : c = '('
  · exact Or.inl isOpen
  · by_cases isClose : c = ')'
    · exact Or.inr (Or.inl isClose)
    · exact Or.inr (Or.inr ⟨isOpen, isClose⟩)

theorem openAfter_open (depth : Nat) (rest : List Char) :
    openAfter depth ('(' :: rest) = openAfter (depth + 1) rest := by
  simp only [openAfter, if_true]

theorem openAfter_succ_close (outer : Nat) (rest : List Char) :
    openAfter (outer + 1) (')' :: rest) = openAfter outer rest := rfl

theorem openAfter_plain {c : Char} (plain : IsPlain c) (depth : Nat) (rest : List Char) :
    openAfter depth (c :: rest) = openAfter depth rest := by
  simp only [openAfter, if_neg plain.1, if_neg plain.2]

theorem untilClose_open (depth : Nat) (rest : List Char) :
    untilClose depth ('(' :: rest) =
      (untilClose (depth + 1) rest).map fun found => ('(' :: found.1, found.2) := by
  simp only [untilClose, if_true]

theorem untilClose_succ_close (outer : Nat) (rest : List Char) :
    untilClose (outer + 1) (')' :: rest) =
      (untilClose outer rest).map fun found => (')' :: found.1, found.2) := rfl

theorem untilClose_plain {c : Char} (plain : IsPlain c) (depth : Nat) (rest : List Char) :
    untilClose depth (c :: rest) =
      (untilClose depth rest).map fun found => (c :: found.1, found.2) := by
  simp only [untilClose, if_neg plain.1, if_neg plain.2]

theorem openAfter_append (depth : Nat) (first second : List Char) :
    openAfter depth (first ++ second) = (openAfter depth first).bind (openAfter · second) := by
  induction first generalizing depth with
  | nil => rfl
  | cons c rest ih =>
    rw [List.cons_append]
    rcases paren_cases c with rfl | rfl | plain
    · rw [openAfter_open, openAfter_open, ih]
    · cases depth with
      | zero => rfl
      | succ outer => rw [openAfter_succ_close, openAfter_succ_close, ih]
    · rw [openAfter_plain plain, openAfter_plain plain, ih]

/-- A text does the same inside of more parentheses. -/
theorem openAfter_add {depth behind : Nat} {text : List Char}
    (run : openAfter depth text = some behind) (more : Nat) :
    openAfter (depth + more) text = some (behind + more) := by
  induction text generalizing depth with
  | nil =>
    cases run
    rfl
  | cons c rest ih =>
    rcases paren_cases c with rfl | rfl | plain
    · rw [openAfter_open] at run ⊢
      rw [Nat.add_right_comm]
      exact ih run
    · cases depth with
      | zero => cases run
      | succ outer =>
        rw [Nat.add_right_comm, openAfter_succ_close]
        exact ih run
    · rw [openAfter_plain plain] at run ⊢
      exact ih run

theorem Balanced.openAfter {text : List Char} (balanced : Balanced text) (depth : Nat) :
    openAfter depth text = some depth := by
  have shifted := openAfter_add balanced depth
  simpa only [Nat.zero_add] using shifted

/-- Text without parentheses leaves their number as it is. -/
theorem openAfter_of_plain {text : List Char} (plain : ∀ c ∈ text, IsPlain c)
    (depth : Nat) : openAfter depth text = some depth := by
  induction text with
  | nil => rfl
  | cons c rest ih =>
    rw [openAfter_plain (plain c List.mem_cons_self)]
    exact ih fun d member => plain d (List.mem_cons_of_mem c member)

theorem untilClose_append_close {depth : Nat} {inside : List Char}
    (run : openAfter depth inside = some 0) (after : List Char) :
    untilClose depth (inside ++ ')' :: after) = some (inside, after) := by
  induction inside generalizing depth with
  | nil =>
    cases run
    rfl
  | cons c rest ih =>
    rw [List.cons_append]
    rcases paren_cases c with rfl | rfl | plain
    · rw [openAfter_open] at run
      rw [untilClose_open, ih run]
      rfl
    · cases depth with
      | zero => cases run
      | succ outer =>
        rw [openAfter_succ_close] at run
        rw [untilClose_succ_close, ih run]
        rfl
    · rw [openAfter_plain plain] at run
      rw [untilClose_plain plain, ih run]
      rfl

theorem openAfter_of_untilClose {depth : Nat} {text inside after : List Char}
    (found : untilClose depth text = some (inside, after)) : openAfter depth inside = some 0 := by
  induction text generalizing depth inside with
  | nil => cases found
  | cons c rest ih =>
    rcases paren_cases c with rfl | rfl | plain
    · rw [untilClose_open] at found
      obtain ⟨⟨inner, behind⟩, atRest, same⟩ := Option.map_eq_some_iff.mp found
      cases same
      rw [openAfter_open]
      exact ih atRest
    · cases depth with
      | zero =>
        cases found
        rfl
      | succ outer =>
        rw [untilClose_succ_close] at found
        obtain ⟨⟨inner, behind⟩, atRest, same⟩ := Option.map_eq_some_iff.mp found
        cases same
        rw [openAfter_succ_close]
        exact ih atRest
    · rw [untilClose_plain plain] at found
      obtain ⟨⟨inner, behind⟩, atRest, same⟩ := Option.map_eq_some_iff.mp found
      cases same
      rw [openAfter_plain plain]
      exact ih atRest

/-- The parenthesis that closes a text is found where the text before it is balanced. -/
theorem untilClose_eq_some_iff {text inside after : List Char} :
    untilClose 0 text = some (inside, after) ↔ text = inside ++ ')' :: after ∧ Balanced inside := by
  constructor
  · intro found
    refine ⟨?_, openAfter_of_untilClose found⟩
    simpa using (untilClose_append found).symm
  · rintro ⟨rfl, balanced⟩
    exact untilClose_append_close balanced after

end Placement
