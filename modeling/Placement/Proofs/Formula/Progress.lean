import Placement.Proofs.Formula.Tiling

namespace Placement

/-- The next token of the text that begins at a position, or nothing where only space is left, and
the position behind. -/
def nextFrom (position : Nat) : List Char → Except FormulaError (Option Placed × Nat)
  | [] => .ok (none, position)
  | c :: rest =>
    if isSpace c then nextFrom (position + 1) rest
    else
      match readToken c rest with
      | .error (cause, offset) => .error (.lexical cause (position + offset))
      | .ok (token, _) => .ok (some ⟨token, position⟩, position + token.lexeme.length)

/-- One look at a text from a position in it. -/
def nextToken (text : List Char) (position : Nat) : Except FormulaError (Option Placed × Nat) :=
  nextFrom position (text.drop position)

/-- What some looks at a text give, each from where the one before came to. There is none behind
the one that finds the end of the text. -/
inductive Produces (text : List Char) : Nat → List (Option Placed) → Prop
  | nothing (position : Nat) : Produces text position []
  | ending {position stop : Nat} : nextToken text position = .ok (none, stop) →
      Produces text position [none]
  | token {position next : Nat} {placed : Placed} {rest : List (Option Placed)} :
      nextToken text position = .ok (some placed, next) → Produces text next rest →
      Produces text position (some placed :: rest)

/-- The tokens of a scan, with nothing behind them if it came to the end of the text. -/
def Scan.produced (scan : Scan) : List (Option Placed) :=
  scan.tokens.map some ++ scan.ending.toOption.toList.map fun _ => none

/-- The first token of a scan is what one look finds, and the scan goes on behind it. -/
theorem nextFrom_cases (position : Nat) (text : List Char) :
    (∃ error, nextFrom position text = .error error ∧
      scanFrom position text = ⟨[], .error error⟩) ∨
    (nextFrom position text = .ok (none, position + text.length) ∧
      scanFrom position text = ⟨[], .ok (position + text.length)⟩) ∨
    ∃ placed next before after, text = before ++ (placed.token.lexeme ++ after) ∧
      placed.token.Valid ∧ next = position + before.length + placed.token.lexeme.length ∧
      nextFrom position text = .ok (some placed, next) ∧ scanFrom position text =
        ⟨placed :: (scanFrom next after).tokens, (scanFrom next after).ending⟩ := by
  induction text generalizing position with
  | nil => exact Or.inr (Or.inl ⟨rfl, by rw [scanFrom]; rfl⟩)
  | cons c rest ih =>
    by_cases space : isSpace c = true
    · have behind : position + 1 + rest.length = position + (c :: rest).length := by
        rw [List.length_cons]
        omega
      rw [nextFrom, if_pos space, scanFrom_space space, ← behind]
      rcases ih (position + 1) with failed | ended | ⟨placed, next, before, after, rfl, found⟩
      · exact Or.inl failed
      · exact Or.inr (Or.inl ended)
      · obtain ⟨valid, rfl, looked, scanned⟩ := found
        refine Or.inr (Or.inr ⟨placed, _, c :: before, after, rfl, valid, ?_, looked, scanned⟩)
        rw [List.length_cons]
        omega
    · rw [nextFrom, if_neg space]
      cases read : readToken c rest with
      | error failure =>
        obtain ⟨cause, offset⟩ := failure
        exact Or.inl ⟨_, rfl, scanFrom_error space read position⟩
      | ok found =>
        obtain ⟨token, after⟩ := found
        obtain ⟨text, valid, ends⟩ := readToken_eq_ok_iff.mp read
        refine Or.inr (Or.inr ⟨⟨token, position⟩, _, [], after, text.symm, valid, rfl, rfl, ?_⟩)
        rw [← text, scanFrom_lexeme valid ends]
        rfl

/-- A look fails, finds the end of the text, or moves on to another position in it. -/
theorem nextToken_cases {text : List Char} {position : Nat} (within : position ≤ text.length) :
    (∃ error, nextToken text position = .error error ∧
      scanFrom position (text.drop position) = ⟨[], .error error⟩) ∨
    (nextToken text position = .ok (none, text.length) ∧
      scanFrom position (text.drop position) = ⟨[], .ok text.length⟩) ∨
    ∃ placed next, nextToken text position = .ok (some placed, next) ∧
      position < next ∧ next ≤ text.length ∧ scanFrom position (text.drop position) =
        ⟨placed :: (scanFrom next (text.drop next)).tokens,
          (scanFrom next (text.drop next)).ending⟩ := by
  have length := List.length_drop (l := text) (i := position)
  rcases nextFrom_cases position (text.drop position) with failed | ended |
    ⟨placed, next, before, after, split, valid, moved, looked, scanned⟩
  · exact Or.inl failed
  · have atEnd : position + (text.drop position).length = text.length := by omega
    rw [atEnd] at ended
    exact Or.inr (Or.inl ended)
  · have some := List.length_pos_iff.mpr valid.lexeme_ne_nil
    have rest : text.drop next = after := by
      rw [moved, Nat.add_assoc, ← List.drop_drop, split, ← List.length_append,
        ← List.append_assoc, List.drop_left]
    rw [split, List.length_append, List.length_append] at length
    rw [← rest] at scanned
    exact Or.inr (Or.inr ⟨placed, next, looked, by omega, by omega, scanned⟩)

theorem Produces.length_le {text : List Char} {position : Nat} {produced : List (Option Placed)}
    (produces : Produces text position produced) (within : position ≤ text.length) :
    position + produced.length ≤ text.length + 1 := by
  induction produces with
  | nothing position => exact Nat.le_succ_of_le within
  | ending looked => exact Nat.succ_le_succ within
  | token looked _ ih =>
    rcases nextToken_cases within with ⟨error, failed, _⟩ | ⟨ended, _⟩ |
      ⟨placed, next, found, moved, inText, _⟩
    · cases looked.symm.trans failed
    · cases looked.symm.trans ended
    · cases looked.symm.trans found
      have rest := ih inText
      rw [List.length_cons]
      omega

/-- Looks give the tokens of the scan in turn, then the end of the text if the scan reached it. -/
theorem produces_iff {text : List Char} {position : Nat} {produced : List (Option Placed)}
    (within : position ≤ text.length) : Produces text position produced ↔
      produced <+: (scanFrom position (text.drop position)).produced := by
  induction produced generalizing position with
  | nil => exact iff_of_true (.nothing position) List.nil_prefix
  | cons first rest ih =>
    rcases nextToken_cases within with ⟨error, failed, scanned⟩ | ⟨ended, scanned⟩ |
      ⟨placed, next, found, _, inText, scanned⟩
    · rw [scanned]
      refine iff_of_false (fun produces => ?_) (List.prefix_nil.not.mpr nofun)
      cases produces with
      | ending looked => cases looked.symm.trans failed
      | token looked _ => cases looked.symm.trans failed
    · rw [scanned]
      change _ ↔ first :: rest <+: [none]
      rw [List.cons_prefix_cons, List.prefix_nil]
      constructor
      · intro produces
        cases produces with
        | ending => exact ⟨rfl, rfl⟩
        | token looked _ => cases looked.symm.trans ended
      · rintro ⟨rfl, rfl⟩
        exact .ending ended
    · rw [scanned]
      change _ ↔ first :: rest <+: some placed :: (scanFrom next (text.drop next)).produced
      rw [List.cons_prefix_cons, ← ih inText]
      constructor
      · intro produces
        cases produces with
        | ending looked => cases looked.symm.trans found
        | token looked behind =>
          cases looked.symm.trans found
          exact ⟨rfl, behind⟩
      · rintro ⟨rfl, behind⟩
        exact .token found behind

theorem produces_scan_iff {text : List Char} {produced : List (Option Placed)} :
    Produces text 0 produced ↔ produced <+: (scan text).produced :=
  produces_iff (Nat.zero_le text.length)

/-- There is one token for each character at most, and the end. -/
theorem length_produced_le (text : List Char) : (scan text).produced.length ≤ text.length + 1 := by
  have all := (produces_scan_iff.mpr (List.prefix_refl _)).length_le (Nat.zero_le text.length)
  rwa [Nat.zero_add] at all

end Placement
