import Placement.Proofs.Formula.Tiling

namespace Placement

/-- The token at the start of a text, where a name makes no call. -/
def readPlain (c : Char) (rest : List Char) : TokenRead :=
  if c.isLower then
    .ok (.identifier (String.ofList ((c :: rest).takeWhile isNameChar)),
      (c :: rest).dropWhile isNameChar)
  else readToken c rest

theorem readPlain_length {c : Char} {rest after : List Char} {token : Token}
    (read : readPlain c rest = .ok (token, after)) : after.length < (c :: rest).length := by
  unfold readPlain at read
  split at read
  · rename_i lower
    cases read
    rw [List.dropWhile_cons_of_pos (isNameChar_of_isLower c lower), List.length_cons]
    exact Nat.lt_succ_of_le (List.dropWhile_sublist _).length_le
  · exact readToken_length read

/-- Scans the text that begins at a position, without any calls. -/
def scanPlainFrom (position : Nat) : List Char → Scan
  | [] => ⟨[], .ok position⟩
  | c :: rest =>
    if isSpace c then scanPlainFrom (position + 1) rest
    else
      match _read : readPlain c rest with
      | .error (cause, offset) => ⟨[], .error (.lexical cause (position + offset))⟩
      | .ok (token, after) =>
        let behind := scanPlainFrom (position + token.lexeme.length) after
        ⟨⟨token, position⟩ :: behind.tokens, behind.ending⟩
termination_by text => text.length
decreasing_by
  · simp
  · exact readPlain_length _read

/-- Scans a whole text without any calls. -/
def scanPlain (text : List Char) : Scan := scanPlainFrom 0 text

namespace Occurrence

/-- Another token, further on in the same text. -/
def further (o : Occurrence) (offset : Nat) (token : Token) : Occurrence :=
  ⟨token, o.position + offset, o.start + offset, o.depth⟩

/-- A call as its name, its parentheses and what is inside of them. Other tokens stay. -/
def apart (o : Occurrence) (inside : List Occurrence) : List Occurrence :=
  match o.token with
  | .call name arguments =>
    let opened := name.toList.length
    o.further 0 (.identifier name) :: o.further opened .leftParen ::
      (inside ++ [o.further (opened + 1 + arguments.length) .rightParen])
  | _ => [o]

def placed (o : Occurrence) : Placed := ⟨o.token, o.start⟩

end Occurrence

/-- The tokens of a text that stands at `offset`, with all its calls taken apart. -/
def unfolded (depth offset : Nat) (text : List Char) : List Placed :=
  (walk Occurrence.apart depth offset text).map Occurrence.placed

/-- A text is scanned to its end, and so are the arguments of its calls, and of the calls in
them. -/
inductive Scanned : List Char → Prop
  | intro {text : List Char} {ending : Nat} : (scan text).ending = .ok ending →
      (∀ placed ∈ (scan text).tokens, ∀ name arguments, placed.token = .call name arguments →
        Scanned arguments) →
      Scanned text

/-- The tokens that stand for one token of a text at `offset`. -/
def Placed.unfolded (depth offset : Nat) (p : Placed) : List Placed :=
  (Occurrence.apart ⟨p.token, p.position, offset + p.position, depth⟩
    (walkInside Occurrence.apart depth (offset + p.position) p.token)).map Occurrence.placed

theorem unfolded_eq (depth offset : Nat) (text : List Char) :
    unfolded depth offset text = (scan text).tokens.flatMap (Placed.unfolded depth offset) := by
  rw [unfolded, walk_eq, List.map_flatMap]
  rfl

theorem Placed.unfolded_call (depth offset position : Nat) (name : String)
    (arguments : List Char) : Placed.unfolded depth offset ⟨.call name arguments, position⟩ =
      ⟨.identifier name, offset + position⟩ ::
        ⟨.leftParen, offset + position + name.toList.length⟩ ::
        (Placement.unfolded (depth + 1) (offset + position + name.toList.length + 1) arguments ++
          [⟨.rightParen, offset + position + name.toList.length + 1 + arguments.length⟩]) := by
  simp only [Placed.unfolded, Occurrence.apart, walkInside, List.map_cons, List.map_append,
    List.map_nil, Placement.unfolded, Occurrence.placed, Occurrence.further, Nat.add_zero,
    Nat.add_assoc]

theorem Placed.unfolded_of_noCall {token : Token} (noCall : token.isCall = false)
    (depth offset position : Nat) :
    Placed.unfolded depth offset ⟨token, position⟩ = [⟨token, offset + position⟩] := by
  cases token with
  | call => cases noCall
  | _ => rfl

theorem readPlain_name {name : String} {c : Char} {rest after : List Char}
    (word : IsWord Char.isLower isNameChar name.toList) (stop : HeadNot isNameChar after)
    (text : name.toList ++ after = c :: rest) :
    readPlain c rest = .ok (.identifier name, after) := by
  have all := word.all isNameChar_of_isLower
  have lower : c.isLower = true := by
    obtain ⟨first, others, atName, lower, _⟩ := word
    rw [atName, List.cons_append] at text
    rwa [← (List.cons.inj text).1]
  rw [readPlain, if_pos lower, ← text, stop.takeWhile_append all, stop.dropWhile_append all,
    String.ofList_toList]

/-- All tokens but calls are read as they are otherwise. -/
theorem readPlain_of_readToken {c : Char} {rest after : List Char} {token : Token}
    (noCall : token.isCall = false) (read : readToken c rest = .ok (token, after)) :
    readPlain c rest = .ok (token, after) := by
  by_cases lower : c.isLower = true
  · rw [readToken_lower lower] at read
    rw [readPlain, if_pos lower]
    unfold readName at read
    dsimp only at read
    split at read
    · split at read <;> cases read
      cases noCall
    · exact read
  · rw [readPlain, if_neg lower, read]

/-- The scan with tokens put before those that it found. -/
def Scan.behind (scan : Scan) (placed : List Placed) : Scan := ⟨placed ++ scan.tokens, scan.ending⟩

theorem Scan.behind_behind (scan : Scan) (placed before : List Placed) :
    (scan.behind placed).behind before = scan.behind (before ++ placed) := by
  rw [behind, behind, behind, List.append_assoc]

theorem scanPlainFrom_spaces {gap : List Char} (spaces : ∀ c ∈ gap, isSpace c = true)
    (position : Nat) (rest : List Char) :
    scanPlainFrom position (gap ++ rest) = scanPlainFrom (position + gap.length) rest := by
  induction gap generalizing position with
  | nil => rfl
  | cons c gap ih =>
    obtain ⟨space, spaces⟩ := List.forall_mem_cons.mp spaces
    rw [List.cons_append, scanPlainFrom, if_pos space, ih spaces, List.length_cons, Nat.add_assoc,
      Nat.add_comm 1]

theorem scanPlainFrom_read {c : Char} {rest after : List Char} {token : Token}
    (noSpace : ¬ isSpace c = true) (read : readPlain c rest = .ok (token, after))
    (position : Nat) : scanPlainFrom position (c :: rest) =
      (scanPlainFrom (position + token.lexeme.length) after).behind [⟨token, position⟩] := by
  rw [scanPlainFrom, if_neg noSpace]
  split
  · rename_i other
    rw [read] at other
    cases other
  · rename_i other
    rw [read] at other
    cases other
    rfl

theorem scanPlainFrom_lexeme {token : Token} {rest : List Char} (noCall : token.isCall = false)
    (valid : token.Valid) (ends : token.Ends rest) (position : Nat) :
    scanPlainFrom position (token.lexeme ++ rest) =
      (scanPlainFrom (position + token.lexeme.length) rest).behind [⟨token, position⟩] := by
  obtain ⟨c, others, text⟩ := List.exists_cons_of_ne_nil
    (List.append_ne_nil_of_left_ne_nil valid.lexeme_ne_nil rest)
  have read := readToken_eq_ok_iff.mpr ⟨text, valid, ends⟩
  rw [text]
  exact scanPlainFrom_read (not_isSpace_of_readToken read) (readPlain_of_readToken noCall read) _

/-- A name is scanned as it stands, whatever follows that is no part of it. -/
theorem scanPlainFrom_name {name : String} {rest : List Char}
    (word : IsWord Char.isLower isNameChar name.toList) (stop : HeadNot isNameChar rest)
    (position : Nat) : scanPlainFrom position (name.toList ++ rest) =
      (scanPlainFrom (position + name.toList.length) rest).behind
        [⟨.identifier name, position⟩] := by
  obtain ⟨c, others, text⟩ := List.exists_cons_of_ne_nil
    (List.append_ne_nil_of_left_ne_nil word.ne_nil rest)
  have noSpace : ¬ isSpace c = true := by
    intro space
    obtain ⟨first, others, atName, lower, _⟩ := word
    rw [atName, List.cons_append] at text
    rw [(List.cons.inj text).1, isLower_eq_false_of_isSpace space] at lower
    cases lower
  rw [text]
  exact scanPlainFrom_read noSpace (readPlain_name word stop text) position

/-- In front of anything that makes its last lexeme no longer, the scan without calls finds the
tokens of a text with its calls taken apart. -/
def FindsUnfolded (depth : Nat) (text : List Char) : Prop :=
  ∀ start after, HeadNot continues after → scanPlainFrom start (text ++ after) =
    (scanPlainFrom (start + text.length) after).behind (unfolded depth start text)

theorem scanPlainFrom_call {depth : Nat} {name : String} {arguments : List Char}
    (word : IsWord Char.isLower isNameChar name.toList)
    (finds : FindsUnfolded (depth + 1) arguments) (offset position : Nat) (rest : List Char) :
    scanPlainFrom (offset + position) ((Token.call name arguments).lexeme ++ rest) =
      (scanPlainFrom (offset + position + (Token.call name arguments).lexeme.length) rest).behind
        (Placed.unfolded depth offset ⟨.call name arguments, position⟩) := by
  have text : (Token.call name arguments).lexeme ++ rest =
      name.toList ++ '(' :: (arguments ++ ')' :: rest) := by
    simp [Token.lexeme]
  have last : offset + position + name.toList.length + 1 + arguments.length + 1 =
      offset + position + (name.toList.length + arguments.length + 2) := by omega
  have opens (place : Nat) (inner : List Char) : scanPlainFrom place ('(' :: inner) =
      (scanPlainFrom (place + 1) inner).behind [⟨.leftParen, place⟩] :=
    @scanPlainFrom_lexeme .leftParen inner rfl trivial trivial place
  have closes (place : Nat) (behind : List Char) : scanPlainFrom place (')' :: behind) =
      (scanPlainFrom (place + 1) behind).behind [⟨.rightParen, place⟩] :=
    @scanPlainFrom_lexeme .rightParen behind rfl trivial trivial place
  rw [text, scanPlainFrom_name word (.cons rfl _), opens, finds _ _ (.cons rfl _), closes, last,
    Placed.unfolded_call, Token.length_lexeme_call]
  simp only [Scan.behind_behind, List.cons_append, List.nil_append]

theorem scanPlainFrom_placed {token : Token} {rest : List Char} {depth : Nat}
    (valid : token.Valid) (ends : token.Ends rest)
    (inside : ∀ name arguments, token = .call name arguments → FindsUnfolded (depth + 1) arguments)
    (offset position : Nat) : scanPlainFrom (offset + position) (token.lexeme ++ rest) =
      (scanPlainFrom (offset + position + token.lexeme.length) rest).behind
        (Placed.unfolded depth offset ⟨token, position⟩) := by
  cases token with
  | call name arguments =>
    exact scanPlainFrom_call valid.1 (inside name arguments rfl) offset position rest
  | _ =>
    rw [Placed.unfolded_of_noCall rfl]
    exact scanPlainFrom_lexeme rfl valid ends _

theorem Tiles.scanPlainFrom {position : Nat} {front after : List Char} {placed : List Placed}
    (tiles : Tiles [] position front placed) (stop : HeadNot continues after) (depth offset : Nat)
    (inside : ∀ p ∈ placed, ∀ name arguments, p.token = .call name arguments →
      FindsUnfolded (depth + 1) arguments) :
    scanPlainFrom (offset + position) (front ++ after) =
      (scanPlainFrom (offset + (position + front.length)) after).behind
        (placed.flatMap (Placed.unfolded depth offset)) := by
  induction tiles with
  | last spaces =>
    rw [scanPlainFrom_spaces spaces, Nat.add_assoc]
    rfl
  | @more position gap rest token placed spaces valid ends _ ih =>
    obtain ⟨atToken, atRest⟩ := List.forall_mem_cons.mp inside
    rw [List.append_nil] at ends
    rw [List.append_assoc, List.append_assoc, scanPlainFrom_spaces spaces, Nat.add_assoc,
      scanPlainFrom_placed valid (ends.append stop) atToken, Nat.add_assoc, ih atRest,
      Scan.behind_behind, List.flatMap_cons]
    simp only [List.length_append, Nat.add_assoc]

/-- Nested calls first: what is known of their arguments holds of the text around them. -/
theorem Scanned.findsUnfolded {text : List Char} (scanned : Scanned text) (depth : Nat) :
    FindsUnfolded depth text := by
  induction scanned generalizing depth with
  | @intro text ending scanned _ ih =>
    intro start after stop
    obtain ⟨front, behind, whole, tiles, ⟨rfl, _⟩ | ⟨cause, place, _, error⟩⟩ := exists_tiles 0 text
    · rw [List.append_nil] at whole
      subst whole
      have found := tiles.scanPlainFrom stop depth start fun p member name arguments isCall =>
        ih p member name arguments isCall (depth + 1)
      rw [unfolded_eq, scan]
      simpa only [Nat.add_zero, Nat.zero_add] using found
    · cases error.symm.trans scanned

/-- Where a text, the arguments of its calls and of those in them can all be scanned, the scan
without calls comes to the end of the text too. It finds the tokens of the text, where each call
stands as its name, a parenthesis, the tokens of its arguments and the other parenthesis, all at
their places in the text. -/
theorem scanPlain_eq_unfolded {text : List Char} (scanned : Scanned text) :
    scanPlain text = ⟨unfolded 0 0 text, .ok text.length⟩ := by
  have found := scanned.findsUnfolded 0 0 [] .nil
  rw [List.append_nil, Nat.zero_add] at found
  rw [scanPlain, found, scanPlainFrom, Scan.behind, List.append_nil]

theorem Scanned.of_lexes {text : List Char} {tokens : List Token} (lexes : Lexes text tokens)
    (inside : ∀ name arguments, .call name arguments ∈ tokens → Scanned arguments) :
    Scanned text := by
  obtain ⟨⟨ending, scanned⟩, rfl⟩ := lexes.scanFrom 0
  refine .intro scanned fun placed member name arguments isCall => inside name arguments ?_
  rw [← isCall]
  exact List.mem_map_of_mem member

/-- A call in a call, with space in front of its argument. -/
theorem scanPlain_of_nested :
    let text := "f(g( x),1)*y".toList
    Scanned text ∧ (scanPlain text).ending = .ok 12 ∧
      (scanPlain text).tokens = unfolded 0 0 text := by
  intro text
  have word {first others : Char → Bool} (c : Char) (inside : first c = true) :
      IsWord first others [c] := ⟨c, [], rfl, inside, List.forall_mem_nil _⟩
  have name (c : Char) (lower : c.isLower = true) :
      (Token.identifier (String.ofList [c])).Valid := by
    simpa only [Token.Valid, String.toList_ofList] using word c lower
  have inner : (Token.call "g" [' ', 'x']).Valid := ⟨word 'g' rfl, rfl⟩
  have outer : (Token.call "f" "g( x),1".toList).Valid := ⟨word 'f' rfl, rfl⟩
  have one : (Token.number ['1']).Valid := ⟨word '1' rfl, Nat.zero_le 1⟩
  have atX : Scanned [' ', 'x'] := by
    refine .of_lexes (.space rfl (.token (name 'x' rfl) (.of_headNot .nil) .nil)) ?_
    simp
  have atInner : Scanned "g( x),1".toList := by
    refine .of_lexes (.token inner trivial (.comma (.token one (.of_headNot .nil) .nil))) ?_
    simpa using atX
  have scanned : Scanned text := by
    have atY : Lexes ['y'] _ := .token (name 'y' rfl) (.of_headNot .nil) .nil
    refine .of_lexes (.token outer trivial (.operator .multiply atY)) ?_
    simpa using atInner
  rw [scanPlain_eq_unfolded scanned]
  exact ⟨scanned, rfl, rfl⟩

end Placement
