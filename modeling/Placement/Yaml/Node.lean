import Placement.Yaml.Scanner

/-!
The nodes of a document, read from tokens. Tokens form a tree, in which a node may have a name and
be referred to by it further on. The nodes are made from the tree: a node that is missing is an
empty plain scalar, and a mapping takes in the entries of the mappings that it merges.
-/

namespace Placement.Yaml

inductive Node where
  | scalar (text : List Char) (plain : Bool)
  | sequence (items : List Node)
  | mapping (entries : List (Node × Node))
  /-- A mapping that merges something other than mappings. -/
  | wrongMerge

namespace Node

def isScalar : Node → Bool
  | scalar _ _ => true
  | _ => false

def entries? : Node → Option (List (Node × Node))
  | mapping entries => some entries
  | _ => none

/-- Whether a key says that a mapping merges others. -/
def isMergeKey : Node → Bool
  | scalar text true =>
    match resolve text with
    | .merge => true
    | _ => false
  | _ => false

/-- A key, for which the sign for the value is text. -/
def asKey : Node → Node
  | scalar text true =>
    match resolve text with
    | .value => scalar text false
    | _ => scalar text true
  | key => key

/-- The entries that a mapping merges from a mapping, or from a list of them, the last first. -/
def merged? : Node → Option (List (Node × Node))
  | mapping entries => some entries
  | sequence items => (items.reverse.mapM entries?).map List.flatten
  | _ => none

/-- The mapping with the given entries. What it merges stands before its own entries. -/
def ofEntries (entries : List (Node × Node)) : Node :=
  let (merges, own) := entries.partition (·.1.isMergeKey)
  match merges.mapM (merged? ·.2) with
  | some merged => mapping (merged.flatten ++ own.map fun (key, value) => (key.asKey, value))
  | none => wrongMerge

end Node

/-- A document as it is written. -/
inductive Tree where
  | scalar (text : List Char) (plain : Bool)
  | sequence (items : List Tree)
  | mapping (entries : List (Tree × Tree))
  | anchored (name : List Char) (content : Tree)
  | reference (name : List Char)

namespace Tree

/-- What stands for a missing node. -/
def absent : Tree := scalar [] true

mutual

/-- The node of a tree, which takes the place of every reference to its name further on. A name is
given once, and not referred to inside of the node that it is given to. -/
def node? : Tree → StateT (List (List Char × Node)) Option Node
  | scalar text plain => return .scalar text plain
  | sequence items => return .sequence (← itemNodes? items)
  | mapping entries => return .ofEntries (← entryNodes? entries)
  | anchored name content => do
    let node ← node? content
    let named ← get
    if (named.lookup name).isSome then failure
    set ((name, node) :: named)
    return node
  | reference name => do return ← ((← get).lookup name : Option Node)

def itemNodes? : List Tree → StateT (List (List Char × Node)) Option (List Node)
  | [] => return []
  | item :: rest => return (← node? item) :: (← itemNodes? rest)

def entryNodes? : List (Tree × Tree) → StateT (List (List Char × Node)) Option (List (Node × Node))
  | [] => return []
  | (key, value) :: rest => return (← node? key, ← node? value) :: (← entryNodes? rest)

end

end Tree

/-- Whether a node is missing before this token. -/
def endsValue : List Token → Bool
  | .key :: _ => true
  | .value :: _ => true
  | .blockEnd :: _ => true
  | .blockEntry :: _ => true
  | .flowEntry :: _ => true
  | .flowSequenceEnd :: _ => true
  | .flowMappingEnd :: _ => true
  | _ => false

/-- Whether the content of a named node begins with this token. -/
def startsContent (inBlock indentless : Bool) : List Token → Bool
  | .scalar .. :: _ => true
  | .flowSequenceStart :: _ => true
  | .flowMappingStart :: _ => true
  | .blockSequenceStart :: _ => inBlock
  | .blockMappingStart :: _ => inBlock
  | .blockEntry :: _ => indentless
  | _ => false

mutual

/-- A node. In a block, `indentless` tells whether a sequence may stand at the parent's column. -/
def node (inBlock indentless : Bool) : Nat → List Token → Option (Tree × List Token)
  | 0, _ => none
  | _ + 1, .scalar text plain :: rest => some (.scalar text plain, rest)
  | _ + 1, .alias name :: rest => some (.reference name, rest)
  | fuel + 1, .anchor name :: rest =>
    if startsContent inBlock indentless rest then
      (node inBlock indentless fuel rest).map fun (content, after) => (.anchored name content, after)
    else some (.anchored name .absent, rest)
  | fuel + 1, .flowSequenceStart :: rest => do
    let (items, after) ← flowItems true fuel rest
    return (.sequence items, after)
  | fuel + 1, .flowMappingStart :: rest => do
    let (entries, after) ← flowEntries true fuel rest
    return (.mapping entries, after)
  | fuel + 1, .blockSequenceStart :: rest =>
    if inBlock then do
      let (items, after) ← blockItems fuel rest
      match after with
      | .blockEnd :: behind => return (.sequence items, behind)
      | _ => none
    else none
  | fuel + 1, .blockMappingStart :: rest =>
    if inBlock then do
      let (entries, after) ← blockEntries fuel rest
      return (.mapping entries, after)
    else none
  | fuel + 1, .blockEntry :: rest =>
    if indentless then do
      let (items, after) ← blockItems fuel (.blockEntry :: rest)
      return (.sequence items, after)
    else none
  | _, _ => none

/-- The items of a block sequence. -/
def blockItems : Nat → List Token → Option (List Tree × List Token)
  | 0, _ => none
  | fuel + 1, .blockEntry :: rest => do
    let (item, after) ← if endsValue rest then some (.absent, rest) else node true false fuel rest
    let (items, behind) ← blockItems fuel after
    return (item :: items, behind)
  | _, rest => some ([], rest)

/-- The entries of a block mapping and its end. -/
def blockEntries : Nat → List Token → Option (List (Tree × Tree) × List Token)
  | 0, _ => none
  | fuel + 1, .key :: rest => do
    let (key, afterKey) ← if endsValue rest && rest.head? != some .blockEntry then some (.absent, rest)
      else node true true fuel rest
    let (value, after) ← blockValue fuel afterKey
    let (entries, behind) ← blockEntries fuel after
    return ((key, value) :: entries, behind)
  | _, .blockEnd :: rest => some ([], rest)
  | _, _ => none

/-- The value after a block key, if a colon follows. -/
def blockValue : Nat → List Token → Option (Tree × List Token)
  | 0, _ => none
  | fuel + 1, .value :: rest =>
    if endsValue rest && rest.head? != some .blockEntry then some (.absent, rest)
    else node true true fuel rest
  | _, rest => some (.absent, rest)

/-- The items of a bracketed list and its end. -/
def flowItems (first : Bool) : Nat → List Token → Option (List Tree × List Token)
  | 0, _ => none
  | fuel + 1, tokens => do
    match tokens with
    | .flowSequenceEnd :: rest => return ([], rest)
    | _ =>
      let rest ← if first then some tokens
        else match tokens with
          | .flowEntry :: rest => some rest
          | _ => none
      match rest with
      | .flowSequenceEnd :: behind => return ([], behind)
      | .key :: behind =>
        let (key, afterKey) ← if endsValue behind then some (.absent, behind)
          else node false false fuel behind
        let (value, after) ← flowValue fuel afterKey
        let (items, behind) ← flowItems false fuel after
        return (.mapping [(key, value)] :: items, behind)
      | _ =>
        let (item, after) ← node false false fuel rest
        let (items, behind) ← flowItems false fuel after
        return (item :: items, behind)

/-- The entries of a mapping in braces and its end. -/
def flowEntries (first : Bool) : Nat → List Token → Option (List (Tree × Tree) × List Token)
  | 0, _ => none
  | fuel + 1, tokens => do
    match tokens with
    | .flowMappingEnd :: rest => return ([], rest)
    | _ =>
      let rest ← if first then some tokens
        else match tokens with
          | .flowEntry :: rest => some rest
          | _ => none
      match rest with
      | .flowMappingEnd :: behind => return ([], behind)
      | .key :: behind =>
        let (key, afterKey) ← if endsValue behind then some (.absent, behind)
          else node false false fuel behind
        let (value, after) ← flowValue fuel afterKey
        let (entries, behind) ← flowEntries false fuel after
        return ((key, value) :: entries, behind)
      | _ =>
        let (key, after) ← node false false fuel rest
        let (entries, behind) ← flowEntries false fuel after
        return ((key, .absent) :: entries, behind)

/-- The value after a key in brackets, if a colon follows. -/
def flowValue : Nat → List Token → Option (Tree × List Token)
  | 0, _ => none
  | fuel + 1, .value :: rest =>
    if endsValue rest then some (.absent, rest) else node false false fuel rest
  | _, rest => some (.absent, rest)

end

/-- Whether nothing but ends of documents is left. -/
def onlyEnds (tokens : List Token) : Bool := tokens.all (· == .documentEnd)

/-- The node that makes up a document. -/
def documentNode (tokens : List Token) : Option Tree := do
  let (value, rest) ← node true false (4 * tokens.length + 8) tokens
  if onlyEnds rest then some value else none

/-- The only document of a stream. A stream without a document holds nothing, and so does
an empty document. -/
def documentOf (tokens : List Token) : Option Tree :=
  match tokens with
  | [] => some .absent
  | .documentStart :: [] => some .absent
  | .documentStart :: .documentEnd :: rest => if onlyEnds rest then some .absent else none
  | .documentStart :: rest => documentNode rest
  | _ => documentNode tokens

/-- The node of a text, if it is a well-formed document. -/
def node? (text : String) : Option Node := do
  let tree ← documentOf (← tokens? text.toList)
  tree.node?.run' []

end Placement.Yaml
