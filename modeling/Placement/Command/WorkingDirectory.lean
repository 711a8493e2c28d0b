import Placement.Command.Surroundings

/-!
A working directory and the paths that start in it. A path is followed component by component,
each of which needs a directory before it, a dot and an empty component too. So a file is not
found behind a slash, and two dots lead back only from what is there.
-/

namespace Placement.Command

/-- Where the names of a place start. -/
inductive Base where
  | here
  | root
  /-- A directory above the working directory, of which nothing else is known. -/
  | above
  deriving DecidableEq

/-- A place in the tree of directories, by the names that lead to it. -/
structure Place where
  base : Base
  names : List String
  deriving DecidableEq

namespace Place

def child (place : Place) (name : String) : Place := { place with names := place.names ++ [name] }

/-- The directory that holds a place. The root holds itself. -/
def parent (place : Place) : Place :=
  if place.base = .here ∧ place.names = [] then ⟨.above, []⟩
  else { place with names := place.names.dropLast }

end Place

/-- Files by the names that lead to them, and with them the directories that hold files. -/
structure WorkingDirectory where
  files : List (List String × String)

namespace WorkingDirectory

/-- The directory with files at the given paths. -/
def ofFiles (files : List (String × String)) : WorkingDirectory where
  files := files.map fun (path, text) =>
    ((path.splitOn "/").filter fun component => component != "" && component != ".", text)

/-- Directories that stand at the root. -/
def rootDirectories : List String := ["dev", "etc", "home", "tmp", "usr", "var"]

/-- What stands at a place. Of what is outside only a few directories and the empty device are
known. -/
def entryAt (directory : WorkingDirectory) (place : Place) : Entry :=
  match place.base with
  | .here =>
    match directory.files.lookup place.names with
    | some text => .file text
    | none =>
      if place.names.isEmpty || directory.files.any (place.names.isPrefixOf ·.1) then .directory
      else .absent
  | .root =>
    match place.names with
    | [] => .directory
    | ["dev", "null"] => .file ""
    | [name] => if name ∈ rootDirectories then .directory else .absent
    | _ => .absent
  | .above => if place.names.isEmpty then .directory else .absent

/-- The most bytes in the name of an entry. -/
def nameLimit : Nat := 255

/-- The place that components lead to. All but the last have to be there as directories. -/
def follow (directory : WorkingDirectory) : Place → List String → Option Place
  | place, [] => some place
  | place, component :: rest =>
    if directory.entryAt place ≠ .directory then none
    else if component = "" ∨ component = "." then follow directory place rest
    else if component = ".." then follow directory place.parent rest
    else if nameLimit < component.utf8ByteSize then none
    else follow directory (place.child component) rest

/-- The most bytes in a path. -/
def pathLimit : Nat := 4095

/-- The place that a path leads to. The empty path leads nowhere. -/
def find (directory : WorkingDirectory) (path : String) : Option Place :=
  if path = "" ∨ pathLimit < path.utf8ByteSize then none
  else
    let start : Place := ⟨if path.startsWith "/" then .root else .here, []⟩
    directory.follow start (path.splitOn "/")

def look (directory : WorkingDirectory) (path : String) : Entry :=
  match directory.find path with
  | some place => directory.entryAt place
  | none => .unreachable

/-- What a command in the directory sees. -/
def surroundings (directory : WorkingDirectory) (depthSetting : Option String) : Surroundings where
  look := directory.look
  depthSetting

/-- The file of the directory that changes when a text is written to a path. -/
def change? (directory : WorkingDirectory) (path text : String) : Option (String × String) :=
  match directory.find path with
  | some ⟨.here, names⟩ =>
    if directory.files.lookup names = some text then none else some ("/".intercalate names, text)
  | _ => none

end WorkingDirectory

end Placement.Command
