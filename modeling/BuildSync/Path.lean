import BuildSync.Text.Cut

/-! # Paths

* `Path`: a path's components; two spellings of the same components are the same path.
* `Path.ofText`, `Path.text`: the path of a spelling and its plain spelling.
* `parentText?`, `joinText`: the spelling of a path's parent, and of a path below another.
* `Location`: the place of a file or directory, as the names on the way from the root.
-/

namespace BuildSync

/-- The components of a path. A component may be `..`; `.` only stands first, in a path that does
not start at the root. -/
structure Path where
  rooted : Bool
  parts : List String
deriving DecidableEq, Repr

/-- The place of a file or directory: the names on the way from the root. -/
abbrev Location := List String

/-- The spelling of a location. -/
def Location.text (location : Location) : String :=
  "/" ++ String.intercalate "/" location

/-- A location and those above it, the nearest first. -/
def Location.upward (location : Location) : List Location :=
  (List.range (location.length + 1)).map fun n => location.take (location.length - n)

namespace Path

/-- What stands between the slashes of a path's spelling. -/
def segments (text : String) : List String :=
  (Text.splitOnChar '/' text.toList).map String.ofList

/-- A spelling starts at the root. -/
def startsAtRoot (text : String) : Bool :=
  text.toList.head? = some '/'

/-- A segment that counts wherever it stands. -/
def isPart (segment : String) : Bool :=
  segment ≠ "" && segment ≠ "."

/-- The path of a spelling. -/
def ofText (text : String) : Path :=
  match segments text with
  | [] => ⟨false, []⟩
  | first :: rest =>
    let leading := if first = "" then [] else [first]
    ⟨startsAtRoot text, leading ++ rest.filter isPart⟩

/-- The plain spelling of a path. -/
def text (path : Path) : String :=
  (if path.rooted then "/" else "") ++ String.intercalate "/" path.parts

/-- The location that a path names, if it says each step from the root. -/
def location? (path : Path) : Option Location :=
  if path.rooted ∧ ".." ∉ path.parts then some path.parts else none

/-- The last component, if it is a name. -/
def fileName? (path : Path) : Option String :=
  match path.parts.getLast? with
  | some part => if part = "." ∨ part = ".." then none else some part
  | none => none

end Path

/-! ## Spellings -/

/-- The segments of a spelling in reverse, without those at the end that are no components. -/
def trimSegments : List String → List String
  | [] => []
  | [first] => if first = "" then [] else [first]
  | last :: before => if Path.isPart last then last :: before else trimSegments before

/-- The spelling of a path's parent. -/
def parentText? (text : String) : Option String :=
  match trimSegments (Path.segments text).reverse with
  | [] => none
  | _ :: before =>
    let kept := (trimSegments before).reverse
    if Path.startsAtRoot text ∧ kept = [] then some "/"
    else some (String.intercalate "/" kept)

/-- The spelling of a path below another. -/
def joinText (dir name : String) : String :=
  if Path.startsAtRoot name then name
  else if dir = "" then name
  else if dir.toList.getLast? = some '/' then dir ++ name
  else dir ++ "/" ++ name

end BuildSync
