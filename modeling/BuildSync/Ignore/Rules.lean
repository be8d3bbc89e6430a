import BuildSync.Ignore.Glob
import BuildSync.Text.Blank
import BuildSync.Tree

/-! # Ignored directories

Files in a directory say which of the directories below it are passed over. Of the rules that match
a directory the last one of a file counts, and of several files the nearest.

* `Rule.ofLine?`: a rule from its line.
* `Tree.isIgnored`: some file has a directory passed over.
-/

namespace BuildSync.Ignore

/-- A rule about directories. -/
structure Rule where
  /-- The rule keeps what it matches. -/
  keeps : Bool
  globs : List Glob
deriving DecidableEq, Repr

namespace Rule

/-- A line without the blanks at its end; one that is escaped stays. -/
def trimLine (line : List Char) : List Char :=
  if Text.endsWith line ['\\', ' '] then line else Text.trimEnd line

/-- The rest of a line after the marks at its front, with what they say: the rule keeps what it
matches, and it matches from the directory of the file on. -/
def front : List Char → Bool × Bool × List Char
  | '\\' :: '!' :: cs => (false, false, '!' :: cs)
  | '\\' :: '#' :: cs => (false, false, '#' :: cs)
  | '!' :: '/' :: cs => (true, true, cs)
  | '!' :: cs => (true, false, cs)
  | '/' :: cs => (false, true, cs)
  | cs => (false, false, cs)

/-- A pattern without the slash at its end, which stands for directories. -/
def dropSlash (pattern : List Char) : List Char :=
  match Text.stripEnd? ['/'] pattern with
  | none => pattern
  | some pattern => (Text.stripEnd? ['\\'] pattern).getD pattern

/-- A pattern as a glob for paths from the directory of the file on. One without a slash matches
anywhere below; one for all that is below a directory does not match the directory. -/
def fullPattern (anchored : Bool) (pattern : List Char) : List Char :=
  let free := !anchored && '/' ∉ pattern && pattern ≠ ['*', '*']
  let pattern := if free then '*' :: '*' :: '/' :: pattern else pattern
  if Text.endsWith pattern ['/', '*', '*'] then pattern ++ ['/', '*'] else pattern

/-- A rule from its line, none for a comment, an empty line and a malformed pattern. -/
def ofLine? (line : List Char) : Option Rule :=
  let line := trimLine line
  if line = [] ∨ line.head? = some '#' then none
  else
    let (keeps, anchored, pattern) := front line
    (Glob.parse? (fullPattern anchored (dropSlash pattern))).map fun globs => ⟨keeps, globs⟩

/-- A rule matches a path. -/
def covers (rule : Rule) (path : List UInt8) : Bool :=
  rule.globs.any (·.matches path)

end Rule

/-- The rules of a file. -/
def rules (text : String) : List Rule :=
  let text := text.toList
  let text := if text.head? = some '\uFEFF' then text.drop 1 else text
  (Text.splitOnChar '\n' text).filterMap Rule.ofLine?

/-- What the rules of a file say of a path: passed over, kept, or nothing. -/
def verdict? (text : String) (path : List String) : Option Bool :=
  let path := (String.intercalate "/" path).toList.flatMap bytesOf
  ((rules text).reverse.find? (·.covers path)).map fun rule => !rule.keeps

end BuildSync.Ignore

namespace BuildSync.Tree

open Ignore

/-- What a file of a directory says of a location below it. -/
def verdictOf? (t : Tree) (dir : Location) (file : Location) (location : Location) :
    Option Bool :=
  match t.node? (dir ++ file) with
  | some (.text text) => (dir.isPrefixOf? location).bind (verdict? text)
  | _ => none

/-- A directory is the root of a repository. -/
def isRepository (t : Tree) (dir : Location) : Bool :=
  (t.node? (dir ++ [".git"])).isSome

/-- The directories up to the nearest root of a repository, none if there is no such root. -/
def upToRepository (t : Tree) : List Location → List Location
  | [] => []
  | dir :: dirs =>
    if t.isRepository dir then [dir]
    else if dirs.any t.isRepository then dir :: upToRepository t dirs
    else []

/-- The files that speak of directories, with the directories that have them. -/
def ignoreFiles (t : Tree) (dirs : List Location) : List (Location × Location) :=
  let tracked := t.upToRepository dirs
  dirs.map (fun dir => (dir, [".ignore"])) ++ tracked.map (fun dir => (dir, [".gitignore"])) ++
    tracked.map fun dir => (dir, [".git", "info", "exclude"])

/-- A file at or above its parent has a directory passed over. -/
def isIgnored (t : Tree) (location : Location) : Bool :=
  let dirs := (List.range location.length).map fun n => location.take (location.length - 1 - n)
  ((t.ignoreFiles dirs).findSome? fun (dir, file) => t.verdictOf? dir file location).getD false

end BuildSync.Tree
