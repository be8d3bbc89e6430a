import BuildSync.Json
import BuildSync.Tree

/-! # Specifiers that are paths

A specifier that starts with `./` or `../` leads from a directory to a file, whose extension may be
left out, or to a directory that has a file to stand for it.

* `ModulePath.isRelative`: a specifier is a path.
* `ModulePath.below`: the location that a path leads to.
* `Tree.moduleFile?`: the file that a specifier leads to.
-/

namespace BuildSync

namespace ModulePath

/-- A specifier is a path, not the name of a module. -/
def isRelative (specifier : String) : Bool :=
  specifier = "." || specifier = ".." ||
    Text.startsWith specifier.toList "./".toList || Text.startsWith specifier.toList "../".toList

/-- The paths that a specifier can stand for, in the order in which they are tried. A query after
`?` and a fragment after `#` are no part of the path, but a `#` may stand in the name of a file. -/
def readings (specifier : String) : List String :=
  let isName := fun c => c ≠ '?' && c ≠ '#'
  let path := String.ofList (specifier.toList.takeWhile isName)
  if (specifier.toList.dropWhile isName).head? = some '#' then [specifier, path] else [path]

/-- The location that the segments of a path lead to from a location, none past the root. Whether
anything stands there does not matter. -/
def below (location : Location) : List String → Option Location
  | [] => some location
  | segment :: rest =>
    if segment = "" ∨ segment = "." then below location rest
    else if segment = ".." then
      if location = [] then none else below location.dropLast rest
    else below (location ++ [segment]) rest

/-! ## Names of files -/

/-- The extensions that may be left out, in the order in which they are tried. -/
def extensions : List String :=
  [".ts", ".tsx", ".d.ts"]

/-- The extensions of the sources that a compiled file can come from, by its own extension. -/
def sourceExtensions : List (String × List String) :=
  [(".js", [".ts", ".tsx", ".d.ts"]), (".jsx", [".tsx"])]

/-- The name of the file that stands for a directory, without its extension. -/
def mainFile : String :=
  "index"

/-- The name of the file that describes a directory. -/
def manifestName : String :=
  "package.json"

/-- A location with another ending of its last name. -/
def withEnding (location : Location) (stem : List Char) (extension : String) : Location :=
  location.dropLast ++ [String.ofList stem ++ extension]

/-- The location with each of the extensions that may be left out. -/
def extended (location : Location) : List Location :=
  match location.getLast? with
  | some name => extensions.map (withEnding location name.toList)
  | none => []

/-- The locations of the sources that a compiled file can come from. -/
def sourcesOf (location : Location) : List Location :=
  let name := (location.getLast?.getD "").toList
  sourceExtensions.flatMap fun (extension, others) =>
    match Text.stripEnd? extension.toList name with
    | none | some [] => []
    | some stem => others.map (withEnding location stem)

/-! ## Searching -/

/-- The outcome of a search for a file. -/
inductive Search
  | found (file : Location)
  /-- Nothing is found, and the search may go on elsewhere. -/
  | nothing
  /-- Nothing is found, and nothing else counts. -/
  | ended
deriving DecidableEq, Repr

namespace Search

/-- The first file among locations. -/
def firstFile (t : Tree) (locations : List Location) : Search :=
  match locations.find? t.isFile with
  | some file => found file
  | none => nothing

/-- A search that goes on where another one found nothing. -/
def orElse (first second : Search) : Search :=
  match first with
  | nothing => second
  | outcome => outcome

/-- The file that was found. -/
def file? : Search → Option Location
  | found file => some file
  | _ => none

end Search

/-- The search for a file. A compiled file counts as its source, and not by itself. -/
def searchFile (t : Tree) (location : Location) : Search :=
  match sourcesOf location with
  | [] => .firstFile t (location :: extended location)
  | sources =>
    (Search.firstFile t sources).orElse
      (if t.isFile location then .ended else .firstFile t (extended location))

/-- The search for the file that stands for a directory. -/
def searchMain (t : Tree) (dir : Location) : Search :=
  let file := dir ++ [mainFile]
  .firstFile t (file :: extended file)

/-- A directory has a description. -/
def isDescribed (t : Tree) (dir : Location) : Bool :=
  t.isFile (dir ++ [manifestName])

/-- The description of a directory. -/
def manifest? (t : Tree) (dir : Location) : Option Json :=
  match t.read (dir ++ [manifestName]) with
  | .ok text => Json.parse? text
  | .error _ => none

/-- The location that the description of a directory names as the one that stands for it. -/
def describedMain? (dir : Location) (manifest : Json) : Option Location :=
  ((manifest.field? "main").bind Json.text?).bind fun path => below dir (Path.segments path)

/-- The search for what stands for a directory: what its description names, or else its main
file. -/
def searchDir (t : Tree) (dir : Location) : Search :=
  if isDescribed t dir then
    match manifest? t dir with
    | none => .ended
    | some manifest =>
      match describedMain? dir manifest with
      | some main =>
        ((searchFile t main).orElse (searchMain t main)).orElse (searchMain t dir)
      | none => searchMain t dir
  else searchMain t dir

/-- The search for what a path leads to from a directory. Only a directory is meant by a path that
ends in a slash, and by `.`. -/
def searchPath (t : Tree) (dir : Location) (path : String) : Search :=
  match below dir (Path.segments path) with
  | none => .nothing
  | some location =>
    let file :=
      if path = "." ∨ path.toList.getLast? = some '/' then .nothing else searchFile t location
    file.orElse (if t.isDir location then searchDir t location else .nothing)

/-- The nearest description at or above a directory can be read, if there is one. -/
def isSound (t : Tree) (dir : Location) : Bool :=
  match dir.upward.find? (isDescribed t) with
  | some dir => (manifest? t dir).isSome
  | none => true

end ModulePath

/-- The file that a relative specifier of a source leads to, where the source stands in `dir`. -/
def Tree.moduleFile? (t : Tree) (dir : Location) (specifier : String) : Option Location :=
  if ModulePath.isRelative specifier then
    let paths := ModulePath.readings specifier
    (paths.findSome? fun path => (ModulePath.searchPath t dir path).file?).filter fun file =>
      ModulePath.isSound t file.dropLast
  else none

end BuildSync
