import BuildSync.Build.Descriptor
import BuildSync.SourceName
import BuildSync.Tree
import BuildSync.TypeScript.Imports

/-! # Packages in a file tree

* `Tree.buildFile?`: the name of a directory's BUILD file.
* `Tree.descriptor?`: a directory's BUILD file.
* `Tree.sourceNames`: the names of a directory's sources; `Tree.source` reads one.
-/

namespace BuildSync

/-- A source with what it imports. -/
structure Source where
  name : String
  /-- Where the source stands. -/
  location : Location
  kind : SourceKind
  text : String
  imports : List Import
deriving DecidableEq, Repr

/-- The names a BUILD file may have, the preferred one first. -/
def buildFileNames : List String :=
  ["BUILD.bazel", "BUILD"]

/-- The name that a new BUILD file gets. -/
def newBuildFileName : String :=
  "BUILD"

namespace Tree

/-! ## BUILD files -/

/-- The name of a directory's BUILD file. -/
def buildFile? (t : Tree) (dir : Location) : Option String :=
  buildFileNames.find? fun name => t.isFile (dir ++ [name])

/-- A directory has a BUILD file. -/
def isPackage (t : Tree) (dir : Location) : Bool :=
  (t.buildFile? dir).isSome

/-- A directory's BUILD file, none if there is none, for the package of this name. -/
def descriptor? (t : Tree) (dir : Location) (package : String) :
    Except Problem (Option Build.Descriptor) :=
  match t.buildFile? dir with
  | none => .ok none
  | some name =>
    let path := Location.text (dir ++ [name])
    match t.read (dir ++ [name]) with
    | .error fault => .error (.unusableFile .read path fault)
    | .ok text =>
      match Build.Descriptor.parse path package text with
      | .error fault => .error (.ofFault path text fault)
      | .ok descriptor => .ok (some descriptor)

/-- A directory's BUILD file, or one to be made. -/
def descriptor (t : Tree) (dir : Location) (package : String) : Except Problem Build.Descriptor :=
  (t.descriptor? dir package).map fun found =>
    found.getD (.empty (Location.text (dir ++ [newBuildFileName])) package)

/-! ## Sources -/

/-- Something stands where a source listed in a directory's BUILD file should be. -/
def isPresent (t : Tree) (dir : Location) (source : String) : Bool :=
  (t.resolve [] (joinText dir.text source)).toOption.isSome

/-- The names of the sources that stand in a directory, in order. -/
def sourceNames (t : Tree) (dir : Location) : Except FileFault (List String) :=
  (t.list dir).map fun names =>
    names.filter fun name => t.isFile (dir ++ [name]) && (SourceKind.ofName? name).isSome

/-- A source of a directory. One that is not a program is taken to import nothing. -/
def source (t : Tree) (dir : Location) (name : String) : Except Problem Source :=
  let location := dir ++ [name]
  match t.read location with
  | .error fault => .error (.unusableFile .read location.text fault)
  | .ok text =>
    let kind := (SourceKind.ofName? name).getD .library
    match TypeScript.imports name text with
    | .ok imports => .ok ⟨name, location, kind, text, imports⟩
    | .error .notAProgram => .ok ⟨name, location, kind, text, []⟩
    | .error .splitCharacter => .error (.splitCharacter location.text)

/-- The sources of a directory. -/
def sources (t : Tree) (dir : Location) : Except Problem (List Source) :=
  match t.sourceNames dir with
  | .error fault => .error (.unusableFile .list (Location.text dir) fault)
  | .ok names => names.mapM (t.source dir)

end Tree

end BuildSync
