import BuildSync.Package

/-! # Workspaces

* `Workspace.find`: the workspace around a path.
* `Workspace.relative?`: a location as seen from the root; for a directory, its package's name.
* `Workspace.owningPackage?`: the package that owns a file.
-/

namespace BuildSync

/-- A tree of packages. -/
structure Workspace where
  root : Location
deriving DecidableEq, Repr

/-- A package to be updated. -/
structure PackageDir where
  dir : Location
  /-- The path as it was asked for, or as it was reached from there. -/
  display : String
  package : String
deriving DecidableEq, Repr

namespace Workspace

/-! ## Finding -/

/-- The files that mark the root of a workspace. -/
def markers : List String :=
  ["WORKSPACE", "WORKSPACE.bazel", "MODULE.bazel"]

/-- A directory is the root of a workspace. -/
def isRoot (t : Tree) (dir : Location) : Bool :=
  markers.any fun name => t.isFile (dir ++ [name])

/-- The location of an existing path, as seen from the directory `cwd`. -/
def locate (t : Tree) (cwd : Location) (path : String) : Except Problem Location :=
  match t.resolve cwd path with
  | .ok location => .ok location
  | .error fault => .error (.unusableFile .resolve path fault)

/-- The nearest workspace at or above a path. -/
def find (t : Tree) (cwd : Location) (path : String) : Except Problem Workspace := do
  let start ← locate t cwd path
  let dir := if t.isDir start then start else start.dropLast
  match dir.upward.find? (isRoot t) with
  | some root => .ok ⟨root⟩
  | none => .error (.noWorkspace start.text)

/-! ## Packages -/

/-- A location as seen from the root, none outside the workspace. -/
def relative? (w : Workspace) (location : Location) : Option String :=
  (w.root.isPrefixOf? location).map (String.intercalate "/")

/-- The name of a directory's package. -/
def packageOf (w : Workspace) (dir : Location) : Except Problem String :=
  match w.relative? dir with
  | some package => .ok package
  | none => .error (.outsideWorkspace (Location.text dir))

/-- The path of a package's directory. -/
def pathOf (w : Workspace) (package : String) : String :=
  if package = "" then w.root.text else joinText w.root.text package

/-- The nearest package at or above a file's directory, within the workspace. -/
def owningPackage? (w : Workspace) (t : Tree) (file : Location) : Option (Location × String) :=
  let dirs := (file.upward.drop 1).takeWhile fun dir => w.root.isPrefixOf dir
  match dirs.find? t.isPackage with
  | some dir => (w.relative? dir).map fun package => (dir, package)
  | none => none

/-- The name that rules of a package get: the last segment of the package's name, or the name of
the workspace's directory. -/
def baseName (w : Workspace) (package : String) : String :=
  let last := Text.lastSegment package.toList
  if last ≠ [] then String.ofList last else w.root.getLast?.getD "root"

end Workspace

end BuildSync
