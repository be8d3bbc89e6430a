import BuildSync.Ignore.Rules
import BuildSync.Workspace

/-! # Walks through directories

* `Tree.walk`: the directories at and below a path.
* `deepestFirst`: paths in the order in which packages are updated.
* `sourceDirs`: the directories of sources among paths.
* `Workspace.expand`: the packages that paths stand for.
-/

namespace BuildSync

namespace Tree

/-- The names below a directory lead to another one, past no directory that is skipped or
ignored. -/
def isVisited (t : Tree) (start : Location) (names : List String) : Bool :=
  (List.range names.length).all fun n =>
    let below := names.take (n + 1)
    !isSkippedDir (below.getLast?.getD "") && t.isDir (start ++ below) &&
      !t.isIgnored (start ++ below)

/-- The names that lead from a directory to those below it. -/
def visited (t : Tree) (start : Location) : List (List String) :=
  (t.entries.filterMap fun (location, node) =>
    match start.isPrefixOf? location with
    | none => none
    | some names =>
      if node = .directory ∧ names ≠ [] ∧ t.isVisited start names then some names else none)
    |>.mergeSort textsLe

/-- The directories at and below a path, written as the path leads to them. A path that leads to no
directory has none. -/
def walk (t : Tree) (cwd : Location) (path : String) : List String :=
  match t.resolve cwd path with
  | .error _ => []
  | .ok start =>
    if t.isDir start then
      path :: (t.visited start).map fun names => joinText path (String.intercalate "/" names)
    else []

end Tree

/-! ## Lists of paths -/

/-- Longer paths come first, and paths of one length in order. -/
def deeperLe (a b : String) : Bool :=
  b.utf8ByteSize < a.utf8ByteSize || (a.utf8ByteSize = b.utf8ByteSize && textLe a b)

/-- Paths with the deepest first. -/
def deepestFirst (paths : List String) : List String :=
  paths.mergeSort deeperLe

/-- A path ends with the name of a source. -/
def isSourcePath (path : String) : Bool :=
  ((Path.ofText path).fileName?.bind SourceKind.ofName?).isSome

/-- The directory of a path. -/
def dirOf (path : String) : String :=
  match parentText? path with
  | some dir => if dir = "" then "." else dir
  | none => "."

/-- Texts without those that spell a path that was spelled before. -/
def distinctPaths (paths : List String) : List String :=
  paths.foldl (fun kept path =>
    if kept.any fun other => Path.ofText other = Path.ofText path then kept
    else kept ++ [path]) []

/-- The directories of the sources among paths. -/
def sourceDirs (paths : List String) : List String :=
  distinctPaths ((paths.filter isSourcePath).map dirOf)

/-! ## Packages -/

namespace Workspace

/-- A path without the slashes at its end, as it is shown. -/
def shown (path : String) : String :=
  let text := String.ofList (Text.trimEndOf (· = '/') path.toList)
  if text = "" then "/" else text

/-- The package that a path stands for. -/
def packageDir (w : Workspace) (t : Tree) (cwd : Location) (path : String) :
    Except Problem PackageDir := do
  let dir ← locate t cwd path
  let package ← w.packageOf dir
  pure ⟨dir, shown path, package⟩

/-- The packages that paths stand for, each once, after those found before. -/
def packageDirs (w : Workspace) (t : Tree) (cwd : Location) (found : List PackageDir) :
    List String → Except Problem (List PackageDir)
  | [] => .ok found
  | path :: paths => do
    let dir ← locate t cwd path
    if found.any (·.dir = dir) then packageDirs w t cwd found paths
    else
      let package ← w.packageDir t cwd path
      packageDirs w t cwd (found ++ [package]) paths

/-- The packages that paths stand for, or with those below them, in the order in which they are
updated. -/
def expand (w : Workspace) (t : Tree) (cwd : Location) (recursive : Bool) (paths : List String) :
    Except Problem (List PackageDir) :=
  let all := if recursive then deepestFirst (paths.flatMap (t.walk cwd)) else paths
  w.packageDirs t cwd [] all

end Workspace

end BuildSync
