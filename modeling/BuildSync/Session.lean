import BuildSync.Update

/-! # Sessions

A session updates a list of packages, one after the other. All that has to be asked about the build
graph is asked before the first of them is updated, and the files that specifiers lead to are looked
up once.

* `Session.start`: finds the packages, reads their sources and asks.
* `Session.run`: updates the packages; `Report` says what came of it.
-/

namespace BuildSync

/-- What a session is for. -/
structure SessionOptions where
  paths : List String
  /-- The only path is the root of a project, which has rules over the whole project. -/
  isProjectRoot : Bool
  /-- Packages below the paths are updated too. -/
  recursive : Bool
  /-- The paths are those of sources, and stand for their directories. -/
  areFiles : Bool
  /-- A package that fails does not end the session. -/
  keepsGoing : Bool
  update : UpdateOptions
deriving DecidableEq, Repr

/-- Packages to be updated, with what is known about the build graph. -/
structure Session where
  workspace : Workspace
  options : SessionOptions
  /-- The packages in the order in which they are updated, with their sources. -/
  packages : List (PackageDir × List Source)
  index : Query.Index
  /-- The tree when the session was started. Specifiers go on to lead where they led then. -/
  seen : Tree

namespace Session

/-! ## Starting -/

/-- The packages that a session updates. -/
def packageDirs (w : Workspace) (t : Tree) (cwd : Location) (options : SessionOptions) :
    Except Problem (List PackageDir) :=
  if options.isProjectRoot && 1 < options.paths.length then .error .severalRoots
  else
    let paths := if options.areFiles then sourceDirs options.paths else options.paths
    w.expand t cwd options.recursive paths

/-- What has to be asked to update packages. -/
def questions (w : Workspace) (t : Tree) (options : SessionOptions)
    (packages : List (PackageDir × List Source)) : List Query.Key :=
  packages.flatMap fun (package, sources) =>
    w.questions t package.dir package.package sources options.update.dropsUnused

/-- A session with all its questions answered. -/
def start (w : Workspace) (t : Tree) (cwd : Location) (service : Query.Service)
    (options : SessionOptions) : Except Problem Session := do
  let dirs ← packageDirs w t cwd options
  let packages ← dirs.mapM fun package => do pure (package, ← t.sources package.dir)
  let index ← Query.Index.build service (questions w t options packages)
  pure ⟨w, options, packages, index, t⟩

/-! ## Running -/

/-- What came of a session, so far or in the end. -/
structure Report where
  tree : Tree
  /-- The packages that were updated, in order. -/
  updates : List (PackageDir × PackageUpdate)
  /-- Why packages could not be updated, in order. -/
  failures : List PackageFailure

/-- Nothing is updated yet. -/
def Report.ofTree (t : Tree) : Report :=
  ⟨t, [], []⟩

/-- Why a session failed, if it did. -/
def Report.failure? (r : Report) : Option Failure :=
  match r.failures with
  | [] => none
  | [failure] => some (.one failure)
  | failures => some (.several failures)

/-- The update of one package. Only the last package can be the root of the project. -/
def updatePackage (s : Session) (t : Tree) (package : PackageDir) (sources : List Source)
    (isLast : Bool) : Except PackageFailure (Tree × PackageUpdate) :=
  s.workspace.update t s.seen s.index s.options.update package sources
    (s.options.isProjectRoot && isLast)

/-- The updates of packages, after those that were made before. -/
def updateAll (s : Session) (r : Report) : List (PackageDir × List Source) → Report
  | [] => r
  | (package, sources) :: rest =>
    match s.updatePackage r.tree package sources rest.isEmpty with
    | .ok (tree, update) =>
      updateAll s { r with tree := tree, updates := r.updates ++ [(package, update)] } rest
    | .error failure =>
      let r := { r with failures := r.failures ++ [failure] }
      if s.options.keepsGoing then updateAll s r rest else r

/-- The updates of all packages of a session. -/
def run (s : Session) (t : Tree) : Report :=
  s.updateAll (.ofTree t) s.packages

end Session

end BuildSync
