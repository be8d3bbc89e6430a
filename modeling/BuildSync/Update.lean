import BuildSync.Aggregate
import BuildSync.Annotation
import BuildSync.Scope

/-! # Updates of packages

An update brings the BUILD file of a package in line with what its sources import. Either all of it
is written or nothing.

* `Pending`: what an update is going to write; `Workspace.prepare` finds it out.
* `Pending.write`: the tree with an update written.
* `Workspace.update`: both, with what was written.
-/

namespace BuildSync

/-- How packages are updated. -/
structure UpdateOptions where
  /-- Dependencies on declarations that no import mentions are dropped. -/
  dropsUnused : Bool
  /-- Imports are annotated with the rules that provide them. -/
  annotates : Bool
  /-- The file that new kinds of rules are loaded from. -/
  rulesFile : String
deriving DecidableEq, Repr

/-- What an update wrote. -/
structure PackageUpdate where
  buildFile : Option Location
  sources : List Location
deriving DecidableEq, Repr

/-- The update wrote something. -/
def PackageUpdate.isChanged (u : PackageUpdate) : Bool :=
  u.buildFile.isSome || u.sources ≠ []

/-- What an update is going to write. -/
structure Pending where
  /-- The place of the BUILD file. -/
  buildFile : Location
  descriptor : Build.Descriptor
  /-- The sources that change, with their new texts. -/
  sources : List (Location × String)

/-! ## Preparing -/

/-- A single problem in place of a list. -/
def oneProblem (result : Except Problem α) : Except (List Problem) α :=
  result.mapError List.singleton

/-- A source with its new text, if its annotations change. -/
def annotated? (source : Source) (imports : List ResolvedImport) :
    Except Problem (Option (Location × String)) :=
  match Annotation.update source.text imports with
  | .same => .ok none
  | .changed text => .ok (some (source.location, text))
  | .torn => .error (.splitCharacter source.location.text)

/-- The sources whose annotations change, with their new texts. -/
def annotatedSources (sources : List (Source × ResolvedFile)) :
    Except Problem (List (Location × String)) := do
  let found ← sources.mapM fun (source, file) => annotated? source file.imports
  pure (found.filterMap id)

/-- What is going to be written for a package, given its sources. Every import of a source must be
provided by exactly one rule; what specifiers lead to was looked up in the tree `seen`. The root of
a project gets the rules over the whole project. -/
def Workspace.prepare (w : Workspace) (t seen : Tree) (index : Query.Index)
    (options : UpdateOptions) (dir : Location) (package : String) (sources : List Source)
    (isProjectRoot : Bool) : Except (List Problem) Pending := do
  let old ← oneProblem (t.descriptor dir package)
  let scope ← Scope.ofDescriptor w t index options.rulesFile dir old sources seen
  let files := sources.map scope.resolveSource
  let prune := if options.dropsUnused then some scope.ruleInfo else none
  let (plans, problems) := Dependency.plan prune scope.descriptor scope.ownership files
  if problems ≠ [] then throw problems
  let planned := Dependency.apply scope.descriptor plans
  let changed ←
    if options.annotates then oneProblem (annotatedSources (sources.zip files)) else pure []
  let new ←
    if isProjectRoot then oneProblem (Aggregate.deriveAll w t dir options.rulesFile planned)
    else pure planned
  pure ⟨dir ++ [(t.buildFile? dir).getD newBuildFileName], new, changed⟩

/-! ## Writing -/

namespace Pending

/-- The tree with the BUILD file written. -/
def writeBuildFile (p : Pending) (t : Tree) : Except Problem Tree :=
  match t.write p.buildFile p.descriptor.render with
  | .ok t => .ok t
  | .error fault => .error (.unusableFile .write p.descriptor.path fault)

/-- A source can be written. -/
def checkSource (t : Tree) (source : Location × String) : Except Problem Unit :=
  match t.node? source.1 with
  | some .directory => .error (.unusableFile .write source.1.text .isDirectory)
  | none => .error (.unusableFile .write source.1.text .missing)
  | some _ => .ok ()

/-- The tree with an update written. Sources that cannot be written are found before anything is
written. -/
def write (p : Pending) (t : Tree) : Except Problem (Tree × PackageUpdate) := do
  p.sources.forM (checkSource t)
  let isChanged := p.descriptor.isChanged
  let t ← if isChanged then p.writeBuildFile t else pure t
  let t := p.sources.foldl (fun t source => t.put source.1 (.text source.2)) t
  pure (t, ⟨if isChanged then some p.buildFile else none, p.sources.map Prod.fst⟩)

end Pending

/-- The tree with a package updated, and what was written. -/
def Workspace.update (w : Workspace) (t seen : Tree) (index : Query.Index)
    (options : UpdateOptions) (package : PackageDir) (sources : List Source)
    (isProjectRoot : Bool) : Except PackageFailure (Tree × PackageUpdate) :=
  let result := do
    let pending ←
      w.prepare t seen index options package.dir package.package sources isProjectRoot
    oneProblem (pending.write t)
  result.mapError (.package package.package)

end BuildSync
