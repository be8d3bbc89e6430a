import BuildSync.CommandLine.Request
import BuildSync.Query.Graph
import BuildSync.Query.IndexFile

/-! # What a run of the program comes to

* `Exit`: the code that the program ends with, what it prints and the tree it leaves.
* `execute`: the run for a list of arguments.
-/

namespace BuildSync.CommandLine

/-- How the program ends. -/
structure Exit where
  code : Nat
  /-- What it prints, line by line. -/
  output : List String
  /-- What it reports as errors, line by line. -/
  report : List String
  /-- The files as it leaves them. -/
  tree : Tree

/-- Starts a program in a directory with arguments, if it can be started. -/
abbrev Starter := Tree → Location → String → List String → Except FileFault Query.Outcome

/-- A place where no program can be started: nothing is installed, and no file may be run. -/
def noPrograms : Starter := fun t dir program _ =>
  if '/' ∉ program.toList then .error .missing
  else
    match t.resolve dir program with
    | .ok _ => .error .denied
    | .error fault => .error fault

/-! ## Texts -/

/-- The name and the number of the program. -/
def versionText : String :=
  "tsdeps 0.1.0"

/-- How the program is called. -/
def usageText : String :=
  "Usage: tsdeps [--root] [--recursive] [--files] [--remove-unused-declarations] " ++
    "[--update-comments] [--keep-going] [--index FILE] [--bazel BIN] [--rules-bzl LABEL] " ++
    "[-v] [PATH]..."

/-- The path of a BUILD file in a directory, as it is shown. -/
def shownFile (display name : String) : String :=
  let path := Path.ofText display
  joinText (Path.mk path.rooted (path.parts.filter (· ≠ "."))).text name

/-- What is printed for the update of a package. -/
def updateLine? (package : PackageDir) (update : PackageUpdate) : Option String :=
  update.buildFile.map fun file => "Wrote " ++ shownFile package.display (file.getLast?.getD "")

/-- What is reported for an error. -/
def errorLines (message : String) : List String :=
  (Text.splitOnChar '\n' ("error: " ++ message).toList).map String.ofList

/-- What is reported for a failure. -/
def failureLines (failure : Failure) : List String :=
  match failure with
  | .several failures => failures.flatMap (errorLines ·.message) ++ errorLines failure.message
  | .one _ => errorLines failure.message ++ (failure.hint?.map ("hint: " ++ ·)).toList

/-! ## Running -/

/-- The index file at a path. -/
def readIndex (t : Tree) (cwd : Location) (path : String) : Except Problem Query.IndexFile :=
  match t.readText cwd path with
  | .error fault => .error (.unusableFile .read path fault)
  | .ok text =>
    match Query.IndexFile.parse? text with
    | some file => .ok file
    | none => .error (.invalidIndex path)

/-- What answers the questions of a run: an index file, or the build tool. -/
def service (start : Starter) (w : Workspace) (t : Tree) (cwd : Location) (g : Given) :
    Except Problem Query.Service :=
  match g.value? .index with
  | some path => (readIndex t cwd path).map Query.IndexFile.service
  | none =>
    let program := (g.value? .bazel).getD Given.defaultBazel
    let run := fun arguments =>
      (start t w.root program arguments).mapError fun fault =>
        Problem.query (.notStarted program fault)
    .ok (Query.service w t run)

/-- The session that is asked for. -/
def session (start : Starter) (t : Tree) (cwd : Location) (g : Given) :
    Except Problem Session := do
  let w ← Workspace.find t cwd g.searchPath
  let service ← service start w t cwd g
  Session.start w t cwd service g.options

/-- How a run ends that failed before any update. -/
def Exit.ofFailure (t : Tree) (failure : Failure) : Exit :=
  ⟨1, [], failureLines failure, t⟩

/-- How a run ends after its updates. -/
def Exit.ofReport (r : Session.Report) : Exit :=
  let lines := r.updates.filterMap fun (package, update) => updateLine? package update
  match r.failure? with
  | none => ⟨0, lines, [], r.tree⟩
  | some failure => ⟨1, lines, failureLines failure, r.tree⟩

/-- The run of the program for a list of arguments, in the directory `cwd`. -/
def execute (start : Starter) (t : Tree) (cwd : Location) (arguments : List String) : Exit :=
  match Request.ofArguments? arguments with
  | none => ⟨2, [], [usageText], t⟩
  | some .version => ⟨0, [versionText], [], t⟩
  | some .help => ⟨0, [usageText], [], t⟩
  | some (.update g) =>
    match session start t cwd g with
    | .error problem => .ofFailure t (.ofProblem problem)
    | .ok s => .ofReport (s.run t)

end BuildSync.CommandLine
