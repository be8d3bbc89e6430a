import BuildSync.Build.Defect
import BuildSync.Text.Span

/-! # What can go wrong

* `Problem`: one cause, with the text that reports it and, for some, a hint.
* `PackageFailure`: why one package could not be updated.
* `Failure`: why a run did not succeed.
-/

namespace BuildSync

/-- Why a file or directory cannot be used. -/
inductive FileFault
  | missing
  | denied
  | notDirectory
  | isDirectory
  /-- The bytes are no UTF-8. -/
  | notText
deriving DecidableEq, Repr

/-- The fault in the words of the operating system. -/
def FileFault.message : FileFault → String
  | missing => "No such file or directory (os error 2)"
  | denied => "Permission denied (os error 13)"
  | notDirectory => "Not a directory (os error 20)"
  | isDirectory => "Is a directory (os error 21)"
  | notText => "stream did not contain valid UTF-8"

/-- What was to be done with a file or directory. -/
inductive FileAction
  | read
  | write
  | list
  | resolve
deriving DecidableEq, Repr

/-- The action as a verb. -/
def FileAction.verb : FileAction → String
  | read => "read"
  | write => "write"
  | list => "list"
  | resolve => "resolve"

/-- Why the build-graph query gave no answer. -/
inductive QueryFault
  /-- The program that answers queries could not be started. -/
  | notStarted (program : String) (fault : FileFault)
  /-- The program ended with an error, which it reported in these words. -/
  | reported (text : String)
  /-- The program's answer is no UTF-8. -/
  | notText
  /-- There are more or fewer answers than questions. -/
  | miscounted (questions answers : Nat)
deriving DecidableEq, Repr

/-- The fault in words. -/
def QueryFault.message : QueryFault → String
  | notStarted program fault => "failed to run " ++ program ++ ": " ++ fault.message
  | reported text => text
  | notText => "query output is not valid UTF-8"
  | miscounted questions answers =>
    "expected " ++ toString questions ++ " answers, got " ++ toString answers

/-- Something that went wrong. -/
inductive Problem
  /-- No rule provides an import. -/
  | unresolvedImport (file : String) (line : Nat) (specifier : String)
  /-- Several rules provide an import. -/
  | ambiguousImport (file : String) (line : Nat) (specifier : String) (candidates : List Label)
  /-- Two rules list the same source. -/
  | sharedSource (source first second : String)
  /-- The name for a rule that a source needs is taken by a rule of another kind. -/
  | takenName (kind : Build.RuleKind) (name source : String) (holder : Build.RuleKind)
  /-- Several rules could take a source. -/
  | undecidedRule (source : String) (names : List String)
  /-- A BUILD file cannot be interpreted. -/
  | malformed (path : String) (line : Nat) (defect : Build.Defect)
  /-- A text is no label. -/
  | invalidLabel (text : String)
  | unusableFile (action : FileAction) (path : String) (fault : FileFault)
  | query (fault : QueryFault)
  /-- An index file does not hold what it should. -/
  | invalidIndex (path : String)
  /-- No directory at or above a path is marked as a workspace. -/
  | noWorkspace (path : String)
  | outsideWorkspace (path : String)
  /-- Several paths were given for the root of a project. -/
  | severalRoots
  /-- A place that a source should be cut at falls inside a character. -/
  | splitCharacter (path : String)
deriving DecidableEq, Repr

namespace Problem

/-- The place of an import, for a message about it. -/
def place (file : String) (line : Nat) : String :=
  file ++ ":" ++ toString line ++ ": "

/-- The problem in words. -/
def message : Problem → String
  | unresolvedImport file line specifier =>
    place file line ++ "cannot resolve import '" ++ specifier ++ "'"
  | ambiguousImport file line specifier candidates =>
    place file line ++ "import '" ++ specifier ++ "' is ambiguous between " ++
      String.intercalate ", " (candidates.map Label.canonical)
  | sharedSource source first second =>
    "'" ++ source ++ "' is listed in the srcs of both :" ++ first ++ " and :" ++ second
  | takenName kind name source holder =>
    "cannot create " ++ kind.function ++ " :" ++ name ++ " for '" ++ source ++ "': a " ++
      holder.function ++ " rule with that name exists"
  | undecidedRule source names =>
    "cannot choose a rule for '" ++ source ++ "' among " ++
      String.intercalate ", " (names.map (":" ++ ·))
  | malformed path line defect =>
    "malformed '" ++ path ++ "' at line " ++ toString line ++ ": " ++ defect.message
  | invalidLabel text => "invalid label '" ++ text ++ "'"
  | unusableFile action path fault =>
    "cannot " ++ action.verb ++ " '" ++ path ++ "': " ++ fault.message
  | query fault => "build query failed: " ++ fault.message
  | invalidIndex path => "invalid index file '" ++ path ++ "'"
  | noWorkspace path => "cannot find the workspace root above '" ++ path ++ "'"
  | outsideWorkspace path => "'" ++ path ++ "' is outside the workspace"
  | severalRoots => "can only take exactly one path with --root"
  | splitCharacter path => "cannot cut '" ++ path ++ "' inside a character"

/-- What the user can do about the problem. -/
def hint? : Problem → Option String
  | unresolvedImport .. =>
    some "add a rule that lists the imported file in its srcs, or map the module in the index"
  | ambiguousImport .. => some "several rules provide this module; keep exactly one of them"
  | sharedSource .. | takenName .. | undecidedRule .. =>
    some "list the source in the srcs of the rule that should own it"
  | noWorkspace _ =>
    some "run inside a Bazel workspace (a directory tree with WORKSPACE or MODULE.bazel)"
  | _ => none

/-- A BUILD file's fault, reported at its line. -/
def ofFault (path : String) (text : String) (fault : Build.Fault) : Problem :=
  malformed path (Text.lineAt text.toList fault.offset) fault.defect

end Problem

/-! ## Failures -/

/-- Why a package could not be updated. -/
inductive PackageFailure
  /-- The package could not be looked at. -/
  | problem (problem : Problem)
  /-- The problems found in a package. -/
  | package (name : String) (problems : List Problem)
deriving DecidableEq, Repr

namespace PackageFailure

/-- The failure in words. -/
def message : PackageFailure → String
  | problem p => p.message
  | package name problems =>
    let shown := if name = "" then "//" else name
    match problems with
    | [p] => shown ++ ": " ++ p.message
    | _ =>
      shown ++ ": " ++ toString problems.length ++ " problems" ++
        String.join (problems.map ("\n  " ++ ·.message))

/-- What the user can do about a failure with one cause. -/
def hint? : PackageFailure → Option String
  | problem p => p.hint?
  | package _ [p] => p.hint?
  | package _ _ => none

end PackageFailure

/-- Why a run did not succeed. -/
inductive Failure
  | one (failure : PackageFailure)
  /-- Several packages failed. -/
  | several (failures : List PackageFailure)
deriving DecidableEq, Repr

namespace Failure

/-- A failure with one cause. -/
def ofProblem (p : Problem) : Failure :=
  one (.problem p)

/-- The failure in words. -/
def message : Failure → String
  | one failure => failure.message
  | several failures => toString failures.length ++ " packages failed"

/-- What the user can do about a failure with one cause. -/
def hint? : Failure → Option String
  | one failure => failure.hint?
  | several _ => none

end Failure

end BuildSync
