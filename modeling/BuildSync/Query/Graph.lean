import BuildSync.Query.Key
import BuildSync.Workspace

/-! # Queries of the build graph

All questions of a run are put to the build tool in one query, whose answer lists rules in the form
of BUILD files.

* `expression`: the query for a list of questions.
* `QueriedRule.ofOutput`: the rules of an answer.
* `answer`: the rules that answer a question; `answers` for the outcome of a query.
-/

namespace BuildSync.Query

/-! ## The query -/

/-- The characters that mean something in a regular expression. -/
def patternMarks : List Char :=
  ['\\', '.', '+', '*', '?', '(', ')', '|', '[', ']', '\x7b', '\x7d', '^', '$']

/-- A regular expression that matches just a text. -/
def exactPattern (text : String) : String :=
  String.ofList (text.toList.flatMap fun c => if c ∈ patternMarks then ['\\', c] else [c])

/-- The parts of a text before and after its last slash. -/
def cutLast (path : List Char) : List Char × List Char :=
  let file := Text.lastSegment path
  ((path.take (path.length - file.length)).dropLast, file)

/-- The label of a file: seen from the nearest package above it, or else from its directory. -/
def fileLabel (w : Workspace) (t : Tree) (path : String) : String :=
  let location := (Path.ofText (joinText w.root.text path)).location?
  match (location.bind (w.owningPackage? t)).map Prod.snd with
  | some package =>
    let below := if package = "" then some path.toList
      else Text.strip? (package.toList ++ ['/']) path.toList
    match below with
    | some name => "//" ++ package ++ ":" ++ String.ofList name
    | none => "//:" ++ path
  | none =>
    let (dir, file) := cutLast path.toList
    "//" ++ String.ofList dir ++ ":" ++ String.ofList file

/-- A text in quotes. -/
def quoted (text : String) : String :=
  "\x22" ++ text ++ "\x22"

/-- The rules with an attribute that matches a pattern. -/
def attributeTerm (name pattern : String) : String :=
  "attr(" ++ quoted name ++ ", " ++ quoted pattern ++ ", //...)"

/-- The part of the query for one question. -/
def term (w : Workspace) (t : Tree) : Key → String
  | .module specifier =>
    let names := (moduleNames specifier).map exactPattern
    attributeTerm "module_name" ("^(" ++ String.intercalate "|" names ++ ")$")
  | .file path => attributeTerm "srcs" (exactPattern (fileLabel w t path))
  | .rule label => quoted label.canonical

/-- The query for a list of questions. -/
def expression (w : Workspace) (t : Tree) (keys : List Key) : String :=
  String.intercalate " + " (sortedTexts (keys.map (term w t)))

/-- What the build tool is started with. -/
def arguments (w : Workspace) (t : Tree) (keys : List Key) : List String :=
  ["query", "--output=build", "--keep_going", expression w t keys]

/-! ## The answer -/

/-- A rule of the build tool's answer. -/
structure QueriedRule where
  label : Label
  kind : Build.RuleKind
  moduleName : Option String
  /-- The files that the rule lists, as seen from the root of the workspace. -/
  files : List String
deriving DecidableEq, Repr

namespace QueriedRule

/-- The repository and the package of the BUILD file at a place `path:line:column`. -/
def packageAt? (w : Workspace) (place : List Char) : Option (Option String × String) :=
  match parentText? (String.ofList (place.takeWhile (· ≠ ':'))) with
  | none => none
  | some dir =>
    match (Path.ofText dir).location?.bind w.relative? with
    | some package => some (none, package)
    | none =>
      match Text.cut? "/external/".toList.reverse dir.toList.reverse with
      | none => none
      | some (back, _) =>
        match Text.cut? ['/'] back.reverse with
        | some (repo, package) => some (some (String.ofList repo), String.ofList package)
        | none => some (some (String.ofList back.reverse), "")

/-- The label of a rule of a repository, or of the main one where that cannot be written. -/
def labelIn (repo : Option String) (package name : String) : Label :=
  match repo with
  | none => .ofPackage package name
  | some repo =>
    (Label.parse? ("@" ++ repo ++ "//" ++ package ++ ":" ++ name) package).getD
      (.ofPackage package name)

/-- The file of the main repository that a source of a rule is. -/
def fileOf? (package source : String) : Option String :=
  match Label.parse? source package with
  | none => none
  | some label =>
    if label.repo.isSome then none
    else if label.package = "" then some label.name
    else some (label.package ++ "/" ++ label.name)

/-- A rule of a BUILD file. -/
def ofRule (repo : Option String) (package : String) (rule : Build.Rule) : QueriedRule :=
  { label := labelIn repo package rule.name
    kind := rule.kind
    moduleName := rule.moduleName
    files := (rule.srcs.values?.getD []).filterMap (fileOf? package) }

/-- The name under which the faults of an answer are reported. -/
def outputPath : String :=
  "<query output>"

/-- The rules of a block of an answer, with the place of the BUILD file they come from. -/
def ofBlock (w : Workspace) (place : List Char) (block : List Char) :
    Except Problem (List QueriedRule) :=
  match packageAt? w place with
  | none => .ok []
  | some (repo, package) =>
    let text := String.ofList block
    match Build.Descriptor.parse outputPath package text with
    | .error fault => .error (.ofFault outputPath text fault)
    | .ok d => .ok (d.rules.map (ofRule repo package))

/-- The place that a line of an answer tells. -/
def placeOf? (line : List Char) : Option (List Char) :=
  match Text.strip? ['#', ' '] line with
  | none => none
  | some place => if (Text.cut? "BUILD".toList place).isSome then some place else none

/-- The lines of a text, without the marks at their ends. -/
def lines (text : List Char) : List (List Char) :=
  let parts := Text.splitOnChar '\n' text
  parts.dropLast.map (fun line => (Text.stripEnd? ['\r'] line).getD line) ++
    (parts.getLast?.filter (· ≠ [])).toList

/-- The blocks of an answer: what follows each line that tells a place, up to the next. -/
def blocks : List (List Char) → List Char × List (List Char × List Char)
  | [] => ([], [])
  | line :: rest =>
    let (block, others) := blocks rest
    match placeOf? line with
    | some place => ([], (place, block) :: others)
    | none => (line ++ '\n' :: block, others)

/-- The rules of an answer. -/
def ofOutput (w : Workspace) (output : String) : Except Problem (List QueriedRule) :=
  ((blocks (lines output.toList)).2.mapM fun (place, block) => ofBlock w place block).map
    List.flatten

/-- The module name that provides a specifier: the longest that some rule has. -/
def provider? (rules : List QueriedRule) (specifier : String) : Option String :=
  (moduleNames specifier).find? fun name => rules.any (·.moduleName = some name)

/-- A rule answers a question. -/
def answers (rules : List QueriedRule) (key : Key) (rule : QueriedRule) : Bool :=
  match key with
  | .module specifier =>
    match provider? rules specifier with
    | some name => rule.moduleName = some name
    | none => false
  | .file path => path ∈ rule.files
  | .rule label => rule.label = label

end QueriedRule

/-- The rules that answer a question. -/
def answer (rules : List QueriedRule) (key : Key) : List KnownRule :=
  (rules.filter (QueriedRule.answers rules key)).map fun rule => ⟨rule.label, some rule.kind⟩

/-! ## Running the query -/

/-- How the build tool ended. -/
structure Outcome where
  /-- The code it ended with, none if it was stopped. -/
  code : Option Nat
  /-- What it printed, none if that is no UTF-8. -/
  output : Option String
  /-- What it reported. -/
  report : String
deriving DecidableEq, Repr

/-- What the build tool printed. It ends with 0, or with 3 where some targets could not be
loaded. -/
def Outcome.printed (outcome : Outcome) : Except Problem String :=
  if outcome.code = some 0 ∨ outcome.code = some 3 then
    match outcome.output with
    | some output => .ok output
    | none => .error (.query .notText)
  else .error (.query (.reported (String.ofList (Text.trim outcome.report.toList))))

/-- Answers questions by a query; without questions there is none. -/
def service (w : Workspace) (t : Tree) (run : List String → Except Problem Outcome) : Service :=
  fun keys =>
    if keys = [] then .ok []
    else do
      let outcome ← run (arguments w t keys)
      let output ← outcome.printed
      let rules ← QueriedRule.ofOutput w output
      pure (keys.map (answer rules))

end BuildSync.Query
