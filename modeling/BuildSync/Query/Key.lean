import BuildSync.Build.Rule
import BuildSync.Problem

/-! # Questions about the build graph

What a run has to know about rules it does not read itself, it asks for all at once.

* `Key`: one question; `Key.sortedSet`: questions in order.
* `KnownRule`: a rule in an answer.
* `Service`: answers a list of questions, one list of rules for each.
* `moduleNames`: the module names that can provide a specifier.
-/

namespace BuildSync.Query

/-- A question about the build graph. -/
inductive Key
  /-- The rules that provide a module. -/
  | module (specifier : String)
  /-- The rules that list a file, which is given as seen from the root of the workspace. -/
  | file (path : String)
  /-- The rule of a label, to learn its kind. -/
  | rule (label : Label)
deriving DecidableEq, Repr

namespace Key

/-- Modules come first, then files, then rules. -/
def le : Key → Key → Bool
  | module a, module b => textLe a b
  | module _, _ => true
  | file a, file b => textLe a b
  | file _, rule _ => true
  | file _, module _ => false
  | rule a, rule b => a.le b
  | rule _, _ => false

/-- Questions in order, each once. -/
def sortedSet (keys : List Key) : List Key :=
  BuildSync.sortedSet le keys

end Key

/-- A rule that answers a question. -/
structure KnownRule where
  label : Label
  /-- None for a rule that is not managed. -/
  kind : Option Build.RuleKind
deriving DecidableEq, Repr

/-- Answers questions: the rules for each, in the order of the questions. -/
abbrev Service := List Key → Except Problem (List (List KnownRule))

/-- The module names that can provide a specifier, the longest first: the specifier itself, and
what stands before one of its slashes. A scope alone is no module name. -/
def moduleNames (specifier : String) : List String :=
  let segments := Text.splitOnChar '/' specifier.toList
  let fewest := if specifier.toList.head? = some '@' then 2 else 1
  let counts := (List.range segments.length).reverse.filter (fewest ≤ ·)
  specifier :: counts.map fun n => String.ofList (Text.joined ['/'] (segments.take n))

end BuildSync.Query
