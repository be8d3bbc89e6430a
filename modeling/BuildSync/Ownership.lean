import BuildSync.Build.Descriptor
import BuildSync.Problem
import BuildSync.SourceName

/-! # Ownership of sources

Each source of a package belongs to one rule. A source that no rule lists and that nothing outside
the BUILD file claims is added to the only rule of the kind its name asks for, which is made if
there is none.

* `Owner`, `Ownership`: who owns a source.
* `Ownership.assign`: settles who owns each source, and the rules that follow from it.
-/

namespace BuildSync

/-- Who owns a source. -/
inductive Owner
  /-- A rule of the package. -/
  | rule (name : String)
  /-- The package does not list the source, but these rules do. -/
  | external (labels : List Label)
deriving DecidableEq, Repr

/-- The owners of the sources of a package, the one settled last first. -/
structure Ownership where
  owners : List (String × Owner)
deriving DecidableEq, Repr

/-- What the rules of a package's sources depend on besides its BUILD file. -/
structure Surroundings where
  /-- A listed source exists. -/
  isPresent : String → Bool
  /-- The name for a new rule. -/
  baseName : String
  /-- The file that new kinds of rules are loaded from. -/
  rulesFile : String
  /-- The rules outside the BUILD file that list a source. -/
  external : String → List Label

namespace Ownership

/-- The owner of a source. -/
def owner? (o : Ownership) (file : String) : Option Owner :=
  o.owners.lookup file

/-- The sources of a rule, in order. -/
def filesOf (o : Ownership) (rule : String) : List String :=
  (sortedTexts (o.owners.map Prod.fst)).filter fun file => o.owner? file = some (.rule rule)

/-! ## What a source needs -/

/-- The kind of rule that a source of a kind belongs to. -/
def ruleKind : SourceKind → Build.RuleKind
  | .library => .library false
  | .test => .library true
  | .declaration => .declaration

/-- The name of a new rule for sources of a kind. -/
def ruleName (baseName : String) : SourceKind → String
  | .library => baseName
  | .test => baseName ++ "_test"
  | .declaration => baseName ++ "_dts"

/-- A listed source is a file, not a label. -/
def isFile (source : String) : Bool :=
  let starts := Text.startsWith source.toList
  !(starts [':'] || starts ['/', '/'] || starts ['@'])

/-! ## Settling -/

/-- What is settled so far. -/
structure Progress where
  descriptor : Build.Descriptor
  ownership : Ownership
  /-- The sources to be added to rules, each after the rule's name. -/
  added : List (String × String)
  problems : List Problem

namespace Progress

/-- A source is owned. -/
def own (p : Progress) (source : String) (owner : Owner) : Progress :=
  { p with ownership := ⟨(source, owner) :: p.ownership.owners⟩ }

/-- A source is added to a rule. -/
def attach (p : Progress) (source rule : String) : Progress :=
  { p.own source (.rule rule) with added := p.added ++ [(rule, source)] }

/-- Nobody can own a source. -/
def fail (p : Progress) (problem : Problem) : Progress :=
  { p with problems := p.problems ++ [problem] }

/-- A source that nobody claims is added to the only rule of its kind. -/
def place (p : Progress) (s : Surroundings) (source : String) (kind : SourceKind) : Progress :=
  let wanted := ruleKind kind
  match p.descriptor.rules.filter (·.kind = wanted) with
  | [rule] => p.attach source rule.name
  | [] =>
    let name := ruleName s.baseName kind
    match p.descriptor.rule? name with
    | some holder => p.fail (.takenName wanted name source holder.kind)
    | none =>
      let descriptor := p.descriptor.addRule (.ofName wanted name) s.rulesFile
      { p with descriptor := descriptor }.attach source name
  | rules => p.fail (.undecidedRule source (rules.map (·.name)))

/-- The owner of one more source is settled. -/
def settle (s : Surroundings) (p : Progress) (source : String × SourceKind) : Progress :=
  match p.descriptor.owners source.1 with
  | [rule] => p.own source.1 (.rule rule.name)
  | first :: second :: _ => p.fail (.sharedSource source.1 first.name second.name)
  | [] =>
    match s.external source.1 with
    | [] => p.place s source.1 source.2
    | labels => p.own source.1 (.external labels)

end Progress

/-! ## The rules afterwards -/

/-- The listed sources of a rule that do not exist. -/
def missing (s : Surroundings) (rule : Build.Rule) : List String :=
  if rule.kind.isAggregate then []
  else (rule.srcs.values?.getD []).filter fun source => isFile source && !s.isPresent source

/-- The listed sources that do not exist of the last rule of a name that has any. -/
def missingOf (s : Surroundings) (rules : List Build.Rule) (name : String) : List String :=
  ((rules.filter (·.name = name)).map (missing s)).foldl
    (fun found sources => if sources = [] then found else sources) []

/-- A rule without the sources that are gone and with those that are added. -/
def relist (rule : Build.Rule) (gone added : List String) : Build.Rule :=
  if gone = [] ∧ added = [] then rule
  else
    match rule.srcs.values? with
    | none => rule
    | some sources => rule.setSrcs (sources.filter (· ∉ gone) ++ added)

/-- The rules without the sources that are gone. Of rules that share a name the first one gets the
sources that are added. -/
def relistAll (gone : String → List String) (added : List (String × String)) :
    List Build.Rule → List Build.Rule
  | [] => []
  | rule :: rules =>
    let mine := (added.filter (·.1 = rule.name)).map Prod.snd
    relist rule (gone rule.name) mine ::
      relistAll gone (added.filter (·.1 ≠ rule.name)) rules

/-- The BUILD file of a package once its sources have owners, and the owners. Where some source has
none, the BUILD file as it was left and what went wrong. -/
def assign (s : Surroundings) (d : Build.Descriptor) (sources : List (String × SourceKind)) :
    Build.Descriptor × Except (List Problem) Ownership :=
  let p := sources.foldl (Progress.settle s) ⟨d, ⟨[]⟩, [], []⟩
  if p.problems = [] then
    let rules := relistAll (missingOf s d.rules) p.added p.descriptor.rules
    ({ p.descriptor with rules := rules }, .ok p.ownership)
  else (p.descriptor, .error p.problems)

end Ownership

end BuildSync
