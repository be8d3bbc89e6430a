import BuildSync.Ownership
import BuildSync.Resolution

/-! # Dependencies

A rule depends on what the imports of its sources resolve to. What is listed stays listed, except
that on request a declaration which no import mentions is dropped.

* `RuleInfo`: what is known of a dependency when it might be dropped.
* `Dependency.isMentioned`: an import resolves to a rule, or names it.
* `Dependency.plan`: the rules whose dependencies change; `Dependency.apply` changes them.
-/

namespace BuildSync

/-- What is known of a rule that others depend on. -/
structure RuleInfo where
  kind : Option Build.RuleKind
  moduleName : Option String
deriving DecidableEq, Repr

/-- The dependencies that a rule is to have. -/
structure DependencyPlan where
  rule : String
  /-- The dependencies in the total order of labels. -/
  deps : List Label
deriving DecidableEq, Repr

namespace Dependency

/-! ## Mentions -/

/-- A text is `name` or continues it after a `/`. -/
def isAtOrBelow (name text : List Char) : Bool :=
  match Text.strip? name text with
  | some [] => true
  | some (c :: _) => c = '/'
  | none => false

/-- A specifier without the `./` at its front, however often it stands there. -/
def dropHere : List Char → List Char
  | '.' :: '/' :: rest => dropHere rest
  | text => text

/-- A specifier names a package: in full, with something below it, or by its last segments. -/
def namesPackage (specifier : List Char) (package : List Char) : Bool :=
  let bare := dropHere specifier
  package ≠ [] && (isAtOrBelow package bare || Text.endsWith package ('/' :: bare))

/-- A specifier names a rule by its module name or its package. -/
def names (specifier : String) (label : Label) (moduleName : Option String) : Bool :=
  moduleName.any (fun name => isAtOrBelow name.toList specifier.toList) ||
    namesPackage specifier.toList label.package.toList

/-- Some import resolves to a rule, or names it. -/
def isMentioned (label : Label) (moduleName : Option String) (imports : List ResolvedImport) :
    Bool :=
  imports.any fun i =>
    label ∈ i.candidates || names i.source.specifier label moduleName

/-! ## Problems -/

/-- What is wrong with an import that does not resolve to exactly one rule. -/
def problem? (file : String) (i : ResolvedImport) : Option Problem :=
  match i.candidates with
  | [] => some (.unresolvedImport file i.source.line i.source.specifier)
  | [_] => none
  | candidates => some (.ambiguousImport file i.source.line i.source.specifier candidates)

/-! ## Plans -/

/-- The last file of a name. -/
def fileOf? (files : List ResolvedFile) (name : String) : Option ResolvedFile :=
  files.reverse.find? (·.name = name)

/-- The files that a rule owns. -/
def ownedFiles (ownership : Ownership) (files : List ResolvedFile) (rule : String) :
    List ResolvedFile :=
  (ownership.filesOf rule).filterMap (fileOf? files)

/-- What is wrong with the imports of some files. -/
def problems (files : List ResolvedFile) : List Problem :=
  files.flatMap fun file => file.imports.filterMap (problem? file.name)

/-- What the imports of some files resolve to, apart from the rule that owns them. -/
def required (own : Label) (imports : List ResolvedImport) : List Label :=
  (imports.flatMap (·.candidates)).filter (· ≠ own)

/-- A listed dependency stays. Only a declaration that is not protected and that no import mentions
is dropped, and only on request. -/
def stays (prune : Option (Label → RuleInfo)) (rule : Build.Rule) (own : Label)
    (imports : List ResolvedImport) (label : Label) : Bool :=
  match prune with
  | none => true
  | some info =>
    label ∈ required own imports || rule.isKept label ||
      (info label).kind ≠ some .declaration ||
      isMentioned label (info label).moduleName imports

/-- The dependencies that a rule is to have, given those it lists. -/
def wanted (prune : Option (Label → RuleInfo)) (rule : Build.Rule) (own : Label)
    (current : List Label) (imports : List ResolvedImport) : List Label :=
  Label.sortedSet ((current.filter (· ≠ own) ++ required own imports).filter
    (stays prune rule own imports))

/-- What follows for one rule: a plan if its list changes, and the problems with its imports. -/
def planRule (prune : Option (Label → RuleInfo)) (package : String) (ownership : Ownership)
    (files : List ResolvedFile) (rule : Build.Rule) : Option DependencyPlan × List Problem :=
  if rule.kind.isAggregate then (none, [])
  else
    match rule.deps.values? with
    | none => (none, [])
    | some current =>
      let owned := ownedFiles ownership files rule.name
      if problems owned ≠ [] then (none, problems owned)
      else
        let imports := owned.flatMap (·.imports)
        let deps := wanted prune rule (rule.label package) current imports
        if Label.sortFor package deps = current then (none, []) else (some ⟨rule.name, deps⟩, [])

/-- The plans for the rules of a BUILD file, and the problems with their imports. -/
def plan (prune : Option (Label → RuleInfo)) (d : Build.Descriptor) (ownership : Ownership)
    (files : List ResolvedFile) : List DependencyPlan × List Problem :=
  let all := d.rules.map (planRule prune d.package ownership files)
  (all.filterMap Prod.fst, all.flatMap Prod.snd)

/-- The BUILD file with the planned dependencies. -/
def apply (d : Build.Descriptor) (plans : List DependencyPlan) : Build.Descriptor :=
  plans.foldl (fun d p => d.modifyRule p.rule (·.setDeps d.package p.deps)) d

end Dependency

end BuildSync
