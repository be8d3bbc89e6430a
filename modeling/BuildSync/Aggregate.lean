import BuildSync.Walk

/-! # Rules over the whole project

The package at the root of a project has two rules that are derived from the project: one lists the
configuration files, the other depends on every library.

* `Aggregate.configFiles`, `Aggregate.librariesBelow`: what the rules gather.
* `Aggregate.derive`: brings one of the rules up to date; `Aggregate.deriveAll` both.
-/

namespace BuildSync.Aggregate

/-- The name of a new rule for the configuration files. -/
def configName : String :=
  "tsconfig"

/-- The name of a new rule for the libraries. -/
def devSourcesName : String :=
  "devsrcs"

/-! ## What is gathered -/

/-- A file of this name configures the project. -/
def isConfigName (name : String) : Bool :=
  Text.startsWith name.toList "tsconfig".toList && Text.endsWith name.toList ".json".toList

/-- The configuration files of a directory, in order. -/
def configFiles (t : Tree) (dir : Location) : Except Problem (List String) :=
  match t.list dir with
  | .error fault => .error (.unusableFile .list (Location.text dir) fault)
  | .ok names => .ok (names.filter fun name => isConfigName name && t.isFile (dir ++ [name]))

/-- The libraries of a BUILD file, those for tests left out. -/
def libraries (d : Build.Descriptor) : List Label :=
  (d.rules.filter (·.kind = .library false)).map (·.label d.package)

/-- The libraries of the packages below a directory. -/
def librariesBelow (w : Workspace) (t : Tree) (dir : Location) :
    Except Problem (List Label) := do
  let found ← (t.visited dir).mapM fun names => do
    t.descriptor? (dir ++ names) (← w.packageOf (dir ++ names))
  pure ((found.filterMap id).flatMap libraries)

/-! ## The rules -/

/-- A BUILD file with the first rule of a kind filled in. Without one, a rule of the given name is
made where it is needed and the name is free. -/
def derive (d : Build.Descriptor) (kind : Build.RuleKind) (name rulesFile : String)
    (isNeeded : Bool) (fill : Build.Rule → Build.Rule) : Build.Descriptor :=
  match d.rules.find? (·.kind = kind) with
  | some rule => d.modifyRule rule.name fill
  | none =>
    if isNeeded && (d.rule? name).isNone then d.addRule (fill (.ofName kind name)) rulesFile
    else d

/-- The BUILD file of the root of a project with its two rules brought up to date. -/
def deriveAll (w : Workspace) (t : Tree) (dir : Location) (rulesFile : String)
    (d : Build.Descriptor) : Except Problem Build.Descriptor := do
  let configs ← configFiles t dir
  let d := derive d .config configName rulesFile (configs ≠ []) (·.setSrcs configs)
  let below ← librariesBelow w t dir
  let all := libraries d ++ below
  pure (derive d .devSources devSourcesName rulesFile (all ≠ []) (·.setDeps d.package all))

end BuildSync.Aggregate
