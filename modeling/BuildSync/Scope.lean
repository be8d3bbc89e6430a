import BuildSync.Dependency
import BuildSync.Query.Index
import BuildSync.Target

/-! # Rules behind imports

* `Scope`: what is known when the imports of a package are resolved; `Scope.ofDescriptor` settles
  who owns the package's sources.
* `Scope.resolve`: the rules that provide what a specifier names.
* `Scope.ruleInfo`: what is known of a rule.
* `Workspace.questions`: what has to be asked to resolve the imports of a package.
-/

namespace BuildSync

/-- What is known when the imports of a package are resolved. -/
structure Scope where
  workspace : Workspace
  tree : Tree
  index : Query.Index
  /-- The directory of the package. -/
  dir : Location
  /-- The package's BUILD file, as it is going to be. -/
  descriptor : Build.Descriptor
  ownership : Ownership
  /-- The tree in which the files are looked up that specifiers lead to. -/
  seen : Tree

/-- A directory's BUILD file; one that cannot be used counts as none. -/
def Tree.usableDescriptor? (t : Tree) (dir : Location) (package : String) :
    Option Build.Descriptor :=
  (t.descriptor? dir package).toOption.join

/-- The label of the rule that lists a file of a package. -/
def Build.Descriptor.ownerLabel? (d : Build.Descriptor) (file : String) : Option Label :=
  (d.owner? file).map (·.label d.package)

namespace Scope

/-- The scope of a package, once its sources have owners. The index tells which rules outside the
BUILD file list a source. -/
def ofDescriptor (w : Workspace) (t : Tree) (index : Query.Index) (rulesFile : String)
    (dir : Location) (d : Build.Descriptor) (sources : List Source) (seen : Tree := t) :
    Except (List Problem) Scope :=
  let external := fun name =>
    ((w.relative? (dir ++ [name])).map fun path => index.labels (.file path)).getD []
  let around : Surroundings := ⟨t.isPresent dir, w.baseName d.package, rulesFile, external⟩
  match Ownership.assign around d (sources.map fun source => (source.name, source.kind)) with
  | (d, .ok ownership) => .ok ⟨w, t, index, dir, d, ownership, seen⟩
  | (_, .error problems) => .error problems

/-- The package whose imports are resolved. -/
def package (s : Scope) : String :=
  s.descriptor.package

/-- The rules that the index names for a file. -/
def indexed (s : Scope) (path : String) : List Label :=
  s.index.labels (.file path)

/-- The rules that provide a file in the directory of the package. -/
def ofSibling (s : Scope) (name : String) : List Label :=
  match s.ownership.owner? name with
  | some (.rule rule) => [.ofPackage s.package rule]
  | some (.external labels) => labels
  | none => ((s.workspace.relative? (s.dir ++ [name])).map s.indexed).getD []

/-- The rule that lists a file of a package. -/
def owner? (s : Scope) (dir : Location) (package file : String) : Option Label :=
  if package = s.package then s.descriptor.ownerLabel? file
  else (s.tree.usableDescriptor? dir package).bind (·.ownerLabel? file)

/-- The rules that provide a target. -/
def ofTarget (s : Scope) : Target → List Label
  | .module name => s.index.labels (.module name)
  | .sibling name => s.ofSibling name
  | .member dir package file path =>
    match s.owner? dir package file with
    | some label => [label]
    | none => s.indexed path
  | .stray path => s.indexed path
  | .missing => []

/-- The rules that provide what a specifier names, in order. -/
def resolve (s : Scope) (specifier : String) : List Label :=
  Label.sortedSet (s.ofTarget (s.workspace.target s.tree s.dir specifier s.seen))

/-- The resolved imports of a source. -/
def resolveSource (s : Scope) (source : Source) : ResolvedFile :=
  ⟨source.name, source.imports.map fun i => ⟨i, s.resolve i.specifier⟩⟩

/-! ## What is known of rules -/

/-- The BUILD file of a package, by the package's name. -/
def descriptorOf? (s : Scope) (package : String) : Option Build.Descriptor :=
  match s.tree.resolve [] (s.workspace.pathOf package) with
  | .ok dir => s.tree.usableDescriptor? dir package
  | .error _ => none

/-- The rule of a label, where its BUILD file can be read. -/
def rule? (s : Scope) (label : Label) : Option Build.Rule :=
  if label.isIn s.package then s.descriptor.rule? label.name
  else if label.repo.isNone then (s.descriptorOf? label.package).bind (·.rule? label.name)
  else none

/-- What is known of a rule: from its BUILD file, or else from the index. -/
def ruleInfo (s : Scope) (label : Label) : RuleInfo :=
  match s.rule? label with
  | some rule => ⟨some rule.kind, rule.moduleName⟩
  | none => ⟨s.index.kindOf? label, none⟩

end Scope

/-! ## What has to be asked -/

namespace Workspace

/-- The question about a file, if it is in the workspace. -/
def fileQuestion (w : Workspace) (file : Location) : List Query.Key :=
  ((w.relative? file).map Query.Key.file).toList

/-- The question about a file in a package's directory, unless a rule of the package lists it. -/
def siblingQuestion (w : Workspace) (dir : Location) (d : Option Build.Descriptor)
    (name : String) : List Query.Key :=
  if d.any (·.owners name ≠ []) then [] else w.fileQuestion (dir ++ [name])

/-- The question about a target, unless its BUILD file answers it. -/
def targetQuestion (w : Workspace) (t : Tree) (dir : Location) (d : Option Build.Descriptor) :
    Target → List Query.Key
  | .module name => [.module name]
  | .sibling name => w.siblingQuestion dir d name
  | .member owner package file path =>
    if ((t.usableDescriptor? owner package).bind (·.owner? file)).isSome then [] else [.file path]
  | .stray path => [.file path]
  | .missing => []

/-- The questions about the dependencies of a BUILD file outside its package. -/
def dependencyQuestions (d : Build.Descriptor) : List Query.Key :=
  let deps := d.rules.flatMap fun rule => rule.deps.values?.getD []
  (deps.filter fun dep => !dep.isIn d.package).map .rule

/-- What has to be asked to resolve the imports of a package's sources, and to learn the kinds of
the rules it depends on if `withDependencies`. -/
def questions (w : Workspace) (t : Tree) (dir : Location) (package : String)
    (sources : List Source) (withDependencies : Bool) : List Query.Key :=
  let d := t.usableDescriptor? dir package
  let ofSource := fun (source : Source) =>
    w.siblingQuestion dir d source.name ++
      source.imports.flatMap fun i => w.targetQuestion t dir d (w.target t dir i.specifier)
  Query.Key.sortedSet (sources.flatMap ofSource ++
    if withDependencies then (d.map dependencyQuestions).getD [] else [])

end Workspace

end BuildSync
