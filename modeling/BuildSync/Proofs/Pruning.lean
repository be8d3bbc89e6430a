import BuildSync.Proofs.Build.Lists
import BuildSync.Proofs.Successors

/-!
# What pruning takes away

* `Scope.IsUnused`: no import of the sources that belong to a rule uses a label. Sources are those
  that stand in the directory of the package.
* `Workspace.update_prunes`: the labels that an update takes from a rule are its unused ones.
* `Workspace.update_prunes_used`: a label may be taken from a rule that uses it, in a source of a
  lower directory that the rule lists, or in one that is not read as a program.
-/

namespace BuildSync

open Build

theorem Build.Rule.isKept_congr {r r' : Build.Rule} (h : r'.deps = r.deps) :
    r'.isKept = r.isKept := by
  funext label
  unfold isKept
  rw [h]

/-- A label that a rule may lose: unused dependencies are dropped, nothing protects the label, it is
known to be a declaration, and no import of a source of the rule resolves to it or names it. -/
structure Scope.IsUnused (scope : Scope) (options : UpdateOptions) (sources : List Source)
    (rule : Build.Rule) (label : Label) : Prop where
  drops : options.dropsUnused = true
  isKept : rule.isKept label = false
  kind : (scope.ruleInfo label).kind = some .declaration
  imports : ∀ source ∈ sources, scope.ownership.owner? source.name = some (.rule rule.name) →
    ∀ i ∈ source.imports, label ∉ scope.resolve i.specifier ∧
      ¬ Dependency.Names i.specifier label (scope.ruleInfo label).moduleName

/-- The imports of a rule's files are those of the sources that belong to it. -/
theorem Scope.isOwnedImport_iff {scope : Scope} {sources : List Source} {rule : String}
    {i : ResolvedImport} :
    Dependency.IsOwnedImport scope.ownership (sources.map scope.resolveSource) rule i ↔
      ∃ source ∈ sources, scope.ownership.owner? source.name = some (.rule rule) ∧
        ∃ j ∈ source.imports, i = ⟨j, scope.resolve j.specifier⟩ := by
  constructor
  · rintro ⟨file, hfile, ho, hi⟩
    obtain ⟨source, hsource, rfl⟩ := List.mem_map.1 hfile
    obtain ⟨j, hj, rfl⟩ := List.mem_map.1 hi
    exact ⟨source, hsource, of_decide_eq_true ho, j, hj, rfl⟩
  · rintro ⟨source, hsource, ho, j, hj, rfl⟩
    exact ⟨scope.resolveSource source, List.mem_map_of_mem hsource, decide_eq_true ho,
      List.mem_map_of_mem hj⟩

/-- A rule with sources other than before loses what it would have lost. -/
theorem Scope.isDropped_iff {scope : Scope} {options : UpdateOptions} {sources : List Source}
    {r rule : Build.Rule} (hname : r.name = rule.name) (hdeps : r.deps = rule.deps)
    {label : Label} :
    Dependency.IsDropped (scope.prune? options) scope.ownership
        (sources.map scope.resolveSource) r label ↔
      scope.IsUnused options sources rule label := by
  unfold Dependency.IsDropped prune?
  rw [hname, Rule.isKept_congr hdeps]
  constructor
  · rintro ⟨info, hinfo, -, hkept, hkind, hunused⟩
    split at hinfo
    · rename_i hdrops
      cases hinfo
      exact ⟨hdrops, hkept, hkind, fun source hsource ho i hi =>
        hunused _ (isOwnedImport_iff.2 ⟨source, hsource, ho, i, hi, rfl⟩)⟩
    · cases hinfo
  · intro h
    refine ⟨scope.ruleInfo, if_pos h.drops, ?_, h.isKept, h.kind, fun i hi => ?_⟩
    · rintro ⟨i, hi, hlabel⟩
      obtain ⟨source, hsource, ho, j, hj, rfl⟩ := isOwnedImport_iff.1 hi
      exact (h.imports source hsource ho j hj).1 hlabel
    · obtain ⟨source, hsource, ho, j, hj, rfl⟩ := isOwnedImport_iff.1 hi
      exact h.imports source hsource ho j hj

/-- **Pruning takes the unused labels, and no others.** A rule that owns sources keeps every other
label that it lists, apart from its own, and a list that is computed. The sources of a rule are
among those of the directory, and the ones that it lists there are all of them. -/
theorem Workspace.update_prunes {w : Workspace} {before t t' seen : Tree} {index : Query.Index}
    {options : UpdateOptions} {package : PackageDir} {sources : List Source}
    {isProjectRoot : Bool} {u : PackageUpdate} {old : Descriptor}
    (hs : before.sources package.dir = .ok sources)
    (hold : t.descriptor package.dir package.package = .ok old)
    (hd : (old.rules.map (·.name)).Nodup)
    (h : w.update t seen index options package sources isProjectRoot = .ok (t', u)) :
    ∃ scope pending,
      Scope.ofDescriptor w t index options.rulesFile package.dir old sources seen = .ok scope ∧
      w.prepare t seen index options package.dir package.package sources isProjectRoot =
        .ok pending ∧
      pending.write t = .ok (t', u) ∧
      ∀ rule ∈ old.rules, rule.kind.isAggregate = false →
        (∀ source ∈ sources, rule.owns source.name = true →
          scope.ownership.owner? source.name = some (.rule rule.name)) ∧
        ∃ rule' ∈ pending.descriptor.rules, rule'.name = rule.name ∧ rule'.kind = rule.kind ∧
          (rule.deps.values? = none → rule'.deps = rule.deps) ∧
          ∀ deps, rule.deps.values? = some deps → ∃ deps', rule'.deps.values? = some deps' ∧
            ∀ label ∈ deps, label ≠ rule.label package.package →
              (label ∉ deps' ↔ scope.IsUnused options sources rule label) := by
  obtain ⟨pending, hprepare, hwrite⟩ := update_eq_ok.1 h
  have hnames := Tree.nodup_sources hs
  obtain ⟨scope, hscope, hproblems, hsuccessor⟩ := exists_successor hnames hold hd hprepare
  refine ⟨scope, pending, hscope, hprepare, hwrite, fun rule hrule hagg => ⟨?_, ?_⟩⟩
  · intro source hsource howns
    have hsettled := Ownership.settled_of_assign ((names_sourceKinds sources).symm ▸ hnames)
      (Scope.ofDescriptor_ok hscope).2
    exact hsettled.listed (source.name, source.kind) (List.mem_map_of_mem hsource) rule
      (Ownership.mem_owners.2 ⟨hrule, hagg, howns⟩)
  obtain ⟨r₁, hr₁, r₂, r₃, hr₃, ⟨hname, hkind, hdeps⟩, hout, -, hname₃, hkind₃, hdeps₃⟩ :=
    hsuccessor rule hrule
  have hplanned : r₃.deps = r₂.deps := by
    refine hdeps₃ fun _ hdev => ?_
    rw [hdev] at hagg
    cases hagg
  refine ⟨r₃, hr₃, hname₃, hkind₃, fun hnone => ?_, fun deps hvalues => ?_⟩
  · rw [hplanned, hout.other (.inr (.inl (hdeps ▸ hnone))), hdeps]
  · rw [← hdeps] at hvalues
    have hagg₁ : r₁.kind.isAggregate = false := hkind ▸ hagg
    have hfiles := (scope.names_resolveSource sources).symm ▸ hnames
    obtain ⟨deps', hdeps', hiff, -⟩ := hout.settled deps hagg₁ hvalues
      (Dependency.isSettled_of_plan hfiles hproblems hr₁ hagg₁ hvalues)
    refine ⟨deps', hplanned ▸ hdeps', fun label hlabel hne => ?_⟩
    have hown : label ≠ r₁.label package.package := by
      unfold Rule.label at hne ⊢
      rwa [hname]
    rw [hiff label, ← Scope.isDropped_iff hname hdeps]
    simp only [hlabel, hown, true_or, ne_eq, not_false_eq_true, true_and, not_not]

/-! ## A dependency that nothing uses -/

def pruningOptions : UpdateOptions :=
  ⟨true, false, ""⟩

/-- The rule of the sample package lists a dependency that its source does not import. -/
def unusedBuild : String :=
  "ts_library(name=\"p\",srcs=[\"a.ts\"],deps=[\"//u\"])"

/-- The dependency is a declaration, and the imported module is something else. -/
def unusedIndex : Query.Index :=
  ⟨[(.module "m", [⟨⟨none, "m", "m"⟩, none⟩]),
    (.rule ⟨none, "u", "u"⟩, [⟨⟨none, "u", "u"⟩, some .declaration⟩])]⟩

theorem steps_unusedBuild :
    ((sampleTree unusedBuild).descriptor ["p"] "p").toOption.map (fun old => old.rules.map
        fun rule => (rule.name, rule.kind.isAggregate, rule.deps.values?)) =
      some [("p", false, some [⟨none, "u", "u"⟩])] ∧
    (Workspace.prepare ⟨[]⟩ (sampleTree unusedBuild) (sampleTree unusedBuild) unusedIndex
      pruningOptions ["p"] "p" [sampleSource] false).toOption.map
        (·.descriptor.rules.map (·.deps.values?)) = some [some [⟨none, "m", "m"⟩]] ∧
    (Workspace.update ⟨[]⟩ (sampleTree unusedBuild) (sampleTree unusedBuild) unusedIndex
      pruningOptions samplePackage [sampleSource] false).toOption.map (·.2) =
        some ⟨some ["p", "BUILD"], []⟩ := by
  decide +kernel

/-- The sample package loses the dependency, which is unused. -/
theorem update_prunes_unused :
    (sampleTree unusedBuild).sources ["p"] = .ok [sampleSource] ∧
      ∃ (old : Descriptor) (scope : Scope) (rule : Build.Rule) (t : Tree) (u : PackageUpdate),
      (sampleTree unusedBuild).descriptor ["p"] "p" = .ok old ∧
      (old.rules.map (·.name)).Nodup ∧
      Workspace.update ⟨[]⟩ (sampleTree unusedBuild) (sampleTree unusedBuild) unusedIndex
        pruningOptions samplePackage [sampleSource] false = .ok (t, u) ∧
      rule ∈ old.rules ∧ rule.kind.isAggregate = false ∧
      rule.deps.values? = some [⟨none, "u", "u"⟩] ∧
      scope.IsUnused pruningOptions [sampleSource] rule ⟨none, "u", "u"⟩ := by
  obtain ⟨hread, hplanned, hupdate⟩ := steps_unusedBuild
  obtain ⟨old, hold, hrules⟩ := Option.map_eq_some_iff.1 hread
  obtain ⟨rule, hone, hrule⟩ := List.map_eq_singleton_iff.1 hrules
  simp only [Prod.mk.injEq] at hrule
  obtain ⟨hname, hagg, hdeps⟩ := hrule
  have hd : (old.rules.map (·.name)).Nodup := by simp [hone]
  have hmem : rule ∈ old.rules := hone ▸ List.mem_singleton_self _
  obtain ⟨⟨t, u⟩, hupdate, -⟩ := Option.map_eq_some_iff.1 hupdate
  obtain ⟨scope, pending, -, hprepare, -, hprunes⟩ := @Workspace.update_prunes ⟨[]⟩
    (sampleTree unusedBuild) (sampleTree unusedBuild) t (sampleTree unusedBuild) unusedIndex
    pruningOptions samplePackage [sampleSource] false u old (sources_sampleTree unusedBuild)
    (toOption_eq_some.1 hold) hd (toOption_eq_some.1 hupdate)
  obtain ⟨-, rule', hrule', -, -, -, hlost⟩ := hprunes rule hmem hagg
  obtain ⟨deps', hdeps', hiff⟩ := hlost _ hdeps
  -- Only the imported module is left.
  have hleft : some deps' = some [⟨none, "m", "m"⟩] := by
    have hvalues := List.mem_map_of_mem (f := fun r : Build.Rule => r.deps.values?) hrule'
    obtain ⟨pending', hpending, hplanned⟩ := Option.map_eq_some_iff.1 hplanned
    cases Except.ok.inj ((toOption_eq_some.1 hpending).symm.trans hprepare)
    rw [hplanned, List.mem_singleton] at hvalues
    exact hdeps'.symm.trans hvalues
  cases hleft
  refine ⟨sources_sampleTree _, old, scope, rule, t, u, toOption_eq_some.1 hold, hd,
    toOption_eq_some.1 hupdate, hmem, hagg, hdeps, (hiff _ (List.mem_singleton_self _) ?_).1 ?_⟩
  · rw [Rule.label, hname]
    decide
  · decide

/-! ## Sources that pruning does not look at -/

/-- A package `t` with a declaration, and a package `p` with a rule that depends on it and lists one
source. -/
def declaredTree (source : String) (files : List (Location × Node)) : Tree :=
  ⟨[(["p"], .directory), (["p", "BUILD"], .text
      ("ts_library(name=\"p\",srcs=[\"" ++ source ++ "\"],deps=[\"//t\"])")),
    (["t"], .directory), (["t", "BUILD"], .text "ts_declaration(name=\"t\",srcs=[\"x.d.ts\"])"),
    (["t", "x.d.ts"], .text "")] ++ files⟩

/-- The source stands in a lower directory, and imports the declaration. -/
def deepTree : Tree :=
  declaredTree "s/b.ts"
    [(["p", "s"], .directory), (["p", "s", "b.ts"], .text "import\"../../t/x\"")]

def deepSource : Source :=
  ⟨"b.ts", ["p", "s", "b.ts"], .library, "import\"../../t/x\"",
    [⟨"../../t/x", .sideEffect, 1, 1, 0, 17⟩]⟩

/-- The source is not a program. -/
def brokenTree : Tree :=
  declaredTree "a.ts" [(["p", "a.ts"], .text "import\"../t/x\"\nlet = ;")]

def brokenSource : Source :=
  ⟨"a.ts", ["p", "a.ts"], .library, "import\"../t/x\"\nlet = ;", []⟩

/-- What the updates of the two packages find and write. -/
theorem steps_declaredTree :
    deepTree.source ["p", "s"] "b.ts" = .ok deepSource ∧
      brokenTree.source ["p"] "a.ts" = .ok brokenSource ∧
      TypeScript.imports "a.ts" brokenSource.text = .error .notAProgram ∧
      (deepTree.descriptor ["p"] "p").toOption.map (fun old =>
        (⟨⟨[]⟩, deepTree, .empty, ["p", "s"], old, ⟨[]⟩, deepTree⟩ : Scope).resolve "../../t/x") =
          some [⟨none, "t", "t"⟩] ∧
      ∀ entry ∈ [(deepTree, [], "s/b.ts"), (brokenTree, [brokenSource], "a.ts")],
        (entry.1.descriptor ["p"] "p").toOption.map (fun old => old.rules.map fun rule =>
            (rule.owns entry.2.2, rule.deps.values?)) =
          some [(true, some [⟨none, "t", "t"⟩])] ∧
        (Workspace.prepare ⟨[]⟩ entry.1 entry.1 .empty pruningOptions ["p"] "p" entry.2.1
          false).toOption.map (·.descriptor.rules.map (·.deps.values?)) = some [some []] ∧
        (Workspace.update ⟨[]⟩ entry.1 entry.1 .empty pruningOptions samplePackage entry.2.1
          false).toOption.map (·.2.buildFile) = some (some ["p", "BUILD"]) := by
  decide +kernel

theorem sources_declaredTree :
    deepTree.sources ["p"] = .ok [] ∧ brokenTree.sources ["p"] = .ok [brokenSource] := by
  have hnames : sortedTexts ["BUILD", "s"] = ["BUILD", "s"] ∧
      sortedTexts ["BUILD", "a.ts"] = ["BUILD", "a.ts"] := by
    simp [sortedTexts, sortedSet, List.mergeSort, List.MergeSort.Internal.splitInTwo, textLe,
      dropRepeats]
  constructor
  · exact Tree.sources_of_names rfl (hnames.1 : deepTree.names ["p"] = _) rfl (by simp)
  · refine Tree.sources_of_names rfl (hnames.2 : brokenTree.names ["p"] = _) rfl fun source hs => ?_
    exact List.mem_singleton.1 hs ▸ steps_declaredTree.2.1

/-- The rule of package `p` lists the source, and an update takes its only dependency. -/
def LosesDependency (t : Tree) (sources : List Source) (source : String) : Prop :=
  ∃ old pending result, t.descriptor ["p"] "p" = .ok old ∧
    Workspace.prepare ⟨[]⟩ t t .empty pruningOptions ["p"] "p" sources false = .ok pending ∧
    Workspace.update ⟨[]⟩ t t .empty pruningOptions samplePackage sources false = .ok result ∧
    old.rules.map (fun rule => (rule.owns source, rule.deps.values?)) =
      [(true, some [⟨none, "t", "t"⟩])] ∧
    pending.descriptor.rules.map (·.deps.values?) = [some []]

theorem losesDependency_declaredTree :
    LosesDependency deepTree [] "s/b.ts" ∧ LosesDependency brokenTree [brokenSource] "a.ts" := by
  have hloses : ∀ entry ∈ [(deepTree, [], "s/b.ts"), (brokenTree, [brokenSource], "a.ts")],
      LosesDependency entry.1 entry.2.1 entry.2.2 := by
    intro entry he
    obtain ⟨hread, hplanned, hupdate⟩ := steps_declaredTree.2.2.2.2 entry he
    obtain ⟨old, hold, hrules⟩ := Option.map_eq_some_iff.1 hread
    obtain ⟨pending, hpending, hdeps⟩ := Option.map_eq_some_iff.1 hplanned
    obtain ⟨result, hresult, -⟩ := Option.map_eq_some_iff.1 hupdate
    exact ⟨old, pending, result, toOption_eq_some.1 hold, toOption_eq_some.1 hpending,
      toOption_eq_some.1 hresult, hrules, hdeps⟩
  exact ⟨hloses (deepTree, [], "s/b.ts") (by simp),
    hloses (brokenTree, [brokenSource], "a.ts") (by simp)⟩

/-- **Pruning may take a dependency that is used.** A rule lists a source of a lower directory, from
where the only import of the source resolves to the dependency; and another rule lists a source
that is not a program, of which no import is known. -/
theorem Workspace.update_prunes_used :
    deepTree.sources ["p"] = .ok [] ∧ LosesDependency deepTree [] "s/b.ts" ∧
      deepTree.source ["p", "s"] "b.ts" = .ok deepSource ∧
      (∃ old, deepTree.descriptor ["p"] "p" = .ok old ∧ ∃ i ∈ deepSource.imports,
        (⟨⟨[]⟩, deepTree, .empty, ["p", "s"], old, ⟨[]⟩, deepTree⟩ : Scope).resolve i.specifier =
          [⟨none, "t", "t"⟩]) ∧
      brokenTree.sources ["p"] = .ok [brokenSource] ∧
      LosesDependency brokenTree [brokenSource] "a.ts" ∧
      TypeScript.imports "a.ts" brokenSource.text = .error .notAProgram := by
  obtain ⟨hdeep, -, hbroken, hresolve, -⟩ := steps_declaredTree
  obtain ⟨old, hold, hresolve⟩ := Option.map_eq_some_iff.1 hresolve
  exact ⟨sources_declaredTree.1, losesDependency_declaredTree.1, hdeep,
    ⟨old, toOption_eq_some.1 hold, _, List.mem_singleton_self _, hresolve⟩,
    sources_declaredTree.2, losesDependency_declaredTree.2, hbroken⟩

end BuildSync
