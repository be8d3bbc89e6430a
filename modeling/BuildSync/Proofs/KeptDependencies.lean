import BuildSync.Proofs.Build.MarkedEntries
import BuildSync.Proofs.Runs
import BuildSync.Proofs.Successors

/-!
# Dependencies that are marked to be kept

* `Dependency.Outcome.protects`, `Workspace.prepare_keeps`: a plan and an update leave the mark of a
  dependency whose first entry is marked.
* `Session.run_keeps`: a run leaves a dependency whose first entry is marked, with the mark.
* `Session.run_unmarks`: the mark of a later entry is lost.
-/

namespace BuildSync

open Build

/-! ## Updates -/

/-- **A plan leaves the mark.** -/
theorem Dependency.Outcome.protects {prune : Option (Label → RuleInfo)} {package : String}
    {ownership : Ownership} {files : List ResolvedFile} {r r' : Build.Rule} {label : Label}
    (h : Outcome prune package ownership files r r')
    (hset : r' = r ∨ ∃ labels, r' = r.setDeps package labels) (hlabel : label ≠ r.label package)
    (hkeep : r.protects label = true) : r'.protects label = true := by
  obtain ⟨hkept, old, hold, hmem⟩ := Rule.isKept_of_protects hkeep
  rcases hset with rfl | ⟨labels, rfl⟩
  · exact hkeep
  by_cases hplan : r.kind.isAggregate = false ∧ IsSettled ownership files r.name
  · obtain ⟨new, hnew, hiff, -⟩ := h.settled old hplan.1 hold hplan.2
    refine Rule.protects_setDeps hkeep hnew ((hiff label).2 ⟨.inl hmem, hlabel, ?_⟩)
    rintro ⟨info, -, -, hnot, -⟩
    rw [hkept] at hnot
    cases hnot
  · rw [not_and_or, Bool.not_eq_false] at hplan
    rwa [h.other (hplan.imp_right .inr)]

namespace Workspace

variable {w : Workspace} {t seen : Tree} {index : Query.Index} {options : UpdateOptions}
  {dir : Location} {package : String} {sources : List Source} {isProjectRoot : Bool}
  {pending : Pending} {old : Descriptor}

/-- **An update leaves the mark**, if its rule does not gather the libraries of the project. -/
theorem prepare_keeps (hs : (sources.map (·.name)).Nodup)
    (hold : t.descriptor dir package = .ok old) (hd : (old.rules.map (·.name)).Nodup)
    (h : w.prepare t seen index options dir package sources isProjectRoot = .ok pending)
    {rule : Build.Rule} (hrule : rule ∈ old.rules)
    (hroot : isProjectRoot = true → rule.kind ≠ .devSources) {label : Label}
    (hlabel : label ≠ rule.label package) (hkeep : rule.protects label = true) :
    ∃ rule' ∈ pending.descriptor.rules, rule'.name = rule.name ∧ rule'.kind = rule.kind ∧
      rule'.protects label = true := by
  obtain ⟨scope, -, -, hsuccessor⟩ := exists_successor hs hold hd h
  obtain ⟨r₁, -, r₂, r₃, hr₃, ⟨hname, -, hdeps⟩, hout, hset, hname₃, hkind₃, hdeps₃⟩ :=
    hsuccessor rule hrule
  have hown : label ≠ r₁.label package := by
    unfold Rule.label at hlabel ⊢
    rwa [hname]
  rw [← Rule.protects_congr hdeps] at hkeep
  refine ⟨r₃, hr₃, hname₃, hkind₃, ?_⟩
  rw [Rule.protects_congr (hdeps₃ hroot)]
  exact hout.protects hset hown hkeep

end Workspace

/-! ## Runs -/

/-- **A run keeps a marked dependency, with its mark**: the BUILD file ends as the text of one in
which the rule still has the dependency with the mark, and whose other parts are those of the file
before. If the dependencies are read back, so is the mark, if a statement ends with the line of the
last load where new loads are added. -/
theorem Session.run_keeps {w : Workspace} {t : Tree} {cwd : Location} {service : Query.Service}
    {options : SessionOptions} {s : Session} (hstart : start w t cwd service options = .ok s)
    (hrun : (s.run t).failures = []) {dir : Location} {package : String} {old : Descriptor}
    (hw : w.relative? dir = some package) (hold : t.descriptor? dir package = .ok (some old))
    (hd : (old.rules.map (·.name)).Nodup) {rule : Build.Rule} (hrule : rule ∈ old.rules)
    (hroot : options.isProjectRoot = true → rule.kind ≠ .devSources) {label : Label}
    (hlabel : label ≠ rule.label package) (hkeep : rule.protects label = true) :
    ∃ new name, old.IsChange new ∧ (s.run t).tree.HasBuildFile dir name new.render ∧
      (∃ rule' ∈ new.rules, rule'.name = rule.name ∧ rule'.kind = rule.kind ∧
        rule'.protects label = true) ∧
      ((∀ r ∈ new.rules, r.AllDeps (·.ReadsIn package)) →
        (new.pendingLoads ≠ [] → old.hasClosedLoads = true) →
        ∃ d, (s.run t).tree.descriptor? dir package = .ok (some d) ∧
          ∃ rule' ∈ d.rules, rule'.name = rule.name ∧ rule'.kind = rule.kind ∧
            rule'.isKept label = true) := by
  obtain ⟨name, new, hwritten, hmade, hread⟩ := exists_buildFile hstart hrun hw hold
  have hkept : ∃ rule' ∈ new.rules, rule'.name = rule.name ∧ rule'.kind = rule.kind ∧
      rule'.protects label = true := by
    rcases hmade with rfl | ⟨t₁, sources, isRoot, pending, hs, hold₁, hprepare, rfl, hisRoot⟩
    · exact ⟨rule, hrule, rfl, rfl, hkeep⟩
    · exact Workspace.prepare_keeps (Tree.nodup_sources hs) hold₁ hd hprepare hrule
        (fun h => hroot (hisRoot h)) hlabel hkeep
  obtain ⟨rule', hrule', hname, hkind, hkeep'⟩ := hkept
  refine ⟨new, name, hread.1, hwritten, ⟨rule', hrule', hname, hkind, hkeep'⟩,
    fun hreads hclosed => ?_⟩
  obtain ⟨d, hd', hagree⟩ := hread.2 hreads hclosed
  obtain ⟨rule'', hrule'', hsame⟩ := exists_successor hagree hrule'
  refine ⟨d, hd', rule'', hrule'', hsame.name.trans hname, hsame.kind.trans hkind, ?_⟩
  rw [hsame.isKept]
  exact (Rule.isKept_of_protects hkeep').1

/-! ## A package with one list -/

/-- A package with a BUILD file and no source. -/
def bareTree (build : String) : Tree :=
  ⟨[(["p"], .directory), (["p", "BUILD"], .text build)]⟩

def bareOptions : SessionOptions :=
  ⟨["p"], false, false, false, false, sampleOptions⟩

/-- A session for the package, started in the tree `seen`. -/
def bareSession (seen : Tree) : Session :=
  ⟨⟨[]⟩, bareOptions, [(samplePackage, [])], .empty, seen⟩

theorem sources_bareTree (build : String) : (bareTree build).sources ["p"] = .ok [] := by
  have hnames : (bareTree build).names ["p"] = ["BUILD"] := by
    change sortedTexts ["BUILD"] = _
    simp [sortedTexts, sortedSet, dropRepeats]
  exact Tree.sources_of_names rfl hnames rfl (by simp)

/-- The session has nothing to ask. -/
theorem start_bareTree (build : String) : Session.start ⟨[]⟩ (bareTree build) []
    Query.IndexFile.empty.service bareOptions = .ok (bareSession (bareTree build)) := by
  have hdirs : Session.packageDirs ⟨[]⟩ (bareTree build) [] bareOptions = .ok [samplePackage] := rfl
  refine Session.start_eq_ok.2 ⟨_, [(samplePackage, [])], .empty, hdirs, ?_, ?_, rfl⟩
  · simp [samplePackage, sources_bareTree, bind, Except.bind, pure, Except.pure]
  · simp [Session.questions, Workspace.questions, bareOptions, sampleOptions, Query.Index.build,
      Query.Key.sortedSet, sortedSet, dropRepeats]

/-- The rule lists itself and a dependency with a mark. -/
def markedBuild : String :=
  "ts_library(name=\"p\",deps=[\":p\",\"//t\",  # keep\n])"

theorem steps_markedBuild :
    ((bareTree markedBuild).descriptor? ["p"] "p").toOption.join.map (fun old =>
        old.rules.map fun rule => (rule.name, rule.kind, rule.protects ⟨none, "t", "t"⟩)) =
      some [("p", .library false, true)] ∧
    ((bareSession (bareTree markedBuild)).run (bareTree markedBuild)).failures.length = 0 ∧
    ((bareSession (bareTree markedBuild)).run (bareTree markedBuild)).tree.node? ["p", "BUILD"] =
      some (.text "ts_library(name=\"p\",deps=[\n    \"//t\",  # keep\n])") := by
  decide +kernel

/-- The list is written without the rule itself, and the mark stays. -/
theorem run_keeps_marked :
    Session.start ⟨[]⟩ (bareTree markedBuild) [] Query.IndexFile.empty.service bareOptions =
        .ok (bareSession (bareTree markedBuild)) ∧
      ((bareSession (bareTree markedBuild)).run (bareTree markedBuild)).failures = [] ∧
      (Workspace.mk []).relative? ["p"] = some "p" ∧ ∃ (old : Descriptor) (rule : Build.Rule),
        (bareTree markedBuild).descriptor? ["p"] "p" = .ok (some old) ∧
        (old.rules.map (·.name)).Nodup ∧ rule ∈ old.rules ∧
        (bareOptions.isProjectRoot = true → rule.kind ≠ .devSources) ∧
        ⟨none, "t", "t"⟩ ≠ rule.label "p" ∧ rule.protects ⟨none, "t", "t"⟩ = true ∧
        ∃ (new : Descriptor) (name : String),
          ((bareSession (bareTree markedBuild)).run (bareTree markedBuild)).tree.HasBuildFile ["p"]
            name new.render ∧
          ∃ rule' ∈ new.rules, rule'.name = rule.name ∧
            rule'.protects ⟨none, "t", "t"⟩ = true := by
  obtain ⟨hread, hrun, -⟩ := steps_markedBuild
  obtain ⟨old, hold, hrules⟩ := Option.map_eq_some_iff.1 hread
  obtain ⟨rule, hone, hrule⟩ := List.map_eq_singleton_iff.1 hrules
  simp only [Prod.mk.injEq] at hrule
  obtain ⟨hname, hkind, hkeep⟩ := hrule
  have hold : (bareTree markedBuild).descriptor? ["p"] "p" = .ok (some old) :=
    toOption_eq_some.1 (Option.join_eq_some_iff.1 hold)
  have hfailures := List.length_eq_zero_iff.1 hrun
  have hd : (old.rules.map (·.name)).Nodup := by simp [hone]
  have hmem : rule ∈ old.rules := hone ▸ List.mem_singleton_self _
  have hroot : bareOptions.isProjectRoot = true → rule.kind ≠ .devSources := by simp [hkind]
  have hlabel : ⟨none, "t", "t"⟩ ≠ rule.label "p" := by
    rw [Rule.label, hname]
    decide
  obtain ⟨new, name, -, hwritten, ⟨rule', hrule', hname', -, hkeep'⟩, -⟩ :=
    Session.run_keeps (start_bareTree markedBuild) hfailures rfl hold hd hmem hroot hlabel hkeep
  exact ⟨start_bareTree _, hfailures, rfl, old, rule, hold, hd, hmem, hroot, hlabel, hkeep, new,
    name, hwritten, rule', hrule', hname', hkeep'⟩

/-! ## A dependency that is listed twice -/

/-- The rule lists a dependency twice, and the later entry is marked. -/
def twiceBuild : String :=
  "ts_library(name=\"p\",deps=[\"//t\",\"//t\",  # keep\n])"

def twiceLabel : Label :=
  ⟨none, "t", "t"⟩

def twiceRule : Build.Rule :=
  ⟨.library false, "p", .absent,
    .literal ⟨[.plain twiceLabel, ⟨twiceLabel, some "# keep", []⟩], []⟩, none,
    some ⟨⟨0, 49⟩, 48, 48, false, true, "    ", none, some ⟨25, 48⟩⟩, false, false⟩

def twiceDescriptor : Descriptor :=
  ⟨"/p/BUILD", "p", twiceBuild, [twiceRule], [], ["ts_library"], []⟩

def twiceScope : Scope :=
  ⟨⟨[]⟩, bareTree twiceBuild, .empty, ["p"], twiceDescriptor, ⟨[]⟩, bareTree twiceBuild⟩

/-- The package with the dependency once. -/
def onceTree : Tree :=
  (bareTree twiceBuild).put ["p", "BUILD"] (.text "ts_library(name=\"p\",deps=[\"//t\"])")

def twicePending : Pending :=
  ⟨["p", "BUILD"], Dependency.apply twiceDescriptor [⟨"p", [twiceLabel]⟩], []⟩

/-- What the session reads and writes. -/
theorem steps_twiceBuild :
    ((bareTree twiceBuild).descriptor? ["p"] "p").toOption = some (some twiceDescriptor) ∧
      (twicePending.write (bareTree twiceBuild)).toOption =
        some (onceTree, ⟨some ["p", "BUILD"], []⟩) ∧
      (onceTree.descriptor? ["p"] "p").toOption.join.map (fun new =>
        new.rules.map fun rule => (rule.deps.values?, rule.isKept twiceLabel)) =
          some [(some [twiceLabel], false)] := by
  decide +kernel

theorem plan_twiceBuild :
    Dependency.plan none twiceDescriptor ⟨[]⟩ [] = ([⟨"p", [twiceLabel]⟩], []) := by
  have hsorted : Label.sortedSet [twiceLabel, twiceLabel] = [twiceLabel] := by
    refine List.perm_singleton.1 ((List.perm_ext_iff_of_nodup (Label.nodup_sortedSet _)
      (List.nodup_singleton _)).2 fun label => ?_)
    simp [Label.mem_sortedSet]
  have howned : (Dependency.ownedFiles ⟨[]⟩ [] twiceRule.name).flatMap (·.imports) = [] := by
    simp [Dependency.ownedFiles, Ownership.filesOf, sortedTexts, sortedSet, dropRepeats]
  have hwanted : Dependency.wanted none twiceRule (twiceRule.label "p") [twiceLabel, twiceLabel]
      [] = [twiceLabel] := hsorted
  have hrule : Dependency.planRule none "p" ⟨[]⟩ [] twiceRule =
      (some ⟨"p", [twiceLabel]⟩, []) := by
    have hold : twiceRule.deps.values? = some [twiceLabel, twiceLabel] := rfl
    rw [Dependency.planRule_of_settled (by simp) rfl hold (by simp [Dependency.IsSettled,
      Dependency.IsOwnedImport]), howned]
    dsimp only
    rw [hwanted, List.perm_singleton.1 (Label.sortFor_perm "p" [twiceLabel])]
    decide
  unfold Dependency.plan
  dsimp only
  rw [show twiceDescriptor.rules = [twiceRule] from rfl, List.map_singleton,
    show twiceDescriptor.package = "p" from rfl, hrule]
  rfl

theorem prepare_twiceBuild : Workspace.prepare ⟨[]⟩ (bareTree twiceBuild) (bareTree twiceBuild)
    .empty sampleOptions ["p"] "p" [] false = .ok twicePending := by
  have hold : (bareTree twiceBuild).descriptor ["p"] "p" = .ok twiceDescriptor :=
    Tree.descriptor_of_descriptor? (toOption_eq_some.1 steps_twiceBuild.1)
  have hscope : Scope.ofDescriptor ⟨[]⟩ (bareTree twiceBuild) .empty "" ["p"] twiceDescriptor [] =
      .ok twiceScope := rfl
  refine Workspace.prepare_eq_ok.2 ⟨twiceDescriptor, twiceScope, hold, hscope,
    congrArg Prod.snd plan_twiceBuild, rfl, ?_, rfl⟩
  exact congrArg (fun plans => Except.ok (Dependency.apply twiceDescriptor plans.1)) plan_twiceBuild

theorem run_twiceBuild : (bareSession (bareTree twiceBuild)).run (bareTree twiceBuild) =
    ⟨onceTree, [(samplePackage, ⟨some ["p", "BUILD"], []⟩)], []⟩ := by
  have hupdate : (bareSession (bareTree twiceBuild)).updatePackage (bareTree twiceBuild)
      samplePackage [] true = .ok (onceTree, ⟨some ["p", "BUILD"], []⟩) :=
    Workspace.update_eq_ok.2 ⟨_, prepare_twiceBuild, toOption_eq_some.1 steps_twiceBuild.2.1⟩
  change (bareSession (bareTree twiceBuild)).updateAll (.ofTree (bareTree twiceBuild))
    [(samplePackage, [])] = _
  rw [Session.updateAll]
  dsimp only [Session.Report.ofTree, List.isEmpty_nil]
  rw [hupdate]
  rfl

/-- **The mark of a later entry is lost**: the dependency is kept before the session, which
succeeds, and is not kept after it. -/
theorem Session.run_unmarks :
    Session.start ⟨[]⟩ (bareTree twiceBuild) [] Query.IndexFile.empty.service bareOptions =
        .ok (bareSession (bareTree twiceBuild)) ∧
      ((bareSession (bareTree twiceBuild)).run (bareTree twiceBuild)).failures = [] ∧
      (∃ old, (bareTree twiceBuild).descriptor? ["p"] "p" = .ok (some old) ∧
        (old.rules.map (·.name)).Nodup ∧ ∃ rule ∈ old.rules,
          twiceLabel ≠ rule.label "p" ∧ rule.isKept twiceLabel = true) ∧
      ∃ new, ((bareSession (bareTree twiceBuild)).run (bareTree twiceBuild)).tree.descriptor? ["p"]
          "p" = .ok (some new) ∧
        ∀ rule ∈ new.rules, rule.isKept twiceLabel = false := by
  obtain ⟨hold, -, hread⟩ := steps_twiceBuild
  obtain ⟨new, hnew, hrules⟩ := Option.map_eq_some_iff.1 hread
  rw [run_twiceBuild]
  refine ⟨start_bareTree _, rfl, ⟨twiceDescriptor, toOption_eq_some.1 hold, by decide, twiceRule,
    List.mem_singleton_self _, by decide, by decide⟩, new,
    toOption_eq_some.1 (Option.join_eq_some_iff.1 hnew), fun rule hrule => ?_⟩
  have hmem := List.mem_map_of_mem (f := fun rule : Build.Rule =>
    (rule.deps.values?, rule.isKept twiceLabel)) hrule
  rw [hrules, List.mem_singleton] at hmem
  exact (Prod.mk.inj hmem).2

end BuildSync
