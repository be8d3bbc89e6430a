import BuildSync.Proofs.Atomicity
import BuildSync.Proofs.Successors

/-!
# Which imports have to resolve

* `Scope.Examines`: the sources whose imports are looked at. `Scope.mem_problems`: an update has the
  problems of exactly these imports.
* `Session.perform_settles`: an update succeeds only if each of these imports resolves to one rule,
  and leaves the files otherwise; and which sources are looked at.
* `Session.perform_unsettled`: an update can succeed, and write, although an import of a source
  resolves to nothing. The source belongs to a rule by the index only.
-/

namespace BuildSync

open Build

/-- The imports of a source are looked at: it belongs to a rule whose dependencies are kept up to
date. -/
def Scope.Examines (scope : Scope) (source : Source) : Prop :=
  ∃ rule ∈ scope.descriptor.rules, Dependency.isPlannable rule = true ∧
    scope.ownership.owner? source.name = some (.rule rule.name)

/-- **The problems of an update** are those of the imports that are looked at. -/
theorem Scope.mem_problems {scope : Scope} {options : UpdateOptions} {sources : List Source}
    (hs : (sources.map (·.name)).Nodup) {problem : Problem} :
    problem ∈ (Dependency.plan (scope.prune? options) scope.descriptor scope.ownership
        (sources.map scope.resolveSource)).2 ↔
      ∃ source ∈ sources, scope.Examines source ∧ ∃ i ∈ source.imports,
        Dependency.problem? source.name ⟨i, scope.resolve i.specifier⟩ = some problem := by
  have hfiles := (scope.names_resolveSource sources).symm ▸ hs
  rw [(Dependency.problems_plan_perm hfiles _ _).mem_iff]
  simp only [List.mem_flatMap, List.mem_filter, List.mem_filterMap]
  constructor
  · rintro ⟨rule, ⟨hrule, hplan⟩, file, ⟨hfile, ho⟩, i, hi, hproblem⟩
    obtain ⟨source, hsource, rfl⟩ := List.mem_map.1 hfile
    obtain ⟨i, hmem, rfl⟩ := List.mem_map.1 hi
    exact ⟨source, hsource, ⟨rule, hrule, hplan, of_decide_eq_true ho⟩, i, hmem, hproblem⟩
  · rintro ⟨source, hsource, ⟨rule, hrule, hplan, ho⟩, i, hi, hproblem⟩
    exact ⟨rule, ⟨hrule, hplan⟩, scope.resolveSource source,
      ⟨List.mem_map_of_mem hsource, decide_eq_true ho⟩, _, List.mem_map_of_mem hi, hproblem⟩

namespace Session

/-- What a package is updated from: its BUILD file, and the scope of its imports. -/
structure HasScope (s : Session) (t : Tree) (task : Task) (old : Descriptor) (scope : Scope) :
    Prop where
  descriptor : t.descriptor task.package.dir task.package.package = .ok old
  scope : Scope.ofDescriptor s.workspace t s.index s.options.update.rulesFile task.package.dir old
    task.sources s.seen = .ok scope

variable {s : Session} {refused : Refusals} {t : Tree} {task : Task} {old : Descriptor}
  {scope : Scope}

/-- The problems with the imports of a package, when its dependencies are planned. -/
def problemsOf (s : Session) (task : Task) (scope : Scope) : List Problem :=
  (Dependency.plan (scope.prune? s.options.update) scope.descriptor scope.ownership
    (task.sources.map scope.resolveSource)).2

/-- An import that does not resolve to exactly one rule is a problem, if it is looked at. -/
theorem exists_mem_problemsOf (hs : (task.sources.map (·.name)).Nodup) {source : Source}
    (hsource : source ∈ task.sources) (hexamines : scope.Examines source) {i : Import}
    (hi : i ∈ source.imports) (hne : ∀ label, scope.resolve i.specifier ≠ [label]) :
    ∃ problem, Dependency.problem? source.name ⟨i, scope.resolve i.specifier⟩ = some problem ∧
      problem ∈ s.problemsOf task scope := by
  obtain ⟨problem, hproblem⟩ : ∃ problem,
      Dependency.problem? source.name ⟨i, scope.resolve i.specifier⟩ = some problem := by
    refine Option.isSome_iff_exists.1 (Option.isSome_iff_ne_none.2 fun hnone => ?_)
    obtain ⟨label, hlabel⟩ := Dependency.problem?_eq_none.1 hnone
    exact hne label hlabel
  exact ⟨problem, hproblem,
    (Scope.mem_problems hs).2 ⟨source, hsource, hexamines, i, hi, hproblem⟩⟩

/-- **An update with problems** reports them and leaves the files. -/
theorem HasScope.run_perform (h : s.HasScope t task old scope)
    (hproblems : s.problemsOf task scope ≠ []) : (s.perform refused task).run t =
      .error (task.failure (s.problemsOf task scope)) t := by
  have hprepare : s.workspace.prepare t s.seen s.index s.options.update task.package.dir
      task.package.package task.sources (s.options.isProjectRoot && task.isLast) =
        .error (s.problemsOf task scope) := by
    unfold Workspace.prepare
    rw [h.descriptor]
    simp only [oneProblem, Except.mapError, bind, Except.bind, h.scope]
    exact if_pos hproblems
  rw [Session.run_perform, hprepare]

/-- An update that succeeds had a scope, and no problems in it. -/
theorem exists_hasScope {u : PackageUpdate} {t' : Tree}
    (h : (s.perform refused task).run t = .ok u t') :
    ∃ old scope, s.HasScope t task old scope ∧ s.problemsOf task scope = [] := by
  rw [Session.run_perform] at h
  split at h
  · cases h
  · rename_i pending hprepare
    obtain ⟨old, scope, hold, hscope, hproblems, -⟩ := Workspace.prepare_eq_ok.1 hprepare
    exact ⟨old, scope, ⟨hold, hscope⟩, hproblems⟩

namespace HasScope

variable (h : s.HasScope t task old scope) (hs : (task.sources.map (·.name)).Nodup)
include h hs

theorem settled : Ownership.Settled (s.workspace.around t s.index s.options.update.rulesFile
      task.package.dir old.package) old
    (task.sources.map fun source => (source.name, source.kind)) scope.descriptor
    scope.ownership :=
  Ownership.settled_of_assign ((names_sourceKinds task.sources).symm ▸ hs)
    (Scope.ofDescriptor_ok h.scope).2

/-- **A source that a rule lists is looked at**, unless the rule computes its dependencies. -/
theorem examines {source : Source} (hsource : source ∈ task.sources) {rule : Build.Rule}
    (hrule : rule ∈ old.owners source.name) (hdeps : rule.deps.values?.isSome = true) :
    scope.Examines source := by
  obtain ⟨hmem, hagg, -⟩ := Ownership.mem_owners.1 hrule
  obtain ⟨r, hr, hname, hkind, hsame⟩ := Ownership.exists_relisted
    ((names_sourceKinds task.sources).symm ▸ hs) (Scope.ofDescriptor_ok h.scope).2 hmem
  refine ⟨r, hr, ?_, ?_⟩
  · rw [Dependency.isPlannable, hkind, hsame, hagg, hdeps]
    rfl
  · rw [hname]
    exact (h.settled hs).listed _ (List.mem_map_of_mem hsource) rule hrule

/-- **A source that is not looked at** belongs to rules by the index only, or to a rule that
computes its dependencies. -/
theorem of_not_examines {source : Source} (hsource : source ∈ task.sources)
    (hnot : ¬ scope.Examines source) :
    old.owners source.name = [] ∧ scope.ownership.owner? source.name =
        some (.external (s.workspace.indexOwners s.index task.package.dir source.name)) ∨
      ∃ name, scope.ownership.owner? source.name = some (.rule name) ∧
        ∀ rule ∈ scope.descriptor.rules, rule.name = name →
          Dependency.isPlannable rule = false := by
  have hsettled := h.settled hs
  have hmem := List.mem_map_of_mem (f := fun source : Source => (source.name, source.kind)) hsource
  obtain ⟨owner, howner⟩ := Option.isSome_iff_exists.1
    ((hsettled.owned source.name).2 (List.mem_map_of_mem (f := Prod.fst) hmem))
  cases owner with
  | external labels =>
    cases hsettled.outside source.name labels howner
    refine .inl ⟨List.eq_nil_iff_forall_not_mem.2 fun rule hrule => ?_, howner⟩
    rw [hsettled.listed _ hmem rule hrule] at howner
    cases howner
  | rule name =>
    refine .inr ⟨name, howner, fun rule hrule hname => Bool.eq_false_iff.2 fun hplan => hnot ?_⟩
    exact ⟨rule, hrule, hplan, hname ▸ howner⟩

end HasScope

/-- **Nothing is written unless the imports resolve** that are looked at. If one of them does not
resolve to exactly one rule, the update fails with the problem and leaves the files. The sources
that rules with listed dependencies list are looked at; those that are not belong to rules by the
index only, or to a rule that computes its dependencies. -/
theorem perform_settles {before : Tree} (hs : before.sources task.package.dir = .ok task.sources) :
    (∀ u t', (s.perform refused task).run t = .ok u t' → ∃ old scope,
      s.HasScope t task old scope ∧ ∀ source ∈ task.sources, scope.Examines source →
        ∀ i ∈ source.imports, ∃ label, scope.resolve i.specifier = [label]) ∧
    ∀ old scope, s.HasScope t task old scope → ∀ source ∈ task.sources,
      (scope.Examines source → ∀ i ∈ source.imports,
        (∀ label, scope.resolve i.specifier ≠ [label]) → ∃ problem problems,
          Dependency.problem? source.name ⟨i, scope.resolve i.specifier⟩ = some problem ∧
          problem ∈ problems ∧
          (s.perform refused task).run t = .error (task.failure problems) t) ∧
      (∀ rule ∈ old.owners source.name, rule.deps.values?.isSome = true →
        scope.Examines source) ∧
      (¬ scope.Examines source →
        old.owners source.name = [] ∧ scope.ownership.owner? source.name =
            some (.external (s.workspace.indexOwners s.index task.package.dir source.name)) ∨
          ∃ name, scope.ownership.owner? source.name = some (.rule name) ∧
            ∀ rule ∈ scope.descriptor.rules, rule.name = name →
              Dependency.isPlannable rule = false) := by
  have hnames := Tree.nodup_sources hs
  refine ⟨fun u t' hrun => ?_, fun old scope h source hsource =>
    ⟨fun hexamines i hi hne => ?_, fun rule => h.examines hnames hsource,
      h.of_not_examines hnames hsource⟩⟩
  · obtain ⟨old, scope, h, hnil⟩ := exists_hasScope hrun
    refine ⟨old, scope, h, fun source hsource hexamines i hi => ?_⟩
    by_contra hnot
    obtain ⟨problem, -, hmem⟩ := exists_mem_problemsOf (s := s) hnames hsource hexamines hi
      fun label hlabel => hnot ⟨label, hlabel⟩
    rw [hnil] at hmem
    cases hmem
  · obtain ⟨problem, hproblem, hmem⟩ :=
      exists_mem_problemsOf (s := s) hnames hsource hexamines hi hne
    exact ⟨problem, _, hproblem, hmem, h.run_perform (List.ne_nil_of_mem hmem)⟩

end Session

/-! ## A source that a rule has by the index only -/

/-- The sample package is updated in a session that was started in the tree `seen`. -/
def sampleSession (index : Query.Index) (seen : Tree) : Session :=
  ⟨⟨[]⟩, ⟨["p"], false, false, false, false, sampleOptions⟩, [(samplePackage, [sampleSource])],
    index, seen⟩

def sampleTask : Session.Task :=
  ⟨samplePackage, [sampleSource], true⟩

/-- The sample package with a rule that lists its source, and an index without the module. -/
def unmappedScope : Scope :=
  ⟨⟨[]⟩, sampleTree listedBuild, .empty, ["p"], listedDescriptor, ⟨[("a.ts", .rule "p")]⟩,
    sampleTree listedBuild⟩

/-- The import of a listed source is looked at: the update fails without the module, and leaves the
files. -/
theorem perform_settles_listed :
    (sampleTree listedBuild).sources ["p"] = .ok [sampleSource] ∧
      (sampleSession .empty (sampleTree listedBuild)).HasScope (sampleTree listedBuild) sampleTask
        listedDescriptor unmappedScope ∧
      unmappedScope.Examines sampleSource ∧
      ∃ problems, Problem.unresolvedImport "a.ts" 1 "m" ∈ problems ∧
        ((sampleSession .empty (sampleTree listedBuild)).perform (fun _ => none) sampleTask).run
          (sampleTree listedBuild) = .error (.package "p" problems) (sampleTree listedBuild) := by
  have hs := sources_sampleTree listedBuild
  have hscope : (sampleSession .empty (sampleTree listedBuild)).HasScope (sampleTree listedBuild)
      sampleTask listedDescriptor unmappedScope := ⟨descriptor_listedBuild, rfl⟩
  have hresolve : unmappedScope.resolve "m" = [] := by cbv
  obtain ⟨-, hsettles⟩ := @Session.perform_settles
    (sampleSession .empty (sampleTree listedBuild)) (fun _ => none) (sampleTree listedBuild)
    sampleTask _ hs
  obtain ⟨hfails, hexamines, -⟩ := hsettles _ _ hscope sampleSource (List.mem_singleton_self _)
  have hexamined := hexamines (sampleRule (.literal ⟨[.plain "a.ts"], []⟩) 33)
    (List.mem_singleton_self _) rfl
  obtain ⟨problem, problems, hproblem, hmem, hrun⟩ := hfails hexamined
    ⟨"m", .sideEffect, 1, 1, 0, 9⟩ (List.mem_singleton_self _) (by simp [hresolve])
  rw [hresolve] at hproblem
  cases hproblem
  exact ⟨hs, hscope, hexamined, problems, hmem, hrun⟩

/-- A rule has its sources by a pattern, and another one depends on itself. -/
def uncheckedBuild : String :=
  "ts_library(name=\"p\",srcs=glob([\"*\"]))\nts_library(name=\"q\",deps=[\":q\"])"

def uncheckedTree : Tree :=
  sampleTree uncheckedBuild

/-- The index gives the source to the first rule, and has no rule for the module. -/
def uncheckedIndex : Query.Index :=
  ⟨[(.file "p/a.ts", [⟨⟨none, "p", "p"⟩, none⟩])]⟩

/-- What the update of the other source finds and writes. -/
theorem steps_uncheckedBuild :
    (uncheckedTree.descriptor ["p"] "p").toOption.bind (fun old =>
        (Scope.ofDescriptor ⟨[]⟩ uncheckedTree uncheckedIndex "" ["p"] old
          [sampleSource]).toOption.map fun scope => scope.resolve "m") = some [] ∧
      (Workspace.update ⟨[]⟩ uncheckedTree uncheckedTree uncheckedIndex sampleOptions samplePackage
        [sampleSource] false).toOption = some (uncheckedTree.put ["p", "BUILD"] (.text
          "ts_library(name=\"p\",srcs=glob([\"*\"]))\nts_library(name=\"q\",deps=[])"),
        ⟨some ["p", "BUILD"], []⟩) := by
  decide +kernel

/-- **An update may write although an import does not resolve**: the source belongs to its rule by
the index only, so nobody asks for the module that it imports, and another rule is written. -/
theorem Session.perform_unsettled :
    uncheckedTree.sources ["p"] = .ok [sampleSource] ∧ ∃ old scope u t',
      (sampleSession uncheckedIndex uncheckedTree).HasScope uncheckedTree sampleTask old scope ∧
      ((sampleSession uncheckedIndex uncheckedTree).perform (fun _ => none) sampleTask).run
        uncheckedTree = .ok u t' ∧ u.isChanged = true ∧
      t'.node? ["p", "BUILD"] ≠ uncheckedTree.node? ["p", "BUILD"] ∧
      ∃ i ∈ sampleSource.imports, scope.resolve i.specifier = [] := by
  obtain ⟨hscope, hupdate⟩ := steps_uncheckedBuild
  obtain ⟨old, hold, hscope⟩ := Option.bind_eq_some_iff.1 hscope
  obtain ⟨scope, hscope, hresolve⟩ := Option.map_eq_some_iff.1 hscope
  have hrun := Session.run_perform_update (s := sampleSession uncheckedIndex uncheckedTree)
    sampleTask uncheckedTree
  have hpackage : (sampleSession uncheckedIndex uncheckedTree).updatePackage uncheckedTree
      sampleTask.package sampleTask.sources sampleTask.isLast = _ := toOption_eq_some.1 hupdate
  rw [hpackage] at hrun
  exact ⟨sources_sampleTree _, old, scope, _, _,
    ⟨toOption_eq_some.1 hold, toOption_eq_some.1 hscope⟩, hrun, rfl, by decide,
    ⟨"m", .sideEffect, 1, 1, 0, 9⟩, List.mem_singleton_self _, hresolve⟩

end BuildSync
