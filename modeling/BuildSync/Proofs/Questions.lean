import BuildSync.Proofs.Providers

/-!
# Every question that is used is asked

All that has to be known about the build graph is asked before a package is updated
(`Workspace.questions`), by a pass over its sources of its own.

* `Scope.lookups`: the questions whose answers decide what a target resolves to
  (`Scope.ofTarget_congr`).
* `Ownership.assign_congr`: settling the owners uses the answers for sources without owner only.
* `Workspace.questions_cover`: all of these questions are asked, and those about the kinds of
  dependencies that may be dropped. The one exception is an import of a file in the directory that
  a rule lists and that is no source (`questions_data`).
-/

namespace BuildSync

open Build

/-! ## What is looked up -/

namespace Ownership

variable {s : Surroundings}

/-- **Settling the owners uses the answers for the sources that no rule lists.** -/
theorem assign_congr {d : Descriptor} {sources : List (String × SourceKind)}
    {external : String → List Label} (h : ∀ source ∈ sources, d.owners source.1 = [] →
      external source.1 = s.external source.1) :
    assign { s with external := external } d sources = assign s d sources := by
  have hfold : ∀ (rest : List (String × SourceKind)) (p : Progress),
      (∀ source ∈ rest, source ∈ sources) →
      (∀ file, p.descriptor.owners file = d.owners file) →
      rest.foldl (Progress.settle { s with external := external }) p =
        rest.foldl (Progress.settle s) p := by
    intro rest
    induction rest with
    | nil => exact fun _ _ _ => rfl
    | cons source rest ih =>
      intro p hsub howners
      have hstep : Progress.settle { s with external := external } p source =
          Progress.settle s p source := by
        unfold Progress.settle
        cases ho : p.descriptor.owners source.1 with
        | nil =>
          dsimp only
          rw [h source (hsub source List.mem_cons_self) ((howners source.1).symm.trans ho)]
          rfl
        | cons first others => cases others <;> rfl
      rw [List.foldl_cons, List.foldl_cons, hstep]
      exact ih _ (fun other ho => hsub other (List.mem_cons_of_mem _ ho)) fun file =>
        (Progress.owners_settle s p source file).trans (howners file)
  unfold assign
  rw [hfold sources _ (fun _ hm => hm) fun _ => rfl]
  rfl

end Ownership

namespace Scope

/-- The questions whose answers decide what a target resolves to. -/
def lookups (s : Scope) : Target → List Query.Key
  | .module name => [.module name]
  | .sibling name =>
    if (s.ownership.owner? name).isSome then [] else s.workspace.fileQuestion (s.dir ++ [name])
  | .member dir package file path =>
    if (s.owner? dir package file).isSome then [] else [.file path]
  | .stray path => [.file path]
  | .missing => []

/-- **A target resolves by the answers to its questions**: other answers make no difference. -/
theorem ofTarget_congr {s : Scope} {target : Target} {index : Query.Index}
    (h : ∀ key ∈ s.lookups target, index.labels key = s.index.labels key) :
    ofTarget { s with index := index } target = s.ofTarget target := by
  cases target with
  | module name => exact h _ (by simp [lookups])
  | sibling name =>
    unfold ofTarget ofSibling
    dsimp only
    cases ho : s.ownership.owner? name with
    | some owner => cases owner <;> rfl
    | none =>
      cases hrel : s.workspace.relative? (s.dir ++ [name]) with
      | none => simp
      | some path =>
        have hkey : Query.Key.file path ∈ s.lookups (.sibling name) := by
          simp [lookups, ho, Workspace.fileQuestion, hrel]
        simpa [indexed] using h _ hkey
  | member dir package file path =>
    have howner : owner? { s with index := index } dir package file = s.owner? dir package file :=
      rfl
    unfold ofTarget
    dsimp only
    rw [howner]
    cases ho : s.owner? dir package file with
    | some label => rfl
    | none => exact h _ (by simp [lookups, ho])
  | stray path => exact h _ (by simp [lookups])
  | missing => rfl

end Scope

/-! ## What is asked -/

namespace Workspace

variable {w : Workspace} {t : Tree} {dir : Location} {package : String} {old : Descriptor}
  {sources : List Source}

theorem mem_questions {withDependencies : Bool} {key : Query.Key} :
    key ∈ w.questions t dir package sources withDependencies ↔
      (∃ source ∈ sources,
        key ∈ w.siblingQuestion dir (t.usableDescriptor? dir package) source.name ∨
        ∃ i ∈ source.imports, key ∈ w.targetQuestion t dir (t.usableDescriptor? dir package)
          (w.target t dir i.specifier)) ∨
      withDependencies = true ∧
        ∃ d, t.usableDescriptor? dir package = some d ∧ key ∈ dependencyQuestions d := by
  unfold questions Query.Key.sortedSet
  simp only [mem_sortedSet, List.mem_append, List.mem_flatMap]
  refine or_congr Iff.rfl ?_
  cases withDependencies <;> cases t.usableDescriptor? dir package <;> simp

/-- A BUILD file that is missing lists nothing. -/
theorem usableDescriptor?_or (hold : t.descriptor dir package = .ok old) :
    t.usableDescriptor? dir package = some old ∨
      t.usableDescriptor? dir package = none ∧ old.rules = [] := by
  obtain ⟨found, hfound, rfl⟩ := map_eq_ok hold
  unfold Tree.usableDescriptor?
  rw [hfound]
  cases found with
  | none => exact .inr ⟨rfl, rfl⟩
  | some d => exact .inl rfl

theorem siblingQuestion_eq (hold : t.descriptor dir package = .ok old) {name : String}
    (h : old.owners name = []) :
    w.siblingQuestion dir (t.usableDescriptor? dir package) name =
      w.fileQuestion (dir ++ [name]) := by
  unfold siblingQuestion
  rcases usableDescriptor?_or hold with he | ⟨he, -⟩
  · rw [he]
    simp [h]
  · rw [he]
    rfl

/-- What a target is looked up by is asked about it. -/
theorem lookups_subset_targetQuestion {index : Query.Index} {rulesFile specifier : String}
    {scope : Scope} (ht : t.IsWellFormed) (hw : w.relative? dir = some package)
    (hold : t.descriptor dir package = .ok old) (hs : t.sources dir = .ok sources)
    (hscope : Scope.ofDescriptor w t index rulesFile dir old sources = .ok scope)
    (hsibling : ∀ name, w.target t dir specifier = .sibling name →
      (SourceKind.ofName? name).isSome = true ∨ old.owners name = []) :
    ∀ key ∈ scope.lookups (w.target t dir specifier),
      key ∈ w.targetQuestion t dir (t.usableDescriptor? dir package)
        (w.target t dir specifier) := by
  obtain ⟨heq, -⟩ := Scope.settled_of_ofDescriptor hs hscope
  intro key hkey
  cases htarget : w.target t dir specifier with
  | module name =>
    rw [htarget] at hkey
    exact hkey
  | sibling name =>
    rw [htarget, heq] at hkey
    dsimp only [Scope.lookups] at hkey
    split at hkey
    · cases hkey
    · rename_i howner
      have hnot : (SourceKind.ofName? name).isSome ≠ true := fun hname => howner
        ((Scope.isSome_owner?_iff hs hscope).2
          ((Tree.mem_sources hs).2 ⟨isFile_of_target_sibling htarget, hname⟩))
      have hnone := (hsibling name htarget).resolve_left hnot
      dsimp only [targetQuestion]
      rwa [siblingQuestion_eq hold hnone]
  | member owner name file path =>
    obtain ⟨location, hfile, hdir, hown, hrel⟩ := exists_file_of_target_member htarget
    have hanswer := Scope.owner?_eq ht hw hold hs hscope (Tree.isFile_of_moduleFile? hfile) hdir
      hown hrel
    rw [htarget] at hkey
    dsimp only [Scope.lookups] at hkey
    split at hkey
    · cases hkey
    · rename_i howner
      rw [hanswer] at howner
      have hnone : ¬ ((t.usableDescriptor? owner name).bind (·.owner? file)).isSome = true := by
        intro hsome
        refine howner ?_
        cases hd : t.usableDescriptor? owner name with
        | none => simp [hd] at hsome
        | some d => simpa [hd, Descriptor.ownerLabel?] using hsome
      dsimp only [targetQuestion]
      rwa [if_neg hnone]
  | stray path =>
    rw [htarget] at hkey
    exact hkey
  | missing =>
    rw [htarget] at hkey
    cases hkey

/-- **Every question that is used is asked**: about the sources that no rule lists, about what the
imports lead to, and about the dependencies outside the package when some may be dropped. An import
of a file in the directory counts if it is a source or no rule lists it. -/
theorem questions_cover {index : Query.Index} {rulesFile : String} {scope : Scope}
    (ht : t.IsWellFormed) (hw : w.relative? dir = some package)
    (hold : t.descriptor dir package = .ok old) (hs : t.sources dir = .ok sources)
    (hscope : Scope.ofDescriptor w t index rulesFile dir old sources = .ok scope)
    (withDependencies : Bool) :
    (∀ source ∈ sources, old.owners source.name = [] →
      ∀ key ∈ w.fileQuestion (dir ++ [source.name]),
        key ∈ w.questions t dir package sources withDependencies) ∧
    (∀ source ∈ sources, ∀ i ∈ source.imports,
      (∀ name, w.target t dir i.specifier = .sibling name →
        (SourceKind.ofName? name).isSome = true ∨ old.owners name = []) →
      ∀ key ∈ scope.lookups (w.target t dir i.specifier),
        key ∈ w.questions t dir package sources withDependencies) ∧
    (withDependencies = true → ∀ rule ∈ scope.descriptor.rules, ∀ deps,
      rule.deps.values? = some deps → ∀ dep ∈ deps, dep.isIn package = false →
        .rule dep ∈ w.questions t dir package sources withDependencies) := by
  obtain ⟨-, hsettled⟩ := Scope.settled_of_ofDescriptor hs hscope
  refine ⟨fun source hsource hnone key hkey => ?_, fun source hsource i hi hsibling key hkey => ?_,
    fun hwith rule hrule deps hdeps dep hdep hout => ?_⟩
  · refine mem_questions.2 (.inl ⟨source, hsource, .inl ?_⟩)
    rwa [siblingQuestion_eq hold hnone]
  · exact mem_questions.2 (.inl ⟨source, hsource, .inr ⟨i, hi,
      lookups_subset_targetQuestion ht hw hold hs hscope hsibling key hkey⟩⟩)
  · refine mem_questions.2 (.inr ⟨hwith, ?_⟩)
    -- A rule that is made has no dependencies; any other one has those that were read.
    rcases hsettled.deps rule hrule with hnew | ⟨r, hr, hsame⟩
    · rw [hnew] at hdeps
      exact absurd (Option.some.inj hdeps).symm (List.ne_nil_of_mem hdep)
    · rcases usableDescriptor?_or hold with he | ⟨-, hnil⟩
      · refine ⟨old, he, ?_⟩
        unfold dependencyQuestions
        refine List.mem_map_of_mem (List.mem_filter.2 ⟨List.mem_flatMap.2 ⟨r, hr, ?_⟩, ?_⟩)
        · rw [hsame, hdeps]
          exact hdep
        · rw [Tree.package_descriptor hold, hout]
          rfl
      · rw [hnil] at hr
        cases hr

/-- The questions of a package whose source only the index gives to a rule: the source itself, and
the module that it imports. -/
theorem questions_cover_glob :
    (sampleTree globBuild).IsWellFormed ∧ (Workspace.mk []).relative? ["p"] = some "p" ∧
      (sampleTree globBuild).descriptor ["p"] "p" = .ok globDescriptor ∧
      (sampleTree globBuild).sources ["p"] = .ok [sampleSource] ∧
      Scope.ofDescriptor ⟨[]⟩ (sampleTree globBuild) sampleIndex "" ["p"] globDescriptor
        [sampleSource] = .ok globScope ∧
      .file "p/a.ts" ∈ (Workspace.mk []).questions (sampleTree globBuild) ["p"] "p"
        [sampleSource] true ∧
      .module "m" ∈ (Workspace.mk []).questions (sampleTree globBuild) ["p"] "p"
        [sampleSource] true := by
  have hwellFormed : (sampleTree globBuild).IsWellFormed :=
    Tree.isWellFormed_of_entries (by decide)
  have hsources := sources_sampleTree globBuild
  obtain ⟨hasked, hcovered, -⟩ := @questions_cover ⟨[]⟩ (sampleTree globBuild) ["p"] "p"
    globDescriptor [sampleSource] sampleIndex "" globScope hwellFormed rfl descriptor_globBuild
    hsources scope_globBuild true
  refine ⟨hwellFormed, rfl, descriptor_globBuild, hsources, scope_globBuild, ?_, ?_⟩
  · exact hasked sampleSource List.mem_cons_self rfl _ List.mem_cons_self
  · refine hcovered sampleSource List.mem_cons_self ⟨"m", .sideEffect, 1, 1, 0, 9⟩
      List.mem_cons_self (fun name hname => ?_) _ List.mem_cons_self
    cases hname

/-- **A question may be missing**: a source imports a file of its own directory that a rule lists
and that is no source. The file is looked up, and was never asked about. -/
theorem questions_data :
    dataTree.IsWellFormed ∧ (Workspace.mk []).relative? ["p"] = some "p" ∧
      dataTree.descriptor ["p"] "p" = .ok dataDescriptor ∧
      dataTree.sources ["p"] = .ok [dataSource] ∧
      Scope.ofDescriptor ⟨[]⟩ dataTree .empty "" ["p"] dataDescriptor [dataSource] =
        .ok (dataScope .empty) ∧
      ∃ i ∈ dataSource.imports,
        .file "p/data.json" ∈
          (dataScope .empty).lookups ((Workspace.mk []).target dataTree ["p"] i.specifier) ∧
        .file "p/data.json" ∉
          (Workspace.mk []).questions dataTree ["p"] "p" [dataSource] false := by
  have hd : dataTree.usableDescriptor? ["p"] "p" = some dataDescriptor := by
    rw [Tree.usableDescriptor?, descriptor?_dataTree]
    rfl
  have hold : dataTree.descriptor ["p"] "p" = .ok dataDescriptor := by
    rw [Tree.descriptor, descriptor?_dataTree]
    rfl
  have htarget : (Workspace.mk []).target dataTree ["p"] "./data.json" = .sibling "data.json" :=
    rfl
  refine ⟨isWellFormed_dataTree, rfl, hold, sources_dataTree, rfl,
    ⟨"./data.json", .sideEffect, 1, 1, 0, 19⟩, List.mem_cons_self, ?_, fun hmem => ?_⟩
  · rw [htarget]
    exact List.mem_cons_self
  · rcases mem_questions.1 hmem with ⟨source, hsource, hkey⟩ | ⟨hwith, -⟩
    · obtain rfl := List.mem_singleton.1 hsource
      rw [hd] at hkey
      rcases hkey with hkey | ⟨i, hi, hkey⟩
      · cases hkey
      · obtain rfl := List.mem_singleton.1 hi
        rw [htarget] at hkey
        cases hkey
    · cases hwith

end Workspace

end BuildSync
