import BuildSync.Proofs.Completeness

/-!
# What becomes of the rules of a BUILD file

An update loses no rule. Each rule has a successor of its name and kind, and its dependencies only
change by a plan, or with the rules over the whole project.

* `Ownership.exists_relisted`, `Dependency.exists_planned`, `Aggregate.exists_deriveAll`: the
  successor of a rule after each part of an update.
* `Workspace.exists_successor`: the successor of a rule after all of them.
-/

namespace BuildSync

open Build

theorem exists_successor {α β : Type} {R : α → β → Prop} {xs : List α} {ys : List β}
    (h : List.Forall₂ R xs ys) {x : α} (hx : x ∈ xs) : ∃ y ∈ ys, R x y :=
  Ownership.exists_partner (R := flip R) (.flip h) hx

theorem names_sourceKinds (sources : List Source) :
    (sources.map fun source => (source.name, source.kind)).map (·.1) = sources.map (·.name) :=
  List.map_map

theorem Scope.names_resolveSource (scope : Scope) (sources : List Source) :
    (sources.map scope.resolveSource).map (·.name) = sources.map (·.name) :=
  List.map_map

/-- Settling the owners of sources leaves a rule its dependencies. -/
theorem Ownership.exists_relisted {s : Surroundings} {d d' : Descriptor} {o : Ownership}
    {sources : List (String × SourceKind)} (hs : (sources.map (·.1)).Nodup)
    (h : assign s d sources = (d', .ok o)) {r : Build.Rule} (hr : r ∈ d.rules) :
    ∃ r' ∈ d'.rules, r'.name = r.name ∧ r'.kind = r.kind ∧ r'.deps = r.deps := by
  obtain ⟨p, hp, -, rfl⟩ := exists_sound_of_assign hs h
  obtain ⟨new, hrules, -⟩ := hp.rules
  have hmem : r ∈ p.descriptor.rules := hrules ▸ List.mem_append_left new hr
  obtain ⟨r', hr', hrel⟩ := exists_successor
    (relisted_relistAll (missingOf s d.rules) fun entry (he : entry ∈ p.added) => he) hmem
  exact ⟨r', hr', hrel.name, hrel.kind, hrel.deps⟩

namespace Dependency

/-- A plan leaves a rule or sets its dependencies. -/
theorem exists_planned {d : Descriptor} (hd : (d.rules.map (·.name)).Nodup)
    {files : List ResolvedFile} (hf : (files.map (·.name)).Nodup)
    (prune : Option (Label → RuleInfo)) (ownership : Ownership) {r : Build.Rule}
    (hr : r ∈ d.rules) : ∃ r' ∈ (apply d (plan prune d ownership files).1).rules,
      Outcome prune d.package ownership files r r' ∧
        (r' = r ∨ ∃ labels, r' = r.setDeps d.package labels) := by
  rw [rules_apply_plan hd]
  refine ⟨_, List.mem_map_of_mem hr, outcome_followed hf r, ?_⟩
  unfold followed
  split
  · exact .inr ⟨_, rfl⟩
  · exact .inl rfl

end Dependency

namespace Aggregate

/-- Bringing one aggregate up to date leaves every other rule as it was. -/
theorem exists_derive {d : Descriptor} (hd : (d.rules.map (·.name)).Nodup) (kind : RuleKind)
    (name rulesFile : String) (isNeeded : Bool) (fill : Build.Rule → Build.Rule) {r : Build.Rule}
    (hr : r ∈ d.rules) : ∃ r' ∈ (derive d kind name rulesFile isNeeded fill).rules,
      r' = r ∨ r.kind = kind ∧ r' = fill r := by
  unfold derive
  split
  · rename_i rule hfind
    have hmem := List.mem_of_find?_eq_some hfind
    have hkind : rule.kind = kind := by simpa using List.find?_some hfind
    have hrules : (d.modifyRule rule.name fill).rules =
        d.rules.map fun r => if r.name = rule.name then fill r else r :=
      Dependency.modifyFirst_of_nodup hd
    rw [hrules]
    refine ⟨_, List.mem_map_of_mem hr, ?_⟩
    by_cases hname : r.name = rule.name
    · rw [if_pos hname]
      exact .inr ⟨List.inj_on_of_nodup_map hd hr hmem hname ▸ hkind, rfl⟩
    · rw [if_neg hname]
      exact .inl rfl
  · split
    · rw [Descriptor.rules_addRule]
      exact ⟨r, List.mem_append_left _ hr, .inl rfl⟩
    · exact ⟨r, hr, .inl rfl⟩

/-- The rules over the whole project leave the dependencies of every rule that does not gather
libraries. -/
theorem exists_deriveAll {w : Workspace} {t : Tree} {dir : Location} {rulesFile : String}
    {d d' : Descriptor} (hd : (d.rules.map (·.name)).Nodup)
    (h : deriveAll w t dir rulesFile d = .ok d') {r : Build.Rule} (hr : r ∈ d.rules) :
    ∃ r' ∈ d'.rules, r'.name = r.name ∧ r'.kind = r.kind ∧
      (r.kind ≠ .devSources → r'.deps = r.deps) := by
  unfold deriveAll at h
  obtain ⟨configs, -, h⟩ := bind_eq_ok.1 h
  obtain ⟨below, -, h⟩ := bind_eq_ok.1 h
  cases h
  obtain ⟨hnames, -⟩ := @mem_derive d hd .config configName rulesFile (configs ≠ [])
    (·.setSrcs configs) rfl (fun r => Rule.name_setSrcs r configs)
    fun r => Rule.kind_setSrcs r configs
  obtain ⟨r₁, hr₁, hrel₁⟩ := exists_derive hd .config configName rulesFile (configs ≠ [])
    (·.setSrcs configs) hr
  obtain ⟨hname, hkind, hdeps⟩ : r₁.name = r.name ∧ r₁.kind = r.kind ∧ r₁.deps = r.deps := by
    rcases hrel₁ with rfl | ⟨-, rfl⟩
    · exact ⟨rfl, rfl, rfl⟩
    · exact ⟨r.name_setSrcs configs, r.kind_setSrcs configs, r.deps_setSrcs configs⟩
  obtain ⟨r₂, hr₂, hrel₂⟩ := exists_derive hnames .devSources devSourcesName rulesFile _ _ hr₁
  refine ⟨r₂, hr₂, ?_⟩
  rcases hrel₂ with rfl | ⟨hdev, rfl⟩
  · exact ⟨hname, hkind, fun _ => hdeps⟩
  · exact ⟨(r₁.name_setDeps _ _).trans hname, (r₁.kind_setDeps _ _).trans hkind,
      fun hne => absurd (hkind.symm.trans hdev) hne⟩

end Aggregate

namespace Workspace

variable {w : Workspace} {t seen : Tree} {index : Query.Index} {options : UpdateOptions}
  {dir : Location} {package : String} {sources : List Source} {isProjectRoot : Bool}
  {pending : Pending} {old : Descriptor}

/-- **A rule has a successor after an update.** Its dependencies are those that a plan leaves, if it
does not gather the libraries of a project. -/
theorem exists_successor (hs : (sources.map (·.name)).Nodup)
    (hold : t.descriptor dir package = .ok old) (hd : (old.rules.map (·.name)).Nodup)
    (h : w.prepare t seen index options dir package sources isProjectRoot = .ok pending) :
    ∃ scope, Scope.ofDescriptor w t index options.rulesFile dir old sources seen = .ok scope ∧
      (Dependency.plan (scope.prune? options) scope.descriptor scope.ownership
        (sources.map scope.resolveSource)).2 = [] ∧
      ∀ r ∈ old.rules, ∃ r₁ ∈ scope.descriptor.rules, ∃ r₂, ∃ r₃ ∈ pending.descriptor.rules,
        (r₁.name = r.name ∧ r₁.kind = r.kind ∧ r₁.deps = r.deps) ∧
        Dependency.Outcome (scope.prune? options) package scope.ownership
          (sources.map scope.resolveSource) r₁ r₂ ∧
        (r₂ = r₁ ∨ ∃ labels, r₂ = r₁.setDeps package labels) ∧
        r₃.name = r.name ∧ r₃.kind = r.kind ∧
        ((isProjectRoot = true → r.kind ≠ .devSources) → r₃.deps = r₂.deps) := by
  obtain ⟨old', scope, hold', hscope, hproblems, -, hderived, -⟩ := prepare_eq_ok.1 h
  cases Except.ok.inj (hold.symm.trans hold')
  obtain ⟨-, hassign⟩ := Scope.ofDescriptor_ok hscope
  have hsources := (names_sourceKinds sources).symm ▸ hs
  have hfiles := (scope.names_resolveSource sources).symm ▸ hs
  have ha := Ownership.assign_ok hd hsources hassign
  have hpackage : scope.descriptor.package = package :=
    ha.package.trans (Tree.package_descriptor hold)
  refine ⟨scope, hscope, hproblems, fun r hr => ?_⟩
  obtain ⟨r₁, hr₁, hname, hkind, hdeps⟩ := Ownership.exists_relisted hsources hassign hr
  obtain ⟨r₂, hr₂, hout, hset⟩ := Dependency.exists_planned ha.names hfiles
    (scope.prune? options) scope.ownership hr₁
  rw [hpackage] at hout hset
  have hname₂ : r₂.name = r₁.name := by rw [hout.frame]
  have hkind₂ : r₂.kind = r₁.kind := by rw [hout.frame]
  refine ⟨r₁, hr₁, r₂, ?_⟩
  unfold Scope.derived at hderived
  split at hderived
  · rename_i hroot
    have hnames : ((scope.planned options sources).rules.map (·.name)).Nodup :=
      Dependency.names_eq (@Scope.outcomes_planned scope options sources ha.names hs) ▸ ha.names
    obtain ⟨r₃, hr₃, hname₃, hkind₃, hdeps₃⟩ := Aggregate.exists_deriveAll hnames hderived hr₂
    exact ⟨r₃, hr₃, ⟨hname, hkind, hdeps⟩, hout, hset, hname₃.trans (hname₂.trans hname),
      hkind₃.trans (hkind₂.trans hkind),
      fun hne => hdeps₃ ((hkind₂.trans hkind).symm ▸ hne hroot)⟩
  · exact ⟨r₂, Except.ok.inj hderived ▸ hr₂, ⟨hname, hkind, hdeps⟩, hout, hset,
      hname₂.trans hname, hkind₂.trans hkind, fun _ => rfl⟩

end Workspace

end BuildSync
