import BuildSync.Proofs.RepeatedSources

/-!
# Updates that are repeated

A package that was updated is updated again, in a tree where other packages may have been updated
as well and with the answers to other questions. Nothing changes, if what was found the first time
is found again and the sources are read as they were left.

* `Scope.outlines_derived`: once the owners of sources are settled, an update changes nothing of
  what is seen of the rules that own them.
* `Workspace.keeps_of_prepare`: what an update leaves to other packages.
* `Workspace.prepare_again`, `Workspace.update_again`: an update that is repeated writes nothing.
-/

namespace BuildSync

open Build

/-! ## The rules of a prepared update -/

namespace Dependency

variable {prune : Option (Label → RuleInfo)} {package : String} {ownership : Ownership}
  {files : List ResolvedFile} {r : Build.Rule}

theorem outline_followed : (followed prune package ownership files r).outline = r.outline := by
  unfold followed
  split
  · rw [Rule.setDeps_eq]
    rfl
  · rfl

theorem planRule_eq_some {p : DependencyPlan}
    (h : (planRule prune package ownership files r).1 = some p) :
    ∃ current, r.deps.values? = some current ∧ p.deps = wanted prune r (r.label package) current
      ((ownedFiles ownership files r.name).flatMap (·.imports)) := by
  unfold planRule at h
  split at h
  · cases h
  · split at h
    · cases h
    · rename_i current hcurrent
      dsimp only at h
      split at h
      · cases h
      · split at h
        · cases h
        · cases h
          exact ⟨current, hcurrent, rfl⟩

/-- A dependency that a rule has after planning was listed, or an import resolves to it. -/
theorem mem_deps_followed {deps : List Label} {label : Label}
    (hdeps : (followed prune package ownership files r).deps.values? = some deps)
    (hlabel : label ∈ deps) :
    (∃ current, r.deps.values? = some current ∧ label ∈ current) ∨
      label ∈ required (r.label package)
        ((ownedFiles ownership files r.name).flatMap (·.imports)) := by
  unfold followed at hdeps
  split at hdeps
  · rename_i p hplan
    obtain ⟨current, hcurrent, hp⟩ := planRule_eq_some hplan
    rw [Rule.deps_of_setDeps hdeps, Rule.mem_arrangeDeps, hp, mem_wanted_iff] at hlabel
    obtain ⟨⟨hmem | himport, hown, -⟩, -⟩ := hlabel
    · exact .inl ⟨current, hcurrent, hmem⟩
    · exact .inr (mem_required.2 ⟨himport, hown⟩)
  · exact .inl ⟨deps, hdeps, hlabel⟩

end Dependency

theorem Aggregate.names_deriveAll {w : Workspace} {t : Tree} {dir : Location} {rulesFile : String}
    {d d' : Descriptor} (h : deriveAll w t dir rulesFile d = .ok d') {name : String}
    (hname : name ∈ d.rules.map (·.name)) : name ∈ d'.rules.map (·.name) := by
  obtain ⟨configs, below, mid, -, -, rfl, rfl⟩ := deriveAll_eq_ok.1 h
  rw [← Descriptor.isSome_rule?] at hname ⊢
  exact isSome_rule?_derive (fun r => Rule.name_setDeps r _ _)
    (isSome_rule?_derive (fun r => Rule.name_setSrcs r _) hname)

namespace Scope

variable {scope : Scope} {w : Workspace} {t : Tree} {options : UpdateOptions} {dir : Location}
  {sources : List Source} {isProjectRoot : Bool} {d : Descriptor}
  (hn : (scope.descriptor.rules.map (·.name)).Nodup)
include hn

theorem rules_planned : (scope.planned options sources).rules = scope.descriptor.rules.map
    (Dependency.followed (scope.prune? options) scope.descriptor.package scope.ownership
      (sources.map scope.resolveSource)) :=
  Dependency.rules_apply_plan hn _ _ _

theorem names_planned :
    (scope.planned options sources).rules.map (·.name) = scope.descriptor.rules.map (·.name) := by
  rw [rules_planned hn, List.map_map]
  exact List.map_congr_left fun r _ => congrArg RuleOutline.name Dependency.outline_followed

theorem outlines_planned :
    (scope.planned options sources).outlines = scope.descriptor.outlines := by
  unfold Descriptor.outlines
  rw [rules_planned hn, List.filter_map, List.map_map]
  refine (List.map_congr_left fun r _ => Dependency.outline_followed).trans ?_
  refine congrArg (List.map Rule.outline) (List.filter_congr fun r _ => ?_)
  exact congrArg (fun o => !o.kind.isAggregate) (Dependency.outline_followed (r := r))

variable (h : scope.derived w t options dir sources isProjectRoot = .ok d)
include h

/-- **What is seen of the rules that own sources** is settled before dependencies are planned. -/
theorem outlines_derived :
    (d.rules.map (·.name)).Nodup ∧ d.outlines = scope.descriptor.outlines := by
  have hplanned : ((scope.planned options sources).rules.map (·.name)).Nodup := by
    rwa [names_planned hn]
  unfold derived at h
  split at h
  · obtain ⟨hd, houtlines⟩ := Aggregate.outlines_deriveAll hplanned h
    exact ⟨hd, houtlines.trans (outlines_planned hn)⟩
  · cases h
    exact ⟨hplanned, outlines_planned hn⟩

/-- A rule that is settled keeps its name. -/
theorem names_derived {name : String} (hname : name ∈ scope.descriptor.rules.map (·.name)) :
    name ∈ d.rules.map (·.name) := by
  rw [← names_planned hn] at hname
  unfold derived at h
  split at h
  · exact Aggregate.names_deriveAll h hname
  · cases h
    exact hname

/-- A rule that owns sources is one of those that were planned. -/
theorem mem_planned_of_derived {r : Build.Rule} (hr : r ∈ d.rules)
    (ha : r.kind.isAggregate = false) : r ∈ (scope.planned options sources).rules := by
  unfold derived at h
  split at h
  · exact Aggregate.mem_deriveAll (by rwa [names_planned hn]) h r hr ha
  · cases h
    exact hr

end Scope

/-! ## What is left to other packages -/

namespace Workspace

variable {w : Workspace} {t seen : Tree} {index : Query.Index} {rulesFile : String}
  {dir : Location} {package : String} {old new : Descriptor} {scope : Scope}
  {sources : List Source}

/-- **What settling leaves to other packages.** The BUILD file may have been planned, written and
read after that. -/
theorem keeps_of_ofDescriptor (ht : t.IsWellFormed) (hs : t.sources dir = .ok sources)
    (hd : (old.rules.map (·.name)).Nodup)
    (hscope : Scope.ofDescriptor w t index rulesFile dir old sources seen = .ok scope)
    (houtlines : new.outlines = scope.descriptor.outlines)
    (hnames : ∀ name ∈ scope.descriptor.rules.map (·.name), name ∈ new.rules.map (·.name)) :
    w.Keeps t index dir old new := by
  obtain ⟨-, hassign⟩ := Scope.ofDescriptor_ok hscope
  have hpresent := ht.isPresent_of_sources hs
  have hnodup := Tree.nodup_map_sources hs
  refine ⟨fun names hne hnode => ?_, fun name hname => ?_, fun r hr r' hr' hname ha => ?_⟩
  · rw [Descriptor.owners_names_eq houtlines]
    refine (Ownership.names_owners_of_assign hd hnodup hpresent hassign
      (ht.isPresent hne hnode)).imp_right fun ⟨hmem, hnone, hexternal⟩ => ⟨hnone, ?_⟩
    rintro path hpath
    -- A source is a single name.
    obtain ⟨name, rfl⟩ : ∃ name, names = [name] := by
      rw [List.map_map] at hmem
      have hsource := ht.isName _ (Tree.isSome_of_isFile ((Tree.mem_sources hs).1 hmem).1)
      have hnames := ht.isName _ hnode
      rw [List.forall_mem_append] at hsource hnames
      exact ⟨_, intercalate_inj hnames.2 hsource.2 (by simp)⟩
    have hlabels : w.indexOwners index dir (String.intercalate "/" [name]) = [] := hexternal
    rw [String.intercalate_singleton] at hlabels
    simpa [indexOwners, hpath] using hlabels
  · exact hnames _ (Ownership.mem_names_of_assign hd hnodup hassign hname)
  · obtain ⟨settled, hsettled, heq⟩ := Descriptor.exists_of_outlines houtlines.symm hr' ha
    obtain ⟨other, hother, hsame, hkind, hmodule⟩ :=
      Ownership.exists_follower_of_assign hd hnodup hassign hr
    obtain rfl : other = settled := List.inj_on_of_nodup_map
      (Ownership.assign_ok hd hnodup hassign).names hother hsettled
      (hsame.trans (hname.symm.trans (congrArg RuleOutline.name heq).symm))
    exact ⟨(congrArg RuleOutline.kind heq).symm.trans hkind,
      (congrArg RuleOutline.moduleName heq).symm.trans hmodule⟩

end Workspace

/-! ## The update again -/

namespace Scope

variable {w : Workspace} {t t' seen seen' : Tree} {index index' : Query.Index}
  {rulesFile : String} {dir : Location} {package : String} {old new settled : Descriptor}
  {ownership : Ownership} {sources sources' : List Source}

theorem prune?_eq_some {scope : Scope} {options : UpdateOptions} {info : Label → RuleInfo} :
    scope.prune? options = some info ↔ options.dropsUnused = true ∧ info = scope.ruleInfo := by
  unfold prune?
  split
  · rename_i h
    rw [Option.some.injEq, eq_comm]
    exact (and_iff_right h).symm
  · rename_i h
    exact ⟨fun hnone => (nomatch hnone), fun hsome => absurd hsome.1 h⟩

/-- A rule that was planned without a problem is not planned again, if its imports resolve as they
did and no more is known of the dependencies that it had before. -/
theorem planRule_again {scope scope' : Scope} {options : UpdateOptions}
    (hresolve : ∀ specifier, scope.resolve specifier ≠ [] →
      scope'.resolve specifier = scope.resolve specifier) {r r' : Build.Rule}
    (hproblems : (Dependency.planRule (scope.prune? options) package ownership
      (sources.map scope.resolveSource) r).2 = [])
    (hnodup : options.dropsUnused = true → ∀ deps, r.deps.values? = some deps → deps.Nodup)
    (hagrees : (Dependency.followed (scope.prune? options) package ownership
      (sources.map scope.resolveSource) r).Agrees r')
    (hinfo : options.dropsUnused = true → ∀ deps, r.deps.values? = some deps → ∀ label ∈ deps,
      ∀ deps', r'.deps.values? = some deps' → label ∈ deps' →
      (scope'.ruleInfo label).kind = some .declaration →
        scope.ruleInfo label = scope'.ruleInfo label) :
    Dependency.planRule (scope'.prune? options) package ownership
      (sources.map scope'.resolveSource) r' = (none, []) := by
  have hnone := Dependency.planRule_followed_of_problems hproblems fun h => by
    obtain ⟨info, hsome⟩ := Option.isSome_iff_exists.1 h
    exact hnodup (prune?_eq_some.1 hsome).1
  rw [← Dependency.planRule_congr hagrees] at hnone
  refine Dependency.planRule_again (ownedFiles_again hresolve) ?_ hnone
  intro deps' hdeps' label hlabel hrequired info' hinfo'
  obtain ⟨hdrops, rfl⟩ := prune?_eq_some.1 hinfo'
  refine ⟨scope.ruleInfo, prune?_eq_some.2 ⟨hdrops, rfl⟩, fun hkind => ?_⟩
  have hname : r'.name = r.name :=
    hagrees.name.trans (congrArg RuleOutline.name Dependency.outline_followed)
  rcases Dependency.mem_deps_followed (hagrees.deps.symm.trans hdeps') hlabel with
    ⟨deps, hdeps, hmem⟩ | himport
  · exact hinfo hdrops deps hdeps label hmem deps' hdeps' hlabel hkind
  · rw [Rule.label, ← hname] at himport
    exact absurd himport hrequired

section
variable {scope scope' : Scope} {options : UpdateOptions} {isProjectRoot : Bool} {d : Descriptor}
  (hpackage : scope'.package = scope.package)
  (hn : (scope.descriptor.rules.map (·.name)).Nodup)
  (hderived : scope.derived w t options dir sources isProjectRoot = .ok d)
  (hagrees : List.Forall₂ Rule.Agrees d.rules scope'.descriptor.rules)
include hpackage hn hderived hagrees

/-- **A BUILD file that was planned without a problem**, written and read has no plan. -/
theorem plan_of_derived (hownership : scope'.ownership = scope.ownership)
    (hresolve : ∀ specifier, scope.resolve specifier ≠ [] →
      scope'.resolve specifier = scope.resolve specifier)
    (hproblems : (Dependency.plan (scope.prune? options) scope.descriptor scope.ownership
      (sources.map scope.resolveSource)).2 = [])
    (hnodup : options.dropsUnused = true → ∀ r ∈ scope.descriptor.rules, ∀ deps,
      r.deps.values? = some deps → deps.Nodup)
    (hinfo : options.dropsUnused = true → ∀ r ∈ scope.descriptor.rules, ∀ deps,
      r.deps.values? = some deps → ∀ label ∈ deps, ∀ r' ∈ scope'.descriptor.rules, ∀ deps',
      r'.deps.values? = some deps' → label ∈ deps' →
      (scope'.ruleInfo label).kind = some .declaration →
        scope.ruleInfo label = scope'.ruleInfo label) :
    Dependency.plan (scope'.prune? options) scope'.descriptor scope'.ownership
      (sources.map scope'.resolveSource) = ([], []) := by
  refine Dependency.plan_eq_nil_iff.2 fun r' hr' => ?_
  by_cases ha : r'.kind.isAggregate = true
  · rw [Dependency.planRule, if_pos ha]
  -- A rule that owns sources was planned.
  obtain ⟨planned, hplanned, hagree⟩ := Ownership.exists_partner hagrees hr'
  have hmem := mem_planned_of_derived hn hderived hplanned (by rw [← hagree.kind]; simpa using ha)
  rw [rules_planned hn] at hmem
  obtain ⟨r, hr, rfl⟩ := List.mem_map.1 hmem
  have hnone := List.flatMap_eq_nil_iff.1 hproblems _ (List.mem_map_of_mem hr)
  rw [hownership, show scope'.descriptor.package = scope.descriptor.package from hpackage]
  exact planRule_again hresolve hnone (fun hdrops => hnodup hdrops r hr) hagree
    fun hdrops deps hdeps label hlabel => hinfo hdrops r hr deps hdeps label hlabel r' hr'

/-- **The rules over the whole project**, if there are any, stay as well. -/
theorem derived_again (hplan : Dependency.plan (scope'.prune? options) scope'.descriptor
      scope'.ownership (sources'.map scope'.resolveSource) = ([], []))
    (ht : t.IsWellFormed) (hrewrites : t.Rewrites t')
    (hbelow : isProjectRoot = true → ∀ place, place ≠ dir → ∀ package,
      t'.descriptor? place package = t.descriptor? place package)
    (hd : d.package = scope.package) (hname : scope.package = package)
    (hw : w.relative? dir = some package)
    (hreads : ∀ rule ∈ d.rules, rule.AllDeps (·.ReadsIn package)) :
    scope'.derived w t' options dir sources' isProjectRoot = .ok scope'.descriptor := by
  have hstays : scope'.planned options sources' = scope'.descriptor := by
    rw [planned, hplan]
    rfl
  subst hname
  unfold derived at hderived ⊢
  rw [hstays]
  split
  · rename_i hroot
    rw [if_pos hroot] at hderived
    refine Aggregate.deriveAll_again ?_ hderived hagrees ht hrewrites (hbelow hroot) (hd ▸ hw)
      (hd ▸ hreads) (hpackage.trans hd.symm)
    rwa [names_planned hn]
  · rfl

end

theorem ofDescriptor_of_assign {d d' : Descriptor}
    (h : Ownership.assign (w.around t index rulesFile dir d.package) d
      (sources.map fun source => (source.name, source.kind)) = (d', .ok ownership)) :
    ofDescriptor w t index rulesFile dir d sources seen =
      .ok ⟨w, t, index, dir, d', ownership, seen⟩ := by
  unfold Workspace.around Workspace.indexOwners at h
  unfold ofDescriptor
  dsimp only
  rw [h]

/-- **The owners of sources** are settled as they were, and no rule changes. -/
theorem ofDescriptor_again (ht : t.IsWellFormed) (hs : t.sources dir = .ok sources)
    (hd : (old.rules.map (·.name)).Nodup) (hrewrites : t.Rewrites t')
    (hscope : ofDescriptor w t index rulesFile dir old sources seen =
      .ok ⟨w, t, index, dir, settled, ownership, seen⟩)
    (hn : (new.rules.map (·.name)).Nodup) (houtlines : new.outlines = settled.outlines)
    (hexternal : ∀ source ∈ sources, old.owners source.name = [] →
      w.indexOwners index' dir source.name = w.indexOwners index dir source.name) :
    ofDescriptor w t' index' rulesFile dir new sources seen' =
      .ok ⟨w, t', index', dir, new, ownership, seen'⟩ := by
  refine ofDescriptor_of_assign (Ownership.assign_again hd (Tree.nodup_map_sources hs)
    (ht.isPresent_of_sources hs) (ofDescriptor_ok hscope).2 hn houtlines ?_ ?_)
  · exact congrFun hrewrites.isPresent dir
  · intro source hsource hnone
    obtain ⟨found, hfound, rfl⟩ := List.mem_map.1 hsource
    exact hexternal found hfound hnone

end Scope

namespace Workspace

variable {w : Workspace} {t t' seen seen' : Tree} {index index' : Query.Index}
  {options : UpdateOptions} {dir : Location} {package : String} {sources : List Source}
  {isProjectRoot : Bool} {old new : Descriptor} {scope : Scope} {pending : Pending}

section
variable (ht : t.IsWellFormed) (hw : w.relative? dir = some package)
  (hs : t.sources dir = .ok sources) (hold : t.descriptor dir package = .ok old)
  (hd : (old.rules.map (·.name)).Nodup)
  (hprepare : w.prepare t seen index options dir package sources isProjectRoot = .ok pending)
  (hnew : t'.descriptor dir package = .ok new)
  (hagrees : List.Forall₂ Rule.Agrees pending.descriptor.rules new.rules)
include ht hs hold hd hprepare hagrees

/-- **What an update leaves to other packages.** -/
theorem keeps_of_prepare : w.Keeps t index dir old new := by
  obtain ⟨old', scope, hold', hscope, -, -, hderived, -⟩ := prepare_eq_ok.1 hprepare
  obtain rfl : old' = old := by simpa [hold] using hold'.symm
  have hn : (scope.descriptor.rules.map (·.name)).Nodup :=
    (Ownership.assign_ok hd (Tree.nodup_map_sources hs) (Scope.ofDescriptor_ok hscope).2).names
  refine keeps_of_ofDescriptor ht hs hd hscope
    ((Descriptor.outlines_of_agrees hagrees).trans (Scope.outlines_derived hn hderived).2)
    fun name hname => ?_
  rw [names_of_agrees hagrees]
  exact Scope.names_derived hn hderived hname

include hw hnew

/-- **An update that is repeated** is prepared as a BUILD file that stays, and sources that do. -/
theorem prepare_again
    (hscope : Scope.ofDescriptor w t index options.rulesFile dir old sources seen = .ok scope)
    (hs' : t'.sources dir = .ok (sources.map (scope.rewritten options)))
    (hannotations : options.annotates = true → ∀ source ∈ sources, scope.IsSettled source)
    (hrecurs : w.Recurs t t' seen seen' index index')
    (hexternal : ∀ source ∈ sources, old.owners source.name = [] →
      w.indexOwners index' dir source.name = w.indexOwners index dir source.name)
    (hbelow : isProjectRoot = true → ∀ place, place ≠ dir → ∀ package,
      t'.descriptor? place package = t.descriptor? place package)
    (hnodup : options.dropsUnused = true → ∀ r ∈ old.rules, ∀ deps, r.deps.values? = some deps →
      deps.Nodup)
    (hrecalls : options.dropsUnused = true → ∀ r ∈ old.rules, ∀ deps, r.deps.values? = some deps →
      ∀ label ∈ deps, ∀ r' ∈ new.rules, ∀ deps', r'.deps.values? = some deps' → label ∈ deps' →
      w.Recalls t t' index index' package old label)
    (hreads : ∀ rule ∈ pending.descriptor.rules, rule.AllDeps (·.ReadsIn package)) :
    w.prepare t' seen' index' options dir package (sources.map (scope.rewritten options))
      isProjectRoot = .ok ⟨dir ++ [(t'.buildFile? dir).getD newBuildFileName], new, []⟩ := by
  obtain ⟨old', scope', hold', hfound, hproblems, -, hderived, -⟩ := prepare_eq_ok.1 hprepare
  obtain rfl : old' = old := by simpa [hold] using hold'.symm
  obtain rfl : scope = scope' := Except.ok.inj (hscope.symm.trans hfound)
  have hreread := fun source (_ : source ∈ sources) => scope.isReread_rewritten options source
  obtain ⟨settled, ownership, rfl⟩ : ∃ settled ownership,
      scope = ⟨w, t, index, dir, settled, ownership, seen⟩ :=
    ⟨_, _, (Scope.ofDescriptor_ok hscope).1⟩
  have hassign := (Scope.ofDescriptor_ok hscope).2
  have hsettled := Ownership.settled_of_assign (Tree.nodup_map_sources hs) hassign
  have hn := (Ownership.assign_ok hd (Tree.nodup_map_sources hs) hassign).names
  obtain ⟨hn', houtlines⟩ := Scope.outlines_derived hn hderived
  rw [← names_of_agrees hagrees] at hn'
  rw [← Descriptor.outlines_of_agrees hagrees] at houtlines
  have hpackage : settled.package = package := Scope.package_eq hold hs hscope
  have hpackage' : new.package = package := Tree.package_descriptor hnew
  have hagain : Scope.ofDescriptor w t' index' options.rulesFile dir new sources seen' =
      .ok ⟨w, t', index', dir, new, ownership, seen'⟩ :=
    Scope.ofDescriptor_again ht hs hd hrecurs.rewrites hscope hn' houtlines hexternal
  have hscope' := (Scope.ofDescriptor_reread hreread).trans hagain
  have hresolve : ∀ specifier,
      Scope.resolve ⟨w, t, index, dir, settled, ownership, seen⟩ specifier ≠ [] →
        Scope.resolve ⟨w, t', index', dir, new, ownership, seen'⟩ specifier =
          Scope.resolve ⟨w, t, index, dir, settled, ownership, seen⟩ specifier :=
    fun specifier => Scope.resolve_again ht hw hold hnew hs hs' hrecurs hscope hscope'
  have hsame : Scope.package ⟨w, t', index', dir, new, ownership, seen'⟩ =
      Scope.package ⟨w, t, index, dir, settled, ownership, seen⟩ := hpackage'.trans hpackage.symm
  have hplan := Scope.plan_reread hreread
    (Scope.plan_of_derived hsame hn hderived hagrees rfl hresolve hproblems ?_ ?_)
  · refine prepare_eq_ok.2 ⟨new, _, hnew, hscope', by rw [hplan],
      Scope.annotations_again hresolve hannotations, ?_, rfl⟩
    refine Scope.derived_again hsame hn hderived hagrees hplan ht hrecurs.rewrites hbelow ?_
      hpackage hw hreads
    exact (isChange_of_prepare hold hprepare).1.package.trans
      ((Tree.package_descriptor hold).trans hpackage.symm)
  · intro hdrops r hr deps hdeps
    rcases hsettled.eq_nil_or_exists_deps hr hdeps with rfl | ⟨listed, hlisted, hdeps⟩
    · exact List.nodup_nil
    · exact hnodup hdrops listed hlisted deps hdeps
  · intro hdrops r hr deps hdeps label hlabel r' hr' deps' hdeps' hlabel'
    rcases hsettled.eq_nil_or_exists_deps hr hdeps with rfl | ⟨listed, hlisted, hdeps⟩
    · cases hlabel
    · refine Scope.ruleInfo_again hrecurs.rewrites hpackage hpackage' houtlines
        (fun name => Ownership.mem_names_of_assign hd (Tree.nodup_map_sources hs) hassign)
        (fun name hname => ?_) hn
        (hrecalls hdrops listed hlisted deps hdeps label hlabel r' hr' deps' hdeps' hlabel')
      rw [names_of_agrees hagrees]
      exact Scope.names_derived hn hderived hname

end

/-- **An update that leaves its BUILD file as it was read** writes nothing. -/
theorem update_of_prepare {package : PackageDir} {build : Location}
    (hold : t.descriptor package.dir package.package = .ok old)
    (h : w.prepare t seen index options package.dir package.package sources isProjectRoot =
      .ok ⟨build, old, []⟩) :
    w.update t seen index options package sources isProjectRoot = .ok (t, ⟨none, []⟩) := by
  have hsame : old.isChanged = false := by
    rw [Descriptor.isChanged, Descriptor.render_of_parse (Tree.descriptor_eq_ok hold).2]
    simp
  refine update_eq_ok.2 ⟨_, h, ?_⟩
  unfold Pending.write
  dsimp only
  rw [hsame]
  rfl

end Workspace

end BuildSync
