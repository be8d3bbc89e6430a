import Mathlib
import BuildSync.Proofs.DependencySets
import BuildSync.Proofs.SettledSources
import BuildSync.Update

/-!
# Which dependencies an update leaves

* `Tree.nodup_sources`: a directory's sources have distinct names.
* `Aggregate.mem_deriveAll`: the rules over the whole project leave the other rules alone.
* `Workspace.prepare_eq_ok`, `Workspace.update_eq_ok`: what a successful update was prepared from.
* `Workspace.update_complete`: a rule that lists a source depends on whatever an import of the
  source resolves to; and exactly which labels a rule has after an update. The imports of a source
  that only the index gives to a rule do not count for that rule (`update_incomplete`).
-/

namespace BuildSync

open Build

/-! ## The sources of a directory -/

theorem forall₂_of_mapM {ε α β : Type} {f : α → Except ε β} {xs : List α} {ys : List β}
    (h : xs.mapM f = .ok ys) : List.Forall₂ (fun x y => f x = .ok y) xs ys := by
  induction xs generalizing ys with
  | nil =>
    cases h
    exact .nil
  | cons x xs ih =>
    rw [List.mapM_cons] at h
    obtain ⟨y, hy, h⟩ := bind_eq_ok.1 h
    obtain ⟨ys', hys, h⟩ := bind_eq_ok.1 h
    cases h
    exact .cons hy (ih hys)

/-- What a source is read from: a file that is a program, or not. -/
theorem Tree.source_eq_ok {t : Tree} {dir : Location} {name : String} {source : Source} :
    t.source dir name = .ok source ↔ ∃ text imports, t.read (dir ++ [name]) = .ok text ∧
      (TypeScript.imports name text = .ok imports ∨
        TypeScript.imports name text = .error .notAProgram ∧ imports = []) ∧
      source = ⟨name, dir ++ [name], (SourceKind.ofName? name).getD .library, text, imports⟩ := by
  unfold Tree.source
  dsimp only
  constructor
  · intro h
    split at h
    · cases h
    · rename_i text hread
      split at h
      · rename_i imports himports
        cases h
        exact ⟨text, imports, hread, .inl himports, rfl⟩
      · rename_i himports
        cases h
        exact ⟨text, [], hread, .inr ⟨himports, rfl⟩, rfl⟩
      · cases h
  · rintro ⟨text, imports, hread, himports | ⟨himports, rfl⟩, rfl⟩ <;>
    · rw [hread]
      dsimp only
      rw [himports]

theorem Tree.name_of_source {t : Tree} {dir : Location} {name : String} {source : Source}
    (h : t.source dir name = .ok source) : source.name = name := by
  obtain ⟨text, imports, -, -, rfl⟩ := Tree.source_eq_ok.1 h
  rfl

/-- The sources of a directory are read by their names. -/
theorem Tree.sourceNames_of_sources {t : Tree} {dir : Location} {sources : List Source}
    (h : t.sources dir = .ok sources) : t.sourceNames dir = .ok (sources.map (·.name)) := by
  unfold Tree.sources at h
  split at h
  · cases h
  · rename_i names hn
    have hf := forall₂_of_mapM h
    have heq : sources.map (·.name) = names := by
      clear h hn
      induction hf with
      | nil => rfl
      | cons hx _ ih => rw [List.map_cons, Tree.name_of_source hx, ih]
    rw [hn, heq]

/-- Each source of a directory is read by its name. -/
theorem Tree.source_of_mem {t : Tree} {dir : Location} {sources : List Source}
    (h : t.sources dir = .ok sources) {source : Source} (hmem : source ∈ sources) :
    t.source dir source.name = .ok source := by
  unfold Tree.sources at h
  split at h
  · cases h
  · obtain ⟨name, -, hsource⟩ := Ownership.exists_partner (forall₂_of_mapM h) hmem
    rwa [Tree.name_of_source hsource]

/-- Sources that are read by their names are those of the directory. -/
theorem Tree.sources_of_sourceNames {t : Tree} {dir : Location} {sources : List Source}
    (hnames : t.sourceNames dir = .ok (sources.map (·.name)))
    (h : ∀ source ∈ sources, t.source dir source.name = .ok source) :
    t.sources dir = .ok sources := by
  unfold Tree.sources
  rw [hnames]
  clear hnames
  dsimp only
  induction sources with
  | nil => rfl
  | cons source sources ih =>
    rw [List.forall_mem_cons] at h
    rw [List.map_cons, List.mapM_cons, h.1, ih h.2]
    rfl

/-- A directory's sources, source by source. -/
theorem Tree.sources_of_names {t : Tree} {dir : Location} {names : List String}
    {sources : List Source} (hdir : t.isDir dir = true) (hnames : t.names dir = names)
    (hkept : (names.filter fun name =>
      t.isFile (dir ++ [name]) && (SourceKind.ofName? name).isSome) = sources.map (·.name))
    (h : ∀ source ∈ sources, t.source dir source.name = .ok source) :
    t.sources dir = .ok sources := by
  have hlist : t.list dir = .ok names := by
    unfold Tree.list
    rw [of_decide_eq_true hdir, hnames]
  refine sources_of_sourceNames ?_ h
  unfold Tree.sourceNames
  rw [hlist, ← hkept]
  rfl

/-- **The sources of a directory have distinct names.** -/
theorem Tree.nodup_sources {t : Tree} {dir : Location} {sources : List Source}
    (h : t.sources dir = .ok sources) : (sources.map (·.name)).Nodup := by
  obtain ⟨all, hall, hnames⟩ := map_eq_ok (sourceNames_of_sources h)
  rw [← hnames]
  unfold Tree.list at hall
  split at hall
  · cases hall
    exact (nodup_sortedTexts _).filter _
  · cases hall
  · cases hall

theorem Tree.nodup_map_sources {t : Tree} {dir : Location} {sources : List Source}
    (hs : t.sources dir = .ok sources) :
    ((sources.map fun source => (source.name, source.kind)).map (·.1)).Nodup := by
  rw [List.map_map]
  exact Tree.nodup_sources hs

/-! ## The rules over the whole project -/

namespace Aggregate

/-- Bringing one aggregate up to date leaves every rule that owns sources as it was. -/
theorem mem_derive {d : Descriptor} (hd : (d.rules.map (·.name)).Nodup) {kind : RuleKind}
    {name rulesFile : String} {isNeeded : Bool} {fill : Build.Rule → Build.Rule}
    (hk : kind.isAggregate = true) (hname : ∀ r, (fill r).name = r.name)
    (hkind : ∀ r, (fill r).kind = r.kind) :
    ((derive d kind name rulesFile isNeeded fill).rules.map (·.name)).Nodup ∧
      ∀ r ∈ (derive d kind name rulesFile isNeeded fill).rules,
        r.kind.isAggregate = false → r ∈ d.rules := by
  unfold derive
  split
  · rename_i rule hfind
    have hmem := List.mem_of_find?_eq_some hfind
    have hrule : rule.kind = kind := by simpa using List.find?_some hfind
    have hrules : (d.modifyRule rule.name fill).rules =
        d.rules.map fun r => if r.name = rule.name then fill r else r :=
      Dependency.modifyFirst_of_nodup hd
    rw [hrules]
    constructor
    · rw [List.map_map]
      convert hd using 2
      funext r
      by_cases h : r.name = rule.name <;> simp [h, hname]
    · intro r hr hagg
      obtain ⟨q, hq, rfl⟩ := List.mem_map.1 hr
      by_cases h : q.name = rule.name
      · have hqr := List.inj_on_of_nodup_map hd hq hmem h
        simp [hkind, hqr, hrule, hk] at hagg
      · rwa [if_neg h]
  · split
    · rename_i hneed
      have hnone : d.rule? name = none := by simpa using (Bool.and_eq_true_iff.1 hneed).2
      rw [Descriptor.rules_addRule]
      constructor
      · rw [List.map_append, List.nodup_append']
        refine ⟨hd, List.nodup_singleton _, fun other hm ho => ?_⟩
        obtain ⟨r, hr, rfl⟩ := List.mem_map.1 hm
        have hne := List.find?_eq_none.1 hnone r hr
        exact hne (by simpa [hname, Rule.ofName] using List.mem_singleton.1 ho)
      · intro r hr hagg
        rcases List.mem_append.1 hr with hr | hr
        · exact hr
        · rw [List.mem_singleton.1 hr, hkind] at hagg
          exact absurd (hk.symm.trans hagg) (by decide)
    · exact ⟨hd, fun r hr _ => hr⟩

/-- **The rules over the whole project leave the other rules alone.** -/
theorem mem_deriveAll {w : Workspace} {t : Tree} {dir : Location} {rulesFile : String}
    {d d' : Descriptor} (hd : (d.rules.map (·.name)).Nodup)
    (h : deriveAll w t dir rulesFile d = .ok d') :
    ∀ r ∈ d'.rules, r.kind.isAggregate = false → r ∈ d.rules := by
  unfold deriveAll at h
  obtain ⟨configs, -, h⟩ := bind_eq_ok.1 h
  obtain ⟨below, -, h⟩ := bind_eq_ok.1 h
  cases h
  intro r hr hagg
  obtain ⟨hnames, hconfig⟩ := @mem_derive d hd .config configName rulesFile (configs ≠ [])
    (·.setSrcs configs) rfl (fun r => Rule.name_setSrcs r configs)
    fun r => Rule.kind_setSrcs r configs
  refine hconfig r ?_ hagg
  exact (mem_derive hnames rfl (fun r => Rule.name_setDeps r _ _)
    fun r => Rule.kind_setDeps r _ _).2 r hr hagg

end Aggregate

/-! ## What an update is prepared from -/

/-- What is known of the labels that may be dropped, if unused ones are. -/
def Scope.prune? (scope : Scope) (options : UpdateOptions) : Option (Label → RuleInfo) :=
  if options.dropsUnused then some scope.ruleInfo else none

/-- The BUILD file of a scope with the dependencies that follow from the sources. -/
def Scope.planned (scope : Scope) (options : UpdateOptions) (sources : List Source) :
    Descriptor :=
  Dependency.apply scope.descriptor (Dependency.plan (scope.prune? options) scope.descriptor
    scope.ownership (sources.map scope.resolveSource)).1

/-- The rules that the index names for a source of a directory. -/
def Workspace.indexOwners (w : Workspace) (index : Query.Index) (dir : Location)
    (name : String) : List Label :=
  ((w.relative? (dir ++ [name])).map fun path => index.labels (.file path)).getD []

/-- What the rules of a directory's sources depend on besides its BUILD file. -/
def Workspace.around (w : Workspace) (t : Tree) (index : Query.Index) (rulesFile : String)
    (dir : Location) (package : String) : Surroundings :=
  ⟨t.isPresent dir, w.baseName package, rulesFile, w.indexOwners index dir⟩

theorem oneProblem_eq_ok {α : Type} {result : Except Problem α} {a : α} :
    oneProblem result = .ok a ↔ result = .ok a := by
  cases result with
  | error problem => simp [oneProblem, Except.mapError]
  | ok b => simp [oneProblem, Except.mapError]

theorem Tree.package_descriptor {t : Tree} {dir : Location} {package : String} {d : Descriptor}
    (h : t.descriptor dir package = .ok d) : d.package = package := by
  unfold Tree.descriptor at h
  obtain ⟨found, hfound, rfl⟩ := map_eq_ok h
  unfold Tree.descriptor? at hfound
  split at hfound
  · cases hfound
    rfl
  · dsimp only at hfound
    split at hfound
    · cases hfound
    · split at hfound
      · cases hfound
      · rename_i d hparse
        cases hfound
        obtain ⟨contents, -, rfl⟩ := map_eq_ok hparse
        rfl

/-- A scope is known once every source has an owner. -/
theorem Scope.ofDescriptor_ok {w : Workspace} {t seen : Tree} {index : Query.Index}
    {rulesFile : String} {dir : Location} {d : Descriptor} {sources : List Source}
    {scope : Scope} (h : ofDescriptor w t index rulesFile dir d sources seen = .ok scope) :
    scope = ⟨w, t, index, dir, scope.descriptor, scope.ownership, seen⟩ ∧
      Ownership.assign (w.around t index rulesFile dir d.package) d
          (sources.map fun source => (source.name, source.kind)) =
        (scope.descriptor, .ok scope.ownership) := by
  unfold ofDescriptor at h
  dsimp only at h
  split at h
  · rename_i d' ownership ha
    cases h
    exact ⟨rfl, ha⟩
  · cases h

/-- The sources of a scope whose annotations change, if annotations are kept. -/
def Scope.annotations (scope : Scope) (options : UpdateOptions) (sources : List Source) :
    Except Problem (List (Location × String)) :=
  if options.annotates then annotatedSources (sources.zip (sources.map scope.resolveSource))
  else .ok []

/-- The BUILD file of a scope as it is going to be, at the root of a project with the rules over the
whole project. -/
def Scope.derived (scope : Scope) (w : Workspace) (t : Tree) (options : UpdateOptions)
    (dir : Location) (sources : List Source) (isProjectRoot : Bool) : Except Problem Descriptor :=
  if isProjectRoot then
    Aggregate.deriveAll w t dir options.rulesFile (scope.planned options sources)
  else .ok (scope.planned options sources)

/-- An update is prepared step by step. -/
theorem Workspace.prepare_eq {w : Workspace} {t seen : Tree} {index : Query.Index}
    {options : UpdateOptions} {dir : Location} {package : String} {sources : List Source}
    {isProjectRoot : Bool} :
    w.prepare t seen index options dir package sources isProjectRoot = (do
      let old ← oneProblem (t.descriptor dir package)
      let scope ← Scope.ofDescriptor w t index options.rulesFile dir old sources seen
      let problems := (Dependency.plan (scope.prune? options) scope.descriptor scope.ownership
        (sources.map scope.resolveSource)).2
      if problems ≠ [] then throw problems
      let changed ← oneProblem (scope.annotations options sources)
      let new ← oneProblem (scope.derived w t options dir sources isProjectRoot)
      pure ⟨dir ++ [(t.buildFile? dir).getD newBuildFileName], new, changed⟩) := by
  unfold prepare Scope.annotations Scope.derived Scope.planned Scope.prune?
  cases options.annotates <;> cases isProjectRoot <;> rfl

/-- **A prepared update** comes from a scope, from plans without a problem, and from the rules over
the whole project where there are any. -/
theorem Workspace.prepare_eq_ok {w : Workspace} {t seen : Tree} {index : Query.Index}
    {options : UpdateOptions} {dir : Location} {package : String} {sources : List Source}
    {isProjectRoot : Bool} {pending : Pending} :
    w.prepare t seen index options dir package sources isProjectRoot = .ok pending ↔
      ∃ old scope, t.descriptor dir package = .ok old ∧
        Scope.ofDescriptor w t index options.rulesFile dir old sources seen = .ok scope ∧
        (Dependency.plan (scope.prune? options) scope.descriptor scope.ownership
          (sources.map scope.resolveSource)).2 = [] ∧
        scope.annotations options sources = .ok pending.sources ∧
        scope.derived w t options dir sources isProjectRoot = .ok pending.descriptor ∧
        pending.buildFile = dir ++ [(t.buildFile? dir).getD newBuildFileName] := by
  rw [prepare_eq, bind_eq_ok]
  constructor
  · rintro ⟨old, hold, h⟩
    obtain ⟨scope, hscope, h⟩ := bind_eq_ok.1 h
    dsimp only at h
    split at h
    · cases h
    · rename_i hproblems
      obtain ⟨changed, hchanged, h⟩ := bind_eq_ok.1 h
      obtain ⟨new, hnew, h⟩ := bind_eq_ok.1 h
      cases h
      exact ⟨old, scope, oneProblem_eq_ok.1 hold, hscope, not_not.1 hproblems,
        oneProblem_eq_ok.1 hchanged, oneProblem_eq_ok.1 hnew, rfl⟩
  · rintro ⟨old, scope, hold, hscope, hproblems, hchanged, hnew, hbuild⟩
    refine ⟨old, oneProblem_eq_ok.2 hold, bind_eq_ok.2 ⟨scope, hscope, ?_⟩⟩
    dsimp only
    rw [if_neg (not_not.2 hproblems), oneProblem_eq_ok.2 hchanged, oneProblem_eq_ok.2 hnew]
    obtain ⟨buildFile, descriptor, changed⟩ := pending
    subst hbuild
    rfl

/-- **A successful update** was prepared and written. -/
theorem Workspace.update_eq_ok {w : Workspace} {t seen : Tree} {index : Query.Index}
    {options : UpdateOptions} {package : PackageDir} {sources : List Source}
    {isProjectRoot : Bool} {result : Tree × PackageUpdate} :
    w.update t seen index options package sources isProjectRoot = .ok result ↔ ∃ pending,
      w.prepare t seen index options package.dir package.package sources isProjectRoot =
        .ok pending ∧
      pending.write t = .ok result := by
  unfold Workspace.update
  cases hp : w.prepare t seen index options package.dir package.package sources isProjectRoot with
  | error problems => simp [bind, Except.bind, Except.mapError]
  | ok pending =>
    cases hw : pending.write t with
    | error problem => simp [bind, Except.bind, Except.mapError, oneProblem, hw]
    | ok written => simp [bind, Except.bind, Except.mapError, oneProblem, hw]

/-! ## Completeness -/

/-- An import of a source that belongs to the rule resolves to the label. -/
def Scope.IsImported (scope : Scope) (sources : List Source) (rule : String)
    (label : Label) : Prop :=
  ∃ source ∈ sources, scope.ownership.owner? source.name = some (.rule rule) ∧
    ∃ i ∈ source.imports, label ∈ scope.resolve i.specifier

/-- The dependencies of a rule after an update: nothing that the rule's listed sources import is
missing, and which labels they are altogether. -/
structure Scope.Complete (scope : Scope) (options : UpdateOptions) (sources : List Source)
    (rule : Build.Rule) (deps : List Label) : Prop where
  listed : ∀ source ∈ sources, rule.owns source.name = true → ∀ i ∈ source.imports, ∀ label,
    scope.resolve i.specifier = [label] → label ≠ rule.label scope.package → label ∈ deps
  wanted : ∃ r ∈ scope.descriptor.rules, r.name = rule.name ∧ ∃ old, r.deps.values? = some old ∧
    ∀ label, label ∈ deps ↔
      (label ∈ old ∨ scope.IsImported sources rule.name label) ∧
        label ≠ rule.label scope.package ∧
        ¬ Dependency.IsDropped (scope.prune? options) scope.ownership
          (sources.map scope.resolveSource) r label

theorem Scope.isCandidate_iff {scope : Scope} {sources : List Source} {rule : String}
    {label : Label} :
    Dependency.IsCandidate scope.ownership (sources.map scope.resolveSource) rule label ↔
      scope.IsImported sources rule label := by
  constructor
  · rintro ⟨i, ⟨file, hfile, ho, hi⟩, hlabel⟩
    obtain ⟨source, hsource, rfl⟩ := List.mem_map.1 hfile
    obtain ⟨i, hmem, rfl⟩ := List.mem_map.1 hi
    exact ⟨source, hsource, of_decide_eq_true ho, i, hmem, hlabel⟩
  · rintro ⟨source, hsource, ho, i, hi, hlabel⟩
    exact ⟨⟨i, scope.resolve i.specifier⟩, ⟨scope.resolveSource source,
      List.mem_map_of_mem hsource, decide_eq_true ho, List.mem_map_of_mem hi⟩, hlabel⟩

/-- Where planning reports nothing, every rule that is kept up to date is settled. -/
theorem Dependency.isSettled_of_plan {prune : Option (Label → RuleInfo)} {d : Descriptor}
    {ownership : Ownership} {files : List ResolvedFile} (hf : (files.map (·.name)).Nodup)
    (h : (plan prune d ownership files).2 = []) {r : Build.Rule} (hr : r ∈ d.rules)
    {deps : List Label} (hagg : r.kind.isAggregate = false) (hdeps : r.deps.values? = some deps) :
    IsSettled ownership files r.name := by
  have hperm := problems_plan_perm hf prune ownership (d := d)
  rw [h] at hperm
  have hnil := List.flatMap_eq_nil_iff.1 hperm.symm.eq_nil r
    (List.mem_filter.2 ⟨hr, by simp [isPlannable, hagg, hdeps]⟩)
  rintro i ⟨file, hfile, ho, hi⟩
  have hfilter := List.flatMap_eq_nil_iff.1 hnil file (List.mem_filter.2 ⟨hfile, ho⟩)
  exact problem?_eq_none.1 (List.filterMap_eq_nil_iff.1 hfilter i hi)

/-- The rules of a scope and those that planning leaves, one by one. -/
theorem Scope.outcomes_planned {scope : Scope} {options : UpdateOptions} {sources : List Source}
    (hd : (scope.descriptor.rules.map (·.name)).Nodup) (hs : (sources.map (·.name)).Nodup) :
    List.Forall₂ (Dependency.Outcome (scope.prune? options) scope.package scope.ownership
      (sources.map scope.resolveSource)) scope.descriptor.rules
      (scope.planned options sources).rules := by
  refine Dependency.outcomes_apply_plan hd ?_ (scope.prune? options) scope.ownership
  rw [List.map_map]
  exact hs

/-- A settled rule is complete, if the sources it lists belong to it. -/
theorem Scope.complete_of_outcome {scope : Scope} {options : UpdateOptions}
    {sources : List Source} {r rule : Build.Rule} {deps : List Label}
    (hr : r ∈ scope.descriptor.rules) (hout : Dependency.Outcome (scope.prune? options)
      scope.package scope.ownership (sources.map scope.resolveSource) r rule)
    (hlisted : ∀ source ∈ sources, r.owns source.name = true →
      scope.ownership.owner? source.name = some (.rule r.name))
    (hsettled : ∀ old, r.deps.values? = some old → Dependency.IsSettled scope.ownership
      (sources.map scope.resolveSource) r.name)
    (hagg : rule.kind.isAggregate = false) (hdeps : rule.deps.values? = some deps) :
    scope.Complete options sources rule deps := by
  have hname : rule.name = r.name := by rw [hout.frame]
  have hkind : rule.kind = r.kind := by rw [hout.frame]
  have howns : rule.owns = r.owns := by
    funext file
    rw [hout.frame]
    rfl
  have hlabel : rule.label scope.package = r.label scope.package := by
    rw [hout.frame]
    rfl
  obtain ⟨old, hold⟩ : ∃ old, r.deps.values? = some old := by
    cases hv : r.deps.values? with
    | some values => exact ⟨values, rfl⟩
    | none =>
      rw [hout.other (.inr (.inl hv)), hv] at hdeps
      cases hdeps
  obtain ⟨new, hnew, hiff, -, -⟩ := hout.settled old (hkind ▸ hagg) hold (hsettled old hold)
  cases Option.some.inj (hdeps.symm.trans hnew)
  refine ⟨fun source hsource ho i hi label hresolve hne => ?_,
    ⟨r, hr, hname.symm, old, hold, fun label => ?_⟩⟩
  · have hcandidate : Dependency.IsCandidate scope.ownership
        (sources.map scope.resolveSource) r.name label := by
      rw [Scope.isCandidate_iff]
      exact ⟨source, hsource, hlisted source hsource (howns ▸ ho), i, hi, by simp [hresolve]⟩
    exact (hiff label).2 ⟨.inr hcandidate, hlabel ▸ hne, fun ⟨_, _, hnot, _⟩ => hnot hcandidate⟩
  · rw [hiff label, Scope.isCandidate_iff, hname, hlabel]

/-- **An update is complete for the sources that rules list.** With rules of distinct names, each
rule whose dependencies are kept up to date has, in the end, whatever the imports of its listed
sources resolve to. A source that no rule lists counts for no rule once the index names some rule
for it. -/
theorem Workspace.update_complete {w : Workspace} {before t t' seen : Tree} {index : Query.Index}
    {options : UpdateOptions} {package : PackageDir} {sources : List Source}
    {isProjectRoot : Bool} {u : PackageUpdate} {old : Descriptor}
    (hs : before.sources package.dir = .ok sources)
    (hold : t.descriptor package.dir package.package = .ok old)
    (hd : (old.rules.map (·.name)).Nodup)
    (h : w.update t seen index options package sources isProjectRoot = .ok (t', u)) :
    ∃ scope pending,
      Scope.ofDescriptor w t index options.rulesFile package.dir old sources seen = .ok scope ∧
      w.prepare t seen index options package.dir package.package sources isProjectRoot =
        .ok pending ∧
      pending.write t = .ok (t', u) ∧ scope.package = package.package ∧
      (∀ rule ∈ pending.descriptor.rules, rule.kind.isAggregate = false →
        ∀ deps, rule.deps.values? = some deps → scope.Complete options sources rule deps) ∧
      ∀ source ∈ sources, old.owners source.name = [] →
        w.indexOwners index package.dir source.name ≠ [] →
        scope.ownership.owner? source.name =
          some (.external (w.indexOwners index package.dir source.name)) := by
  obtain ⟨pending, hprepare, hwrite⟩ := update_eq_ok.1 h
  obtain ⟨old', scope, hold', hscope, hproblems, -, hderived, -⟩ := prepare_eq_ok.1 hprepare
  cases Except.ok.inj (hold.symm.trans hold')
  obtain ⟨-, hassign⟩ := Scope.ofDescriptor_ok hscope
  have hnames := Tree.nodup_sources hs
  have ha := Ownership.assign_ok hd (by rw [List.map_map]; exact hnames) hassign
  have hout := @Scope.outcomes_planned scope options sources ha.names hnames
  refine ⟨scope, pending, hscope, hprepare, hwrite,
    ha.package.trans (Tree.package_descriptor hold), fun rule hrule hagg deps hdeps => ?_,
    fun source hsource howners hindex => ?_⟩
  · -- The rules over the whole project are aggregates, so this rule is there before them.
    have hmem : rule ∈ (scope.planned options sources).rules := by
      unfold Scope.derived at hderived
      split at hderived
      · refine Aggregate.mem_deriveAll ?_ hderived rule hrule hagg
        exact Dependency.names_eq hout ▸ ha.names
      · exact Except.ok.inj hderived ▸ hrule
    obtain ⟨r, hr, hrr⟩ := Ownership.exists_partner hout hmem
    have hkind : rule.kind = r.kind := by rw [hrr.frame]
    refine Scope.complete_of_outcome hr hrr (fun source hsource howns => ?_)
      (fun old hold => ?_) hagg hdeps
    · exact ha.listed _ (List.mem_map_of_mem hsource) r hr (hkind ▸ hagg) howns
    · refine Dependency.isSettled_of_plan ?_ hproblems hr (hkind ▸ hagg) hold
      rw [List.map_map]
      exact hnames
  · have hexternal := ha.external (source.name, source.kind) (List.mem_map_of_mem hsource) howners
    exact hexternal hindex

/-! ## Two packages -/

/-- A package `p` with one source, which imports `m`. -/
def sampleTree (build : String) : Tree :=
  ⟨[(["p"], .directory), (["p", "BUILD"], .text build), (["p", "a.ts"], .text "import\"m\"")]⟩

def samplePackage : PackageDir :=
  ⟨["p"], "p", "p"⟩

/-- The index gives the source to the rule `//p:p`, and the module to `//m:m`. -/
def sampleIndex : Query.Index :=
  ⟨[(.file "p/a.ts", [⟨⟨none, "p", "p"⟩, none⟩]), (.module "m", [⟨⟨none, "m", "m"⟩, none⟩])]⟩

def sampleOptions : UpdateOptions :=
  ⟨false, false, ""⟩

def sampleSource : Source :=
  ⟨"a.ts", ["p", "a.ts"], .library, "import\"m\"", [⟨"m", .sideEffect, 1, 1, 0, 9⟩]⟩

/-- A rule on one line, whose list of sources ends at the byte `stop`. -/
def sampleRule (srcs : ListAttr String) (stop : Nat) : Build.Rule :=
  ⟨.library false, "p", srcs, .absent, none, some ⟨⟨0, stop + 1⟩, stop, stop, false, false, "    ",
    some ⟨25, stop⟩, none⟩, false, false⟩

theorem imports_sampleSource :
    TypeScript.imports "a.ts" "import\"m\"" = .ok [⟨"m", .sideEffect, 1, 1, 0, 9⟩] := by
  decide +kernel

theorem sources_sampleTree (build : String) :
    (sampleTree build).sources ["p"] = .ok [sampleSource] := by
  have hnames : (sampleTree build).names ["p"] = ["BUILD", "a.ts"] := by
    change sortedTexts ["BUILD", "a.ts"] = _
    simp [sortedTexts, sortedSet, List.mergeSort, List.MergeSort.Internal.splitInTwo, textLe,
      dropRepeats]
  have hsource : (sampleTree build).source ["p"] "a.ts" = .ok sampleSource := by
    have hread : (sampleTree build).read (["p"] ++ ["a.ts"]) = .ok "import\"m\"" := rfl
    unfold Tree.source
    dsimp only
    rw [hread]
    dsimp only
    rw [imports_sampleSource]
    rfl
  refine Tree.sources_of_names rfl hnames rfl fun source hmem => ?_
  obtain rfl := List.mem_singleton.1 hmem
  exact hsource

/-- An update that changes no source is written wherever its BUILD file is. -/
theorem Pending.exists_write {p : Pending} {t t' : Tree} (hs : p.sources = [])
    (h : t.write p.buildFile p.descriptor.render = .ok t') : ∃ result, p.write t = .ok result := by
  unfold Pending.write
  rw [hs]
  cases p.descriptor.isChanged with
  | false => exact ⟨_, rfl⟩
  | true => simp [Pending.writeBuildFile, h, bind, Except.bind, pure, Except.pure]

/-- An update of the sample package is prepared from its scope and its plans. -/
theorem prepare_sampleTree {build : String} {d : Descriptor} {scope : Scope}
    {plans : List DependencyPlan} (hd : (sampleTree build).descriptor ["p"] "p" = .ok d)
    (hscope : Scope.ofDescriptor ⟨[]⟩ (sampleTree build) sampleIndex "" ["p"] d [sampleSource] =
      .ok scope)
    (hplan : Dependency.plan none scope.descriptor scope.ownership
      [scope.resolveSource sampleSource] = (plans, [])) :
    Workspace.prepare ⟨[]⟩ (sampleTree build) (sampleTree build) sampleIndex sampleOptions ["p"] "p"
      [sampleSource] false =
        .ok ⟨["p", "BUILD"], Dependency.apply scope.descriptor plans, []⟩ := by
  have hfile : (sampleTree build).buildFile? ["p"] = some "BUILD" := rfl
  simp [Workspace.prepare, sampleOptions, hd, oneProblem, Except.mapError, bind, Except.bind,
    hscope, hplan, hfile, pure, Except.pure]

def listedBuild : String :=
  "ts_library(name=\"p\",srcs=[\"a.ts\"])"

def listedDescriptor : Descriptor :=
  ⟨"/p/BUILD", "p", listedBuild, [sampleRule (.literal ⟨[.plain "a.ts"], []⟩) 33], [],
    ["ts_library"], []⟩

def listedScope : Scope :=
  ⟨⟨[]⟩, sampleTree listedBuild, sampleIndex, ["p"], listedDescriptor, ⟨[("a.ts", .rule "p")]⟩,
    sampleTree listedBuild⟩

/-- The package as it is read, and the plans of its update. -/
theorem steps_listedBuild :
    (sampleTree listedBuild).descriptor ["p"] "p" = .ok listedDescriptor ∧
      Dependency.plan none listedDescriptor listedScope.ownership
        [listedScope.resolveSource sampleSource] = ([⟨"p", [⟨none, "m", "m"⟩]⟩], []) := by
  decide +kernel

theorem descriptor_listedBuild :
    (sampleTree listedBuild).descriptor ["p"] "p" = .ok listedDescriptor :=
  steps_listedBuild.1

theorem scope_listedBuild :
    Scope.ofDescriptor ⟨[]⟩ (sampleTree listedBuild) sampleIndex "" ["p"] listedDescriptor
      [sampleSource] = .ok listedScope :=
  rfl

/-- The update of a package whose rule lists the source succeeds, and is complete. -/
theorem update_complete_listed :
    (sampleTree listedBuild).sources ["p"] = .ok [sampleSource] ∧
      (sampleTree listedBuild).descriptor ["p"] "p" = .ok listedDescriptor ∧
      (listedDescriptor.rules.map (·.name)).Nodup ∧
      ∃ t u, Workspace.update ⟨[]⟩ (sampleTree listedBuild) (sampleTree listedBuild) sampleIndex
          sampleOptions samplePackage [sampleSource] false = .ok (t, u) ∧
        ∃ (scope : Scope) (pending : Pending), pending.write (sampleTree listedBuild) = .ok (t, u) ∧
          ∀ rule ∈ pending.descriptor.rules, rule.kind.isAggregate = false →
            ∀ deps, rule.deps.values? = some deps →
              scope.Complete sampleOptions [sampleSource] rule deps := by
  have hd : (listedDescriptor.rules.map (·.name)).Nodup := by decide
  have hupdate : ∃ t u, Workspace.update ⟨[]⟩ (sampleTree listedBuild) (sampleTree listedBuild)
      sampleIndex sampleOptions samplePackage [sampleSource] false = .ok (t, u) := by
    have hwrites : ∀ text, (sampleTree listedBuild).write ["p", "BUILD"] text =
        .ok ((sampleTree listedBuild).put ["p", "BUILD"] (.text text)) := fun _ => rfl
    have hprepare := prepare_sampleTree descriptor_listedBuild scope_listedBuild steps_listedBuild.2
    let pending : Pending := ⟨["p", "BUILD"], Dependency.apply listedScope.descriptor
      [⟨"p", [⟨none, "m", "m"⟩]⟩], []⟩
    obtain ⟨⟨t, u⟩, hwrite⟩ := @Pending.exists_write pending _ _ rfl (hwrites _)
    exact ⟨t, u, Workspace.update_eq_ok.2 ⟨pending, hprepare, hwrite⟩⟩
  obtain ⟨t, u, hu⟩ := hupdate
  obtain ⟨scope, pending, -, -, hwrite, -, hcomplete, -⟩ :=
    @Workspace.update_complete ⟨[]⟩ (sampleTree listedBuild) (sampleTree listedBuild) t
      (sampleTree listedBuild) sampleIndex sampleOptions samplePackage [sampleSource] false u
      listedDescriptor (sources_sampleTree listedBuild) descriptor_listedBuild hd hu
  exact ⟨sources_sampleTree _, descriptor_listedBuild, hd, t, u, hu, scope, pending, hwrite,
    hcomplete⟩

def globBuild : String :=
  "ts_library(name=\"p\",srcs=glob([\"*\"]))"

def globDescriptor : Descriptor :=
  ⟨"/p/BUILD", "p", globBuild, [sampleRule .computed 36], [], ["ts_library"], []⟩

/-- The scope of the sample package. -/
def globScope : Scope :=
  ⟨⟨[]⟩, sampleTree globBuild, sampleIndex, ["p"], globDescriptor,
    ⟨[("a.ts", .external [⟨none, "p", "p"⟩])]⟩, sampleTree globBuild⟩

/-- The package as it is read and written, and the plans of its update. -/
theorem steps_globBuild :
    (sampleTree globBuild).descriptor ["p"] "p" = .ok globDescriptor ∧
      Ownership.assign ⟨(sampleTree globBuild).isPresent ["p"],
          (Workspace.mk []).baseName globDescriptor.package, "", fun name =>
            (((Workspace.mk []).relative? (["p"] ++ [name])).map fun path =>
              sampleIndex.labels (.file path)).getD []⟩ globDescriptor
          ([sampleSource].map fun source => (source.name, source.kind)) =
        (globDescriptor, .ok globScope.ownership) ∧
      Dependency.plan none globDescriptor globScope.ownership
        [globScope.resolveSource sampleSource] = ([], []) ∧
      globDescriptor.render = globBuild := by
  decide +kernel

theorem descriptor_globBuild :
    (sampleTree globBuild).descriptor ["p"] "p" = .ok globDescriptor :=
  steps_globBuild.1

theorem scope_globBuild :
    Scope.ofDescriptor ⟨[]⟩ (sampleTree globBuild) sampleIndex "" ["p"] globDescriptor
      [sampleSource] = .ok globScope := by
  unfold Scope.ofDescriptor
  dsimp only
  rw [steps_globBuild.2.1]
  rfl

/-- **An update may miss a dependency** of a rule that has a source only by the index: it succeeds,
the index has the rule as its only answer for the source, the import resolves, and yet the rule
does not get the dependency. -/
theorem update_incomplete :
    (sampleTree globBuild).sources ["p"] = .ok [sampleSource] ∧
      (sampleTree globBuild).descriptor ["p"] "p" = .ok globDescriptor ∧
      Scope.ofDescriptor ⟨[]⟩ (sampleTree globBuild) sampleIndex "" ["p"] globDescriptor
        [sampleSource] = .ok globScope ∧
      Workspace.prepare ⟨[]⟩ (sampleTree globBuild) (sampleTree globBuild) sampleIndex
        sampleOptions ["p"] "p" [sampleSource] false = .ok ⟨["p", "BUILD"], globDescriptor, []⟩ ∧
      Workspace.update ⟨[]⟩ (sampleTree globBuild) (sampleTree globBuild) sampleIndex
        sampleOptions samplePackage [sampleSource] false = .ok (sampleTree globBuild, ⟨none, []⟩) ∧
      ∃ rule ∈ globDescriptor.rules, rule.kind.isAggregate = false ∧ rule.deps.values? = some [] ∧
        Workspace.indexOwners ⟨[]⟩ sampleIndex ["p"] "a.ts" = [rule.label "p"] ∧
        ∃ i ∈ sampleSource.imports, ∃ label, globScope.resolve i.specifier = [label] ∧
          label ≠ rule.label "p" ∧ label ∉ ([] : List Label) := by
  have hrender : globDescriptor.isChanged = false := by
    have htext : globDescriptor.text = globBuild := rfl
    unfold Descriptor.isChanged
    rw [steps_globBuild.2.2.2, htext]
    simp
  have hprepare : Workspace.prepare ⟨[]⟩ (sampleTree globBuild) (sampleTree globBuild) sampleIndex
      sampleOptions ["p"] "p" [sampleSource] false = .ok ⟨["p", "BUILD"], globDescriptor, []⟩ :=
    prepare_sampleTree descriptor_globBuild scope_globBuild steps_globBuild.2.2.1
  refine ⟨sources_sampleTree _, descriptor_globBuild, scope_globBuild, hprepare, ?_,
    sampleRule .computed 36, by simp [globDescriptor], rfl, rfl, ?_,
    ⟨"m", .sideEffect, 1, 1, 0, 9⟩, by simp [sampleSource], ⟨none, "m", "m"⟩, ?_, by decide,
    by simp⟩
  · refine Workspace.update_eq_ok.2 ⟨_, hprepare, ?_⟩
    simp [Pending.write, hrender, pure, Except.pure, bind, Except.bind]
  · cbv
  · cbv

end BuildSync
