import BuildSync.Proofs.RepeatedUpdates
import BuildSync.Proofs.Runs

/-!
# The stages of a run

A run updates one package after the other. In the middle of it some packages have the BUILD files
that they will have in the end, and the others still have those that they had at first.

* `Workspace.HasPlainNames.of_update`: what one update leaves of the names in a tree.
* `Session.IsOrderly`: a BUILD file that can be updated once and for all; `Session.IsSteady`: a
  session that finds only such ones.
* `Session.Stage`: a tree in the middle of a run; `Session.Stage.step`: one more update;
  `Session.Stage.of_suffix`: the run comes to each package.
* `Session.Stage.rewrites_final`, `Session.Stage.sources_final`, `Session.Stage.keepsAt`: what is
  left of the tree, of the sources of a package, and of each BUILD file, in the end.
-/

namespace BuildSync

open Build

/-! ## One update -/

theorem Aggregate.mem_names_derive {d : Descriptor} {kind : RuleKind} {name rulesFile : String}
    {isNeeded : Bool} {fill : Build.Rule → Build.Rule} (hname : ∀ r, (fill r).name = r.name)
    {other : String}
    (h : other ∈ (derive d kind name rulesFile isNeeded fill).rules.map (·.name)) :
    other ∈ d.rules.map (·.name) ∨ other = name := by
  obtain ⟨r, hr, rfl⟩ := List.mem_map.1 h
  unfold derive at hr
  split at hr
  · refine .inl (Descriptor.forall_mem_modifyFirst (Q := fun r => r.name ∈ d.rules.map (·.name))
      (fun r hr => by rwa [hname]) (fun r hr => List.mem_map_of_mem hr) _ r hr)
  · split at hr
    · rw [Descriptor.rules_addRule, List.mem_append, List.mem_singleton] at hr
      rcases hr with hr | rfl
      · exact .inl (List.mem_map_of_mem hr)
      · exact .inr (hname _)
    · exact .inl (List.mem_map_of_mem hr)

theorem Aggregate.mem_names_deriveAll {w : Workspace} {t : Tree} {dir : Location}
    {rulesFile : String} {d d' : Descriptor} (h : deriveAll w t dir rulesFile d = .ok d')
    {name : String} (hname : name ∈ d'.rules.map (·.name)) :
    name ∈ d.rules.map (·.name) ∨ name = configName ∨ name = devSourcesName := by
  obtain ⟨configs, below, mid, -, -, rfl, rfl⟩ := deriveAll_eq_ok.1 h
  rcases mem_names_derive (fun r => Rule.name_setDeps r _ _) hname with hname | rfl
  · exact (mem_names_derive (fun r => Rule.name_setSrcs r _) hname).imp_right .inl
  · exact .inr (.inr rfl)

namespace Workspace

variable {w : Workspace} {t seen : Tree} {index : Query.Index} {options : UpdateOptions}
  {sources : List Source} {isProjectRoot : Bool} {old : Descriptor}

/-- The names of rules after an update. -/
theorem mem_names_of_prepare {dir : Location} {package : String} {pending : Pending}
    (hs : t.sources dir = .ok sources) (hold : t.descriptor dir package = .ok old)
    (hd : (old.rules.map (·.name)).Nodup)
    (h : w.prepare t seen index options dir package sources isProjectRoot = .ok pending)
    {name : String} (hname : name ∈ pending.descriptor.rules.map (·.name)) :
    name ∈ old.rules.map (·.name) ∨ (∃ kind, name = Ownership.ruleName (w.baseName package) kind) ∨
      name = Aggregate.configName ∨ name = Aggregate.devSourcesName := by
  obtain ⟨old', scope, hold', hscope, -, -, hderived, -⟩ := prepare_eq_ok.1 h
  obtain rfl : old' = old := by simpa [hold] using hold'.symm
  have hassign := (Scope.ofDescriptor_ok hscope).2
  have hn := (Ownership.assign_ok hd (Tree.nodup_map_sources hs) hassign).names
  have hplanned : ∀ name ∈ (scope.planned options sources).rules.map (·.name),
      name ∈ old'.rules.map (·.name) ∨
        ∃ kind, name = Ownership.ruleName (w.baseName package) kind := by
    intro name hname
    rw [Scope.names_planned hn] at hname
    have := (Ownership.settled_of_assign (Tree.nodup_map_sources hs) hassign).names name hname
    rwa [around, Tree.package_descriptor hold] at this
  unfold Scope.derived at hderived
  split at hderived
  · rcases Aggregate.mem_names_deriveAll hderived hname with hname | hname
    · exact (hplanned name hname).imp_right .inl
    · exact .inr (.inr hname)
  · rw [← Except.ok.inj hderived] at hname
    exact (hplanned name hname).imp_right .inl

end Workspace

/-! ## The BUILD files of a tree -/

theorem Tree.isPackage_congr {t t' : Tree} {dir : Location}
    (h : ∀ name, t'.node? (dir ++ [name]) = t.node? (dir ++ [name])) :
    t'.isPackage dir = t.isPackage dir := by
  rw [isPackage, isPackage, Tree.buildFile?_congr fun name _ => h name]

theorem Tree.descriptor_congr {t t' : Tree} {dir : Location} {package : String}
    (h : ∀ name, t'.node? (dir ++ [name]) = t.node? (dir ++ [name])) :
    t'.descriptor dir package = t.descriptor dir package := by
  rw [descriptor, descriptor, Tree.descriptor?_congr fun name _ => h name]

/-- The path of a package leads to its directory. -/
theorem Tree.IsWellFormed.resolve_pathOf {t : Tree} (ht : t.IsWellFormed) {w : Workspace}
    {dir : Location} {package : String} (hdir : t.isDir dir = true)
    (hw : w.relative? dir = some package) : t.resolve [] (w.pathOf package) = .ok dir := by
  have hnode := Tree.isSome_of_isDir hdir
  obtain ⟨names, rfl, rfl⟩ := Workspace.relative?_eq_some.1 hw
  have hnames := ht.isName _ hnode
  rw [List.forall_mem_append] at hnames
  unfold Workspace.pathOf
  cases names with
  | nil =>
    rw [List.append_nil] at hnode ⊢
    rw [if_pos (by simp)]
    by_cases hroot : w.root = []
    · rw [hroot]
      rfl
    · exact ht.resolve_text hroot hnode []
  | cons name names =>
    have hne : String.intercalate "/" (name :: names) ≠ String.intercalate "/" [] := fun hempty =>
      absurd (intercalate_inj hnames.2 (by simp) hempty) (List.cons_ne_nil _ _)
    rw [String.intercalate_nil] at hne
    rw [if_neg hne, joinText_text (List.cons_ne_nil _ _) hnames.1 hnames.2]
    exact ht.resolve_text (by simp) hnode []

/-- A directory with a BUILD file is a package. -/
theorem Tree.isPackage_of_descriptor? {t : Tree} {dir : Location} {package : String}
    {d : Descriptor} (h : t.descriptor? dir package = .ok (some d)) : t.isPackage dir = true := by
  obtain ⟨name, hfile, -⟩ := Tree.descriptor?_eq_some.1 h
  rw [isPackage, hfile.isNamed]
  rfl

theorem Tree.descriptor?_of_isPackage {t : Tree} {dir : Location} {package : String}
    {d : Descriptor} (hp : t.isPackage dir = true) (h : t.descriptor dir package = .ok d) :
    t.descriptor? dir package = .ok (some d) :=
  Tree.descriptor?_of_usableDescriptor? (Tree.usableDescriptor?_of_descriptor hp h)

theorem Tree.descriptor?_of_not_isPackage {t : Tree} {dir : Location} {package : String}
    (hp : ¬ t.isPackage dir = true) : t.descriptor? dir package = .ok none := by
  rw [descriptor?, Option.not_isSome_iff_eq_none.1 hp]

theorem Aggregate.isPlainName : Label.IsPlainName configName ∧ Label.IsPlainName devSourcesName :=
  ⟨⟨by decide, Label.isPlainText_of_all (by decide)⟩,
    ⟨by decide, Label.isPlainText_of_all (by decide)⟩⟩

/-- **Plain names stay plain** when a package is updated. -/
theorem Workspace.HasPlainNames.of_update {w : Workspace} {t t' seen : Tree} {index : Query.Index}
    {options : UpdateOptions} {package : PackageDir} {sources : List Source} {isProjectRoot : Bool}
    {u : PackageUpdate} {old new : Descriptor} {pending : Pending} {other : String}
    (hnames : w.HasPlainNames t other) (hbase : Label.IsPlainName (w.baseName package.package))
    (hw : w.relative? package.dir = some package.package)
    (hs : t.sources package.dir = .ok sources)
    (hold : t.descriptor package.dir package.package = .ok old)
    (hd : (old.rules.map (·.name)).Nodup)
    (hmade : t'.isPackage package.dir = true → t.isPackage package.dir = true)
    (h : w.update t seen index options package sources isProjectRoot = .ok (t', u))
    (hprepare : w.prepare t seen index options package.dir package.package sources isProjectRoot =
      .ok pending)
    (hnew : t'.descriptor package.dir package.package = .ok new)
    (hagrees : List.Forall₂ Rule.Agrees pending.descriptor.rules new.rules) :
    w.HasPlainNames t' other := by
  have helsewhere : ∀ dir name, dir ≠ package.dir →
      t'.descriptor? dir name = t.descriptor? dir name := fun dir name hne =>
    Tree.descriptor?_congr fun file _ =>
      node?_of_update hs h fun file' heq => hne (List.append_inj' heq rfl).1
  have hhere : ∀ name d, w.relative? package.dir = some name →
      t'.descriptor? package.dir name = .ok (some d) →
      name = package.package ∧ d = new ∧
        t.descriptor? package.dir package.package = .ok (some old) := by
    intro name d hrel hread
    obtain rfl : package.package = name := Option.some.inj (hw.symm.trans hrel)
    have hpackage := hmade (Tree.isPackage_of_descriptor? hread)
    refine ⟨rfl, ?_, Tree.descriptor?_of_isPackage hpackage hold⟩
    exact Except.ok.inj ((Tree.descriptor_of_descriptor? hread).symm.trans hnew)
  refine ⟨fun dir name d hrel hread hne => ?_, fun dir name d hrel hread r hr => ?_,
    hnames.baseName⟩
  · by_cases hdir : dir = package.dir
    · subst hdir
      obtain ⟨rfl, -, hread⟩ := hhere name d hrel hread
      exact hnames.packages _ _ old hw hread hne
    · exact hnames.packages dir name d hrel (helsewhere dir name hdir ▸ hread) hne
  · by_cases hdir : dir = package.dir
    · subst hdir
      obtain ⟨rfl, rfl, hread⟩ := hhere name d hrel hread
      have hname : r.name ∈ pending.descriptor.rules.map (·.name) :=
        names_of_agrees hagrees ▸ List.mem_map_of_mem hr
      rcases mem_names_of_prepare hs hold hd hprepare hname with
        hname | ⟨kind, hname⟩ | hname | hname
      · obtain ⟨r', hr', heq⟩ := List.mem_map.1 hname
        exact heq ▸ hnames.rules _ _ old hw hread r' hr'
      · exact hname ▸ isPlainName_ruleName hbase kind
      · exact hname ▸ Aggregate.isPlainName.1
      · exact hname ▸ Aggregate.isPlainName.2
    · exact hnames.rules dir name d hrel (helsewhere dir name hdir ▸ hread) r hr

/-! ## In the middle of a run -/

/-- What other packages see stays, wherever the same files stand. -/
theorem Workspace.Keeps.congr {w : Workspace} {t t' : Tree} {index : Query.Index} {dir : Location}
    {d d' : Descriptor} (h : w.Keeps t index dir d d')
    (hsome : ∀ location, (t'.node? location).isSome = (t.node? location).isSome) :
    w.Keeps t' index dir d d' :=
  ⟨fun names hne hnode => h.owners names hne ((hsome _).symm.trans hnode), h.names, h.kinds⟩

namespace Session

/-- A dependency on a package of the session is one on a rule that its BUILD file has. -/
def HasRule (s : Session) (t : Tree) (label : Label) : Prop :=
  ∀ entry ∈ s.packages, label.repo = none →
    t.resolve [] (s.workspace.pathOf label.package) = .ok entry.1.dir →
    label.package = entry.1.package ∧ ∃ d,
      t.descriptor entry.1.dir entry.1.package = .ok d ∧ label.name ∈ d.rules.map (·.name)

/-- The BUILD file of a package can be updated once and for all: its rules have names of their own,
and loads can be added. Where dependencies are dropped, no list holds one twice, and those on
packages of the session are on rules that these have. -/
structure IsOrderly (s : Session) (t : Tree) (d : Descriptor) : Prop where
  names : (d.rules.map (·.name)).Nodup
  loads : d.hasClosedLoads = true
  nodup : s.options.update.dropsUnused = true → ∀ r ∈ d.rules, ∀ deps,
    r.deps.values? = some deps → deps.Nodup
  known : s.options.update.dropsUnused = true → ∀ r ∈ d.rules, r.AllDeps (s.HasRule t)

/-- A session that finds packages that can be updated once and for all, and makes no BUILD file on
the way from `t` to `final`. -/
structure IsSteady (s : Session) (t final : Tree) : Prop where
  isWellFormed : t.IsWellFormed
  isKnown : IsKnown s.workspace t s.packages
  isPlain : s.index.IsPlain
  seen : s.seen = t
  annotatable : s.options.update.annotates = true → ∀ entry ∈ s.packages, ∀ d,
    t.descriptor entry.1.dir entry.1.package = .ok d → s.IsAnnotatable final entry.1 entry.2 d
  orderly : ∀ entry ∈ s.packages, ∀ d, t.descriptor entry.1.dir entry.1.package = .ok d →
    s.IsOrderly t d
  made : ∀ entry ∈ s.packages, final.isPackage entry.1.dir = true → t.isPackage entry.1.dir = true

/-- A tree in the middle of a run from `t` to `final`, where the packages `rest` are still to be
updated. -/
structure Stage (s : Session) (t final : Tree) (rest : List (PackageDir × List Source))
    (now : Tree) : Prop where
  suffix : rest <:+ s.packages
  ends : ∃ r : Report, r.tree = now ∧ (s.updateAll r rest).failures = [] ∧
    (s.updateAll r rest).tree = final
  rewrites : t.Rewrites now
  /-- The packages that are still to be updated are as they were. -/
  ahead : ∀ entry ∈ rest, ∀ name,
    now.node? (entry.1.dir ++ [name]) = t.node? (entry.1.dir ++ [name])
  plain : ∀ entry ∈ s.packages, s.workspace.HasPlainNames now entry.1.package

/-- A package that is still to be updated has the BUILD file that it had at first. -/
theorem Stage.descriptor_eq {s : Session} {t final now : Tree}
    {rest : List (PackageDir × List Source)} (h : Stage s t final rest now)
    {entry : PackageDir × List Source} (hentry : entry ∈ rest) :
    now.descriptor entry.1.dir entry.1.package = t.descriptor entry.1.dir entry.1.package :=
  Tree.descriptor_congr (h.ahead entry hentry)

/-- What the update of a package finds in the middle of a run, and what it leaves. -/
structure Leaves (s : Session) (now final : Tree) (task : Task) (old : Descriptor) (scope : Scope)
    (pending : Pending) (new : Descriptor) : Prop where
  found : s.HasScope now task old scope
  prepared : s.workspace.prepare now s.seen s.index s.options.update task.package.dir
    task.package.package task.sources (s.options.isProjectRoot && task.isLast) = .ok pending
  written : ∃ next u, pending.write now = .ok (next, u) ∧ ∀ name,
    final.node? (task.package.dir ++ [name]) = next.node? (task.package.dir ++ [name])
  left : final.descriptor task.package.dir task.package.package = .ok new
  agrees : List.Forall₂ Rule.Agrees pending.descriptor.rules new.rules
  reads : ∀ rule ∈ pending.descriptor.rules, rule.AllDeps (·.ReadsIn task.package.package)

/-- What an update that succeeds was prepared from, in the scope that it found. -/
theorem Leaves.of_prepared {s : Session} {now final : Tree} {task : Task} {old new : Descriptor}
    {scope : Scope} {pending : Pending} (h : Leaves s now final task old scope pending new) :
    s.problemsOf task scope = [] ∧
      scope.annotations s.options.update task.sources = .ok pending.sources ∧
      ∃ name ∈ buildFileNames, pending.buildFile = task.package.dir ++ [name] := by
  obtain ⟨old', scope', hold, hscope, hproblems, hchanged, -, hbuild⟩ :=
    Workspace.prepare_eq_ok.1 h.prepared
  obtain rfl : old = old' := Except.ok.inj (h.found.descriptor.symm.trans hold)
  obtain rfl : scope = scope' := Except.ok.inj (h.found.scope.symm.trans hscope)
  refine ⟨hproblems, hchanged, _, ?_, hbuild⟩
  cases hname : now.buildFile? task.package.dir with
  | none => exact List.mem_of_elem_eq_true rfl
  | some name => exact List.mem_of_find?_eq_some hname

section
variable {s : Session} {t final now : Tree} {package : PackageDir} {sources : List Source}
  {rest : List (PackageDir × List Source)} (hsteady : s.IsSteady t final)
include hsteady

/-- The files of a directory stay while others are updated. -/
theorem IsSteady.node?_updateAll (hsuffix : rest <:+ s.packages) {r : Report}
    (hrun : (s.updateAll r rest).failures = []) {place : Location}
    (hplace : ∀ entry ∈ rest, entry.1.dir ≠ place) (name : String) :
    (s.updateAll r rest).tree.node? (place ++ [name]) = r.tree.node? (place ++ [name]) :=
  Session.node?_updateAll
    (fun entry he => hsteady.isKnown.sources entry (hsuffix.subset he)) hrun
    fun entry he _ hsame => hplace entry he (List.append_inj' hsame rfl).1.symm

/-- What stands in other directories is there in the end. -/
theorem Stage.behind (h : Stage s t final rest now) {place : Location}
    (hplace : ∀ entry ∈ rest, entry.1.dir ≠ place) (name : String) :
    final.node? (place ++ [name]) = now.node? (place ++ [name]) := by
  obtain ⟨r, rfl, hrun, rfl⟩ := h.ends
  exact hsteady.node?_updateAll h.suffix hrun hplace name

/-- A package that is still to be updated has the sources that it had at first. -/
theorem Stage.sources_eq (h : Stage s t final rest now) {entry : PackageDir × List Source}
    (hentry : entry ∈ rest) : now.sources entry.1.dir = .ok entry.2 :=
  h.rewrites.sources_of_nodes (hsteady.isKnown.sources entry (h.suffix.subset hentry))
    (h.ahead entry hentry)

/-- **One more update** of a run. -/
theorem Stage.step (h : Stage s t final ((package, sources) :: rest) now) :
    ∃ next old scope pending new, Stage s t final rest next ∧ now.Rewrites next ∧
      Leaves s now final ⟨package, sources, rest.isEmpty⟩ old scope pending new := by
  have hnow := h.sources_eq hsteady (List.mem_cons_self ..)
  have hfirst := h.descriptor_eq (List.mem_cons_self ..)
  obtain ⟨r, rfl, hrun, hend⟩ := h.ends
  obtain ⟨next, u, hupdate, heq⟩ := updateAll_cons hrun
  rw [heq] at hrun hend
  have hmem : (package, sources) ∈ s.packages := h.suffix.subset (by simp)
  have hs := hsteady.isKnown.sources _ hmem
  have hw := hsteady.isKnown.package _ hmem
  dsimp only at hs hw
  -- The directories of the rest are other ones.
  have hother : ∀ entry ∈ rest, entry.1.dir ≠ package.dir := fun entry he hsame =>
    (List.nodup_cons.1 ((h.suffix.sublist.map _).nodup hsteady.isKnown.nodup)).1
      (List.mem_map.2 ⟨entry, he, hsame⟩)
  have hsuffix : rest <:+ s.packages := (List.suffix_cons _ _).trans h.suffix
  have hlater : ∀ name,
      final.node? (package.dir ++ [name]) = next.node? (package.dir ++ [name]) := by
    intro name
    rw [← hend]
    exact hsteady.node?_updateAll hsuffix hrun hother name
  obtain ⟨pending, hprepare, hwrite⟩ := Workspace.update_eq_ok.1 hupdate
  obtain ⟨old, scope, hold, hscope, -⟩ := Workspace.prepare_eq_ok.1 hprepare
  have horderly := hsteady.orderly _ hmem old (hfirst.symm.trans hold)
  have hreads := Workspace.reads_of_prepare (h.rewrites.isWellFormed hsteady.isWellFormed) hw hnow
    (h.plain _ hmem) hsteady.isPlain hprepare
  obtain ⟨new, hnew, hagrees⟩ := Workspace.exists_descriptor_of_update hnow hupdate hold hprepare
    hreads fun _ => horderly.loads
  have hpackage : next.isPackage package.dir = true → r.tree.isPackage package.dir = true := by
    rw [← Tree.isPackage_congr hlater, Tree.isPackage_congr (h.ahead _ (List.mem_cons_self ..))]
    exact hsteady.made _ hmem
  have hrewrites := (Workspace.touches_of_update hnow hupdate).rewrites hpackage
  have hnext : Stage s t final rest next := by
    refine ⟨hsuffix, ⟨_, rfl, hrun, hend⟩, h.rewrites.trans hrewrites, ?_, ?_⟩
    · intro entry he name
      rw [Workspace.node?_of_update hs hupdate
        fun other hsame => hother entry he (List.append_inj' hsame rfl).1]
      exact h.ahead entry (List.mem_cons_of_mem _ he) name
    · exact fun entry he => (h.plain entry he).of_update (h.plain _ hmem).baseName hw hnow hold
        horderly.names hpackage hupdate hprepare hnew hagrees
  exact ⟨next, old, scope, pending, new, hnext, hrewrites, ⟨hold, hscope⟩, hprepare,
    ⟨next, u, hwrite, hlater⟩, (Tree.descriptor_congr hlater).trans hnew, hagrees, hreads⟩

/-- What a run leaves differs from a tree in the middle of it by the texts of BUILD files and
sources. -/
theorem Stage.rewrites_final (h : Stage s t final rest now) : now.Rewrites final := by
  induction rest generalizing now with
  | nil =>
    obtain ⟨r, rfl, -, rfl⟩ := h.ends
    exact .refl r.tree
  | cons entry rest ih =>
    obtain ⟨next, old, scope, pending, new, hnext, hrewrites, -⟩ := h.step hsteady
    exact hrewrites.trans (ih hnext)

/-- A run comes to each of the packages that are still to be updated. -/
theorem Stage.of_suffix (h : Stage s t final rest now) {later : List (PackageDir × List Source)}
    (hlater : later <:+ rest) : ∃ next, Stage s t final later next := by
  induction rest generalizing now with
  | nil => exact ⟨now, List.suffix_nil.1 hlater ▸ h⟩
  | cons entry rest ih =>
    rcases List.suffix_cons_iff.1 hlater with rfl | hlater
    · exact ⟨now, h⟩
    · obtain ⟨next, old, scope, pending, new, hnext, -⟩ := h.step hsteady
      exact ih hnext hlater

/-- **The annotations of a package** can be kept once and for all. -/
theorem Stage.isSettled (h : Stage s t final ((package, sources) :: rest) now) {isLast : Bool}
    {old new : Descriptor} {scope : Scope} {pending : Pending}
    (hleaves : Leaves s now final ⟨package, sources, isLast⟩ old scope pending new)
    (ha : s.options.update.annotates = true) : ∀ source ∈ sources, scope.IsSettled source := by
  have hmem : (package, sources) ∈ s.packages := h.suffix.subset (by simp)
  have hread := (h.descriptor_eq (List.mem_cons_self ..)).symm.trans hleaves.found.descriptor
  exact hleaves.found.isSettled (h.rewrites.isWellFormed hsteady.isWellFormed)
    (hsteady.isKnown.package _ hmem) (h.sources_eq hsteady (List.mem_cons_self ..))
    (hsteady.orderly _ hmem old hread).names (h.plain _ hmem) hsteady.isPlain hleaves.of_prepared.1
    (hsteady.annotatable ha _ hmem old hread)

/-- **In the end the sources of a package** are those that its update left. -/
theorem Stage.sources_final (h : Stage s t final ((package, sources) :: rest) now) {isLast : Bool}
    {old new : Descriptor} {scope : Scope} {pending : Pending}
    (hleaves : Leaves s now final ⟨package, sources, isLast⟩ old scope pending new) :
    final.sources package.dir = .ok (sources.map (scope.rewritten s.options.update)) := by
  have hmem : (package, sources) ∈ s.packages := h.suffix.subset (by simp)
  have hnow := h.sources_eq hsteady (List.mem_cons_self ..)
  have hread := (h.descriptor_eq (List.mem_cons_self ..)).symm.trans hleaves.found.descriptor
  obtain ⟨-, hchanged, hbuild⟩ := hleaves.of_prepared
  obtain ⟨next, u, hwrite, hlater⟩ := hleaves.written
  refine Workspace.sources_of_write hnow hchanged hbuild hwrite (h.rewrites_final hsteady) hlater
    fun ha source hsource text hupdate hfinal => ?_
  refine (hsteady.annotatable ha _ hmem old hread).reads source hsource _ text
    (scope.imports_resolveSource source) hupdate ?_
  rw [(Workspace.location_of_source hnow hsource).1]
  exact hfinal

/-- **In the end each BUILD file is kept** as other packages see it. -/
theorem Stage.keepsAt (h : Stage s t final rest now) {dir : Location} {name : String}
    (hw : s.workspace.relative? dir = some name) :
    s.workspace.KeepsAt now final s.index dir name := by
  by_cases hin : ∃ entry ∈ rest, entry.1.dir = dir
  · obtain ⟨⟨package, sources⟩, hentry, rfl⟩ := hin
    obtain ⟨front, back, hsplit⟩ := List.append_of_mem hentry
    have hmem := h.suffix.subset hentry
    obtain rfl : package.package = name :=
      Option.some.inj ((hsteady.isKnown.package _ hmem).symm.trans hw)
    obtain ⟨then', hthen⟩ := h.of_suffix hsteady ⟨front, hsplit.symm⟩
    obtain ⟨next, old, scope, pending, new, -, -, hleaves⟩ := hthen.step hsteady
    have hread : t.descriptor package.dir package.package = .ok old :=
      (hthen.descriptor_eq (List.mem_cons_self ..)).symm.trans hleaves.found.descriptor
    have hfound : now.descriptor package.dir package.package = .ok old :=
      (h.descriptor_eq hentry).trans hread
    have hfinal := (h.rewrites_final hsteady).isPackage
    by_cases hp : now.isPackage package.dir = true
    · refine .inr ⟨old, new, Tree.descriptor?_of_isPackage hp hfound,
        Tree.descriptor?_of_isPackage (hfinal ▸ hp) hleaves.left, ?_⟩
      have hkeeps := Workspace.keeps_of_prepare
        (hthen.rewrites.isWellFormed hsteady.isWellFormed)
        (hthen.sources_eq hsteady (List.mem_cons_self ..)) hleaves.found.descriptor
        (hsteady.orderly _ hmem old hread).names hleaves.prepared hleaves.agrees
      refine hkeeps.congr fun location => ?_
      rw [h.rewrites.isSome_node?, hthen.rewrites.isSome_node?]
    · rw [Workspace.KeepsAt, Tree.descriptor?_of_not_isPackage hp,
        Tree.descriptor?_of_not_isPackage (hfinal ▸ hp)]
      exact .inl rfl
  · exact .inl (Tree.descriptor?_congr fun file _ =>
      h.behind hsteady (fun entry he hsame => hin ⟨entry, he, hsame⟩) file)

end

end Session

end BuildSync
