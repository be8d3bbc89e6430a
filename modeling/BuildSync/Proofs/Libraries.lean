import BuildSync.Proofs.Atomicity
import BuildSync.Proofs.Footprints
import BuildSync.Proofs.FreeNames
import BuildSync.Proofs.Listings
import BuildSync.Proofs.Walks
import BuildSync.Proofs.WrittenLabels

/-!
# The rule over the libraries of a project

The root of a project has a rule that depends on every library of the project: those of its own
BUILD file, as it is going to be, and those of the BUILD files below.

* `Aggregate.librariesBelow_eq`, `Aggregate.mem_gathered`: the libraries, package by package.
* `Aggregate.exists_filled`: which rule is brought up to date.
* `Aggregate.gathers_of_deriveAll`: the rule depends on exactly the libraries, in order, each once.
* `Session.run_gathers`: so it does after an update, and at the end of a session over all packages.
* `Workspace.update_ungathered`: a second rule over the libraries is left as it is.
-/

namespace BuildSync

open Build

namespace Aggregate

/-- A label is the one of a library that is not for tests. -/
def IsLibrary (d : Descriptor) (label : Label) : Prop :=
  ∃ r ∈ d.rules, r.kind = .library false ∧ r.label d.package = label

/-- A library of the BUILD file of a directory, or of one that a walk visits below. -/
def IsGathered (w : Workspace) (t : Tree) (dir : Location) (d : Descriptor) (label : Label) :
    Prop :=
  IsLibrary d label ∨ ∃ names ∈ t.visited dir, ∃ package below,
    w.relative? (dir ++ names) = some package ∧
      t.descriptor? (dir ++ names) package = .ok (some below) ∧ IsLibrary below label

/-- The first rule over the libraries depends on exactly the libraries, in order, each once, unless
its dependencies are computed. -/
structure Gathers (w : Workspace) (t : Tree) (dir : Location) (d : Descriptor)
    (deps : List Label) : Prop where
  nodup : deps.Nodup
  sorted : deps.Pairwise fun a b => Label.writtenLe d.package a b = true
  mem : ∀ label, label ∈ deps ↔ IsGathered w t dir d label

theorem mem_libraries {d : Descriptor} {label : Label} :
    label ∈ libraries d ↔ IsLibrary d label := by
  simp only [libraries, List.mem_map, List.mem_filter, decide_eq_true_eq, and_assoc, IsLibrary]

theorem Gathers.congr {w : Workspace} {t : Tree} {dir : Location} {d d' : Descriptor}
    {deps : List Label} (h : Gathers w t dir d deps) (hpackage : d'.package = d.package)
    (hlibraries : libraries d' = libraries d) : Gathers w t dir d' deps := by
  refine ⟨h.nodup, hpackage ▸ h.sorted, fun label => (h.mem label).trans ?_⟩
  unfold IsGathered
  rw [← mem_libraries, ← mem_libraries, hlibraries]

/-! ## The libraries, package by package -/

section
variable {w : Workspace} {t : Tree} {dir : Location} {d : Descriptor} {below : List Label}

/-- The libraries of a directory's BUILD file. -/
def librariesAt (w : Workspace) (t : Tree) (dir : Location) : List Label :=
  ((w.relative? dir).bind (t.usableDescriptor? dir)).elim [] libraries

theorem mem_librariesAt {label : Label} : label ∈ librariesAt w t dir ↔
    ∃ package d, w.relative? dir = some package ∧ t.descriptor? dir package = .ok (some d) ∧
      IsLibrary d label := by
  unfold librariesAt Tree.usableDescriptor?
  cases hw : w.relative? dir with
  | none => simp
  | some package =>
    cases hd : t.descriptor? dir package with
    | error problem => simp [Except.toOption, hd]
    | ok found =>
      cases found with
      | none => simp [Except.toOption, hd]
      | some d => simp [Except.toOption, hd, mem_libraries]

theorem librariesBelow_eq (h : librariesBelow w t dir = .ok below) :
    below = (t.visited dir).flatMap fun names => librariesAt w t (dir ++ names) := by
  obtain ⟨found, hfound, h⟩ := bind_eq_ok.1 h
  cases h
  have hread := forall₂_of_mapM hfound
  clear hfound h
  generalize t.visited dir = visited at hread
  induction hread with
  | nil => rfl
  | @cons names found visited founds hfirst _ ih =>
    obtain ⟨package, hpackage, hfirst⟩ := bind_eq_ok.1 hfirst
    have hat : librariesAt w t (dir ++ names) = found.elim [] libraries := by
      unfold Workspace.packageOf at hpackage
      split at hpackage
      · rename_i hw
        cases hpackage
        unfold librariesAt Tree.usableDescriptor?
        rw [hw, Option.bind_some, hfirst]
        rfl
      · cases hpackage
    rw [List.flatMap_cons, ← ih, hat]
    cases found <;> rfl

theorem mem_gathered (h : librariesBelow w t dir = .ok below) {label : Label} :
    label ∈ libraries d ++ below ↔ IsGathered w t dir d label := by
  rw [librariesBelow_eq h, List.mem_append, mem_libraries, List.mem_flatMap]
  exact or_congr_right (exists_congr fun names => and_congr_right fun _ => mem_librariesAt)

/-- The package of a library is the directory of its BUILD file. -/
theorem exists_place (hw : w.relative? dir = some d.package) {label : Label}
    (h : IsGathered w t dir d label) : label.repo = none ∧
      ∃ names ∈ [] :: t.visited dir, w.relative? (dir ++ names) = some label.package := by
  rcases h with ⟨r, -, -, rfl⟩ | ⟨names, hnames, package, d', hpackage, hd', r, -, -, rfl⟩
  · exact ⟨rfl, [], List.mem_cons_self, by rw [List.append_nil]; exact hw⟩
  · refine ⟨rfl, names, List.mem_cons_of_mem _ hnames, ?_⟩
    rw [hpackage]
    exact congrArg some (Tree.package_descriptor (Tree.descriptor_of_descriptor? hd')).symm

variable (hdirs : ∀ place, t.isDir place = true → ∀ name ∈ place, Path.IsName name)
  (hdir : t.isDir dir = true) (hw : w.relative? dir = some d.package)
include hdirs hdir

theorem isName_place {names : List String} (h : names ∈ [] :: t.visited dir) :
    ∀ name ∈ dir ++ names, Path.IsName name := by
  apply hdirs
  rcases List.mem_cons.1 h with rfl | h
  · rwa [List.append_nil]
  · obtain ⟨hn, hvisited⟩ := Tree.mem_visited.1 h
    exact Tree.isDir_of_isVisited hn hvisited

theorem place_inj {names others : List String} {package : String}
    (hnames : names ∈ [] :: t.visited dir) (hothers : others ∈ [] :: t.visited dir)
    (hn : w.relative? (dir ++ names) = some package)
    (ho : w.relative? (dir ++ others) = some package) : names = others :=
  List.append_cancel_left (Workspace.relative?_inj (isName_place hdirs hdir hnames)
    (isName_place hdirs hdir hothers) hn ho)

omit hdirs hdir in
/-- The libraries stand in the order of their directories. -/
theorem pairwise_gathered (hw : w.relative? dir = some d.package)
    (h : librariesBelow w t dir = .ok below) : (libraries d ++ below).Pairwise fun a b =>
      ∃ names ∈ [] :: t.visited dir, ∃ others ∈ [] :: t.visited dir,
        w.relative? (dir ++ names) = some a.package ∧
        w.relative? (dir ++ others) = some b.package ∧ textsLe names others = true := by
  have hown : ∀ label ∈ libraries d, w.relative? (dir ++ []) = some label.package := by
    intro label hlabel
    obtain ⟨r, -, -, rfl⟩ := mem_libraries.1 hlabel
    rw [List.append_nil]
    exact hw
  have hat : ∀ names, ∀ label ∈ librariesAt w t (dir ++ names),
      w.relative? (dir ++ names) = some label.package := by
    intro names label hlabel
    obtain ⟨package, d', hpackage, hd', r, -, -, rfl⟩ := mem_librariesAt.1 hlabel
    rw [hpackage]
    exact congrArg some (Tree.package_descriptor (Tree.descriptor_of_descriptor? hd')).symm
  have hrefl (names : List String) : textsLe names names = true := by
    simpa using textsLe_total names names
  have hsorted : (t.visited dir).Pairwise fun a b => textsLe a b = true :=
    List.pairwise_mergeSort textsLe_trans textsLe_total _
  rw [librariesBelow_eq h, List.pairwise_append, List.pairwise_flatMap]
  refine ⟨?_, ⟨fun names hnames => ?_, ?_⟩, fun a ha b hb => ?_⟩
  · exact List.pairwise_of_forall_mem_list fun a ha b hb => ⟨[], List.mem_cons_self, [],
      List.mem_cons_self, hown a ha, hown b hb, hrefl []⟩
  · have hmem := List.mem_cons_of_mem [] hnames
    exact List.pairwise_of_forall_mem_list fun a ha b hb =>
      ⟨names, hmem, names, hmem, hat names a ha, hat names b hb, hrefl names⟩
  · refine hsorted.imp_of_mem fun hnames hothers hle a ha b hb => ?_
    exact ⟨_, List.mem_cons_of_mem _ hnames, _, List.mem_cons_of_mem _ hothers, hat _ a ha,
      hat _ b hb, hle⟩
  · obtain ⟨names, hnames, hb⟩ := List.mem_flatMap.1 hb
    refine ⟨[], List.mem_cons_self, names, List.mem_cons_of_mem _ hnames, hown a ha,
      hat names b hb, ?_⟩
    cases names <;> rfl

include hw

/-- **Libraries of different packages do not mix**: one that comes back has none of another package
in between. -/
theorem package_of_returns (h : librariesBelow w t dir = .ok below) {a b : Label}
    (hsub : [a, b, a].Sublist (libraries d ++ below)) : a.package = b.package := by
  have hpairs := (pairwise_gathered hw h).sublist hsub
  obtain ⟨hfirst, hpairs⟩ := List.pairwise_cons.1 hpairs
  obtain ⟨na, hna, nb, hnb, ha, hb, hab⟩ := hfirst b (by simp)
  obtain ⟨nb', hnb', na', hna', hb', ha', hba⟩ := (List.pairwise_cons.1 hpairs).1 a (by simp)
  obtain rfl := place_inj hdirs hdir hna hna' ha ha'
  obtain rfl := place_inj hdirs hdir hnb hnb' hb hb'
  obtain rfl := textsLe_antisymm na nb hab hba
  exact Option.some.inj (ha.symm.trans hb)

/-- **The dependencies on all libraries** are in order, each once. -/
theorem gathers_arrangeDeps (h : librariesBelow w t dir = .ok below) {r : Build.Rule}
    (hown : ∀ label, IsLibrary d label → label.name ≠ r.name) :
    Gathers w t dir d (r.arrangeDeps d.package (libraries d ++ below)) := by
  -- The rule itself is none of the libraries.
  have hother : ∀ label, IsGathered w t dir d label → label ≠ r.label d.package := by
    rintro label (hlibrary | ⟨names, hnames, package, d', hpackage, hd', hlibrary⟩)
    · exact fun hsame => hown label hlibrary (congrArg Label.name hsame)
    · rintro rfl
      obtain ⟨other, -, -, hsame⟩ := hlibrary
      have hpackages := congrArg Label.package hsame
      rw [Tree.package_descriptor (Tree.descriptor_of_descriptor? hd')] at hpackages
      have hnil := place_inj hdirs hdir (List.mem_cons_of_mem _ hnames) List.mem_cons_self
        (hpackage.trans (congrArg some hpackages)) (by rw [List.append_nil]; exact hw)
      exact (Tree.mem_visited.1 hnames).1 hnil
  have hall : (libraries d ++ below).filter (· ≠ r.label d.package) = libraries d ++ below :=
    List.filter_eq_self.2 fun label hlabel =>
      decide_eq_true (hother label ((mem_gathered h).1 hlabel))
  unfold Rule.arrangeDeps
  rw [hall]
  refine ⟨nodup_dropRepeats fun a b hsub => ?_,
    (Label.pairwise_sortFor _ _).sublist (dropRepeats_sublist _), fun label => ?_⟩
  · obtain ⟨hab, hba, hreturns⟩ :=
      returns_of_mergeSort (Label.writtenLe_trans _) (Label.writtenLe_total _) hsub
    have hrepo : ∀ label ∈ [a, b, a], label.repo = none := fun label hlabel =>
      (exists_place hw ((mem_gathered h).1 (hreturns.subset hlabel))).1
    have hsame : a.repo = b.repo := (hrepo a (by simp)).trans (hrepo b (by simp)).symm
    exact Label.writtenLe_antisymm hsame (package_of_returns hdirs hdir hw h hreturns) hab hba
  · rw [mem_dropRepeats, (Label.sortFor_perm _ _).mem_iff, mem_gathered h]

end

/-! ## Which rule is brought up to date -/

section
variable {d : Descriptor} {kind : RuleKind} {name rulesFile : String} {isNeeded : Bool}
  {fill : Build.Rule → Build.Rule} (hname : ∀ r, (fill r).name = r.name)
  (hkind : ∀ r, (fill r).kind = r.kind)
include hname

omit hname hkind in
theorem package_derive :
    (derive d kind name rulesFile isNeeded fill).package = d.package := by
  unfold derive
  split
  · rfl
  · split
    · exact Descriptor.package_addRule d _ rulesFile
    · rfl

omit hkind in
theorem nodup_of_derive
    (h : ((derive d kind name rulesFile isNeeded fill).rules.map (·.name)).Nodup) :
    (d.rules.map (·.name)).Nodup := by
  unfold derive at h
  split at h
  · rename_i rule _
    rwa [← @names_modifyFirst rule.name fill hname d.rules]
  · split at h
    · rw [Descriptor.rules_addRule, List.map_append] at h
      exact (List.nodup_append'.1 h).1
    · exact h

include hkind

/-- **The first rule of the kind is filled in**, whether it was there or is new. -/
theorem exists_filled
    (h : ((derive d kind name rulesFile isNeeded fill).rules.map (·.name)).Nodup)
    {rule : Build.Rule} (hfind : (derive d kind name rulesFile isNeeded fill).rules.find?
      (·.kind = kind) = some rule) : ∃ old, rule = fill old := by
  have hd := nodup_of_derive hname h
  unfold derive at hfind
  split at hfind
  · rename_i old hold
    have hrules : (d.modifyRule old.name fill).rules =
        d.rules.map fun r => if r.name = old.name then fill r else r :=
      Dependency.modifyFirst_of_nodup hd
    have hkinds (r : Build.Rule) :
        (if r.name = old.name then fill r else r).kind = r.kind := by
      split
      · exact hkind r
      · rfl
    rw [hrules, List.find?_map] at hfind
    simp only [Function.comp_def, hkinds, hold, Option.map_some, if_true] at hfind
    exact ⟨old, (Option.some.inj hfind).symm⟩
  · rename_i hnone
    split at hfind
    · rw [Descriptor.rules_addRule, List.find?_append, hnone, Option.none_or] at hfind
      exact ⟨_, List.mem_singleton.1 (List.mem_of_find?_eq_some hfind)⟩
    · rw [hnone] at hfind
      cases hfind

end

theorem isDir_of_configFiles {t : Tree} {dir : Location} {configs : List String}
    (h : configFiles t dir = .ok configs) : t.isDir dir = true := by
  unfold configFiles Tree.list at h
  unfold Tree.isDir
  cases hnode : t.node? dir with
  | none => simp [hnode] at h
  | some node => cases node <;> simp_all

/-- **The rule over the libraries depends on exactly the libraries**, in order, each once: its own
BUILD file's, as it is going to be, and those of the BUILD files below. -/
theorem gathers_of_deriveAll {w : Workspace} {t : Tree} {dir : Location} {rulesFile : String}
    {d d' : Descriptor} (hdirs : ∀ place, t.isDir place = true → ∀ name ∈ place, Path.IsName name)
    (hw : w.relative? dir = some d'.package) (h : deriveAll w t dir rulesFile d = .ok d')
    (hnames : (d'.rules.map (·.name)).Nodup)
    {rule : Build.Rule} (hrule : d'.rules.find? (·.kind = .devSources) = some rule)
    {deps : List Label} (hdeps : rule.deps.values? = some deps) : Gathers w t dir d' deps := by
  obtain ⟨configs, hconfigs, h⟩ := bind_eq_ok.1 h
  have hdir := isDir_of_configFiles hconfigs
  obtain ⟨below, hbelow, h⟩ := bind_eq_ok.1 h
  dsimp only at h
  generalize hmid : derive d .config configName rulesFile (configs ≠ []) (·.setSrcs configs) = mid
    at h
  cases h
  obtain ⟨old, rfl⟩ := exists_filled (fun r => Rule.name_setDeps r _ _)
    (fun r => Rule.kind_setDeps r _ _) hnames hrule
  rw [package_derive] at hw
  have hkind : RuleKind.devSources ≠ .library false := by simp
  have hlibraries := libraries_derive mid hkind devSourcesName rulesFile
    (libraries mid ++ below ≠ [])
    (fun r => Rule.name_setDeps r mid.package (libraries mid ++ below))
    fun r => Rule.kind_setDeps r _ _
  rw [Rule.deps_of_setDeps hdeps]
  refine (gathers_arrangeDeps hdirs hdir hw hbelow
    fun label hlabel hsame => ?_).congr (package_derive ..) hlibraries
  -- The rule and a library of its name would be two rules of one name.
  rw [← mem_libraries, ← hlibraries] at hlabel
  obtain ⟨other, hother, hkind, rfl⟩ := mem_libraries.1 hlabel
  have hmem := List.mem_of_find?_eq_some hrule
  have heq := List.inj_on_of_nodup_map hnames hother hmem
    (hsame.trans (Rule.name_setDeps old _ _).symm)
  rw [heq] at hkind
  have hdev := List.find?_some hrule
  simp only [Rule.kind_setDeps, decide_eq_true_eq] at hkind hdev
  rw [hkind] at hdev
  cases hdev

/-- The first rule over the libraries depends on exactly the libraries, in order, each once, unless
its dependencies are computed or rules share a name. -/
def IsComplete (w : Workspace) (t : Tree) (dir : Location) (d : Descriptor) : Prop :=
  (d.rules.map (·.name)).Nodup → ∀ rule, d.rules.find? (·.kind = .devSources) = some rule →
    ∀ deps, rule.deps.values? = some deps → Gathers w t dir d deps

/-! ## After an update -/

section
variable {w : Workspace} {t t' : Tree} {dir : Location} {d d' : Descriptor}

/-- **Below a directory that was touched** the libraries are the same. -/
theorem isGathered_of_touches (h : t.Touches t' dir) (label : Label) :
    IsGathered w t' dir d label ↔ IsGathered w t dir d label := by
  have hnodes : ∀ place, ∀ name ∈ Tree.ignoreNames,
      t'.node? (place ++ [name]) = t.node? (place ++ [name]) := fun place name hname => by
    have hother : ∀ name ∈ Tree.ignoreNames,
        name ∉ buildFileNames ∧ SourceKind.ofName? name = none := by decide
    exact h.node?_of_name (hother name hname).1 (hother name hname).2 place
  refine or_congr_right (exists_congr fun names => ?_)
  rw [Tree.mem_visited_congr hnodes h.isDir]
  refine and_congr_right fun hnames => ?_
  have hread (package : String) :
      t'.descriptor? (dir ++ names) package = t.descriptor? (dir ++ names) package := by
    refine Tree.descriptor?_congr fun build _ => h.elsewhere _ fun name hsame => ?_
    rw [List.append_assoc] at hsame
    have hlength := congrArg List.length (List.append_cancel_left hsame)
    simp only [List.length_append, List.length_singleton] at hlength
    have hpos := List.length_pos_of_ne_nil (Tree.mem_visited.1 hnames).1
    omega
  simp only [hread]

theorem Gathers.of_touches {deps : List Label} (hg : Gathers w t dir d deps)
    (h : t.Touches t' dir) : Gathers w t' dir d deps :=
  ⟨hg.nodup, hg.sorted, fun label => (hg.mem label).trans (isGathered_of_touches h label).symm⟩

/-- Rules that agree are found in the same place. -/
theorem exists_find?_of_agrees {rules rules' : List Build.Rule} {kind : RuleKind}
    (h : List.Forall₂ Rule.Agrees rules rules') {rule' : Build.Rule}
    (hfind : rules'.find? (·.kind = kind) = some rule') :
    ∃ rule, rules.find? (·.kind = kind) = some rule ∧ rule.Agrees rule' := by
  induction h with
  | nil => cases hfind
  | @cons r r' rules rules' hr _ ih =>
    rw [List.find?_cons] at hfind ⊢
    rw [hr.kind] at hfind
    split at hfind
    · cases hfind
      exact ⟨r, rfl, hr⟩
    · exact ih hfind

theorem libraries_of_agrees (hpackage : d'.package = d.package)
    (h : List.Forall₂ Rule.Agrees d.rules d'.rules) : libraries d' = libraries d := by
  unfold libraries
  rw [hpackage]
  generalize d.rules = rules, d'.rules = rules' at h
  induction h with
  | nil => rfl
  | @cons r r' rules rules' hr _ ih =>
    have hlabel : r'.label d.package = r.label d.package := by
      unfold Build.Rule.label
      rw [hr.name]
    rw [List.filter_cons, List.filter_cons, hr.kind]
    split
    · rw [List.map_cons, List.map_cons, ih, hlabel]
    · exact ih

/-- **A BUILD file that is read as it was written** stays complete. -/
theorem IsComplete.of_agrees (hcomplete : IsComplete w t dir d) (hpackage : d'.package = d.package)
    (h : List.Forall₂ Rule.Agrees d.rules d'.rules) : IsComplete w t dir d' := by
  intro hnames rule' hrule' deps hdeps
  have hsame : d'.rules.map (·.name) = d.rules.map (·.name) :=
    Descriptor.map_eq_of_forall₂ h fun r r' hr => hr.name
  obtain ⟨rule, hrule, hagree⟩ := exists_find?_of_agrees h hrule'
  exact (hcomplete (hsame ▸ hnames) rule hrule deps (hagree.deps ▸ hdeps)).congr hpackage
    (libraries_of_agrees hpackage h)

end

/-- **An update of the root of a project** leaves a BUILD file that is complete. -/
theorem isComplete_of_update {w : Workspace} {before t t' seen : Tree} {index : Query.Index}
    {options : UpdateOptions} {package : PackageDir} {sources : List Source} {u : PackageUpdate}
    {pending : Pending}
    (hdirs : ∀ place, t.isDir place = true → ∀ name ∈ place, Path.IsName name)
    (hs : before.sources package.dir = .ok sources)
    (hw : w.relative? package.dir = some package.package)
    (hprepare : w.prepare t seen index options package.dir package.package sources true =
      .ok pending)
    (h : w.update t seen index options package sources true = .ok (t', u)) :
    IsComplete w t' package.dir pending.descriptor := by
  intro hnames rule hrule deps hdeps
  obtain ⟨old, scope, hold, hscope, -, -, hderived, -⟩ := Workspace.prepare_eq_ok.1 hprepare
  have hpackage : pending.descriptor.package = package.package :=
    (Workspace.isChange_of_prepare hold hprepare).1.package.trans (Tree.package_descriptor hold)
  have hgathers := gathers_of_deriveAll hdirs (hpackage ▸ hw) hderived hnames hrule hdeps
  exact hgathers.of_touches (Workspace.touches_of_update hs h)

end Aggregate

/-! ## Sessions at the root of a project -/

/-- The paths at which a session starts. -/
def SessionOptions.starts (options : SessionOptions) : List String :=
  if options.areFiles then sourceDirs options.paths else options.paths

/-- Only one path can be the root of a project. -/
theorem SessionOptions.starts_eq {w : Workspace} {t : Tree} {cwd : Location}
    {options : SessionOptions} {dirs : List PackageDir} (hroot : options.isProjectRoot = true)
    (h : Session.packageDirs w t cwd options = .ok dirs) {path : String}
    (hpath : path ∈ options.starts) : options.starts = [path] := by
  have hlength : options.paths.length ≤ 1 := by
    unfold Session.packageDirs at h
    split at h
    · cases h
    · rename_i hfew
      simpa [hroot] using hfew
  have hstarts : options.starts.length ≤ 1 := by
    unfold starts
    split
    · match options.paths, hlength with
      | [], _ => simp [sourceDirs, distinctPaths]
      | [only], _ =>
        by_cases hsource : isSourcePath only <;> simp [sourceDirs, distinctPaths, hsource]
    · exact hlength
  match hlist : options.starts, hstarts with
  | [], _ => simp [hlist] at hpath
  | [only], _ =>
    rw [hlist] at hpath
    rw [List.mem_singleton.1 hpath]

/-- **The directory at which a recursive walk starts comes last.** -/
theorem Workspace.expand_last {w : Workspace} {t : Tree} {cwd : Location} {path : String}
    {packages : List PackageDir} {dir : Location} (ht : t.IsWellFormed)
    (h : w.expand t cwd true [path] = .ok packages) (hstart : t.resolve cwd path = .ok dir)
    (hdir : t.isDir dir = true) : ∃ front package, packages = front ++ [package] ∧
      package.dir = dir := by
  have hmem : dir ∈ packages.map (·.dir) := (mem_expand ht h).2
    ⟨path, List.mem_singleton_self _, dir, [], hstart, hdir, Tree.isVisited_nil _, by simp⟩
  obtain ⟨package, hpackage, rfl⟩ := List.mem_map.1 hmem
  obtain ⟨front, back, rfl⟩ := List.append_of_mem hpackage
  suffices hback : back = [] from ⟨front, package, by rw [hback], rfl⟩
  -- What is behind is the directory again or visited below it.
  refine List.eq_nil_iff_forall_not_mem.2 fun other hother => ?_
  have hplace : other.dir ∈ (front ++ package :: back).map (·.dir) :=
    List.mem_map_of_mem (by simp [hother])
  obtain ⟨path', hpath', start, names, hstart', -, hvisited, hbelow⟩ := (mem_expand ht h).1 hplace
  cases List.mem_singleton.1 hpath'
  cases hstart.symm.trans hstart'
  have hnodup := (nodup_packageDirs h (by simp) (by simp)).1
  have hapart := pairwise_visited ht h
  rw [List.map_append, List.map_cons, List.nodup_append'] at hnodup
  rw [List.pairwise_append, List.pairwise_cons] at hapart
  by_cases hn : names = []
  · rw [hn, List.append_nil] at hbelow
    exact (List.nodup_cons.1 hnodup.2.1).1 (List.mem_map.2 ⟨other, hother, hbelow.symm⟩)
  · exact hapart.2.1.1 other hother names (Tree.mem_visited.2 ⟨hn, hvisited⟩) hbelow.symm

namespace Session

variable {s : Session} {before : Tree} {r : Report} {packages : List (PackageDir × List Source)}

/-- **The last update of a run** leaves the tree of the run. It finds what the updates before it
left: the directories and the files of its own directory are as they were before the run. -/
theorem exists_last_update {package : PackageDir} {sources : List Source}
    (hk : IsKnown s.workspace before (packages ++ [(package, sources)]))
    (h : (s.updateAll r (packages ++ [(package, sources)])).failures = []) :
    ∃ done t u, done.map Prod.fst = (tasksOf (packages ++ [(package, sources)])).dropLast ∧
      s.Succeeds (fun _ => none) r.tree done t ∧ s.updatePackage t package sources true =
        .ok ((s.updateAll r (packages ++ [(package, sources)])).tree, u) ∧
      (∀ place, t.isDir place = r.tree.isDir place) ∧
      ∀ name, t.node? (package.dir ++ [name]) = r.tree.node? (package.dir ++ [name]) := by
  obtain ⟨hnodup, hnames, hs⟩ := hk
  induction packages generalizing r with
  | nil =>
    obtain ⟨t, u, hupdate, heq⟩ := updateAll_cons h
    refine ⟨[], r.tree, u, rfl, .nil _, ?_, fun _ => rfl, fun _ => rfl⟩
    rw [List.nil_append, heq]
    exact hupdate
  | cons entry rest ih =>
    rw [List.cons_append] at h hnodup hnames hs ⊢
    obtain ⟨hfirst, hnodup⟩ := List.nodup_cons.1 hnodup
    rw [List.forall_mem_cons] at hnames hs
    obtain ⟨t, u, hupdate, heq⟩ := updateAll_cons h
    rw [heq] at h ⊢
    obtain ⟨done, t₁, u₁, hdone, hsucceeds, hlast, hdirs, hnodes⟩ := ih h hnodup hnames.2 hs.2
    have htouches := Workspace.touches_of_update hs.1 hupdate
    have hfirst' : (s.perform (fun _ => none) ⟨entry.1, entry.2, false⟩).run r.tree = .ok u t := by
      have hnot : (rest ++ [(package, sources)]).isEmpty = false := by simp
      rw [hnot] at hupdate
      rw [run_perform_update, hupdate]
    refine ⟨(⟨entry.1, entry.2, false⟩, u) :: done, t₁, u₁, ?_, .cons hfirst' hsucceeds, hlast,
      fun place => (hdirs place).trans (htouches.isDir place), fun name => ?_⟩
    · have hne : tasksOf (rest ++ [(package, sources)]) ≠ [] := by
        cases rest <;> simp [tasksOf]
      rw [List.map_cons, hdone, tasksOf, List.dropLast_cons_of_ne_nil hne]
      simp
    refine (hnodes name).trans (htouches.elsewhere _ fun other hsame => hfirst ?_)
    exact List.mem_map.2 ⟨(package, sources), by simp, (List.append_inj' hsame rfl).1⟩

/-- The packages of a started session are those that its paths stand for. -/
theorem packages_of_start {w : Workspace} {t : Tree} {cwd : Location} {service : Query.Service}
    {options : SessionOptions} {s : Session} (h : start w t cwd service options = .ok s) :
    packageDirs w t cwd options = .ok (s.packages.map Prod.fst) := by
  obtain ⟨dirs, packages, index, hdirs, hpackages, -, rfl⟩ := start_eq_ok.1 h
  rw [hdirs]
  have hread := forall₂_of_mapM hpackages
  clear h hdirs hpackages
  congr 1
  induction hread with
  | nil => rfl
  | cons hentry _ ih =>
    obtain ⟨sources, -, hentry⟩ := bind_eq_ok.1 hentry
    cases hentry
    rw [List.map_cons, ← ih]

/-- **The libraries of a project are gathered**: the rule over them is complete when the root of the
project has been updated, and after a session that updates all packages it still is, in the BUILD
files as they are read then. -/
theorem run_gathers {w : Workspace} {t : Tree} (ht : t.IsWellFormed) :
    (∀ (before seen : Tree) index options (package : PackageDir) sources t' u,
      before.sources package.dir = .ok sources →
      w.relative? package.dir = some package.package →
      w.update t seen index options package sources true = .ok (t', u) → ∃ pending,
        w.prepare t seen index options package.dir package.package sources true = .ok pending ∧
        Aggregate.IsComplete w t' package.dir pending.descriptor) ∧
    ∀ cwd service options s, start w t cwd service options = .ok s →
      options.isProjectRoot = true → options.recursive = true → (s.run t).failures = [] →
      ∀ path ∈ options.starts, ∀ dir, t.resolve cwd path = .ok dir → t.isDir dir = true →
      ∃ package sources done old t₁ u pending, package.dir = dir ∧
        (package, sources) ∈ s.packages ∧ done.map Prod.fst = (tasksOf s.packages).dropLast ∧
        s.Succeeds (fun _ => none) t done t₁ ∧
        w.relative? dir = some package.package ∧ t.descriptor dir package.package = .ok old ∧
        w.prepare t₁ s.seen s.index options.update dir package.package sources true = .ok pending ∧
        w.update t₁ s.seen s.index options.update package sources true = .ok ((s.run t).tree, u) ∧
        Aggregate.IsComplete w (s.run t).tree dir pending.descriptor ∧
        ((∀ rule ∈ pending.descriptor.rules, rule.AllDeps (·.ReadsIn package.package)) →
          (pending.descriptor.pendingLoads ≠ [] → old.hasClosedLoads = true) →
          ∃ d, (s.run t).tree.descriptor dir package.package = .ok d ∧
            Aggregate.IsComplete w (s.run t).tree dir d) := by
  have hplaces : ∀ place, t.isDir place = true → ∀ name ∈ place, Path.IsName name :=
    fun place hplace => ht.isName place (Tree.isSome_of_isDir hplace)
  constructor
  · intro before seen index options package sources t' u hs hw h
    obtain ⟨pending, hprepare, -⟩ := Workspace.update_eq_ok.1 h
    exact ⟨pending, hprepare, Aggregate.isComplete_of_update hplaces hs hw hprepare h⟩
  intro cwd service options s hstart hroot hrecursive hrun path hpath dir hleads hdir
  have hdirs := packages_of_start hstart
  obtain ⟨rfl, rfl, hknown⟩ := isKnown_of_start hstart
  -- The directory is the last of the packages.
  have hexpand : s.workspace.expand t cwd true [path] = .ok (s.packages.map Prod.fst) := by
    rw [← SessionOptions.starts_eq hroot hdirs hpath, ← hrecursive]
    unfold packageDirs at hdirs
    split at hdirs
    · cases hdirs
    · exact hdirs
  obtain ⟨front, package, hpackages, rfl⟩ := Workspace.expand_last ht hexpand hleads hdir
  obtain ⟨entries, last, hentries, -, hlast⟩ := List.map_eq_append_iff.1 hpackages
  obtain ⟨⟨package, sources⟩, rfl, rfl⟩ := List.map_eq_singleton_iff.1 hlast
  have hmem : (package, sources) ∈ s.packages := by simp [hentries]
  have hs := hknown.sources _ hmem
  have hw := hknown.package _ hmem
  unfold run at hrun ⊢
  rw [hentries] at hrun hknown ⊢
  obtain ⟨done, t₁, u, hdone, hsucceeds, hupdate, hsame, hnodes⟩ := exists_last_update hknown hrun
  unfold updatePackage at hupdate
  rw [hroot, Bool.and_self] at hupdate
  obtain ⟨pending, hprepare, -⟩ := Workspace.update_eq_ok.1 hupdate
  have hplaces₁ : ∀ place, t₁.isDir place = true → ∀ name ∈ place, Path.IsName name :=
    fun place hplace => hplaces place ((hsame place).symm.trans hplace)
  have hcomplete := Aggregate.isComplete_of_update hplaces₁ hs hw hprepare hupdate
  obtain ⟨old, -, hold, -⟩ := Workspace.prepare_eq_ok.1 hprepare
  have hbefore : t.descriptor package.dir package.package = .ok old := by
    have hread : t₁.descriptor? package.dir package.package =
        t.descriptor? package.dir package.package :=
      Tree.descriptor?_congr fun name _ => hnodes name
    unfold Tree.descriptor at hold ⊢
    rwa [← hread]
  refine ⟨package, sources, done, old, t₁, u, pending, rfl, by simp, hdone, hsucceeds, hw, hbefore,
    hprepare, hupdate, hcomplete, fun hreads hclosed => ?_⟩
  obtain ⟨d, hd, hagree⟩ :=
    Workspace.exists_descriptor_of_update hs hupdate hold hprepare hreads hclosed
  have hpackage : d.package = pending.descriptor.package :=
    (Tree.package_descriptor hd).trans
      ((Workspace.isChange_of_prepare hold hprepare).1.package.trans
        (Tree.package_descriptor hold)).symm
  exact ⟨d, hd, hcomplete.of_agrees hpackage hagree⟩

end Session

/-! ## A project with two libraries -/

/-- A library below a root with a BUILD file of its own. -/
def projectTree (build : String) : Tree :=
  ⟨[(["BUILD"], .text build), (["a"], .directory),
    (["a", "BUILD"], .text "ts_library(name=\"a\")")]⟩

def projectRoot : PackageDir :=
  ⟨[], ".", ""⟩

def projectLower : PackageDir :=
  ⟨["a"], "./a", "a"⟩

def projectOptions : SessionOptions :=
  ⟨["."], true, true, false, false, sampleOptions⟩

/-- A session over the project, started in the tree `seen`. -/
def projectSession (seen : Tree) : Session :=
  ⟨⟨[]⟩, projectOptions, [(projectLower, []), (projectRoot, [])], .empty, seen⟩

theorem sources_projectTree (build : String) : (projectTree build).sources [] = .ok [] ∧
    (projectTree build).sources ["a"] = .ok [] := by
  have hnames :
      sortedTexts ["BUILD", "a"] = ["BUILD", "a"] ∧ sortedTexts ["BUILD"] = ["BUILD"] := by
    simp [sortedTexts, sortedSet, List.mergeSort, List.MergeSort.Internal.splitInTwo, textLe,
      dropRepeats]
  constructor
  · exact Tree.sources_of_names rfl (hnames.1 : (projectTree build).names [] = _) rfl (by simp)
  · exact Tree.sources_of_names rfl (hnames.2 : (projectTree build).names ["a"] = _) rfl (by simp)

/-- The rule depends on nothing yet. The root has a library as well. -/
def emptyBuild : String :=
  "ts_library(name=\"r\")\nts_development_sources(name=\"d\",deps=[])"

def emptyTree : Tree :=
  projectTree emptyBuild

/-- The libraries of the project, in order. -/
def projectLibraries : List Label :=
  [⟨none, "", "r"⟩, ⟨none, "a", "a"⟩]

/-- What a session finds and does below the root. -/
theorem steps_emptyTree :
    (Session.packageDirs ⟨[]⟩ emptyTree [] projectOptions).toOption =
      some [projectLower, projectRoot] ∧
    ((projectSession emptyTree).updatePackage emptyTree projectLower [] false).toOption =
      some (emptyTree, ⟨none, []⟩) ∧
    (emptyTree.resolve [] ".").toOption = some [] := by
  cbv

/-- What is going to be written at the root. -/
theorem prepare_emptyTree :
    ((Workspace.mk []).prepare emptyTree emptyTree .empty sampleOptions [] "" []
      true).toOption.map (fun pending => ((pending.buildFile, pending.sources,
        pending.descriptor.pendingLoads),
        pending.descriptor.rules.map fun r => (r.kind, r.name, r.deps.values?))) =
      some ((["BUILD"], [], []),
        [(.library false, "r", some []), (.devSources, "d", some projectLibraries)]) := by
  cbv

theorem start_emptyTree : Session.start ⟨[]⟩ emptyTree []
    Query.IndexFile.empty.service projectOptions = .ok (projectSession emptyTree) := by
  obtain ⟨hroot, hlower⟩ := sources_projectTree emptyBuild
  refine Session.start_eq_ok.2 ⟨_, (projectSession emptyTree).packages, .empty,
    toOption_eq_some.1 steps_emptyTree.1, ?_, ?_, rfl⟩
  · simp [projectSession, projectRoot, projectLower, emptyTree, hlower, hroot, bind, Except.bind,
      pure, Except.pure]
  · simp [Session.questions, Workspace.questions, projectSession, projectOptions, sampleOptions,
      Query.Index.build, Query.Key.sortedSet, sortedSet, dropRepeats]

/-- What is written at the root, and can be read back. -/
theorem exists_update_emptyTree : ∃ pending t u library rule,
    (Workspace.mk []).prepare emptyTree emptyTree .empty sampleOptions [] "" [] true =
      .ok pending ∧
    (Workspace.mk []).update emptyTree emptyTree .empty sampleOptions projectRoot [] true =
      .ok (t, u) ∧
    pending.descriptor.pendingLoads = [] ∧ pending.descriptor.rules = [library, rule] ∧
    (library.kind, library.name, library.deps.values?) = (.library false, "r", some []) ∧
    (rule.kind, rule.name, rule.deps.values?) = (.devSources, "d", some projectLibraries) ∧
    ∀ r ∈ pending.descriptor.rules, r.AllDeps (·.ReadsIn "") := by
  obtain ⟨pending, hprepare, hpending⟩ := Option.map_eq_some_iff.1 prepare_emptyTree
  have hprepare := toOption_eq_some.1 hprepare
  obtain ⟨hfiles, hrules⟩ := Prod.mk.inj hpending
  simp only [Prod.mk.injEq] at hfiles
  obtain ⟨library, rest, hrules, hlibrary, hrest⟩ := List.map_eq_cons_iff.1 hrules
  obtain ⟨rule, rfl, hrule⟩ := List.map_eq_singleton_iff.1 hrest
  obtain ⟨⟨t, u⟩, hwrite⟩ : ∃ result, pending.write emptyTree = .ok result := by
    unfold Pending.write Pending.writeBuildFile Tree.write
    rw [hfiles.1, hfiles.2.1]
    cases pending.descriptor.isChanged <;> exact ⟨_, rfl⟩
  have hlibraries : ∀ label ∈ projectLibraries, label.ReadsIn "" := by
    unfold Label.ReadsIn
    decide
  refine ⟨pending, t, u, library, rule, hprepare,
    Workspace.update_eq_ok.2 ⟨pending, hprepare, hwrite⟩, hfiles.2.2, hrules, hlibrary, hrule, ?_⟩
  simp only [Prod.mk.injEq] at hlibrary hrule
  rw [hrules, List.forall_mem_cons, List.forall_mem_singleton]
  constructor
  · intro deps hdeps label hlabel
    cases hlibrary.2.2.symm.trans hdeps
    cases hlabel
  · intro deps hdeps
    cases hrule.2.2.symm.trans hdeps
    exact hlibraries

/-- The rule at the root depends on the libraries after an update; and after a session it does in
the BUILD file as it is read then. -/
theorem run_gathers_empty :
    emptyTree.IsWellFormed ∧
    (∃ t u pending,
      (Workspace.mk []).update emptyTree emptyTree .empty sampleOptions projectRoot [] true =
        .ok (t, u) ∧
      (Workspace.mk []).prepare emptyTree emptyTree .empty sampleOptions [] "" [] true =
        .ok pending ∧
      Aggregate.Gathers ⟨[]⟩ t [] pending.descriptor projectLibraries) ∧
    Session.start ⟨[]⟩ emptyTree [] Query.IndexFile.empty.service projectOptions =
      .ok (projectSession emptyTree) ∧
    ((projectSession emptyTree).run emptyTree).failures = [] ∧
    ∃ d, ((projectSession emptyTree).run emptyTree).tree.descriptor [] "" = .ok d ∧
      Aggregate.IsComplete ⟨[]⟩ ((projectSession emptyTree).run emptyTree).tree [] d := by
  have hwellFormed : emptyTree.IsWellFormed := Tree.isWellFormed_of_entries (by decide)
  obtain ⟨-, hlower, hleads⟩ := steps_emptyTree
  obtain ⟨pending, t, u, library, rule, hprepare, hupdate, hloads, hrules, hlibrary, hrule,
    hreads⟩ := exists_update_emptyTree
  simp only [Prod.mk.injEq] at hlibrary hrule
  have hlower := toOption_eq_some.1 hlower
  have hroot : (projectSession emptyTree).updatePackage emptyTree projectRoot [] true =
      .ok (t, u) := hupdate
  have hrun : ((projectSession emptyTree).run emptyTree).failures = [] := by
    change ((projectSession emptyTree).updateAll (.ofTree emptyTree)
      [(projectLower, []), (projectRoot, [])]).failures = []
    rw [Session.updateAll]
    dsimp only [Session.Report.ofTree, List.isEmpty_cons]
    rw [hlower]
    dsimp only
    rw [Session.updateAll]
    dsimp only [List.isEmpty_nil]
    rw [hroot]
    rfl
  obtain ⟨hafter, hsession⟩ := @Session.run_gathers ⟨[]⟩ _ hwellFormed
  refine ⟨hwellFormed, ?_, start_emptyTree, hrun, ?_⟩
  · obtain ⟨pending', hprepare', hcomplete⟩ :=
      hafter _ _ _ _ projectRoot _ _ _ (sources_projectTree emptyBuild).1 rfl hupdate
    cases hprepare.symm.trans hprepare'
    refine ⟨t, u, pending, hupdate, hprepare, hcomplete ?_ rule ?_ _ hrule.2.2⟩
    · simp [hrules, hlibrary, hrule]
    · simp [hrules, hlibrary, hrule]
  · obtain ⟨package, sources, done, old, t₁, u, pending', hdir, hmem, hdone, hsucceeds, -, -,
      hprepare', -, -, hread⟩ := hsession _ _ _ _ start_emptyTree rfl rfl hrun "."
        (List.mem_singleton_self _) [] (toOption_eq_some.1 hleads) rfl
    -- The update of the lower package comes first, and leaves the tree.
    obtain ⟨⟨task, result⟩, rfl, htask⟩ := List.map_eq_singleton_iff.1 hdone
    obtain rfl : emptyTree = t₁ := by
      cases hsucceeds with
      | cons hfirst hrest =>
        cases hrest
        dsimp only at htask
        rw [htask, Session.run_perform_update] at hfirst
        dsimp only [List.isEmpty_cons] at hfirst
        rw [hlower] at hfirst
        cases hfirst
        rfl
    obtain ⟨rfl, rfl⟩ : package = projectRoot ∧ sources = [] := by
      rcases List.mem_pair.1 hmem with heq | heq
      · cases heq
        cases hdir
      · exact Prod.mk.inj heq
    cases hprepare.symm.trans hprepare'
    exact hread hreads (absurd hloads)

/-- The dependencies of the first of two rules are computed. -/
def computedBuild : String :=
  "ts_development_sources(name=\"d\",deps=glob([]))\nts_development_sources(name=\"e\",deps=[])"

def computedTree : Tree :=
  projectTree computedBuild

theorem steps_computedTree :
    ((Workspace.mk []).update computedTree computedTree .empty sampleOptions projectRoot []
      true).toOption.isSome = true ∧
    ((Workspace.mk []).prepare computedTree computedTree .empty sampleOptions [] "" []
      true).toOption.map (fun pending => pending.descriptor.rules.map fun r =>
        (r.kind, r.name, r.deps.values?)) =
      some [(.devSources, "d", none), (.devSources, "e", some [])] ∧
    computedTree.visited [] = [["a"]] ∧
    (computedTree.descriptor? ["a"] "a").toOption.join.map (fun d =>
      (d.package, d.rules.map fun r => (r.kind, r.name))) =
        some ("a", [(.library false, "a")]) := by
  cbv

/-- **A rule that could be filled in stays empty** behind one that could not: only the first rule
over the libraries is brought up to date. -/
theorem Workspace.update_ungathered : computedTree.IsWellFormed ∧
    computedTree.sources [] = .ok [] ∧ ∃ t u pending rule,
      (Workspace.mk []).update computedTree computedTree .empty sampleOptions projectRoot [] true =
        .ok (t, u) ∧
      (Workspace.mk []).prepare computedTree computedTree .empty sampleOptions [] "" [] true =
        .ok pending ∧
      (pending.descriptor.rules.map (·.name)).Nodup ∧
      pending.descriptor.rules.find? (fun r => r.kind = .devSources ∧ r.deps.values?.isSome) =
        some rule ∧
      rule.deps.values? = some [] ∧
      Aggregate.IsGathered ⟨[]⟩ t [] pending.descriptor ⟨none, "a", "a"⟩ := by
  obtain ⟨hupdate, hprepare, hvisited, hbelow⟩ := steps_computedTree
  obtain ⟨⟨t, u⟩, hupdate⟩ := Option.isSome_iff_exists.1 hupdate
  obtain ⟨pending, hprepare, hrules⟩ := Option.map_eq_some_iff.1 hprepare
  have hupdate := toOption_eq_some.1 hupdate
  have hs := (sources_projectTree computedBuild).1
  obtain ⟨first, others, hrules, hfirst, hothers⟩ := List.map_eq_cons_iff.1 hrules
  obtain ⟨second, rfl, hsecond⟩ := List.map_eq_singleton_iff.1 hothers
  simp only [Prod.mk.injEq] at hfirst hsecond
  refine ⟨Tree.isWellFormed_of_entries (by decide), hs, t, u, pending, second, hupdate,
    toOption_eq_some.1 hprepare, ?_, ?_, hsecond.2.2, ?_⟩
  · simp [hrules, hfirst, hsecond]
  · simp [hrules, hfirst, hsecond]
  · -- The library stands in the BUILD file below, which the update leaves.
    refine (Aggregate.isGathered_of_touches (Workspace.touches_of_update hs hupdate) _).2 ?_
    obtain ⟨d, hd, hbelow⟩ := Option.map_eq_some_iff.1 hbelow
    simp only [Prod.mk.injEq] at hbelow
    obtain ⟨r, hone, hr⟩ := List.map_eq_singleton_iff.1 hbelow.2
    simp only [Prod.mk.injEq] at hr
    refine .inr ⟨["a"], hvisited ▸ List.mem_singleton_self _, "a", d, rfl,
      toOption_eq_some.1 (Option.join_eq_some_iff.1 hd), r, by simp [hone], hr.1, ?_⟩
    rw [hbelow.1, Rule.label, hr.2]
    rfl

end BuildSync
