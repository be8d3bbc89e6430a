import BuildSync.Proofs.IndexAnswers
import BuildSync.Proofs.Rederiving
import BuildSync.Proofs.Replanning

/-!
# What packages find again

Between two updates of a package other packages may be updated, and other questions may be asked.
The package finds what it found before, if the others keep what it sees of them.

* `Workspace.Keeps`: what an update leaves of a BUILD file to other packages.
* `Workspace.Recurs`: a tree and an index in which a package finds what it found before;
  `Scope.resolve_again`: an import that resolved to some rule resolves to it again.
* `Workspace.Recalls`: the same is known of a dependency again; `Scope.ruleInfo_again`.
* `Dependency.planRule_again`: a rule that wants nothing more still wants nothing more.
-/

namespace BuildSync

open Build

/-! ## Plans -/

namespace Dependency

variable {package : String} {ownership : Ownership} {prune prune' : Option (Label → RuleInfo)}
  {files files' : List ResolvedFile} {r : Build.Rule}

/-- What stayed stays again, if no more is known of it that lets it go. -/
theorem stays_again {own label : Label} {imports : List ResolvedImport}
    (hprune : label ∉ required own imports → ∀ info', prune' = some info' → ∃ info,
      prune = some info ∧ ((info' label).kind = some .declaration → info label = info' label))
    (h : stays prune r own imports label = true) : stays prune' r own imports label = true := by
  cases prune' with
  | none => rfl
  | some info' =>
    by_cases hrequired : label ∈ required own imports
    · simp [stays, hrequired]
    · obtain ⟨info, rfl, hinfo⟩ := hprune hrequired info' rfl
      by_cases hkind : (info' label).kind = some .declaration
      · simpa only [stays, hinfo hkind] using h
      · simp [stays, hkind]

/-- What is known of a rule that wants nothing more: its imports resolve, and it lists what it
wants. -/
theorem of_planRule_eq_none (h : planRule prune package ownership files r = (none, []))
    (ha : r.kind.isAggregate = false) {deps : List Label} (hdeps : r.deps.values? = some deps) :
    problems (ownedFiles ownership files r.name) = [] ∧
      Label.sortFor package (wanted prune r (r.label package) deps
        ((ownedFiles ownership files r.name).flatMap (·.imports))) = deps := by
  have hsettled : problems (ownedFiles ownership files r.name) = [] := by
    by_contra hne
    rw [planRule, if_neg (by simp [ha]), hdeps] at h
    dsimp only at h
    rw [if_pos hne] at h
    exact hne (congrArg Prod.snd h)
  refine ⟨hsettled, ?_⟩
  rw [planRule_of_problems_nil ha hdeps hsettled] at h
  by_contra hne
  dsimp only at h
  rw [if_neg hne] at h
  cases h

/-- **A rule that wants nothing more** wants nothing more again, if its imports resolve as they did
and no more is known that lets one of its other dependencies go. -/
theorem planRule_again
    (howned : problems (ownedFiles ownership files r.name) = [] →
      ownedFiles ownership files' r.name = ownedFiles ownership files r.name)
    (hprune : ∀ deps, r.deps.values? = some deps → ∀ label ∈ deps,
      label ∉ required (r.label package)
        ((ownedFiles ownership files r.name).flatMap (·.imports)) →
      ∀ info', prune' = some info' → ∃ info, prune = some info ∧
        ((info' label).kind = some .declaration → info label = info' label))
    (h : planRule prune package ownership files r = (none, [])) :
    planRule prune' package ownership files' r = (none, []) := by
  by_cases ha : r.kind.isAggregate = true
  · rw [planRule, if_pos ha]
  rw [Bool.not_eq_true] at ha
  cases hdeps : r.deps.values? with
  | none => rw [planRule, if_neg (by simp [ha]), hdeps]
  | some deps =>
    obtain ⟨hsettled, hlist⟩ := of_planRule_eq_none h ha hdeps
    have hsame := howned hsettled
    refine planRule_of_listed ha hdeps (hsame ▸ hsettled) ?_
    rw [hsame]
    refine (congrArg (Label.sortFor package) ?_).trans hlist
    refine congrArg Label.sortedSet (List.filter_congr fun label hlabel => ?_)
    have hstays : stays prune r (r.label package)
        ((ownedFiles ownership files r.name).flatMap (·.imports)) label = true := by
      rcases List.mem_append.1 hlabel with hmem | hmem
      · have hwanted := List.mem_of_mem_filter hmem
        rw [← hlist, (Label.sortFor_perm _ _).mem_iff] at hwanted
        exact (mem_wanted_iff.1 hwanted).2.2
      · obtain ⟨hcandidate, hown⟩ := mem_required.1 hmem
        exact stays_of_candidate hcandidate hown
    refine (stays_again (fun hrequired => ?_) hstays).trans hstays.symm
    rcases List.mem_append.1 hlabel with hmem | hmem
    · exact hprune deps hdeps label (List.mem_of_mem_filter hmem) hrequired
    · exact absurd hmem hrequired

/-- Plans without a problem leave nothing to plan. -/
theorem planRule_followed_of_problems (h : (planRule prune package ownership files r).2 = [])
    (hn : prune.isSome = true → ∀ old, r.deps.values? = some old → old.Nodup) :
    planRule prune package ownership files (followed prune package ownership files r) =
      (none, []) := by
  by_cases hs : problems (ownedFiles ownership files r.name) = []
  · exact planRule_followed hs hn
  · refine planRule_followed_of_none ?_
    unfold planRule at h ⊢
    split
    · rfl
    · rename_i ha
      rw [if_neg ha] at h
      cases hdeps : r.deps.values? with
      | none => rfl
      | some deps =>
        rw [hdeps] at h
        dsimp only at h
        rw [if_pos hs] at h
        exact absurd h hs

end Dependency

/-! ## What other packages see of a BUILD file -/

namespace Workspace

/-- What an update leaves of the BUILD file of a directory to other packages: each file that is
there stays with the rules that list it, unless no rule listed it and the index knows none either;
and rules keep their names, their kinds and the names of their modules. -/
structure Keeps (w : Workspace) (t : Tree) (index : Query.Index) (dir : Location)
    (d d' : Descriptor) : Prop where
  owners : ∀ names, names ≠ [] → (t.node? (dir ++ names)).isSome = true →
    (d'.owners (String.intercalate "/" names)).map (·.name) =
      (d.owners (String.intercalate "/" names)).map (·.name) ∨
    d.owners (String.intercalate "/" names) = [] ∧ ∀ path,
      w.relative? (dir ++ names) = some path → index.labels (.file path) = []
  names : ∀ name ∈ d.rules.map (·.name), name ∈ d'.rules.map (·.name)
  kinds : ∀ r ∈ d.rules, ∀ r' ∈ d'.rules, r'.name = r.name → r'.kind.isAggregate = false →
    r'.kind = r.kind ∧ r'.moduleName = r.moduleName

/-- The BUILD file of a directory is the same in two trees, or the second one keeps what others see
of it. -/
def KeepsAt (w : Workspace) (t t' : Tree) (index : Query.Index) (dir : Location)
    (package : String) : Prop :=
  t'.descriptor? dir package = t.descriptor? dir package ∨ ∃ d d',
    t.descriptor? dir package = .ok (some d) ∧ t'.descriptor? dir package = .ok (some d') ∧
      w.Keeps t index dir d d'

/-- A tree and an index in which packages find what they found in another tree with another index:
BUILD files and sources may have other texts, and what was not known may be. The files that
specifiers lead to are looked up in trees that differ no more. -/
structure Recurs (w : Workspace) (t t' seen seen' : Tree) (index index' : Query.Index) : Prop where
  rewrites : t.Rewrites t'
  sight : seen.Rewrites t
  sight' : seen'.Rewrites t'
  keeps : ∀ dir package, w.relative? dir = some package → w.KeepsAt t t' index dir package
  modules : ∀ name, index.labels (.module name) ≠ [] →
    index'.labels (.module name) = index.labels (.module name)
  files : ∀ path, index.labels (.file path) ≠ [] →
    index'.labels (.file path) = index.labels (.file path)

/-- Specifiers have the same targets. -/
theorem Recurs.target {w : Workspace} {t t' seen seen' : Tree} {index index' : Query.Index}
    (h : w.Recurs t t' seen seen' index index') (dir : Location) (specifier : String) :
    w.target t' dir specifier seen' = w.target t dir specifier seen :=
  h.rewrites.target ((h.sight.trans h.rewrites).trans h.sight'.symm) w dir specifier

end Workspace

theorem Tree.usableDescriptor?_of_eq_ok {t : Tree} {dir : Location} {package : String}
    {found : Option Descriptor} (h : t.descriptor? dir package = .ok found) :
    t.usableDescriptor? dir package = found := by
  rw [usableDescriptor?, h]
  rfl

/-- A BUILD file with a rule exists. -/
theorem Tree.descriptor?_of_mem {t : Tree} {dir : Location} {package : String} {d : Descriptor}
    (h : t.descriptor dir package = .ok d) {r : Build.Rule} (hr : r ∈ d.rules) :
    t.descriptor? dir package = .ok (some d) := by
  obtain ⟨found, hfound, rfl⟩ := map_eq_ok h
  cases found with
  | none => cases hr
  | some d => exact hfound

theorem Workspace.relative?_of_target_member {w : Workspace} {t seen : Tree}
    {dir owner file : Location} {specifier name path member : String}
    (h : w.target t dir specifier seen = .member owner name member path)
    (hfile : seen.moduleFile? dir specifier = some file) : w.relative? file = some path := by
  unfold target at h
  split at h
  · rw [hfile] at h
    dsimp only at h
    unfold fileTarget at h
    split at h
    · cases h
    · split at h
      · cases h
      · rename_i hpath
        split at h
        · obtain ⟨-, -, -, rfl⟩ := Target.member.inj h
          exact hpath
        · cases h
  · cases h

namespace Scope

variable {w : Workspace} {t t' seen seen' : Tree} {index index' : Query.Index}
  {rulesFile : String} {dir : Location} {package : String} {old new settled : Descriptor}
  {ownership : Ownership} {sources sources' : List Source}

/-! ## What imports resolve to -/

section
variable (ht : t.IsWellFormed) (hw : w.relative? dir = some package)
  (hold : t.descriptor dir package = .ok old) (hnew : t'.descriptor dir package = .ok new)
  (hs : t.sources dir = .ok sources) (hs' : t'.sources dir = .ok sources')
  (hrecurs : w.Recurs t t' seen seen' index index')
  (hscope : ofDescriptor w t index rulesFile dir old sources seen =
    .ok ⟨w, t, index, dir, settled, ownership, seen⟩)
  (hscope' : ofDescriptor w t' index' rulesFile dir new sources' seen' =
    .ok ⟨w, t', index', dir, new, ownership, seen'⟩)
include ht hw hold hnew hs hs' hrecurs hscope hscope'

/-- **A file of a package that resolved to some rule** resolves to it again. -/
theorem ofTarget_member_again {specifier file path name : String} {owner : Location}
    (htarget : w.target t dir specifier seen = .member owner name file path)
    (hsome : ofTarget ⟨w, t, index, dir, settled, ownership, seen⟩
      (.member owner name file path) ≠ []) :
    ofTarget ⟨w, t', index', dir, new, ownership, seen'⟩ (.member owner name file path) =
      ofTarget ⟨w, t, index, dir, settled, ownership, seen⟩ (.member owner name file path) := by
  obtain ⟨location, hfile, hne, hown, hpath⟩ := Workspace.exists_file_of_target_member htarget
  have hisFile : t.isFile location = true :=
    hrecurs.sight.isFile ▸ Tree.isFile_of_moduleFile? hfile
  have howner := owner?_eq ht hw hold hs hscope hisFile hne hown hpath
  have howner' := owner?_eq (hrecurs.rewrites.isWellFormed ht) hw hnew
    hs' hscope' (hrecurs.rewrites.isFile ▸ hisFile) hne
    ((hrecurs.rewrites.owningPackage? w location).trans hown) hpath
  obtain ⟨-, hrel, names, hn, rfl⟩ :=
    Workspace.owningPackage?_eq_some (Tree.ne_nil_of_isFile hisFile) hown
  rw [Workspace.relative?_append (w := ⟨owner⟩), Option.some.injEq] at hpath
  subst hpath
  -- The BUILD file of the owner names the same rule, or the index does.
  have hsame : (t'.usableDescriptor? owner name).bind
        (·.ownerLabel? (String.intercalate "/" names)) =
      (t.usableDescriptor? owner name).bind (·.ownerLabel? (String.intercalate "/" names)) := by
    rcases hrecurs.keeps owner name hrel with heq | ⟨d, d', hd, hd', hkeeps⟩
    · rw [Tree.usableDescriptor?, heq, Tree.usableDescriptor?]
    · rw [Tree.usableDescriptor?_of_eq_ok hd] at howner ⊢
      rw [Tree.usableDescriptor?_of_eq_ok hd', Option.bind_some, Option.bind_some]
      rcases hkeeps.owners names hn (Tree.isSome_of_isFile hisFile) with hnames | ⟨hnil, hlabels⟩
      · refine Descriptor.ownerLabel?_congr ?_ hnames
        rw [Tree.package_descriptor (Tree.descriptor_of_descriptor? hd),
          Tree.package_descriptor (Tree.descriptor_of_descriptor? hd')]
      · have hnone : d.ownerLabel? (String.intercalate "/" names) = none := by
          simp [Descriptor.ownerLabel?, Descriptor.owner?, hnil]
        refine absurd (hlabels _ (Workspace.relative?_of_target_member htarget hfile)) ?_
        unfold ofTarget at hsome
        dsimp only at hsome
        rw [howner, Option.bind_some, hnone] at hsome
        exact hsome
  unfold ofTarget at hsome ⊢
  dsimp only at hsome ⊢
  rw [howner] at hsome ⊢
  rw [howner', hsame]
  split
  · rfl
  · rename_i hnone
    rw [hnone] at hsome
    exact hrecurs.files _ hsome

/-- **An import that resolved to some rule** resolves to it again. -/
theorem resolve_again {specifier : String}
    (hsome : resolve ⟨w, t, index, dir, settled, ownership, seen⟩ specifier ≠ []) :
    resolve ⟨w, t', index', dir, new, ownership, seen'⟩ specifier =
      resolve ⟨w, t, index, dir, settled, ownership, seen⟩ specifier := by
  have hpackage : new.package = settled.package :=
    (package_eq hnew hs' hscope').trans (package_eq hold hs hscope).symm
  unfold resolve at hsome ⊢
  have hsome' : ofTarget ⟨w, t, index, dir, settled, ownership, seen⟩
      (w.target t dir specifier seen) ≠ [] :=
    fun hnil => hsome (by simp [hnil, Label.sortedSet, sortedSet, dropRepeats])
  refine congrArg Label.sortedSet ?_
  dsimp only
  rw [hrecurs.target]
  cases htarget : w.target t dir specifier seen with
  | module name =>
    rw [htarget] at hsome'
    exact hrecurs.modules _ hsome'
  | sibling name =>
    rw [htarget] at hsome'
    unfold ofTarget ofSibling at hsome' ⊢
    dsimp only [Scope.package] at hsome' ⊢
    rw [hpackage]
    split
    · rfl
    · rfl
    · rename_i hnone
      rw [hnone] at hsome'
      cases hpath : w.relative? (dir ++ [name]) with
      | none => rfl
      | some path =>
        rw [hpath] at hsome'
        exact hrecurs.files _ hsome'
  | member owner name file path =>
    rw [htarget] at hsome'
    exact ofTarget_member_again ht hw hold hnew hs hs' hrecurs hscope hscope' htarget hsome'
  | stray path =>
    rw [htarget] at hsome'
    exact hrecurs.files _ hsome'
  | missing => rfl

end

/-! ## The files of a rule -/

theorem fileOf?_map (scope : Scope) (sources : List Source) (name : String) :
    Dependency.fileOf? (sources.map scope.resolveSource) name =
      (sources.reverse.find? (·.name = name)).map scope.resolveSource := by
  rw [Dependency.fileOf?, ← List.map_reverse, List.find?_map]
  rfl

/-- **The files of a rule whose imports all resolved** resolve as they did. -/
theorem ownedFiles_again {scope scope' : Scope}
    (h : ∀ specifier, scope.resolve specifier ≠ [] →
      scope'.resolve specifier = scope.resolve specifier) {rule : String}
    (hsettled : Dependency.problems
      (Dependency.ownedFiles ownership (sources.map scope.resolveSource) rule) = []) :
    Dependency.ownedFiles ownership (sources.map scope'.resolveSource) rule =
      Dependency.ownedFiles ownership (sources.map scope.resolveSource) rule := by
  refine List.filterMap_congr fun name hname => ?_
  rw [fileOf?_map, fileOf?_map]
  cases hfound : sources.reverse.find? (·.name = name) with
  | none => rfl
  | some source =>
    have hfile : scope.resolveSource source ∈
        Dependency.ownedFiles ownership (sources.map scope.resolveSource) rule :=
      List.mem_filterMap.2 ⟨name, hname, by rw [fileOf?_map, hfound]; rfl⟩
    refine congrArg some (congrArg (ResolvedFile.mk source.name)
      (List.map_congr_left fun i hi => congrArg (ResolvedImport.mk i) (h i.specifier ?_)))
    have hnone := List.filterMap_eq_nil_iff.1 (List.flatMap_eq_nil_iff.1 hsettled _ hfile)
      ⟨i, scope.resolve i.specifier⟩ (List.mem_map_of_mem hi)
    obtain ⟨label, hlabel⟩ := Dependency.problem?_eq_none.1 hnone
    dsimp only at hlabel
    simp [hlabel]

end Scope

/-! ## What is known of dependencies -/

/-- What is known of a dependency of a package can be found out again: the package has a rule of its
name, or the BUILD file where it should be is the same or has such a rule; and the index knows the
same of it. -/
structure Workspace.Recalls (w : Workspace) (t t' : Tree) (index index' : Query.Index)
    (package : String) (old : Descriptor) (label : Label) : Prop where
  own : label.isIn package = true → label.name ∈ old.rules.map (·.name)
  other : label.isIn package = false → label.repo = none → ∀ dir,
    t.resolve [] (w.pathOf label.package) = .ok dir →
      t'.descriptor? dir label.package = t.descriptor? dir label.package ∨ ∃ d d',
        t.descriptor? dir label.package = .ok (some d) ∧
        t'.descriptor? dir label.package = .ok (some d') ∧ w.Keeps t index dir d d' ∧
        label.name ∈ d.rules.map (·.name)
  kind : label.isIn package = false → index'.kindOf? label = index.kindOf? label

namespace Scope

variable {w : Workspace} {t t' seen seen' : Tree} {index index' : Query.Index} {dir : Location}
  {package : String} {old new settled : Descriptor} {ownership : Ownership} {label : Label}

/-- A rule is known as it was if its BUILD file and the index say the same, or if it has the same
kind in both BUILD files. -/
theorem ruleInfo_of_rule? {s s' : Scope}
    (h : s'.rule? label = s.rule? label ∧ s'.index.kindOf? label = s.index.kindOf? label ∨
      ∃ r r', s.rule? label = some r ∧ s'.rule? label = some r' ∧
        (r'.kind.isAggregate = false → r'.kind = r.kind ∧ r'.moduleName = r.moduleName))
    (hkind : (s'.ruleInfo label).kind = some .declaration) :
    s.ruleInfo label = s'.ruleInfo label := by
  unfold ruleInfo at hkind ⊢
  rcases h with ⟨hrule, hindex⟩ | ⟨r, r', hr, hr', hsame⟩
  · rw [hrule, hindex]
  · rw [hr'] at hkind ⊢
    rw [hr]
    obtain ⟨hk, hm⟩ := hsame (by rw [Option.some.inj hkind]; rfl)
    dsimp only
    rw [hk, hm]

theorem rule?_of_not_isIn {s : Scope} (h : label.isIn s.package = false) : s.rule? label =
    if label.repo.isNone then (s.descriptorOf? label.package).bind (·.rule? label.name)
    else none :=
  if_neg (by rw [h]; exact Bool.false_ne_true)

/-- **What is known of a declaration** was known of it before. -/
theorem ruleInfo_again (hrewrites : t.Rewrites t') (hsettled : settled.package = package)
    (hnew : new.package = package) (houtlines : new.outlines = settled.outlines)
    (hnames : ∀ name ∈ old.rules.map (·.name), name ∈ settled.rules.map (·.name))
    (hnames' : ∀ name ∈ settled.rules.map (·.name), name ∈ new.rules.map (·.name))
    (hn : (settled.rules.map (·.name)).Nodup)
    (hrecalls : w.Recalls t t' index index' package old label)
    (hkind : (ruleInfo ⟨w, t', index', dir, new, ownership, seen'⟩ label).kind =
      some .declaration) :
    ruleInfo ⟨w, t, index, dir, settled, ownership, seen⟩ label =
      ruleInfo ⟨w, t', index', dir, new, ownership, seen'⟩ label := by
  refine ruleInfo_of_rule? ?_ hkind
  by_cases hin : label.isIn package = true
  · have hname := hnames _ (hrecalls.own hin)
    obtain ⟨r, hr⟩ := Option.isSome_iff_exists.1 (Descriptor.isSome_rule?.2 hname)
    obtain ⟨r', hr'⟩ := Option.isSome_iff_exists.1 (Descriptor.isSome_rule?.2 (hnames' _ hname))
    refine .inr ⟨r, r', (if_pos (by rw [Scope.package, hsettled, hin])).trans hr,
      (if_pos (by rw [Scope.package, hnew, hin])).trans hr', fun hagg => ?_⟩
    obtain ⟨other, hother, heq⟩ := Descriptor.exists_of_outlines houtlines.symm
      (List.mem_of_find?_eq_some hr') hagg
    have hrname : r.name = label.name := by simpa using List.find?_some hr
    have hrname' : r'.name = label.name := by simpa using List.find?_some hr'
    obtain rfl : other = r := List.inj_on_of_nodup_map hn hother (List.mem_of_find?_eq_some hr)
      ((congrArg RuleOutline.name heq).trans (hrname'.trans hrname.symm))
    exact ⟨(congrArg RuleOutline.kind heq).symm, (congrArg RuleOutline.moduleName heq).symm⟩
  · rw [Bool.not_eq_true] at hin
    have hindex := hrecalls.kind hin
    rw [rule?_of_not_isIn (by rw [Scope.package, hnew, hin]),
      rule?_of_not_isIn (by rw [Scope.package, hsettled, hin])]
    cases hrepo : label.repo with
    | some repo => exact .inl ⟨rfl, hindex⟩
    | none =>
      unfold descriptorOf?
      dsimp only
      rw [hrewrites.resolve]
      cases hresolve : t.resolve [] (w.pathOf label.package) with
      | error fault => exact .inl ⟨rfl, hindex⟩
      | ok other =>
        dsimp only
        rcases hrecalls.other hin hrepo other hresolve with heq | ⟨d, d', hd, hd', hkeeps, hname⟩
        · rw [Tree.usableDescriptor?, heq, ← Tree.usableDescriptor?]
          exact .inl ⟨rfl, hindex⟩
        · rw [Tree.usableDescriptor?_of_eq_ok hd, Tree.usableDescriptor?_of_eq_ok hd']
          obtain ⟨r, hr⟩ := Option.isSome_iff_exists.1 (Descriptor.isSome_rule?.2 hname)
          obtain ⟨r', hr'⟩ := Option.isSome_iff_exists.1
            (Descriptor.isSome_rule?.2 (hkeeps.names _ hname))
          have hrname : r.name = label.name := by simpa using List.find?_some hr
          have hrname' : r'.name = label.name := by simpa using List.find?_some hr'
          exact .inr ⟨r, r', hr, hr', hkeeps.kinds r (List.mem_of_find?_eq_some hr) r'
            (List.mem_of_find?_eq_some hr') (hrname'.trans hrname.symm)⟩

end Scope

end BuildSync
