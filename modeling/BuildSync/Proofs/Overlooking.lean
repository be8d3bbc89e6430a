import BuildSync.Proofs.Footprints
import BuildSync.Proofs.Pruning
import BuildSync.Proofs.Walks

/-!
# What an update does not look at

An update looks at the BUILD files of other packages: to find which package a file is in, which
rule lists it, and of what kind a dependency is. It finds the same before and after the update of a
directory that nothing in the package points into.

* `Tree.Touches.resolve_eq_ok`, `Tree.Touches.isPackage`: where spellings lead, and which
  directories are packages.
* `Tree.Touches.target`: the package that the file of a specifier is in.
* `Scope.resolve_congr`, `Scope.ruleInfo_congr`: the rules that provide it, and what is known of
  others.
* `Workspace.Overlooks`: nothing in a package points into a directory;
  `Workspace.Overlooks.prepare`: its update is prepared as before that directory was touched.
-/

namespace BuildSync

open Build

/-! ## Where spellings lead -/

/-- The location that a spelling names, seen from the root. Whether anything stands there does not
matter. -/
def Location.spelled (text : String) : Location :=
  (Path.segments text).foldl Location.step []

namespace Tree

variable {t t' : Tree} {other : Location}

theorem spelled_of_resolve {text : String} {place : Location}
    (h : t.resolve [] text = .ok place) : Location.spelled text = place := by
  have hfollow : ∀ (segments : List String) (start : Location),
      t.follow start segments = .ok place → segments.foldl Location.step start = place := by
    intro segments
    induction segments with
    | nil => exact fun start h => (follow_nil_eq_ok.1 h).2
    | cons segment rest ih => exact fun start h => ih _ (follow_cons_eq_ok.1 h).2
  unfold resolve at h
  split at h
  · cases h
  · rw [ite_self] at h
    exact hfollow _ _ h

/-- **Segments lead to a location** by the directories on the way and by what stands there. -/
theorem follow_congr (hdirs : ∀ location, t'.isDir location = t.isDir location) {place : Location}
    (hend : (t'.node? place).isSome = (t.node? place).isSome) {start : Location}
    {segments : List String} :
    t'.follow start segments = .ok place ↔ t.follow start segments = .ok place := by
  induction segments generalizing start with
  | nil =>
    rw [follow_nil_eq_ok, follow_nil_eq_ok]
    refine and_congr_left fun hplace => ?_
    rw [hplace, hend]
  | cons segment rest ih => rw [follow_cons_eq_ok, follow_cons_eq_ok, hdirs, ih]

namespace Touches

variable (h : t.Touches t' other)
include h

theorem resolve_eq_ok {place : Location}
    (hend : (t'.node? place).isSome = (t.node? place).isSome) {text : String} :
    t'.resolve [] text = .ok place ↔ t.resolve [] text = .ok place := by
  unfold resolve
  split
  · rfl
  · exact follow_congr h.isDir hend

theorem node?_of_dropLast {location : Location} (hne : location.dropLast ≠ other) :
    t'.node? location = t.node? location :=
  h.elsewhere location fun name heq => hne (by rw [heq, List.dropLast_concat])

/-- Nothing new stands outside the directory. -/
theorem isSome_node? {location : Location} (hapart : ¬ other <+: location) :
    (t'.node? location).isSome = (t.node? location).isSome := by
  rw [h.elsewhere location fun name heq => hapart ⟨[name], heq.symm⟩]

/-- **A tree stays well-formed** when files of a directory are touched. -/
theorem isWellFormed (ht : t.IsWellFormed) (hother : t.isDir other = true) : t'.IsWellFormed := by
  refine ⟨fun location hnode => ?_, fun location name hnode => ?_⟩
  · rcases h.cases location with hsame | ⟨name, rfl, htouched⟩
    · exact ht.isName location (hsame ▸ hnode)
    · rcases htouched.before with hfile | ⟨-, rfl, -⟩
      · exact ht.isName _ (isSome_of_isFile hfile)
      · rw [List.forall_mem_append, List.forall_mem_singleton]
        exact ⟨ht.isName other (isSome_of_isDir hother), by decide⟩
  · rw [h.isDir]
    rcases h.cases (location ++ [name]) with hsame | ⟨last, heq, -⟩
    · exact ht.isDir location name (hsame ▸ hnode)
    · rwa [(List.append_inj' heq rfl).1]

/-! ## Other packages -/

section
variable {dir : Location} (hne : dir ≠ other)
include hne

theorem node?_of_ne (name : String) : t'.node? (dir ++ [name]) = t.node? (dir ++ [name]) :=
  h.node?_of_dropLast (by rwa [List.dropLast_concat])

theorem isPackage : t'.isPackage dir = t.isPackage dir := by
  unfold Tree.isPackage
  rw [buildFile?_congr fun name _ => h.node?_of_ne hne name]

theorem descriptor? (package : String) : t'.descriptor? dir package = t.descriptor? dir package :=
  descriptor?_congr fun name _ => h.node?_of_ne hne name

theorem usableDescriptor? (package : String) :
    t'.usableDescriptor? dir package = t.usableDescriptor? dir package := by
  unfold Tree.usableDescriptor?
  rw [h.descriptor? hne]

end

/-- **The package that owns a file** stays the same for a file outside the directory. -/
theorem owningPackage? (w : Workspace) {file : Location} (hapart : ¬ other <+: file) :
    w.owningPackage? t' file = w.owningPackage? t file := by
  have hfind :
      ((file.upward.drop 1).takeWhile fun dir => w.root.isPrefixOf dir).find? t'.isPackage =
        ((file.upward.drop 1).takeWhile fun dir => w.root.isPrefixOf dir).find? t.isPackage := by
    refine List.find?_congr fun dir hdir => h.isPackage fun heq => hapart ?_
    obtain ⟨names, hnames⟩ := Location.exists_append_of_mem_upward
      (List.mem_of_mem_drop (List.takeWhile_subset _ hdir))
    exact ⟨names, heq ▸ hnames⟩
  unfold Workspace.owningPackage?
  dsimp only
  rw [hfind]

end Touches

end Tree

/-- **A specifier has the same target**, if the file that it leads to is not in the directory. -/
theorem Tree.Touches.target {t t' seen : Tree} {other dir : Location} {specifier : String}
    (h : t.Touches t' other) (w : Workspace)
    (hapart : ∀ file, seen.moduleFile? dir specifier = some file → ¬ other <+: file) :
    w.target t' dir specifier seen = w.target t dir specifier seen := by
  unfold Workspace.target
  split
  · cases hfile : seen.moduleFile? dir specifier with
    | none => rfl
    | some file =>
      dsimp only
      unfold Workspace.fileTarget
      rw [h.owningPackage? w (hapart file hfile)]
  · rfl

/-! ## What is settled and planned -/

theorem bind_error {ε α β : Type} (e : ε) (f : α → Except ε β) :
    (Except.error e >>= f) = .error e := rfl

/-- **Settling the owners asks for listed sources only**, whether they are present. -/
theorem Ownership.assign_isPresent_congr {s : Surroundings} {d : Descriptor}
    {sources : List (String × SourceKind)} {isPresent : String → Bool}
    (h : ∀ rule ∈ d.rules, ∀ source ∈ rule.srcs.values?.getD [], isFile source = true →
      isPresent source = s.isPresent source) :
    assign { s with isPresent := isPresent } d sources = assign s d sources := by
  have hmissing : ∀ rule ∈ d.rules,
      missing { s with isPresent := isPresent } rule = missing s rule := by
    intro rule hrule
    unfold missing
    split
    · rfl
    · refine List.filter_congr fun source hsource => ?_
      cases hfile : isFile source with
      | false => rfl
      | true =>
        dsimp only
        rw [h rule hrule source hsource hfile]
  have hmissingOf : missingOf { s with isPresent := isPresent } d.rules = missingOf s d.rules := by
    funext name
    unfold missingOf
    rw [List.map_congr_left fun rule hrule => hmissing rule (List.mem_of_mem_filter hrule)]
  unfold assign
  rw [hmissingOf]
  rfl

namespace Dependency

variable {info info' : Label → RuleInfo}

theorem wanted_congr {rule : Build.Rule} {own : Label} {current : List Label}
    {imports : List ResolvedImport} (h : ∀ label ∈ current, info' label = info label) :
    wanted (some info') rule own current imports = wanted (some info) rule own current imports := by
  unfold wanted
  congr 1
  refine List.filter_congr fun label hlabel => ?_
  unfold stays
  dsimp only
  -- What an import resolves to stays, whatever is known of it.
  rcases List.mem_append.1 hlabel with hlabel | hlabel
  · rw [h label (List.mem_of_mem_filter hlabel)]
  · simp [hlabel]

/-- **Plans follow from what is known of the listed dependencies.** -/
theorem plan_congr {d : Descriptor}
    (h : ∀ rule ∈ d.rules, ∀ label ∈ rule.deps.values?.getD [], info' label = info label)
    (ownership : Ownership) (files : List ResolvedFile) :
    plan (some info') d ownership files = plan (some info) d ownership files := by
  have hrule : ∀ rule ∈ d.rules, planRule (some info') d.package ownership files rule =
      planRule (some info) d.package ownership files rule := by
    intro rule hrule
    unfold planRule
    cases hdeps : rule.deps.values? with
    | none => rfl
    | some current =>
      dsimp only
      rw [wanted_congr fun label hlabel => h rule hrule label (by rwa [hdeps])]
  unfold plan
  rw [List.map_congr_left hrule]

end Dependency

/-! ## The scope of a package -/

theorem Tree.IsWellFormed.isDir_of_usableDescriptor? {t : Tree} (ht : t.IsWellFormed)
    {dir : Location} {package : String} {d : Descriptor}
    (h : t.usableDescriptor? dir package = some d) : t.isDir dir = true := by
  obtain ⟨name, hfile⟩ := isFile_of_descriptor? (descriptor?_of_usableDescriptor? h)
  exact ht.isDir dir name (isSome_of_isFile hfile)

namespace Scope

variable {s : Scope} {t' : Tree} {other : Location}

theorem descriptorOf?_eq_some {package : String} {d : Descriptor} :
    s.descriptorOf? package = some d ↔
      ∃ dir, s.tree.resolve [] (s.workspace.pathOf package) = .ok dir ∧
        s.tree.usableDescriptor? dir package = some d := by
  unfold descriptorOf?
  cases s.tree.resolve [] (s.workspace.pathOf package) with
  | error fault => simp
  | ok dir => simp

variable (h : s.tree.Touches t' other)
include h

/-- **A specifier is provided by the same rules**, if the file that it leads to is not in the
directory. -/
theorem resolve_congr {specifier : String}
    (hapart : ∀ file, s.seen.moduleFile? s.dir specifier = some file → ¬ other <+: file) :
    resolve { s with tree := t' } specifier = s.resolve specifier := by
  unfold resolve
  dsimp only
  rw [h.target s.workspace hapart]
  congr 1
  cases htarget : s.workspace.target s.tree s.dir specifier s.seen with
  | module name => rfl
  | sibling name => rfl
  | member owner name file path =>
    obtain ⟨location, hfile, -, hown, -⟩ := Workspace.exists_file_of_target_member htarget
    have hne : owner ≠ other := by
      rintro rfl
      obtain ⟨-, -, names, -, heq⟩ := Workspace.owningPackage?_eq_some
        (Tree.ne_nil_of_isFile (Tree.isFile_of_moduleFile? hfile)) hown
      exact hapart location hfile ⟨names, heq⟩
    unfold ofTarget owner?
    dsimp only
    rw [h.usableDescriptor? hne]
    rfl
  | stray path => rfl
  | missing => rfl

section
variable (hother : s.tree.isDir other = true)
include hother

variable (ht : s.tree.IsWellFormed)
include ht

/-- The BUILD file of another package is found in the same place. -/
theorem descriptorOf?_congr {package : String}
    (hne : s.tree.resolve [] (s.workspace.pathOf package) ≠ .ok other) :
    descriptorOf? { s with tree := t' } package = s.descriptorOf? package := by
  -- What has a BUILD file is a directory, and so a directory in both trees.
  have hresolve : ∀ dir, s.tree.isDir dir = true →
      (t'.resolve [] (s.workspace.pathOf package) = .ok dir ↔
        s.tree.resolve [] (s.workspace.pathOf package) = .ok dir) := by
    intro dir hdir
    refine h.resolve_eq_ok ?_
    rw [Tree.isSome_of_isDir hdir, Tree.isSome_of_isDir ((h.isDir dir).trans hdir)]
  ext d
  rw [descriptorOf?_eq_some, descriptorOf?_eq_some]
  constructor
  · rintro ⟨dir, hdir, hd⟩
    have hisDir := (h.isWellFormed ht hother).isDir_of_usableDescriptor? hd
    rw [h.isDir] at hisDir
    have hfound := (hresolve dir hisDir).1 hdir
    have hapart : dir ≠ other := fun heq => hne (heq ▸ hfound)
    exact ⟨dir, hfound, h.usableDescriptor? hapart package ▸ hd⟩
  · rintro ⟨dir, hdir, hd⟩
    have hapart : dir ≠ other := fun heq => hne (heq ▸ hdir)
    exact ⟨dir, (hresolve dir (ht.isDir_of_usableDescriptor? hd)).2 hdir,
      (h.usableDescriptor? hapart package).trans hd⟩

/-- **The same is known of a rule**, if its package is not the directory's. -/
theorem ruleInfo_congr {label : Label} (hne : label.repo = none →
      s.tree.resolve [] (s.workspace.pathOf label.package) ≠ .ok other) :
    ruleInfo { s with tree := t' } label = s.ruleInfo label := by
  have hrule : rule? { s with tree := t' } label = s.rule? label := by
    unfold rule?
    by_cases hrepo : label.repo = none
    · rw [descriptorOf?_congr h hother ht (hne hrepo)]
      rfl
    · rw [Bool.eq_false_iff.2 fun hnone => hrepo (Option.isNone_iff_eq_none.1 hnone)]
      rfl
  unfold ruleInfo
  rw [hrule]

end

end Scope

/-! ## Updates -/

/-- Nothing in a package points into another directory: no specifier of a source leads to a file
there, where the file was looked up in the tree `seen`, no rule lists a source there, and none lists
a dependency on a rule there. -/
structure Workspace.Overlooks (w : Workspace) (t seen : Tree) (dir : Location) (package : String)
    (sources : List Source) (other : Location) : Prop where
  specifiers : ∀ source ∈ sources, ∀ i ∈ source.imports, ∀ file,
    seen.moduleFile? dir i.specifier = some file → ¬ other <+: file
  srcs : ∀ d, t.descriptor dir package = .ok d → ∀ rule ∈ d.rules,
    ∀ source ∈ rule.srcs.values?.getD [], Ownership.isFile source = true →
      ¬ other <+: Location.spelled (joinText dir.text source)
  deps : ∀ d, t.descriptor dir package = .ok d → ∀ rule ∈ d.rules,
    ∀ label ∈ rule.deps.values?.getD [], label.repo = none →
      t.resolve [] (w.pathOf label.package) ≠ .ok other

namespace Workspace

variable {w : Workspace} {t t' seen : Tree} {index : Query.Index} {options : UpdateOptions}
  {dir other : Location} {package : String} {sources : List Source}

section
variable (h : t.Touches t' other)
include h

/-- A listed source is present as before. -/
theorem isPresent_congr {source : String}
    (hapart : ¬ other <+: Location.spelled (joinText dir.text source)) :
    t'.isPresent dir source = t.isPresent dir source := by
  have hresolve : ∀ place, t'.resolve [] (joinText dir.text source) = .ok place ↔
      t.resolve [] (joinText dir.text source) = .ok place := by
    intro place
    by_cases hplace : Location.spelled (joinText dir.text source) = place
    · exact h.resolve_eq_ok (h.isSome_node? (hplace ▸ hapart))
    · exact iff_of_false (fun heq => hplace (Tree.spelled_of_resolve heq))
        fun heq => hplace (Tree.spelled_of_resolve heq)
  unfold Tree.isPresent
  rw [Bool.eq_iff_iff, Option.isSome_iff_exists, Option.isSome_iff_exists]
  simp only [toOption_eq_some, hresolve]

/-- The sources of a package get the same owners. -/
theorem ofDescriptor_congr {rulesFile : String} {d : Descriptor}
    (hsrcs : ∀ rule ∈ d.rules, ∀ source ∈ rule.srcs.values?.getD [],
      Ownership.isFile source = true → ¬ other <+: Location.spelled (joinText dir.text source)) :
    Scope.ofDescriptor w t' index rulesFile dir d sources seen =
      (Scope.ofDescriptor w t index rulesFile dir d sources seen).map fun scope =>
        { scope with tree := t' } := by
  have hassign : Ownership.assign (w.around t' index rulesFile dir d.package) d
        (sources.map fun source => (source.name, source.kind)) =
      Ownership.assign (w.around t index rulesFile dir d.package) d
        (sources.map fun source => (source.name, source.kind)) :=
    @Ownership.assign_isPresent_congr (w.around t index rulesFile dir d.package) d _
      (t'.isPresent dir) fun rule hrule source hsource hfile =>
        isPresent_congr h (hsrcs rule hrule source hsource hfile)
  unfold around indexOwners at hassign
  unfold Scope.ofDescriptor
  dsimp only
  rw [hassign]
  generalize Ownership.assign _ d _ = settled
  rcases settled with ⟨settled, problems | ownership⟩
  · rfl
  · rfl

end

namespace Overlooks

variable {d settled : Descriptor} {ownership : Ownership}
  (ho : w.Overlooks t seen dir package sources other) (h : t.Touches t' other)
  (ht : t.IsWellFormed) (hother : t.isDir other = true)
include ho h

/-- The sources are resolved as before. -/
theorem resolveSources :
    sources.map (Scope.resolveSource ⟨w, t', index, dir, settled, ownership, seen⟩) =
      sources.map (Scope.resolveSource ⟨w, t, index, dir, settled, ownership, seen⟩) := by
  refine List.map_congr_left fun source hsource => ?_
  unfold Scope.resolveSource
  congr 1
  refine List.map_congr_left fun i hi => ?_
  congr 1
  exact Scope.resolve_congr (s := ⟨w, t, index, dir, settled, ownership, seen⟩) h
    (ho.specifiers source hsource i hi)

include ht hother

/-- The rules get the same plans, if their dependencies are those that were read, or none. -/
theorem plan (hd : t.descriptor dir package = .ok d) (hdeps : ∀ rule ∈ settled.rules,
      rule.deps = .literal .empty ∨ ∃ r ∈ d.rules, r.deps = rule.deps)
    (files : List ResolvedFile) :
    Dependency.plan (Scope.prune? ⟨w, t', index, dir, settled, ownership, seen⟩ options) settled
        ownership files =
      Dependency.plan (Scope.prune? ⟨w, t, index, dir, settled, ownership, seen⟩ options) settled
        ownership files := by
  unfold Scope.prune?
  split
  · refine Dependency.plan_congr (fun rule hrule label hlabel => ?_) ownership files
    refine Scope.ruleInfo_congr (s := ⟨w, t, index, dir, settled, ownership, seen⟩) h hother ht ?_
    rcases hdeps rule hrule with hnone | ⟨r, hr, hsame⟩
    · rw [hnone] at hlabel
      cases hlabel
    · exact ho.deps d hd r hr label (hsame ▸ hlabel)
  · rfl

/-- **An update is prepared as before** a directory was touched that nothing in the package points
into. -/
theorem prepare (hne : dir ≠ other) (hs : t.sources dir = .ok sources) :
    w.prepare t' seen index options dir package sources false =
      w.prepare t seen index options dir package sources false := by
  have hold : t'.descriptor dir package = t.descriptor dir package := by
    unfold Tree.descriptor
    rw [h.descriptor? hne]
  have hbuild : t'.buildFile? dir = t.buildFile? dir :=
    Tree.buildFile?_congr fun name _ => h.node?_of_ne hne name
  rw [prepare_eq, prepare_eq, hold, hbuild]
  cases hd : t.descriptor dir package with
  | error problem =>
    have hone : oneProblem (.error problem : Except Problem Descriptor) = .error [problem] := rfl
    rw [hone, bind_error, bind_error]
  | ok d =>
    change (Scope.ofDescriptor w t' index options.rulesFile dir d sources seen >>= _) =
      (Scope.ofDescriptor w t index options.rulesFile dir d sources seen >>= _)
    rw [ofDescriptor_congr h (ho.srcs d hd)]
    cases hscope : Scope.ofDescriptor w t index options.rulesFile dir d sources seen with
    | error problems =>
      dsimp only [Except.map]
      rw [bind_error, bind_error]
    | ok scope =>
      obtain ⟨heq, hsettled⟩ := Scope.settled_of_ofDescriptor hs hscope
      obtain ⟨_, _, _, _, settled, ownership, _⟩ := scope
      cases heq
      unfold Scope.annotations Scope.derived Scope.planned
      dsimp only [Except.map, bind, Except.bind]
      rw [ho.resolveSources h, ho.plan h ht hother hd hsettled.deps]
      rfl

end Overlooks

end Workspace

end BuildSync
