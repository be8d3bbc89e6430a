import BuildSync.Proofs.RepeatedQuestions
import BuildSync.Proofs.RunStages

/-!
# Runs that are repeated

An update may have to look at packages that are updated later in the same run. It finds the same
there once these are updated, so that a second run has nothing left to do.

* `Session.Stage.recurs`, `Session.Stage.recalls`: in the end a package finds what it found when it
  was updated.
* `Session.run_again`: a session that is started in the tree that an equal session left updates its
  packages and changes none, if the first one made no BUILD file.
-/

namespace BuildSync

open Annotation Build

namespace Session

/-- Packages with the sources that are in a tree. -/
def reread (t : Tree) (packages : List (PackageDir × List Source)) :
    List (PackageDir × List Source) :=
  packages.map fun entry => (entry.1, (t.sources entry.1.dir).toOption.getD [])

/-- The packages of a session that is started in another tree. -/
theorem mapM_reread {t t' : Tree} {dirs : List PackageDir}
    {packages : List (PackageDir × List Source)}
    (h : (dirs.mapM fun package => do pure (package, ← t.sources package.dir)) = .ok packages)
    (hsources : ∀ entry ∈ packages, ∃ sources, t'.sources entry.1.dir = .ok sources) :
    (dirs.mapM fun package => do pure (package, ← t'.sources package.dir)) =
      .ok (reread t' packages) := by
  have hentries := forall₂_of_mapM h
  clear h
  induction hentries with
  | nil => rfl
  | @cons package entry dirs packages hentry _ ih =>
    obtain ⟨old, -, heq⟩ := bind_eq_ok.1 hentry
    cases heq
    obtain ⟨⟨sources, hfirst⟩, hrest⟩ := List.forall_mem_cons.1 hsources
    have hreread : reread t' ((package, old) :: packages) =
        (package, (t'.sources package.dir).toOption.getD []) :: reread t' packages := rfl
    dsimp only at hfirst
    rw [List.mapM_cons, ih hrest, hreread, hfirst]
    rfl

/-- The same is asked for sources that are read again. -/
theorem questions_reread {w : Workspace} {t : Tree} {options : SessionOptions}
    {packages : List (PackageDir × List Source)}
    (h : ∀ entry ∈ packages, ∃ f : Source → Source,
      t.sources entry.1.dir = .ok (entry.2.map f) ∧
        ∀ source ∈ entry.2, source.IsReread (f source)) :
    questions w t options (reread t packages) = questions w t options packages := by
  unfold questions reread
  rw [List.flatMap_map]
  refine List.flatMap_congr fun entry hentry => ?_
  obtain ⟨f, hsources, hf⟩ := h entry hentry
  dsimp only
  rw [hsources]
  exact Workspace.questions_reread hf

/-- A run whose updates leave the tree as it is. -/
theorem updateAll_of_unchanged {s : Session} {r : Report}
    {packages : List (PackageDir × List Source)}
    (h : ∀ package sources rest, (package, sources) :: rest <:+ packages →
      s.updatePackage r.tree package ((r.tree.sources package.dir).toOption.getD [])
        rest.isEmpty = .ok (r.tree, ⟨none, []⟩)) :
    s.updateAll r (reread r.tree packages) =
      ⟨r.tree, r.updates ++ packages.map fun entry => (entry.1, ⟨none, []⟩), r.failures⟩ := by
  induction packages generalizing r with
  | nil => simp [updateAll, reread]
  | cons entry rest ih =>
    have hfirst := h _ _ rest (List.suffix_refl _)
    have hempty : (reread r.tree rest).isEmpty = rest.isEmpty := by simp [reread]
    rw [← hempty] at hfirst
    rw [reread, List.map_cons, updateAll, ← reread, hfirst]
    dsimp only
    have hrest := @ih { r with updates := r.updates ++ [(entry.1, ⟨none, []⟩)] }
      fun package sources later hsuffix =>
        h package sources later (hsuffix.trans (List.suffix_cons _ _))
    rw [hrest]
    simp

section
variable {s : Session} {t final now : Tree} {file : Query.IndexFile} {index' : Query.Index}
  {package : PackageDir} {sources : List Source} {rest : List (PackageDir × List Source)}
  (hsteady : s.IsSteady t final) (hstage : Stage s t final s.packages t)
  (hbuild : Query.Index.build file.service (questions s.workspace t s.options s.packages) =
    .ok s.index)
  (hbuild' : Query.Index.build file.service (questions s.workspace final s.options s.packages) =
    .ok index')
include hsteady

/-- The same is known again of a dependency, if packages of the session have the rule it names. -/
theorem Stage.recalls (h : Stage s t final ((package, sources) :: rest) now)
    {isLast : Bool} {old new : Descriptor} {scope : Scope} {pending : Pending}
    (hleaves : Leaves s now final ⟨package, sources, isLast⟩ old scope pending new)
    {label : Label} (hrule : s.HasRule t label)
    (hkind : label.isIn package.package = false →
      index'.kindOf? label = s.index.kindOf? label) :
    s.workspace.Recalls now final s.index index' package.package old label := by
  have hmem : (package, sources) ∈ s.packages := h.suffix.subset (by simp)
  have hs := hsteady.isKnown.sources _ hmem
  have hw := hsteady.isKnown.package _ hmem
  have hfirst := h.descriptor_eq (List.mem_cons_self ..)
  refine ⟨fun hin => ?_, fun hin hrepo dir hdir => ?_, hkind⟩
  · obtain ⟨hrepo, hname⟩ : label.repo = none ∧ label.package = package.package := by
      simpa [Label.isIn] using hin
    obtain ⟨-, d, hd, hlisted⟩ := hrule _ hmem hrepo
      (hname ▸ hsteady.isWellFormed.resolve_pathOf (Tree.isDir_of_sources hs) hw)
    have hfound := hfirst.symm.trans hleaves.found.descriptor
    exact Except.ok.inj (hd.symm.trans hfound) ▸ hlisted
  · rw [h.rewrites.resolve] at hdir
    by_cases hahead : ∃ entry ∈ (package, sources) :: rest, entry.1.dir = dir
    · obtain ⟨entry, hentry, rfl⟩ := hahead
      have hmem' := h.suffix.subset hentry
      obtain ⟨hname, d, hd, hlisted⟩ := hrule entry hmem' hrepo hdir
      rw [hname]
      refine (h.keepsAt hsteady (hsteady.isKnown.package entry hmem')).imp_right ?_
      rintro ⟨found, left, hfound, hleft, hkeeps⟩
      have hread := (h.descriptor_eq hentry).symm.trans
        (Tree.descriptor_of_descriptor? hfound)
      exact ⟨found, left, hfound, hleft, hkeeps, Except.ok.inj (hd.symm.trans hread) ▸ hlisted⟩
    · exact .inl (Tree.descriptor?_congr fun other _ =>
        h.behind hsteady (fun entry hentry hsame => hahead ⟨entry, hentry, hsame⟩) other)

include hstage

/-- In the end each package has its sources, with the imports that they had. -/
theorem Stage.exists_reread {entry : PackageDir × List Source} (hentry : entry ∈ s.packages) :
    ∃ f : Source → Source, final.sources entry.1.dir = .ok (entry.2.map f) ∧
      ∀ source ∈ entry.2, source.IsReread (f source) := by
  obtain ⟨front, back, hsplit⟩ := List.append_of_mem hentry
  obtain ⟨now, hnow⟩ := hstage.of_suffix hsteady ⟨front, hsplit.symm⟩
  obtain ⟨next, old, scope, pending, new, -, -, hleaves⟩ := hnow.step hsteady
  exact ⟨_, hnow.sources_final hsteady hleaves,
    fun source _ => scope.isReread_rewritten s.options.update source⟩

include hbuild hbuild'

/-- **In the end a package finds what it found** when it was updated. -/
theorem Stage.recurs (h : Stage s t final rest now) :
    s.workspace.Recurs now final s.seen final s.index index' := by
  have hrewrites := hstage.rewrites_final hsteady
  have hkeeps : ∀ dir package, s.workspace.relative? dir = some package →
      s.workspace.KeepsAt t final s.index dir package := fun _ _ hw => hstage.keepsAt hsteady hw
  have hpackages := fun entry hentry =>
    And.intro (hsteady.isKnown.package entry hentry) (hsteady.isKnown.sources entry hentry)
  refine ⟨h.rewrites_final hsteady, hsteady.seen ▸ h.rewrites, .refl final,
    fun dir package hw => h.keepsAt hsteady hw, fun name => ?_, fun path => ?_⟩
  · exact labels_again hpackages hrewrites hkeeps hbuild hbuild' (by simp)
  · exact labels_again hpackages hrewrites hkeeps hbuild hbuild' (by simp)

/-- A source that no rule listed has the same owners outside the BUILD file. -/
theorem Stage.indexOwners_again (h : Stage s t final ((package, sources) :: rest) now)
    {old : Descriptor} (hold : t.descriptor package.dir package.package = .ok old) {source : Source}
    (hsource : source ∈ sources) (hnone : old.owners source.name = []) :
    s.workspace.indexOwners index' package.dir source.name =
      s.workspace.indexOwners s.index package.dir source.name := by
  have hmem : (package, sources) ∈ s.packages := h.suffix.subset (by simp)
  unfold Workspace.indexOwners
  cases hpath : s.workspace.relative? (package.dir ++ [source.name]) with
  | none => rfl
  | some path =>
    have hasked : Query.Key.file path ∈ questions s.workspace t s.options s.packages := by
      refine List.mem_flatMap.2 ⟨_, hmem, Workspace.mem_questions.2 (.inl ⟨source, hsource, ?_⟩)⟩
      refine .inl ?_
      rw [Workspace.siblingQuestion_eq hold hnone, Workspace.fileQuestion, hpath]
      exact List.mem_singleton_self _
    exact labels_of_asked (fun entry hentry => ⟨hsteady.isKnown.package entry hentry,
      hsteady.isKnown.sources entry hentry⟩) (hstage.rewrites_final hsteady)
      (fun dir name hw => hstage.keepsAt hsteady hw) hbuild hbuild' (by simp) hasked

/-- **A package that was updated** is left as it is in the end. -/
theorem Stage.update_again (h : Stage s t final ((package, sources) :: rest) now) :
    s.workspace.update final final index' s.options.update package
      ((final.sources package.dir).toOption.getD []) (s.options.isProjectRoot && rest.isEmpty) =
        .ok (final, ⟨none, []⟩) := by
  have hmem : (package, sources) ∈ s.packages := h.suffix.subset (by simp)
  obtain ⟨next, old, scope, pending, new, -, -, hleaves⟩ := h.step hsteady
  have hold := (h.descriptor_eq (List.mem_cons_self ..)).symm.trans hleaves.found.descriptor
  have horderly := hsteady.orderly _ hmem old hold
  have hleft := h.sources_final hsteady hleaves
  rw [hleft]
  refine Workspace.update_of_prepare hleaves.left (Workspace.prepare_again
    (h.rewrites.isWellFormed hsteady.isWellFormed) (hsteady.isKnown.package _ hmem)
    (h.sources_eq hsteady (List.mem_cons_self ..)) hleaves.found.descriptor horderly.names
    hleaves.prepared hleaves.left hleaves.agrees hleaves.found.scope hleft
    (h.isSettled hsteady hleaves) (Stage.recurs hsteady hstage hbuild hbuild' h)
    (fun _ => Stage.indexOwners_again hsteady hstage hbuild hbuild' h hold) ?_ horderly.nodup ?_
    hleaves.reads)
  · -- The rules over the whole project are derived last.
    intro hroot place hplace name
    obtain rfl : rest = [] := List.isEmpty_iff.1 (Bool.and_eq_true_iff.1 hroot).2
    exact Tree.descriptor?_congr fun other _ => h.behind hsteady (fun entry hentry hsame =>
      hplace (List.mem_singleton.1 hentry ▸ hsame).symm) other
  · intro hdrops r hr deps hdeps label hlabel r' hr' deps' hdeps' hlabel'
    refine h.recalls hsteady hleaves (horderly.known hdrops r hr deps hdeps label hlabel)
      fun hin => ?_
    rw [Query.Index.kindOf?_of_build hbuild' (List.mem_flatMap.2 ⟨_, hmem, ?_⟩),
      Query.Index.kindOf?_of_build hbuild (List.mem_flatMap.2 ⟨_, hmem, ?_⟩)]
    · rw [hdrops]
      exact Workspace.rule_mem_questions hold hr hdeps hlabel hin
    · rw [hdrops]
      exact Workspace.rule_mem_questions hleaves.left hr' hdeps' hlabel' hin

end

/-- **A session can be repeated**: one that is started in the tree that an equal session left
updates the same packages, and changes none of them. The first one made no BUILD file, the names in
its tree are plain, and it found BUILD files that can be updated once and for all. Where it keeps
annotations, its packages are annotatable as well.

Annotations ask for more since they do not wait for problems: what a source of another package's
rule imports may get its rule later in the run, and would be annotated by the second session
only. -/
theorem run_again {w : Workspace} {t : Tree} {cwd : Location} {text : String}
    {file : Query.IndexFile} {options : SessionOptions} {s : Session} (ht : t.IsWellFormed)
    (hfile : Query.IndexFile.parse? text = some file)
    (hstart : start w t cwd file.service options = .ok s) (hrun : (s.run t).failures = [])
    (hannotatable : options.update.annotates = true → ∀ entry ∈ s.packages, ∀ d,
      t.descriptor entry.1.dir entry.1.package = .ok d →
        s.IsAnnotatable (s.run t).tree entry.1 entry.2 d)
    (hnames : ∀ entry ∈ s.packages, w.HasPlainNames t entry.1.package)
    (horderly : ∀ entry ∈ s.packages, ∀ d, t.descriptor entry.1.dir entry.1.package = .ok d →
      s.IsOrderly t d)
    (hmade : ∀ entry ∈ s.packages, (s.run t).tree.isPackage entry.1.dir = true →
      t.isPackage entry.1.dir = true) :
    ∃ again, start w (s.run t).tree cwd file.service options = .ok again ∧
      again.run (s.run t).tree =
        ⟨(s.run t).tree, s.packages.map fun entry => (entry.1, ⟨none, []⟩), []⟩ := by
  obtain ⟨-, -, hknown⟩ := isKnown_of_start hstart
  obtain ⟨dirs, packages, index, hdirs, hpackages, hbuild, hs⟩ := start_eq_ok.1 hstart
  generalize hfinal : (s.run t).tree = final at *
  have hsteady : s.IsSteady t final := by
    subst hs
    exact ⟨ht, hknown, Query.isPlain_of_indexFile hfile hbuild, rfl, hannotatable, horderly, hmade⟩
  have hstage : Stage s t final s.packages t := by
    subst hs
    exact ⟨List.suffix_rfl, ⟨_, rfl, hrun, hfinal⟩, .refl t, fun _ _ _ => rfl, hnames⟩
  have hrewrites := hstage.rewrites_final hsteady
  have hbuild' := Query.Index.build_indexFile file (questions w final options packages)
  have hreread : ∀ entry ∈ packages, ∃ f : Source → Source,
      final.sources entry.1.dir = .ok (entry.2.map f) ∧
        ∀ source ∈ entry.2, source.IsReread (f source) := fun entry hentry =>
    hstage.exists_reread hsteady (by rw [hs]; exact hentry)
  subst hs
  refine ⟨⟨w, options, reread final packages, _, final⟩, start_eq_ok.2 ⟨dirs, _, _,
    (hrewrites.sessionDirs w cwd options).trans hdirs, mapM_reread hpackages ?_,
    (congrArg _ (questions_reread hreread)).trans hbuild', rfl⟩, ?_⟩
  · exact fun entry hentry => Exists.elim (hreread entry hentry) fun f hf => ⟨_, hf.1⟩
  · refine (updateAll_of_unchanged fun package sources rest hsuffix => ?_).trans (by rfl)
    obtain ⟨now, hnow⟩ := hstage.of_suffix hsteady hsuffix
    -- Stated of the first session, since the goal is about the second one, with its own index.
    have hupdate := Stage.update_again hsteady hstage hbuild hbuild' hnow
    exact hupdate

end Session

/-! ## A session that adds a dependency -/

/-- The only import of a source stays where it is, since annotations follow it. -/
theorem Source.staysRead_of_singleton {source : Source} {i : Import} {text : String}
    (hi : i.start ≤ i.stop) (hread : TypeScript.imports source.name text = .ok [i])
    {imports : List ResolvedImport} (himports : imports.map (·.source) = [i]) :
    source.StaysRead imports text := by
  obtain ⟨r, rfl, rfl⟩ := List.map_eq_singleton_iff.1 himports
  unfold Source.StaysRead
  rw [hread, List.map_singleton, List.map_singleton, movedImport_of_le hi fun e he => ?_]
  rw [edits_eq (List.pairwise_filterMap.2 (List.pairwise_singleton _ _)),
    List.mem_reverse, List.mem_filterMap] at he
  obtain ⟨r', hr', hedit⟩ := he
  obtain ⟨label, -, hputs⟩ := edit?_eq_some hedit
  exact List.mem_singleton.1 hr' ▸ hputs.start_le

/-- Dependencies that are not used are dropped, and imports are annotated. -/
def crossOptions : SessionOptions :=
  ⟨["p"], false, false, false, false, ⟨true, true, ""⟩⟩

/-- The session updates the package `p`, and nothing has to be asked. -/
def crossSession : Session :=
  ⟨⟨[]⟩, crossOptions, [(samplePackage, [crossSource "ab" 15])], .empty, crossTree "ab"⟩

/-- The source with its annotation. -/
def crossText : String :=
  "import\"../ab/x\" // from //ab:x"

/-- The package with its new dependency, which the source names. -/
def crossAnnotated : Tree :=
  (crossUpdated "ab").put ["p", "y.ts"] (.text crossText)

/-- What the session finds and writes. -/
theorem steps_crossSession :
    (Session.packageDirs ⟨[]⟩ (crossTree "ab") [] crossOptions).toOption = some [samplePackage] ∧
      Session.questions ⟨[]⟩ (crossTree "ab") crossOptions crossSession.packages = [] ∧
      (crossSession.run (crossTree "ab")).tree = crossAnnotated ∧
      (crossSession.run (crossTree "ab")).failures.length = 0 ∧
      (crossTree "ab").isPackage ["p"] = true ∧
      ((crossTree "ab").descriptor ["p"] "p").toOption.map (fun d =>
        (d.rules.map (·.name), d.hasClosedLoads, d.rules.map (·.deps.values?))) =
          some (["p"], true, [some []]) ∧
      TypeScript.imports "y.ts" crossText = .ok (crossSource "ab" 15).imports ∧
      crossAnnotated.read ["p", "y.ts"] = .ok crossText ∧
      Query.IndexFile.parse? "\x7b\x7d" = some .empty := by
  decide +kernel

/-- The rule of the package has a literal list of dependencies, which is empty. -/
theorem deps_crossTree {d : Descriptor} (hd : (crossTree "ab").descriptor ["p"] "p" = .ok d) :
    d.rules.map (·.name) = ["p"] ∧ d.hasClosedLoads = true ∧
      ∀ r ∈ d.rules, r.deps.values? = some [] := by
  obtain ⟨-, -, -, -, -, hread, -⟩ := steps_crossSession
  rw [hd] at hread
  obtain ⟨hnames, hloads, hdeps⟩ : d.rules.map (·.name) = ["p"] ∧ d.hasClosedLoads = true ∧
      d.rules.map (·.deps.values?) = [some []] := by
    simpa [Except.toOption] using hread
  refine ⟨hnames, hloads, fun r hr => ?_⟩
  have hmem : r.deps.values? ∈ d.rules.map (·.deps.values?) := List.mem_map_of_mem hr
  rw [hdeps] at hmem
  exact List.mem_singleton.1 hmem

theorem isOrderly_crossTree {d : Descriptor} (hd : (crossTree "ab").descriptor ["p"] "p" = .ok d) :
    crossSession.IsOrderly (crossTree "ab") d := by
  obtain ⟨hnames, hloads, hempty⟩ := deps_crossTree hd
  refine ⟨hnames ▸ List.nodup_singleton _, hloads, fun _ r hr deps hvalues => ?_,
    fun _ r hr deps hvalues label hlabel => ?_⟩
  · cases (hempty r hr).symm.trans hvalues
    exact List.nodup_nil
  · cases (hempty r hr).symm.trans hvalues
    cases hlabel

theorem isAnnotatable_crossTree {d : Descriptor}
    (hd : (crossTree "ab").descriptor ["p"] "p" = .ok d) : crossSession.IsAnnotatable
      (crossSession.run (crossTree "ab")).tree samplePackage [crossSource "ab" 15] d := by
  obtain ⟨-, -, hrun, -, -, -, himports, hread, -⟩ := steps_crossSession
  obtain ⟨-, -, hempty⟩ := deps_crossTree hd
  have hplain : '\n' ∉ ("p" : String).toList := by decide
  have hunmarked : ("import\"../ab/x\"" : String).toList.head? ≠ some '\uFEFF' := by decide
  have hlines : TypeScript.HasPlainLines ("import\"../ab/x\"" : String).toList := by decide
  refine ⟨hplain, fun r hr _ => by rw [hempty r hr]; rfl, fun source hsource _ => ?_,
    fun source hsource => ?_, fun source hsource => ?_,
    fun source hsource imports text hall _ hfinal => ?_⟩
  · rw [List.mem_singleton.1 hsource]
    exact Query.Index.labels_empty (.file "p/y.ts")
  · rw [List.mem_singleton.1 hsource]
    exact hunmarked
  · rw [List.mem_singleton.1 hsource]
    exact hlines
  · have htext : text = crossText := by
      rw [hrun, List.mem_singleton.1 hsource] at hfinal
      exact Except.ok.inj (hfinal.symm.trans hread)
    have hname : source.name = "y.ts" := by
      rw [List.mem_singleton.1 hsource]
      rfl
    rw [List.mem_singleton.1 hsource] at hall
    rw [← hname, ← htext] at himports
    exact Source.staysRead_of_singleton (Nat.zero_le 15) himports hall

/-- The session adds a dependency and an annotation, and an equal one leaves them. -/
theorem run_again_cross :
    (crossTree "ab").IsWellFormed ∧ Query.IndexFile.parse? "\x7b\x7d" = some .empty ∧
      Session.start ⟨[]⟩ (crossTree "ab") [] Query.IndexFile.empty.service crossOptions =
        .ok crossSession ∧
      (crossSession.run (crossTree "ab")).failures = [] ∧
      (crossSession.run (crossTree "ab")).tree = crossAnnotated ∧
      ∃ again,
        Session.start ⟨[]⟩ crossAnnotated [] Query.IndexFile.empty.service crossOptions =
          .ok again ∧
        again.run crossAnnotated = ⟨crossAnnotated, [(samplePackage, ⟨none, []⟩)], []⟩ := by
  obtain ⟨hdirs, hasked, hrun, hfailures, hpackage, -, -, -, hfile⟩ := steps_crossSession
  have hwellFormed : (crossTree "ab").IsWellFormed := Tree.isWellFormed_of_entries (by decide)
  have hstart : Session.start ⟨[]⟩ (crossTree "ab") [] Query.IndexFile.empty.service crossOptions =
      .ok crossSession := by
    refine Session.start_eq_ok.2
      ⟨_, crossSession.packages, .empty, toOption_eq_some.1 hdirs, ?_, ?_, rfl⟩
    · simp [crossSession, samplePackage, sources_crossTree.1, bind, Except.bind, pure, Except.pure]
    · rw [hasked]
      simp [Query.Index.build, Query.Key.sortedSet, sortedSet, dropRepeats]
  have hnone := List.length_eq_zero_iff.1 hfailures
  obtain ⟨again, hagain, hrun'⟩ := Session.run_again hwellFormed hfile hstart hnone
    (fun _ entry hentry d hd => by
      obtain rfl := List.mem_singleton.1 hentry
      exact isAnnotatable_crossTree hd)
    (fun entry hentry => List.mem_singleton.1 hentry ▸ hasPlainNames_crossTree)
    (fun entry hentry d hd => by
      obtain rfl := List.mem_singleton.1 hentry
      exact isOrderly_crossTree hd)
    (fun entry hentry _ => List.mem_singleton.1 hentry ▸ hpackage)
  rw [hrun] at hagain hrun'
  exact ⟨hwellFormed, hfile, hstart, hnone, hrun, again, hagain, hrun'⟩

end BuildSync
