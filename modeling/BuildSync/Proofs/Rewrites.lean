import BuildSync.Proofs.Overlooking
import BuildSync.Proofs.StartPaths
import BuildSync.Session

/-!
# Trees whose BUILD files and sources have other texts

An update of a package that has a BUILD file gives that file and some sources other texts, and
leaves the tree as it is otherwise. Whatever reads neither comes to the same in both trees.

* `Tree.Rewrites`: two trees that differ by no more than that; `Tree.Touches.rewrites`: an update
  that makes no BUILD file leaves such a tree.
* `Tree.Rewrites.resolve`, `Tree.Rewrites.names`: where spellings lead, and what a directory holds.
* `Tree.Rewrites.sources_map`, `Tree.Rewrites.target`: the sources of a directory, if each is known,
  and what specifiers lead to.
* `Tree.Rewrites.sessionDirs`: the packages that a session updates.
-/

namespace BuildSync

open Build

/-- Nothing but the texts of BUILD files and sources differs between two trees. -/
def Tree.Rewrites (t t' : Tree) : Prop :=
  ∀ location, t'.node? location = t.node? location ∨
    t.isFile location = true ∧ t'.isFile location = true ∧
      ∃ name, location.getLast? = some name ∧
        (name ∈ buildFileNames ∨ (SourceKind.ofName? name).isSome = true)

/-- All elements can be mapped if each can. -/
theorem exists_mapM_iff {ε α β : Type} {f : α → Except ε β} {xs : List α} :
    (∃ ys, xs.mapM f = .ok ys) ↔ ∀ x ∈ xs, ∃ y, f x = .ok y := by
  induction xs with
  | nil => exact ⟨fun _ => by simp, fun _ => ⟨[], rfl⟩⟩
  | cons x xs ih =>
    rw [List.forall_mem_cons, ← ih, List.mapM_cons]
    cases f x with
    | error e => simp [bind, Except.bind]
    | ok y => cases xs.mapM f <;> simp [bind, Except.bind, pure, Except.pure]

namespace Tree

variable {t t' : Tree}

theorem mem_names_iff {dir : Location} {name : String} :
    name ∈ t.names dir ↔ (t.node? (dir ++ [name])).isSome = true := by
  refine ⟨fun h => ?_, mem_names⟩
  rw [names, mem_sortedTexts, List.mem_filterMap] at h
  obtain ⟨⟨location, node⟩, hmem, hlast⟩ := h
  rw [Option.ite_none_right_eq_some, List.getLast?_eq_some_iff] at hlast
  obtain ⟨rfl, front, rfl⟩ := hlast
  rw [List.dropLast_concat, node?, if_neg (by simp), Option.isSome_iff_ne_none, ne_eq,
    List.lookup_eq_none_iff]
  exact fun h => by simpa using h _ hmem

/-- **An update that makes no BUILD file** rewrites files that are there. -/
theorem Touches.rewrites {dir : Location} (h : t.Touches t' dir)
    (hmade : t'.isPackage dir = true → t.isPackage dir = true) : t.Rewrites t' := by
  intro location
  rcases h.cases location with hsame | ⟨name, rfl, htouched⟩
  · exact .inl hsame
  · refine .inr ⟨?_, htouched.isFile, name, by simp, htouched.named⟩
    rcases htouched.before with hfile | ⟨-, rfl, hnone⟩
    · exact hfile
    · have hfound : (t'.buildFile? dir).isSome = true :=
        List.find?_isSome.2 ⟨newBuildFileName, by decide, htouched.isFile⟩
      have hpackage : t.isPackage dir = true := hmade hfound
      rw [Tree.isPackage, hnone] at hpackage
      cases hpackage

namespace Rewrites

theorem refl (t : Tree) : t.Rewrites t :=
  fun _ => .inl rfl

variable (h : t.Rewrites t')
include h

theorem symm : t'.Rewrites t := fun location =>
  (h location).imp Eq.symm fun ⟨hfile, hfile', hname⟩ => ⟨hfile', hfile, hname⟩

/-! ## What stands where -/

theorem isFile : t'.isFile = t.isFile := by
  funext location
  rcases h location with heq | ⟨hfile, hfile', -⟩
  · exact isFile_congr heq
  · rw [hfile, hfile']

theorem isDir : t'.isDir = t.isDir := by
  funext location
  rcases h location with heq | ⟨hfile, hfile', -⟩
  · rw [Tree.isDir, Tree.isDir, heq]
  · rw [isDir_of_isFile hfile, isDir_of_isFile hfile']

theorem isSome_node? (location : Location) :
    (t'.node? location).isSome = (t.node? location).isSome := by
  rcases h location with heq | ⟨hfile, hfile', -⟩
  · rw [heq]
  · rw [isSome_of_isFile hfile, isSome_of_isFile hfile']

/-- **Files of other names stay** as they were. -/
theorem node?_of_name {name : String} (hbuild : name ∉ buildFileNames)
    (hsource : SourceKind.ofName? name = none) (place : Location) :
    t'.node? (place ++ [name]) = t.node? (place ++ [name]) := by
  refine (h _).resolve_right ?_
  rintro ⟨-, -, other, hlast, hother⟩
  rw [List.getLast?_concat, Option.some.injEq] at hlast
  subst hlast
  rcases hother with hother | hother
  · exact hbuild hother
  · rw [hsource] at hother
    cases hother

theorem trans {t'' : Tree} (h' : t'.Rewrites t'') : t.Rewrites t'' := fun location => by
  rcases h location with heq | ⟨hfile, hfile', hname⟩
  · rw [← heq, ← isFile_congr heq]
    exact h' location
  · exact .inr ⟨hfile, by rw [h'.isFile, hfile'], hname⟩

theorem isWellFormed (ht : t.IsWellFormed) : t'.IsWellFormed :=
  ⟨fun location hnode => ht.isName location (h.isSome_node? location ▸ hnode),
    fun location name hnode => by
      rw [h.isDir]
      exact ht.isDir location name (h.isSome_node? _ ▸ hnode)⟩

/-! ## Spellings and directories -/

/-- Segments lead to the same place, or fail for the same reason. -/
theorem follow (location : Location) (segments : List String) :
    t'.follow location segments = t.follow location segments := by
  induction segments generalizing location with
  | nil => rw [Tree.follow, Tree.follow, h.isSome_node?]
  | cons segment rest ih =>
    rw [Tree.follow, Tree.follow]
    rcases h location with heq | ⟨hfile, hfile', -⟩
    · simp only [heq, ih]
    · unfold Tree.isFile at hfile hfile'
      split at hfile <;> split at hfile' <;> simp_all

theorem resolve (cwd : Location) (text : String) : t'.resolve cwd text = t.resolve cwd text := by
  simp only [Tree.resolve, h.follow]

theorem isPresent : t'.isPresent = t.isPresent := by
  funext dir source
  rw [Tree.isPresent, Tree.isPresent, h.resolve]

theorem buildFile? : t'.buildFile? = t.buildFile? := by
  funext dir
  rw [Tree.buildFile?, Tree.buildFile?, h.isFile]

theorem isPackage : t'.isPackage = t.isPackage := by
  funext dir
  rw [Tree.isPackage, Tree.isPackage, h.buildFile?]

theorem owningPackage? (w : Workspace) (file : Location) :
    w.owningPackage? t' file = w.owningPackage? t file := by
  rw [Workspace.owningPackage?, Workspace.owningPackage?, h.isPackage]

theorem names (dir : Location) : t'.names dir = t.names dir := by
  refine sortedSet_congr textLe_trans textLe_total (fun _ _ _ _ => textLe_antisymm) fun name => ?_
  have hsame : name ∈ t'.names dir ↔ name ∈ t.names dir := by
    rw [mem_names_iff, mem_names_iff, h.isSome_node?]
  rwa [Tree.names, Tree.names, mem_sortedTexts, mem_sortedTexts] at hsame

theorem list (dir : Location) : t'.list dir = t.list dir := by
  unfold Tree.list
  rcases h dir with heq | ⟨hfile, hfile', -⟩
  · rw [heq, h.names]
  · unfold Tree.isFile at hfile hfile'
    split at hfile <;> split at hfile' <;> simp_all

theorem sourceNames (dir : Location) : t'.sourceNames dir = t.sourceNames dir := by
  rw [Tree.sourceNames, Tree.sourceNames, h.list, h.isFile]

/-- **The sources of a directory** have the same names; each may have another text. -/
theorem sources_map {dir : Location} {sources : List Source} {f : Source → Source}
    (hs : t.sources dir = .ok sources)
    (hf : ∀ source ∈ sources, t'.source dir source.name = .ok (f source)) :
    t'.sources dir = .ok (sources.map f) := by
  have hname : ∀ source ∈ sources, (f source).name = source.name := fun source hsource =>
    name_of_source (hf source hsource)
  refine sources_of_sourceNames ?_ fun source hsource => ?_
  · rw [h.sourceNames, sourceNames_of_sources hs, List.map_map]
    exact congrArg _ (List.map_congr_left fun source hsource => (hname source hsource).symm)
  · obtain ⟨found, hfound, rfl⟩ := List.mem_map.1 hsource
    rw [hname found hfound, hf found hfound]

/-- The sources of a directory are the same where their files are. -/
theorem sources_of_nodes {dir : Location} {sources : List Source}
    (hs : t.sources dir = .ok sources)
    (hnodes : ∀ name, t'.node? (dir ++ [name]) = t.node? (dir ++ [name])) :
    t'.sources dir = .ok sources := by
  rw [← List.map_id sources]
  refine h.sources_map hs fun source hsource => ?_
  rw [Tree.source, read_congr (hnodes source.name)]
  exact Tree.source_of_mem hs hsource

/-! ## What specifiers lead to -/

theorem isDescribed : ModulePath.isDescribed t' = ModulePath.isDescribed t := by
  funext dir
  rw [ModulePath.isDescribed, ModulePath.isDescribed, h.isFile]

theorem manifest? : ModulePath.manifest? t' = ModulePath.manifest? t := by
  funext dir
  rw [ModulePath.manifest?, ModulePath.manifest?,
    read_congr (h.node?_of_name (by decide) (by decide) dir)]

/-- **A specifier leads to the same file.** -/
theorem moduleFile? (dir : Location) (specifier : String) :
    t'.moduleFile? dir specifier = t.moduleFile? dir specifier := by
  have hsound : ModulePath.isSound t' = ModulePath.isSound t := by
    funext dir
    rw [ModulePath.isSound, ModulePath.isSound, h.isDescribed, h.manifest?]
  have hpath : ModulePath.searchPath t' = ModulePath.searchPath t := by
    funext dir path
    simp only [ModulePath.searchPath, ModulePath.searchFile, ModulePath.searchDir,
      ModulePath.searchMain, ModulePath.Search.firstFile, h.isFile, h.isDir, h.isDescribed,
      h.manifest?]
  rw [Tree.moduleFile?, Tree.moduleFile?, hsound, hpath]

/-- **A specifier has the same target**, also where files are looked up in trees of their own. -/
theorem target {seen seen' : Tree} (hsight : seen.Rewrites seen') (w : Workspace) (dir : Location)
    (specifier : String) : w.target t' dir specifier seen' = w.target t dir specifier seen := by
  simp only [Workspace.target, Workspace.fileTarget, hsight.moduleFile?, h.owningPackage?]

/-! ## The packages of a session -/

theorem isVisited (start : Location) (names : List String) :
    t'.isVisited start names = t.isVisited start names := by
  have hignored : ∀ location, t'.isIgnored location = t.isIgnored location :=
    isIgnored_congr fun place name hname => h.node?_of_name
      ((by decide : ∀ name ∈ ignoreNames, name ∉ buildFileNames) name hname)
      ((by decide : ∀ name ∈ ignoreNames, SourceKind.ofName? name = none) name hname) place
  unfold Tree.isVisited
  simp only [h.isDir, hignored]

theorem mem_visited {start : Location} {names : List String} :
    names ∈ t'.visited start ↔ names ∈ t.visited start := by
  rw [Tree.mem_visited, Tree.mem_visited, h.isVisited]

theorem packageDirs (w : Workspace) (cwd : Location) (found : List PackageDir)
    (paths : List String) : w.packageDirs t' cwd found paths = w.packageDirs t cwd found paths := by
  have hlocate : Workspace.locate t' cwd = Workspace.locate t cwd := by
    funext path
    rw [Workspace.locate, Workspace.locate, h.resolve]
  induction paths generalizing found with
  | nil => rfl
  | cons path paths ih =>
    simp only [Workspace.packageDirs, Workspace.packageDir, hlocate, ih]

/-- **Paths stand for the same packages.** -/
theorem expand (w : Workspace) (cwd : Location) (recursive : Bool) (paths : List String) :
    w.expand t' cwd recursive paths = w.expand t cwd recursive paths := by
  cases recursive with
  | false => exact h.packageDirs w cwd [] paths
  | true =>
    have hwalk : ∀ text, text ∈ paths.flatMap (t'.walk cwd) ↔
        text ∈ paths.flatMap (t.walk cwd) := fun text => by
      simp only [List.mem_flatMap, mem_walk, h.resolve, h.isDir, h.isVisited]
    have hsorted : dropRepeats (deepestFirst (paths.flatMap (t'.walk cwd))) =
        dropRepeats (deepestFirst (paths.flatMap (t.walk cwd))) :=
      sortedSet_congr deeperLe_trans deeperLe_total (fun _ _ _ _ => deeperLe_antisymm) hwalk
    unfold Workspace.expand
    dsimp only
    rw [if_pos rfl, if_pos rfl, h.packageDirs, ← Workspace.packageDirs_dropRepeats, hsorted,
      Workspace.packageDirs_dropRepeats]

theorem sessionDirs (w : Workspace) (cwd : Location) (options : SessionOptions) :
    Session.packageDirs w t' cwd options = Session.packageDirs w t cwd options := by
  simp only [Session.packageDirs, h.expand]

end Rewrites

end Tree

end BuildSync
