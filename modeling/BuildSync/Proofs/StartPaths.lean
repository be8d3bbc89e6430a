import BuildSync.Proofs.Walks

/-!
# The paths a session starts from

* `Workspace.packageDirs_of_known`, `Workspace.packageDirs_of_unknown`: what one path adds to the
  packages found before, which is nothing behind itself (`Workspace.packageDirs_dropRepeats`).
* `Workspace.expand_congr`, `Workspace.expand_perm`: a recursive session depends on the set of its
  paths, since the order it sorts spellings in tells them apart (`deeperLe_antisymm`).
* `Tree.isWalked`, `Workspace.started`: the paths that lead to directories, and those of a session
  that it does not pass over.
* `Workspace.exists_packageDirs`: packages are found if every path leads into the workspace.
* `Workspace.expand_covers`: a session has each path that it does not pass over once, or fails. A
  recursive one passes over what is no directory (`Workspace.expand_uncovered`).
-/

namespace BuildSync

open Build

/-- **Sorting tells spellings apart.** -/
theorem deeperLe_antisymm {a b : String} (hab : deeperLe a b = true) (hba : deeperLe b a = true) :
    a = b := by
  rw [deeperLe_iff] at hab hba
  obtain ⟨-, hab⟩ := hab.resolve_left (by omega)
  obtain ⟨-, hba⟩ := hba.resolve_left (by omega)
  exact textLe_antisymm hab hba

/-- A path leads to a directory, so a recursive session goes on from there. -/
def Tree.isWalked (t : Tree) (cwd : Location) (path : String) : Bool :=
  match t.resolve cwd path with
  | .ok start => t.isDir start
  | .error _ => false

theorem Tree.isWalked_iff {t : Tree} {cwd : Location} {path : String} :
    t.isWalked cwd path = true ↔
      ∃ start, t.resolve cwd path = .ok start ∧ t.isDir start = true := by
  unfold isWalked
  split <;> simp_all

namespace Workspace

variable {w : Workspace} {t : Tree} {cwd : Location} {found packages : List PackageDir}
  {path : String} {paths others : List String} {recursive : Bool}

/-! ## One path -/

theorem packageDir_eq_ok {package : PackageDir} : w.packageDir t cwd path = .ok package ↔
    t.resolve cwd path = .ok package.dir ∧ w.relative? package.dir = some package.package ∧
      shown path = package.display := by
  obtain ⟨dir, display, name⟩ := package
  unfold packageDir packageOf
  cases hdir : locate t cwd path with
  | error problem =>
    have hnone : t.resolve cwd path ≠ .ok dir := fun h => by simp [locate_eq_ok.2 h] at hdir
    simp [bind, Except.bind, hnone]
  | ok place =>
    rw [locate_eq_ok.1 hdir]
    cases hname : w.relative? place <;> simp [bind, Except.bind, pure, Except.pure] <;> grind

/-- A path to a known package adds nothing. -/
theorem packageDirs_of_known {known : PackageDir} (hknown : known ∈ found)
    (h : t.resolve cwd path = .ok known.dir) :
    w.packageDirs t cwd found (path :: paths) = w.packageDirs t cwd found paths := by
  have hany : (found.any fun other => other.dir = known.dir) = true :=
    List.any_eq_true.2 ⟨known, hknown, decide_eq_true rfl⟩
  conv_lhs => rw [packageDirs, locate_eq_ok.2 h]
  exact if_pos hany

/-- A path to no known package adds the one that it stands for. -/
theorem packageDirs_of_unknown (h : ∀ known ∈ found, t.resolve cwd path ≠ .ok known.dir) :
    w.packageDirs t cwd found (path :: paths) =
      (w.packageDir t cwd path >>= fun package =>
        w.packageDirs t cwd (found ++ [package]) paths) := by
  cases hdir : locate t cwd path with
  | error problem =>
    rw [packageDir, hdir, packageDirs, hdir]
    rfl
  | ok dir =>
    have hany : ¬ (found.any fun known => known.dir = dir) = true := fun hany => by
      obtain ⟨known, hknown, hsame⟩ := List.any_eq_true.1 hany
      exact h known hknown (of_decide_eq_true hsame ▸ locate_eq_ok.1 hdir)
    conv_lhs => rw [packageDirs, hdir]
    exact if_neg hany

theorem packageDirs_cons_cons (found : List PackageDir) (path : String) (paths : List String) :
    w.packageDirs t cwd found (path :: path :: paths) =
      w.packageDirs t cwd found (path :: paths) := by
  by_cases hknown : ∃ known ∈ found, t.resolve cwd path = .ok known.dir
  · obtain ⟨known, hknown, hdir⟩ := hknown
    exact packageDirs_of_known hknown hdir
  · have hunknown : ∀ known ∈ found, t.resolve cwd path ≠ .ok known.dir := by
      simpa using hknown
    rw [packageDirs_of_unknown hunknown, packageDirs_of_unknown hunknown]
    cases hpackage : w.packageDir t cwd path with
    | error problem => rfl
    | ok package =>
      -- The second time, the path leads to the package that it added.
      exact packageDirs_of_known (List.mem_append_right _ (List.mem_singleton_self package))
        (packageDir_eq_ok.1 hpackage).1

/-- **A path adds nothing behind itself.** -/
theorem packageDirs_dropRepeats (found : List PackageDir) (paths : List String) :
    w.packageDirs t cwd found (dropRepeats paths) = w.packageDirs t cwd found paths := by
  induction paths using dropRepeats.induct generalizing found with
  | case1 => rfl
  | case2 path => rfl
  | case3 path rest ih => rw [dropRepeats, if_pos rfl, ih, packageDirs_cons_cons]
  | case4 path other rest hne ih =>
    rw [dropRepeats, if_neg hne, packageDirs, packageDirs]
    simp only [ih]

/-! ## The order of the paths of a recursive session -/

/-- Which spelling of a directory is kept, and where its package stands, is decided by sorting what
the walks list. -/
theorem expand_congr_walks
    (h : ∀ text, text ∈ paths.flatMap (t.walk cwd) ↔ text ∈ others.flatMap (t.walk cwd)) :
    w.expand t cwd true paths = w.expand t cwd true others := by
  have hsorted : dropRepeats (deepestFirst (paths.flatMap (t.walk cwd))) =
      dropRepeats (deepestFirst (others.flatMap (t.walk cwd))) :=
    sortedSet_congr deeperLe_trans deeperLe_total (fun _ _ _ _ => deeperLe_antisymm) h
  unfold expand
  dsimp only
  rw [if_pos rfl, if_pos rfl, ← packageDirs_dropRepeats, hsorted, packageDirs_dropRepeats]

/-- **A recursive session depends on the set of its paths.** -/
theorem expand_congr (h : ∀ path, path ∈ paths ↔ path ∈ others) :
    w.expand t cwd true paths = w.expand t cwd true others :=
  expand_congr_walks fun text => by simp only [List.mem_flatMap, h]

/-- **A recursive session does not depend on the order of its paths**: the packages, the spellings
that are shown and the order of the updates are the same, or the error is. -/
theorem expand_perm (h : paths.Perm others) :
    w.expand t cwd true paths = w.expand t cwd true others :=
  expand_congr fun _ => h.mem_iff

/-- Of two spellings of the hidden directory, the longer one is shown. -/
theorem expand_spelledTwice : (Workspace.mk []).expand hiddenTree [] true ["./.a", ".a"] =
    .ok [⟨[".a"], "./.a", ".a"⟩] := by
  have hwalks : ["./.a", ".a"].flatMap (hiddenTree.walk []) = ["./.a", ".a"] := by
    decide +kernel
  have hfirst : deeperLe "./.a" ".a" = true := by
    decide +kernel
  have hsorted : deepestFirst ["./.a", ".a"] = ["./.a", ".a"] := by
    simp [deepestFirst, List.mergeSort, List.MergeSort.Internal.splitInTwo, hfirst]
  have hfound : ((Workspace.mk []).packageDirs hiddenTree [] [] ["./.a", ".a"]).toOption =
      some [⟨[".a"], "./.a", ".a"⟩] := by
    decide +kernel
  unfold expand
  dsimp only
  rw [if_pos rfl, hwalks, hsorted]
  exact toOption_eq_some.1 hfound

theorem expand_perm_spelledTwice : [".a", "./.a"].Perm ["./.a", ".a"] ∧
    (Workspace.mk []).expand hiddenTree [] true [".a", "./.a"] =
      .ok [⟨[".a"], "./.a", ".a"⟩] := by
  have hswap : [".a", "./.a"].Perm ["./.a", ".a"] := .swap _ _ _
  exact ⟨hswap, (expand_perm hswap).trans expand_spelledTwice⟩

/-! ## What becomes of each path -/

/-- The paths that a session does not pass over: in a recursive one, those that lead to
directories. -/
def started (t : Tree) (cwd : Location) (recursive : Bool) (paths : List String) : List String :=
  if recursive then paths.filter (t.isWalked cwd) else paths

/-- A path leads into the workspace. -/
def Leads (w : Workspace) (t : Tree) (cwd : Location) (path : String) : Prop :=
  ∃ dir, t.resolve cwd path = .ok dir ∧ (w.relative? dir).isSome = true

theorem leads_iff : w.Leads t cwd path ↔ ∃ package, w.packageDir t cwd path = .ok package := by
  simp only [packageDir_eq_ok]
  constructor
  · rintro ⟨dir, hdir, hname⟩
    obtain ⟨name, hname⟩ := Option.isSome_iff_exists.1 hname
    exact ⟨⟨dir, shown path, name⟩, hdir, hname, rfl⟩
  · rintro ⟨package, hdir, hname, -⟩
    exact ⟨package.dir, hdir, by rw [hname]; rfl⟩

/-- Each path leads to a package that is found. -/
theorem exists_of_packageDirs (h : w.packageDirs t cwd [] paths = .ok packages) :
    ∀ path ∈ paths, ∃ package ∈ packages, t.resolve cwd path = .ok package.dir := by
  have hR : paths.Pairwise fun _ _ => True := List.pairwise_of_forall fun _ _ => trivial
  obtain ⟨-, -, -, hall, -⟩ := exists_first hR h
  exact hall

/-- **Packages are found if every path leads into the workspace.** -/
theorem exists_packageDirs :
    (∃ packages, w.packageDirs t cwd [] paths = .ok packages) ↔
      ∀ path ∈ paths, w.Leads t cwd path := by
  constructor
  · rintro ⟨packages, h⟩ path hpath
    obtain ⟨package, hmem, hdir⟩ := exists_of_packageDirs h path hpath
    have hname := (nodup_packageDirs h (by simp) (by simp)).2 package hmem
    exact ⟨package.dir, hdir, by rw [hname]; rfl⟩
  · intro h
    -- The packages found before play no part.
    generalize [] = found
    induction paths generalizing found with
    | nil => exact ⟨found, rfl⟩
    | cons path paths ih =>
      obtain ⟨hfirst, hrest⟩ := List.forall_mem_cons.1 h
      by_cases hknown : ∃ known ∈ found, t.resolve cwd path = .ok known.dir
      · obtain ⟨known, hknown, hdir⟩ := hknown
        rw [packageDirs_of_known hknown hdir]
        exact ih hrest found
      · have hunknown : ∀ known ∈ found, t.resolve cwd path ≠ .ok known.dir := by
          simpa using hknown
        obtain ⟨package, hpackage⟩ := leads_iff.1 hfirst
        rw [packageDirs_of_unknown hunknown, hpackage]
        exact ih hrest _

/-- What a recursive session passes over has no part in it. -/
theorem expand_started :
    w.expand t cwd recursive paths = w.expand t cwd recursive (started t cwd recursive paths) := by
  cases recursive with
  | false => rfl
  | true =>
    refine expand_congr_walks fun text => ?_
    simp only [List.mem_flatMap, started, if_true, List.mem_filter]
    refine exists_congr fun path => ⟨fun ⟨hpath, hmem⟩ => ⟨⟨hpath, ?_⟩, hmem⟩,
      fun ⟨hpath, hmem⟩ => ⟨hpath.1, hmem⟩⟩
    obtain ⟨start, -, hstart, hdir, -⟩ := Tree.mem_walk.1 hmem
    exact Tree.isWalked_iff.2 ⟨start, hstart, hdir⟩

/-- The spellings that a session goes through. -/
def spellings (t : Tree) (cwd : Location) (recursive : Bool) (paths : List String) : List String :=
  if recursive then deepestFirst (paths.flatMap (t.walk cwd)) else paths

theorem mem_spellings_of_started (h : path ∈ started t cwd recursive paths) :
    path ∈ spellings t cwd recursive paths := by
  cases recursive with
  | false => exact h
  | true =>
    obtain ⟨hpath, hwalked⟩ := List.mem_filter.1 h
    obtain ⟨start, hstart, hdir⟩ := Tree.isWalked_iff.1 hwalked
    have hvisited := Tree.isVisited_nil (t := t) start
    exact mem_walks.2 ⟨path, hpath, start, [], hstart, hdir, hvisited, if_pos rfl⟩

/-- What is visited below a path leads into the workspace if the path does. -/
theorem leads_of_started (ht : t.IsWellFormed)
    (h : ∀ path ∈ started t cwd recursive paths, w.Leads t cwd path) :
    ∀ text ∈ spellings t cwd recursive paths, w.Leads t cwd text := by
  cases recursive with
  | false => exact h
  | true =>
    intro text htext
    obtain ⟨path, hpath, start, names, hstart, hdir, hvisited, rfl⟩ := mem_walks.1 htext
    have hwalked := Tree.isWalked_iff.2 ⟨start, hstart, hdir⟩
    obtain ⟨place, hplace, hname⟩ := h path (List.mem_filter.2 ⟨hpath, hwalked⟩)
    obtain rfl := Except.ok.inj (hstart.symm.trans hplace)
    obtain ⟨name, hname⟩ := Option.isSome_iff_exists.1 hname
    obtain ⟨front, rfl, -⟩ := relative?_eq_some.1 hname
    refine ⟨_, ht.resolve_visited hdir hvisited hstart, ?_⟩
    rw [List.append_assoc, relative?_append]
    rfl

/-- **What becomes of the paths of a session.** It fails if one of them leads nowhere in the
workspace, and else it has the directory of each as one package. Where it is recursive, this holds
of the paths that lead to directories, and the others have no part in it. -/
theorem expand_covers (ht : t.IsWellFormed) :
    w.expand t cwd recursive paths = w.expand t cwd recursive (started t cwd recursive paths) ∧
    ((∃ packages, w.expand t cwd recursive paths = .ok packages) ↔
      ∀ path ∈ started t cwd recursive paths, w.Leads t cwd path) ∧
    ∀ packages, w.expand t cwd recursive paths = .ok packages →
      ∀ path ∈ started t cwd recursive paths, ∃ dir, t.resolve cwd path = .ok dir ∧
        (packages.map (·.dir)).count dir = 1 := by
  have hexpand : w.expand t cwd recursive paths =
    w.packageDirs t cwd [] (spellings t cwd recursive paths) := rfl
  refine ⟨expand_started, ?_, fun packages h path hpath => ?_⟩
  · rw [hexpand, exists_packageDirs]
    exact ⟨fun h path hpath => h path (mem_spellings_of_started hpath), leads_of_started ht⟩
  · rw [hexpand] at h
    obtain ⟨package, hmem, hdir⟩ := exists_of_packageDirs h path (mem_spellings_of_started hpath)
    exact ⟨package.dir, hdir, List.count_eq_one_of_mem
      (nodup_packageDirs h (by simp) (by simp)).1 (List.mem_map_of_mem hmem)⟩

/-- A recursive session in the hidden tree, asked for a path that leads nowhere too. -/
theorem expand_covers_hidden : hiddenTree.IsWellFormed ∧
    started hiddenTree [] true ["./", "nope", "./.a"] = ["./", "./.a"] ∧
    (Workspace.mk []).expand hiddenTree [] true ["./", "nope", "./.a"] =
      .ok [⟨[".a"], "./.a", ".a"⟩, ⟨[], ".", ""⟩] ∧
    ∀ path ∈ ["./", "./.a"], ∃ dir, hiddenTree.resolve [] path = .ok dir ∧
      [[".a"], []].count dir = 1 := by
  have hstarted : started hiddenTree [] true ["./", "nope", "./.a"] = ["./", "./.a"] := by
    decide +kernel
  obtain ⟨hsame, -, hcount⟩ :=
    @expand_covers ⟨[]⟩ _ [] ["./", "nope", "./.a"] true isWellFormed_hiddenTree
  rw [hstarted] at hsame hcount
  have hexpand := hsame.trans expand_hiddenTree.1
  exact ⟨isWellFormed_hiddenTree, hstarted, hexpand, hcount _ hexpand⟩

/-- **A recursive session passes over paths that lead nowhere, and over files**, where one that is
not recursive fails or has a package. -/
theorem expand_uncovered :
    hiddenTree.resolve [] "nope" = .error .missing ∧
    (Workspace.mk []).expand hiddenTree [] true ["nope"] = .ok [] ∧
    (Workspace.mk []).expand hiddenTree [] false ["nope"] =
      .error (.unusableFile .resolve "nope" .missing) ∧
    hiddenTree.resolve [] ".a/x.ts" = .ok [".a", "x.ts"] ∧
    (Workspace.mk []).expand hiddenTree [] true [".a/x.ts"] = .ok [] := by
  have hfault : hiddenTree.resolve [] "nope" = .error .missing := by rfl
  have hplace : (hiddenTree.resolve [] ".a/x.ts").toOption = some [".a", "x.ts"] := by
    decide +kernel
  have hwalks : ["nope"].flatMap (hiddenTree.walk []) = [] ∧
      [".a/x.ts"].flatMap (hiddenTree.walk []) = [] := by
    decide +kernel
  refine ⟨hfault, ?_, ?_, toOption_eq_some.1 hplace, ?_⟩
  · simp [expand, hwalks.1, deepestFirst, packageDirs]
  · simp [expand, packageDirs, locate, hfault, bind, Except.bind]
  · simp [expand, hwalks.2, deepestFirst, packageDirs]

end Workspace

end BuildSync
