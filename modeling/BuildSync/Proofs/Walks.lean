import BuildSync.Proofs.Runs

/-!
# Walks go bottom-up

A recursive session updates what lies below a directory before the directory itself. Its packages
are sorted by the lengths of the paths that lead to them, spelled as they were asked for.

* `joinNames`: the spelling of a place below a path; it leads there (`Tree.resolve_joinNames`) and
  is longer (`size_lt_joinNames`).
* `Tree.isVisited_append`, `Tree.mem_walk`: a walk goes on from each directory it visits.
* `Workspace.exists_first`: packages stand in the order of the first paths that lead to them.
* `Workspace.mem_expand`, `Workspace.expand_bottomUp`: the packages that paths stand for, and their
  order. It is bottom-up where walks lead from one package to the other; elsewhere it depends on
  the spellings (`Workspace.expand_topDown`).
-/

namespace BuildSync

open Build

/-! ## Spellings -/

/-- The spelling of a place below a path. -/
def joinNames (path : String) (names : List String) : String :=
  if names = [] then path else joinText path (String.intercalate "/" names)

namespace Path

/-- A path that ends with a slash has an empty segment at its end. -/
theorem exists_of_getLast? {path : String} (h : path.toList.getLast? = some '/') :
    ∃ front, path = front ++ "/" ∧ segments path = segments front ++ [""] := by
  obtain ⟨cs, hcs⟩ := List.getLast?_eq_some_iff.1 h
  have hpath : path = String.ofList cs ++ "/" := by
    rw [← String.toList_inj]
    simpa using hcs
  refine ⟨String.ofList cs, hpath, ?_⟩
  have hsegments := segments_append_slash (String.ofList cs) ""
  rwa [String.append_empty, ← hpath] at hsegments

end Path

section
variable {path : String} {names more : List String} (hpath : path ≠ "")
  (hnames : ∀ name ∈ names, Path.IsName name)
include hpath hnames

/-- The names below a path follow it, behind a slash. -/
theorem joinNames_eq (hn : names ≠ []) : joinNames path names =
    if path.toList.getLast? = some '/' then path ++ String.intercalate "/" names
    else path ++ "/" ++ String.intercalate "/" names := by
  unfold joinNames joinText
  rw [if_neg hn, if_neg (by simp [Path.not_startsAtRoot hn hnames]), if_neg hpath]

theorem joinNames_ne_empty : joinNames path names ≠ "" := by
  by_cases hn : names = []
  · rwa [joinNames, if_pos hn]
  · rw [joinNames_eq hpath hnames hn]
    split <;> simp [hpath]

/-- **A place below a path is spelled longer.** -/
theorem size_lt_joinNames (hn : names ≠ []) :
    path.utf8ByteSize < (joinNames path names).utf8ByteSize := by
  have hpos : 0 < (String.intercalate "/" names).utf8ByteSize := by
    rw [Nat.pos_iff_ne_zero, Ne, String.utf8ByteSize_eq_zero_iff]
    exact fun hnil => hn (intercalate_inj hnames (by simp) hnil)
  rw [joinNames_eq hpath hnames hn]
  split <;> simp only [String.utf8ByteSize_append] <;> omega

theorem size_le_joinNames : path.utf8ByteSize ≤ (joinNames path names).utf8ByteSize := by
  by_cases hn : names = []
  · rw [joinNames, if_pos hn]
  · exact (size_lt_joinNames hpath hnames hn).le

theorem joinNames_append (hmore : ∀ name ∈ more, Path.IsName name) :
    joinNames path (names ++ more) = joinNames (joinNames path names) more := by
  by_cases hn : names = []
  · simp [hn, joinNames]
  by_cases hm : more = []
  · simp [hm, joinNames]
  have hlast : (joinNames path names).toList.getLast? ≠ some '/' := by
    have hchars : (String.intercalate "/" names).toList ≠ [] := fun hnil =>
      hn (intercalate_inj hnames (by simp) (String.toList_inj.1 (hnil.trans rfl)))
    rw [joinNames_eq hpath hnames hn]
    split <;> rw [String.toList_append, List.getLast?_append_of_ne_nil _ hchars] <;>
      exact Tree.getLast?_intercalate hn hnames
  rw [joinNames_eq (joinNames_ne_empty hpath hnames) hmore hm, if_neg hlast,
    joinNames_eq hpath hnames hn,
    joinNames_eq hpath (List.forall_mem_append.2 ⟨hnames, hmore⟩) (by simp [hn]),
    String.intercalate_append_of_ne_nil hn hm]
  split <;> simp only [String.append_assoc]

/-- **A place further down is spelled longer.** -/
theorem size_joinNames_lt (hmore : ∀ name ∈ more, Path.IsName name) (hm : more ≠ []) :
    (joinNames path names).utf8ByteSize < (joinNames path (names ++ more)).utf8ByteSize := by
  rw [joinNames_append hpath hnames hmore]
  exact size_lt_joinNames (joinNames_ne_empty hpath hnames) hmore hm

theorem size_joinNames_le (hmore : ∀ name ∈ more, Path.IsName name) :
    (joinNames path names).utf8ByteSize ≤ (joinNames path (names ++ more)).utf8ByteSize := by
  rw [joinNames_append hpath hnames hmore]
  exact size_le_joinNames (joinNames_ne_empty hpath hnames) hmore

end

/-! ## Where spellings lead -/

/-- The location one step away. -/
def Location.step (location : Location) (segment : String) : Location :=
  if segment = "" ∨ segment = "." then location
  else if segment = ".." then location.dropLast
  else location ++ [segment]

namespace Tree

variable {t : Tree} {cwd location start : Location} {path : String} {names more : List String}

theorem follow_nil_eq_ok : t.follow location [] = .ok start ↔
    (t.node? location).isSome = true ∧ location = start := by
  rw [follow]
  split <;> simp_all

theorem follow_cons_eq_ok {segment : String} {rest : List String} :
    t.follow location (segment :: rest) = .ok start ↔
      t.isDir location = true ∧ t.follow (location.step segment) rest = .ok start := by
  unfold isDir Location.step
  rw [follow]
  cases hnode : t.node? location with
  | none => simp
  | some node =>
    cases node with
    | directory =>
      simp only [decide_true, true_and]
      split
      · rfl
      · split <;> rfl
    | text text => simp
    | binary => simp

/-- Segments lead where those in front lead, and on from there. -/
theorem follow_append_eq_ok {front rest : List String} {segment : String} :
    t.follow location (front ++ segment :: rest) = .ok start ↔
      ∃ place, t.follow location front = .ok place ∧
        t.follow place (segment :: rest) = .ok start := by
  induction front generalizing location with
  | nil =>
    rw [List.nil_append]
    refine ⟨fun h => ⟨location, ?_, h⟩, ?_⟩
    · exact follow_nil_eq_ok.2 ⟨isSome_of_isDir (follow_cons_eq_ok.1 h).1, rfl⟩
    · rintro ⟨place, hplace, h⟩
      exact (follow_nil_eq_ok.1 hplace).2 ▸ h
  | cons first front ih =>
    rw [List.cons_append, follow_cons_eq_ok, ih]
    simp only [follow_cons_eq_ok, and_assoc, exists_and_left]

theorem ne_empty_of_resolve (h : t.resolve cwd path = .ok start) : path ≠ "" := by
  rintro rfl
  simp [resolve] at h

/-- **A place below a path is where its spelling leads.** -/
theorem IsWellFormed.resolve_joinNames (ht : t.IsWellFormed) (h : t.resolve cwd path = .ok start)
    (hnode : (t.node? (start ++ names)).isSome = true) :
    t.resolve cwd (joinNames path names) = .ok (start ++ names) := by
  have hpath := ne_empty_of_resolve h
  have hnames := (List.forall_mem_append.1 (ht.isName _ hnode)).2
  cases names with
  | nil => simpa [joinNames] using h
  | cons name rest =>
    have hgo := ht.follow hnode
    have hsegments := Path.segments_intercalate (List.cons_ne_nil name rest) hnames
    have hroot (text : String) : Path.startsAtRoot (path ++ text) = Path.startsAtRoot path := by
      have hchars : path.toList ≠ [] := by simpa using hpath
      simp [Path.startsAtRoot, List.head?_append_of_ne_nil _ hchars]
    unfold resolve at h ⊢
    rw [if_neg hpath] at h
    rw [if_neg (joinNames_ne_empty hpath hnames), joinNames_eq hpath hnames (List.cons_ne_nil _ _)]
    split
    · rename_i hlast
      obtain ⟨front, hfront, hparts⟩ := Path.exists_of_getLast? hlast
      rw [hparts] at h
      obtain ⟨place, hplace, hend⟩ := follow_append_eq_ok.1 h
      -- The segment at the end leads nowhere else.
      have hsame : place.step "" = start := (follow_nil_eq_ok.1 (follow_cons_eq_ok.1 hend).2).2
      rw [hroot, hfront, Path.segments_append_slash, hsegments, ← hfront]
      exact follow_append_eq_ok.2 ⟨start, hsame ▸ hplace, hgo⟩
    · rw [String.append_assoc, hroot, ← String.append_assoc, Path.segments_append_slash, hsegments]
      exact follow_append_eq_ok.2 ⟨start, h, hgo⟩

/-! ## What a walk visits -/

@[simp] theorem isVisited_nil (location : Location) : t.isVisited location [] = true := by
  simp [isVisited]

/-- **A walk goes on from each directory it visits.** -/
theorem isVisited_append : t.isVisited location (names ++ more) =
    (t.isVisited location names && t.isVisited (location ++ names) more) := by
  unfold isVisited
  rw [List.length_append, List.range_add, List.all_append, List.all_map]
  congr 1
  · rw [Bool.eq_iff_iff, List.all_eq_true, List.all_eq_true]
    refine forall₂_congr fun n hn => ?_
    rw [List.mem_range] at hn
    rw [List.take_append_of_le_length (by omega)]
  · rw [Bool.eq_iff_iff, List.all_eq_true, List.all_eq_true]
    refine forall₂_congr fun n hn => ?_
    have htake : (names ++ more).take (names.length + n + 1) = names ++ more.take (n + 1) := by
      rw [Nat.add_assoc, List.take_length_add_append]
    have hne : more.take (n + 1) ≠ [] := by
      rw [List.mem_range] at hn
      simp [List.ne_nil_of_length_pos (Nat.zero_lt_of_lt hn)]
    rw [Function.comp_apply, htake]
    dsimp only
    rw [List.getLast?_append_of_ne_nil _ hne, ← List.append_assoc]

theorem isDir_of_isVisited (hn : names ≠ []) (h : t.isVisited location names = true) :
    t.isDir (location ++ names) = true := by
  have hlength := List.length_pos_of_ne_nil hn
  have hlast := List.all_eq_true.1 h (names.length - 1) (List.mem_range.2 (by omega))
  rw [Nat.sub_add_cancel hlength, List.take_length] at hlast
  simp only [Bool.and_eq_true] at hlast
  exact hlast.1.2

/-- **What is below a directory** is visited if nothing on the way is passed over. -/
theorem mem_visited : names ∈ t.visited location ↔
    names ≠ [] ∧ t.isVisited location names = true := by
  unfold visited
  rw [List.mem_mergeSort, List.mem_filterMap]
  constructor
  · rintro ⟨⟨place, node⟩, -, h⟩
    dsimp only at h
    split at h
    · cases h
    · split at h
      · rename_i hvisited
        cases h
        exact hvisited.2
      · cases h
  · rintro ⟨hn, hvisited⟩
    have hdir : t.node? (location ++ names) = some .directory :=
      of_decide_eq_true (isDir_of_isVisited hn hvisited)
    rw [node?, if_neg (by simp [hn]), List.lookup_eq_some_iff] at hdir
    obtain ⟨front, back, hentries, -⟩ := hdir
    refine ⟨(location ++ names, .directory), by rw [hentries]; simp, ?_⟩
    have hbelow : location.isPrefixOf? (location ++ names) = some names :=
      List.isPrefixOf?_eq_some_iff_append_eq.2 rfl
    simp [hbelow, hn, hvisited]

/-- **What a walk lists**: the path, if it leads to a directory, and the spellings of what is
visited below. -/
theorem mem_walk {text : String} : text ∈ t.walk cwd path ↔
    ∃ start names, t.resolve cwd path = .ok start ∧ t.isDir start = true ∧
      t.isVisited start names = true ∧ joinNames path names = text := by
  unfold walk
  constructor
  · intro h
    split at h
    · cases h
    · rename_i start hstart
      split at h
      · rename_i hdir
        rcases List.mem_cons.1 h with rfl | h
        · exact ⟨start, [], hstart, hdir, isVisited_nil _, rfl⟩
        · obtain ⟨names, hnames, rfl⟩ := List.mem_map.1 h
          obtain ⟨hn, hvisited⟩ := mem_visited.1 hnames
          exact ⟨start, names, hstart, hdir, hvisited, if_neg hn⟩
      · cases h
  · rintro ⟨start, names, hstart, hdir, hvisited, rfl⟩
    rw [hstart]
    dsimp only
    rw [if_pos hdir]
    by_cases hn : names = []
    · rw [joinNames, if_pos hn]
      exact List.mem_cons_self
    · rw [joinNames, if_neg hn]
      exact List.mem_cons_of_mem _ (List.mem_map_of_mem (mem_visited.2 ⟨hn, hvisited⟩))

theorem isDir_append_of_isVisited (hdir : t.isDir location = true)
    (h : t.isVisited location names = true) : t.isDir (location ++ names) = true := by
  by_cases hn : names = []
  · rwa [hn, List.append_nil]
  · exact isDir_of_isVisited hn h

section
variable (ht : t.IsWellFormed) (hdir : t.isDir start = true)
  (hvisited : t.isVisited start names = true)
include ht hdir hvisited

theorem IsWellFormed.isName_of_isVisited : ∀ name ∈ names, Path.IsName name :=
  (List.forall_mem_append.1
    (ht.isName _ (isSome_of_isDir (isDir_append_of_isVisited hdir hvisited)))).2

/-- **What a walk lists leads there.** -/
theorem IsWellFormed.resolve_visited (h : t.resolve cwd path = .ok start) :
    t.resolve cwd (joinNames path names) = .ok (start ++ names) :=
  ht.resolve_joinNames h (isSome_of_isDir (isDir_append_of_isVisited hdir hvisited))

end

/-! ## What a walk reads -/

/-- The names of files that have directories passed over, and of what marks a repository. -/
def ignoreNames : List String :=
  [".ignore", ".gitignore", "exclude", ".git"]

section
variable {t' : Tree} (hnodes : ∀ place, ∀ name ∈ ignoreNames,
  t'.node? (place ++ [name]) = t.node? (place ++ [name]))
include hnodes

theorem verdictOf?_congr {name : String} (hname : name ∈ ignoreNames) (front : List String)
    (dir location : Location) :
    t'.verdictOf? dir (front ++ [name]) location = t.verdictOf? dir (front ++ [name]) location := by
  unfold verdictOf?
  rw [← List.append_assoc, hnodes _ name hname]

theorem upToRepository_congr (dirs : List Location) :
    t'.upToRepository dirs = t.upToRepository dirs := by
  have hrepository : t'.isRepository = t.isRepository := by
    funext dir
    unfold isRepository
    rw [hnodes dir ".git" (by decide)]
  induction dirs with
  | nil => rfl
  | cons dir dirs ih => rw [upToRepository, upToRepository, ih, hrepository]

/-- What is passed over depends on the files that say so. -/
theorem isIgnored_congr (location : Location) : t'.isIgnored location = t.isIgnored location := by
  have hignore (dir : Location) :
      t'.verdictOf? dir [".ignore"] location = t.verdictOf? dir [".ignore"] location :=
    verdictOf?_congr hnodes (by decide) [] dir location
  have htracked (dir : Location) :
      t'.verdictOf? dir [".gitignore"] location = t.verdictOf? dir [".gitignore"] location :=
    verdictOf?_congr hnodes (by decide) [] dir location
  have hexclude (dir : Location) : t'.verdictOf? dir [".git", "info", "exclude"] location =
      t.verdictOf? dir [".git", "info", "exclude"] location :=
    verdictOf?_congr hnodes (by decide) [".git", "info"] dir location
  unfold isIgnored ignoreFiles
  simp only [upToRepository_congr hnodes, List.findSome?_append, List.findSome?_map,
    Function.comp_def, hignore, htracked, hexclude]

/-- **What a walk visits** depends on the directories and on the files that have some passed
over. -/
theorem mem_visited_congr (hdirs : ∀ place, t'.isDir place = t.isDir place) :
    names ∈ t'.visited location ↔ names ∈ t.visited location := by
  rw [mem_visited, mem_visited]
  unfold isVisited
  simp only [hdirs, isIgnored_congr hnodes]

end

/-! ## Spellings of places below each other -/

/-- Of two paths, one that leads below the other, where that one's walk does not, is longer than the
spelling from there of the directory above. -/
def SpellsDeeper (t : Tree) (cwd : Location) (paths : List String) : Prop :=
  ∀ path ∈ paths, ∀ other ∈ paths, ∀ start names, t.resolve cwd path = .ok start →
    t.resolve cwd other = .ok (start ++ names) → names ≠ [] → names ∉ t.visited start →
    (joinNames path names.dropLast).utf8ByteSize < other.utf8ByteSize

/-- Paths that are all spelled from one of them, or from some other path, do so. -/
theorem spellsDeeper_of_base {base : String} {paths : List String} (ht : t.IsWellFormed)
    (hbase : t.resolve cwd base = .ok location) (h : ∀ path ∈ paths, ∃ names,
      (t.node? (location ++ names)).isSome = true ∧ joinNames base names = path) :
    t.SpellsDeeper cwd paths := by
  intro path hpath other hother start names hstart hleads hn _
  obtain ⟨front, hfront, rfl⟩ := h path hpath
  obtain ⟨more, hmore, rfl⟩ := h other hother
  cases (ht.resolve_joinNames hbase hfront).symm.trans hstart
  have hsame := Except.ok.inj ((ht.resolve_joinNames hbase hmore).symm.trans hleads)
  rw [List.append_assoc] at hsame
  obtain rfl := List.append_cancel_left hsame
  have hbase := ne_empty_of_resolve hbase
  have hnames := (List.forall_mem_append.1 (ht.isName _ hmore)).2
  obtain ⟨up, name, rfl⟩ := List.eq_nil_or_concat' names |>.resolve_left hn
  simp only [List.forall_mem_append] at hnames
  obtain ⟨hnames, hup, hname⟩ := hnames
  rw [List.dropLast_concat, ← joinNames_append hbase hnames hup, ← List.append_assoc]
  exact size_joinNames_lt hbase (List.forall_mem_append.2 ⟨hnames, hup⟩) hname (by simp)

end Tree

/-! ## The order of paths -/

theorem deeperLe_iff {a b : String} : deeperLe a b = true ↔
    b.utf8ByteSize < a.utf8ByteSize ∨ a.utf8ByteSize = b.utf8ByteSize ∧ textLe a b = true := by
  simp [deeperLe]

theorem deeperLe_total (a b : String) : (deeperLe a b || deeperLe b a) = true := by
  rw [Bool.or_eq_true, deeperLe_iff, deeperLe_iff]
  have htexts := textLe_total a b
  rw [Bool.or_eq_true] at htexts
  grind

theorem deeperLe_trans (a b c : String) (hab : deeperLe a b = true) (hbc : deeperLe b c = true) :
    deeperLe a c = true := by
  rw [deeperLe_iff] at hab hbc ⊢
  have htexts := textLe_trans a b c
  grind

/-- **No path stands before a longer one.** -/
theorem pairwise_deepestFirst (paths : List String) :
    (deepestFirst paths).Pairwise fun a b => b.utf8ByteSize ≤ a.utf8ByteSize :=
  (List.pairwise_mergeSort deeperLe_trans deeperLe_total paths).imp fun h => by
    have h := deeperLe_iff.1 h
    omega

theorem mem_deepestFirst {path : String} {paths : List String} :
    path ∈ deepestFirst paths ↔ path ∈ paths :=
  List.mem_mergeSort

/-! ## The order of packages -/

namespace Workspace

variable {w : Workspace} {t : Tree} {cwd : Location} {found packages : List PackageDir}
  {paths : List String}

theorem locate_eq_ok {path : String} {location : Location} :
    locate t cwd path = .ok location ↔ t.resolve cwd path = .ok location := by
  unfold locate
  split <;> simp_all

/-- **Packages stand in the order of the first paths that lead to them**: what holds of each path
and those behind it holds of the first path to a package and all those to the packages behind. -/
theorem exists_first {R : String → String → Prop} (hR : paths.Pairwise R)
    (h : w.packageDirs t cwd found paths = .ok packages) : ∃ new, packages = found ++ new ∧
      (∀ package ∈ new, (∃ path ∈ paths, t.resolve cwd path = .ok package.dir) ∧
        ∀ other ∈ found, other.dir ≠ package.dir) ∧
      (∀ path ∈ paths, ∃ package ∈ packages, t.resolve cwd path = .ok package.dir) ∧
      new.Pairwise fun a b => ∃ path ∈ paths, t.resolve cwd path = .ok a.dir ∧
        ∀ other ∈ paths, t.resolve cwd other = .ok b.dir → R path other := by
  induction paths generalizing found with
  | nil =>
    cases h
    exact ⟨[], by simp⟩
  | cons path paths ih =>
    obtain ⟨hfirst, hR⟩ := List.pairwise_cons.1 hR
    unfold packageDirs at h
    obtain ⟨dir, hdir, h⟩ := bind_eq_ok.1 h
    have hdir := locate_eq_ok.1 hdir
    split at h
    · -- The path leads to a package that was found before, so to none of the new ones.
      rename_i hfound
      obtain ⟨known, hknown, hsame⟩ := List.any_eq_true.1 hfound
      have hsame := of_decide_eq_true hsame
      obtain ⟨new, rfl, hnew, hall, horder⟩ := ih hR h
      refine ⟨new, rfl, fun package hmem => ?_, List.forall_mem_cons.2 ⟨?_, hall⟩, ?_⟩
      · obtain ⟨⟨other, hother, hleads⟩, hfresh⟩ := hnew package hmem
        exact ⟨⟨other, List.mem_cons_of_mem _ hother, hleads⟩, hfresh⟩
      · exact ⟨known, List.mem_append_left _ hknown, hsame ▸ hdir⟩
      · refine horder.imp_of_mem ?_
        rintro _ _ - hb ⟨first, hmem, hleads, hbefore⟩
        refine ⟨first, List.mem_cons_of_mem _ hmem, hleads,
          List.forall_mem_cons.2 ⟨fun hpath => ?_, hbefore⟩⟩
        exact absurd (hsame.trans (Except.ok.inj (hdir.symm.trans hpath)))
          ((hnew _ hb).2 known hknown)
    · -- The path leads to a new package, and to no other one.
      rename_i hfresh
      obtain ⟨package, hpackage, h⟩ := bind_eq_ok.1 h
      have hplace : package.dir = dir := by
        unfold packageDir at hpackage
        obtain ⟨place, hplace, hpackage⟩ := bind_eq_ok.1 hpackage
        obtain ⟨name, -, hpackage⟩ := bind_eq_ok.1 hpackage
        cases hpackage
        exact Except.ok.inj ((locate_eq_ok.1 hplace).symm.trans hdir)
      obtain ⟨new, rfl, hnew, hall, horder⟩ := ih hR h
      have hother : ∀ other ∈ new, t.resolve cwd path ≠ .ok other.dir := fun other hmem hpath =>
        (hnew other hmem).2 package (by simp) (hplace.trans (Except.ok.inj (hdir.symm.trans hpath)))
      refine ⟨package :: new, by simp, List.forall_mem_cons.2 ⟨⟨?_, ?_⟩, fun other hmem => ?_⟩,
        List.forall_mem_cons.2 ⟨?_, hall⟩, List.pairwise_cons.2 ⟨fun other hmem => ?_, ?_⟩⟩
      · exact ⟨path, List.mem_cons_self, hplace ▸ hdir⟩
      · intro known hknown hsame
        exact hfresh (List.any_eq_true.2 ⟨known, hknown, decide_eq_true (hsame.trans hplace)⟩)
      · obtain ⟨⟨first, hfirst, hleads⟩, hfresh⟩ := hnew other hmem
        exact ⟨⟨first, List.mem_cons_of_mem _ hfirst, hleads⟩, fun known hknown =>
          hfresh known (List.mem_append_left _ hknown)⟩
      · exact ⟨package, by simp, hplace ▸ hdir⟩
      · refine ⟨path, List.mem_cons_self, hplace ▸ hdir, List.forall_mem_cons.2 ⟨fun hpath => ?_,
          fun second hsecond _ => hfirst second hsecond⟩⟩
        exact absurd hpath (hother other hmem)
      · refine horder.imp_of_mem ?_
        rintro _ _ - hb ⟨first, hmem, hleads, hbefore⟩
        exact ⟨first, List.mem_cons_of_mem _ hmem, hleads,
          List.forall_mem_cons.2 ⟨fun hpath => absurd hpath (hother _ hb), hbefore⟩⟩

/-! ## Recursive sessions -/

/-- The paths that a recursive session goes through. -/
theorem mem_walks {text : String} : text ∈ deepestFirst (paths.flatMap (t.walk cwd)) ↔
    ∃ path ∈ paths, ∃ start names, t.resolve cwd path = .ok start ∧ t.isDir start = true ∧
      t.isVisited start names = true ∧ joinNames path names = text := by
  rw [mem_deepestFirst, List.mem_flatMap]
  exact exists_congr fun path => and_congr_right fun _ => Tree.mem_walk

section
variable (ht : t.IsWellFormed) (h : w.expand t cwd true paths = .ok packages)
include ht h

/-- **The packages of a recursive session** are the directories that paths lead to, with those that
are visited from there. -/
theorem mem_expand {dir : Location} : dir ∈ packages.map (·.dir) ↔
    ∃ path ∈ paths, ∃ start names, t.resolve cwd path = .ok start ∧ t.isDir start = true ∧
      t.isVisited start names = true ∧ start ++ names = dir := by
  obtain ⟨new, hpackages, hnew, hall, -⟩ := exists_first (pairwise_deepestFirst _) h
  rw [List.nil_append] at hpackages
  subst hpackages
  rw [List.mem_map]
  constructor
  · rintro ⟨package, hmem, rfl⟩
    obtain ⟨⟨text, htext, hplace⟩, -⟩ := hnew package hmem
    obtain ⟨path, hpath, start, names, hstart, hdir, hvisited, rfl⟩ := mem_walks.1 htext
    exact ⟨path, hpath, start, names, hstart, hdir, hvisited,
      Except.ok.inj ((ht.resolve_visited hdir hvisited hstart).symm.trans hplace)⟩
  · rintro ⟨path, hpath, start, names, hstart, hdir, hvisited, rfl⟩
    obtain ⟨package, hmem, hplace⟩ :=
      hall _ (mem_walks.2 ⟨path, hpath, start, names, hstart, hdir, hvisited, rfl⟩)
    exact ⟨package, hmem,
      Except.ok.inj (hplace.symm.trans (ht.resolve_visited hdir hvisited hstart))⟩

/-- A package stands where a spelling leads that is no shorter than those of the packages behind. -/
theorem pairwise_spelled : packages.Pairwise fun a b =>
    ∃ path ∈ paths, ∃ start names, t.resolve cwd path = .ok start ∧ t.isDir start = true ∧
      t.isVisited start names = true ∧ a.dir = start ++ names ∧
      ∀ other ∈ paths, ∀ place more, t.resolve cwd other = .ok place → t.isDir place = true →
        t.isVisited place more = true → b.dir = place ++ more →
        (joinNames other more).utf8ByteSize ≤ (joinNames path names).utf8ByteSize := by
  obtain ⟨new, hpackages, -, -, horder⟩ := exists_first (pairwise_deepestFirst _) h
  rw [List.nil_append] at hpackages
  subst hpackages
  refine horder.imp fun {a b} ⟨text, htext, hplace, hbefore⟩ => ?_
  obtain ⟨path, hpath, start, names, hstart, hdir, hvisited, rfl⟩ := mem_walks.1 htext
  refine ⟨path, hpath, start, names, hstart, hdir, hvisited,
    Except.ok.inj (hplace.symm.trans (ht.resolve_visited hdir hvisited hstart)), ?_⟩
  intro other hother place more hplace hdir hvisited hsame
  exact hbefore _ (mem_walks.2 ⟨other, hother, place, more, hplace, hdir, hvisited, rfl⟩)
    (hsame ▸ ht.resolve_visited hdir hvisited hplace)

/-- **A package is not updated before what is visited below it.** -/
theorem pairwise_visited : packages.Pairwise fun a b =>
    ∀ names ∈ t.visited a.dir, b.dir ≠ a.dir ++ names := by
  refine (pairwise_spelled ht h).imp fun {a b} hspelled more hmore hbelow => ?_
  obtain ⟨path, hpath, start, names, hstart, hdir, hvisited, hplace, hbefore⟩ := hspelled
  obtain ⟨hn, hmore⟩ := Tree.mem_visited.1 hmore
  rw [hplace] at hmore hbelow
  -- The walk that lists the package lists what is below it, under a longer spelling.
  have hall : t.isVisited start (names ++ more) = true := by
    rw [Tree.isVisited_append, hvisited, hmore]
    rfl
  have hnames := List.forall_mem_append.1 (ht.isName_of_isVisited hdir hall)
  have hsize := hbefore path hpath start _ hstart hdir hall (by rw [hbelow, List.append_assoc])
  have hlonger := size_joinNames_lt (Tree.ne_empty_of_resolve hstart) hnames.1 hnames.2 hn
  omega

/-- **Packages are updated bottom-up**: each once, and none before one that is visited below it.
Where a path leads below another one that does not visit it, this depends on how they are
spelled. -/
theorem expand_bottomUp : (packages.map (·.dir)).Nodup ∧
    (packages.Pairwise fun a b => ∀ names ∈ t.visited a.dir, b.dir ≠ a.dir ++ names) ∧
    (t.SpellsDeeper cwd paths →
      packages.Pairwise fun a b => ∀ names, names ≠ [] → b.dir ≠ a.dir ++ names) := by
  refine ⟨(nodup_packageDirs h (by simp) (by simp)).1, pairwise_visited ht h, fun hspells => ?_⟩
  refine ((pairwise_spelled ht h).and (pairwise_visited ht h)).imp_of_mem fun {a b} _ hb hab => ?_
  obtain ⟨⟨path, hpath, start, names, hstart, hdir, hvisited, hplace, hbefore⟩, hapart⟩ := hab
  intro below hn hbelow
  have hnot : t.isVisited a.dir below = false := Bool.eq_false_iff.2 fun hmore =>
    hapart below (Tree.mem_visited.2 ⟨hn, hmore⟩) hbelow
  obtain ⟨other, hother, place, more, hleads, hdir', hvisited', hsame⟩ :=
    (mem_expand ht h).1 (List.mem_map_of_mem hb)
  rcases List.append_eq_append_iff.1 (hsame.trans hbelow) with ⟨rest, hup, rfl⟩ | ⟨rest, rfl, rfl⟩
  · -- The second package is reached from the first one's directory or further up.
    rw [Tree.isVisited_append, ← hup, hnot, Bool.and_false] at hvisited'
    cases hvisited'
  · -- It is reached from further down, and the walk from there is not part of the first one's.
    rw [hplace] at hnot hleads hdir'
    rw [Tree.isVisited_append, ← hplace, hvisited', Bool.and_true, hplace] at hnot
    have hrest : rest ≠ [] := by
      rintro rfl
      simp at hnot
    have hnames : ∀ name ∈ start ++ names ++ rest, Path.IsName name :=
      ht.isName _ (Tree.isSome_of_isDir hdir')
    rw [List.forall_mem_append, List.forall_mem_append] at hnames
    have hpassed : names ++ rest ∉ t.visited start := fun hmem => by
      rw [Tree.mem_visited, Tree.isVisited_append, hnot, Bool.and_false] at hmem
      exact Bool.false_ne_true hmem.2
    have hspelled := hspells path hpath other hother start (names ++ rest) hstart
      (by rw [hleads, List.append_assoc]) (by simp [hrest]) hpassed
    have hsize := hbefore other hother _ more hleads hdir' (hplace ▸ hvisited')
      (by rw [← hsame, hplace])
    rw [List.dropLast_append_of_ne_nil hrest] at hspelled
    have hup := size_joinNames_le (Tree.ne_empty_of_resolve hstart) hnames.1.2 fun name hname =>
      hnames.2 name (List.mem_of_mem_dropLast hname)
    have hdown := size_le_joinNames (Tree.ne_empty_of_resolve hleads)
      (ht.isName_of_isVisited hdir' (hplace ▸ hvisited'))
    omega

end

/-- A directory that no walk visits. -/
def hiddenTree : Tree :=
  ⟨[([".a"], .directory), ([".a", "x.ts"], .text "")]⟩

theorem isWellFormed_hiddenTree : hiddenTree.IsWellFormed :=
  Tree.isWellFormed_of_entries (by decide)

theorem steps_hiddenTree :
    (["./", "./.a"].flatMap (hiddenTree.walk []) = ["./", "./.a"] ∧
      ["./", ".a"].flatMap (hiddenTree.walk []) = ["./", ".a"]) ∧
    (deeperLe "./" "./.a" = false ∧ deeperLe "./" ".a" = true) ∧
    ((Workspace.mk []).packageDirs hiddenTree [] [] ["./.a", "./"]).toOption =
      some [⟨[".a"], "./.a", ".a"⟩, ⟨[], ".", ""⟩] ∧
    ((Workspace.mk []).packageDirs hiddenTree [] [] ["./", ".a"]).toOption =
      some [⟨[], ".", ""⟩, ⟨[".a"], ".a", ".a"⟩] := by
  decide +kernel

/-- The paths in the hidden tree are sorted by their lengths. -/
theorem expand_hiddenTree :
    (Workspace.mk []).expand hiddenTree [] true ["./", "./.a"] =
      .ok [⟨[".a"], "./.a", ".a"⟩, ⟨[], ".", ""⟩] ∧
    (Workspace.mk []).expand hiddenTree [] true ["./", ".a"] =
      .ok [⟨[], ".", ""⟩, ⟨[".a"], ".a", ".a"⟩] := by
  obtain ⟨⟨hlong, hshort⟩, ⟨hbehind, hbefore⟩, hfound, hfound'⟩ := steps_hiddenTree
  have hsorted : deepestFirst ["./", "./.a"] = ["./.a", "./"] ∧
      deepestFirst ["./", ".a"] = ["./", ".a"] := by
    simp [deepestFirst, List.mergeSort, List.MergeSort.Internal.splitInTwo, hbehind,
      hbefore]
  unfold expand
  dsimp only
  rw [if_pos rfl, if_pos rfl, hlong, hshort, hsorted.1, hsorted.2]
  exact ⟨toOption_eq_some.1 hfound, toOption_eq_some.1 hfound'⟩

theorem expand_bottomUp_hidden :
    hiddenTree.IsWellFormed ∧
    (Workspace.mk []).expand hiddenTree [] true ["./", "./.a"] =
      .ok [⟨[".a"], "./.a", ".a"⟩, ⟨[], ".", ""⟩] ∧
    hiddenTree.SpellsDeeper [] ["./", "./.a"] ∧
    [PackageDir.mk [".a"] "./.a" ".a", ⟨[], ".", ""⟩].Pairwise
      fun a b => ∀ names, names ≠ [] → b.dir ≠ a.dir ++ names := by
  have hbase : (hiddenTree.resolve [] "./").toOption = some [] := by decide +kernel
  have hjoin : joinNames "./" [".a"] = "./.a" := by decide +kernel
  have hspells : hiddenTree.SpellsDeeper [] ["./", "./.a"] :=
    Tree.spellsDeeper_of_base isWellFormed_hiddenTree (toOption_eq_some.1 hbase)
      fun path hpath => by
      rcases List.mem_pair.1 hpath with rfl | rfl
      · exact ⟨[], rfl, rfl⟩
      · exact ⟨[".a"], rfl, hjoin⟩
  exact ⟨isWellFormed_hiddenTree, expand_hiddenTree.1, hspells,
    (expand_bottomUp isWellFormed_hiddenTree expand_hiddenTree.1).2.2 hspells⟩

/-- **A directory can be updated before one below it**: a longer spelling of it stands first. -/
theorem expand_topDown : hiddenTree.IsWellFormed ∧ ∃ packages,
    (Workspace.mk []).expand hiddenTree [] true ["./", ".a"] = .ok packages ∧
    ¬ packages.Pairwise fun a b => ∀ names, names ≠ [] → b.dir ≠ a.dir ++ names := by
  refine ⟨isWellFormed_hiddenTree, _, expand_hiddenTree.2, ?_⟩
  simp

end Workspace

end BuildSync
