import Mathlib.Data.List.Basic
import BuildSync.Target

/-!
# Files and the packages they are in

* `Tree.IsWellFormed`: every name says one step down, and what stands somewhere stands in a
  directory.
* `relative?_eq_some`, `intercalate_inj`: a file as seen from a directory above it is the names on
  the way, and these can be told from the spelling.
* `Tree.IsWellFormed.resolve_text`, `Tree.IsWellFormed.isPresent`: a spelled location leads to
  what stands there.
* `Location.location?_text`, `Location.parentText?_text`: it names the location and its directory.
* `owningPackage?_eq_some`, `owningPackage?_sibling`: the package that owns a file.
* `Tree.isFile_of_moduleFile?`: a specifier leads to a file; `isFile_of_target_sibling` and
  `exists_file_of_target_member` tell which.
-/

namespace BuildSync

/-! ## Names -/

/-- The name of a file or directory: it stands for one step down from its directory. -/
structure Path.IsName (name : String) : Prop where
  ne_empty : name ≠ ""
  slash : '/' ∉ name.toList
  ne_here : name ≠ "."
  ne_up : name ≠ ".."

theorem splitOnChar_of_not_mem {sep : Char} {cs : List Char} (h : sep ∉ cs) :
    Text.splitOnChar sep cs = [cs] := by
  induction cs with
  | nil => rfl
  | cons c cs ih =>
    rw [List.mem_cons, not_or] at h
    rw [Text.splitOnChar, if_neg (Ne.symm h.1), ih h.2]

theorem splitOnChar_append_cons (sep : Char) (cs rest : List Char) :
    Text.splitOnChar sep (cs ++ sep :: rest) =
      Text.splitOnChar sep cs ++ Text.splitOnChar sep rest := by
  induction cs with
  | nil => simp [Text.splitOnChar]
  | cons c cs ih =>
    rw [List.cons_append, Text.splitOnChar, Text.splitOnChar, ih]
    by_cases hc : c = sep
    · simp [hc]
    · rw [if_neg hc, if_neg hc]
      cases hsplit : Text.splitOnChar sep cs with
      | nil => exact absurd hsplit (Text.splitOnChar_ne_nil sep cs)
      | cons part parts => rfl

theorem splitOnChar_append {sep : Char} {cs : List Char} (h : sep ∉ cs) (rest : List Char) :
    Text.splitOnChar sep (cs ++ sep :: rest) = cs :: Text.splitOnChar sep rest := by
  rw [splitOnChar_append_cons, splitOnChar_of_not_mem h, List.singleton_append]

theorem length_splitOnChar (sep : Char) (cs : List Char) :
    (Text.splitOnChar sep cs).length = cs.count sep + 1 := by
  induction cs with
  | nil => rfl
  | cons c cs ih =>
    rw [Text.splitOnChar]
    split
    · rename_i hc
      rw [List.length_cons, ih, hc, List.count_cons_self]
    · rename_i hc
      rw [List.count_cons_of_ne hc, ← ih]
      cases hs : Text.splitOnChar sep cs with
      | nil => exact absurd hs (Text.splitOnChar_ne_nil sep cs)
      | cons part parts => rfl

namespace Path

theorem segments_of_isName {name : String} (h : Path.IsName name) : segments name = [name] := by
  simp [segments, splitOnChar_of_not_mem h.slash]

theorem segments_append {name : String} (h : '/' ∉ name.toList) (text : String) :
    segments (name ++ "/" ++ text) = name :: segments text := by
  have hlist : (name ++ "/" ++ text).toList = name.toList ++ '/' :: text.toList := by simp
  simp [segments, hlist, splitOnChar_append h]

theorem segments_append_slash (path text : String) :
    segments (path ++ "/" ++ text) = segments path ++ segments text := by
  have hlist : (path ++ "/" ++ text).toList = path.toList ++ '/' :: text.toList := by simp
  simp [segments, hlist, splitOnChar_append_cons]

/-- **Names joined by slashes** split into the names again. -/
theorem segments_intercalate {names : List String} (hn : names ≠ [])
    (h : ∀ name ∈ names, Path.IsName name) : segments (String.intercalate "/" names) = names := by
  induction names with
  | nil => exact absurd rfl hn
  | cons name names ih =>
    have hname : Path.IsName name := h name List.mem_cons_self
    by_cases he : names = []
    · rw [he, String.intercalate_singleton, segments_of_isName hname]
    · rw [String.intercalate_cons_of_ne_nil he, segments_append hname.slash,
        ih he fun other ho => h other (List.mem_cons_of_mem _ ho)]

theorem head?_segments {text : String} (h : startsAtRoot text = true) :
    (segments text).head? = some "" := by
  obtain ⟨rest, hrest⟩ := List.head?_eq_some_iff.1 (of_decide_eq_true h)
  simp [segments, hrest, Text.splitOnChar]

theorem not_startsAtRoot {names : List String} (hn : names ≠ [])
    (h : ∀ name ∈ names, Path.IsName name) :
    startsAtRoot (String.intercalate "/" names) = false := by
  rw [Bool.eq_false_iff]
  intro hroot
  have hhead := head?_segments hroot
  rw [segments_intercalate hn h] at hhead
  exact (h "" (List.mem_of_head? hhead)).ne_empty rfl

end Path

/-- **Different names on the way are spelled differently.** -/
theorem intercalate_inj {names others : List String} (hn : ∀ name ∈ names, Path.IsName name)
    (ho : ∀ name ∈ others, Path.IsName name)
    (h : String.intercalate "/" names = String.intercalate "/" others) : names = others := by
  have hempty : ∀ {names : List String}, (∀ name ∈ names, Path.IsName name) →
      String.intercalate "/" names = "" → names = [] := by
    intro names hnames he
    by_contra hne
    have hsegments := Path.segments_intercalate hne hnames
    rw [he] at hsegments
    exact (hnames "" (hsegments ▸ List.mem_singleton.2 rfl)).ne_empty rfl
  by_cases hnil : names = []
  · subst hnil
    exact (hempty ho h.symm).symm
  by_cases hnil' : others = []
  · subst hnil'
    exact hempty hn h
  rw [← Path.segments_intercalate hnil hn, h, Path.segments_intercalate hnil' ho]

/-! ## Well-formed trees -/

/-- Names in a tree are names, and whatever stands below a location stands in a directory. -/
structure Tree.IsWellFormed (t : Tree) : Prop where
  isName : ∀ location, (t.node? location).isSome = true → ∀ name ∈ location, Path.IsName name
  isDir : ∀ location name, (t.node? (location ++ [name])).isSome = true →
    t.isDir location = true

instance (name : String) : Decidable (Path.IsName name) :=
  decidable_of_iff (name ≠ "" ∧ '/' ∉ name.toList ∧ name ≠ "." ∧ name ≠ "..")
    ⟨fun h => ⟨h.1, h.2.1, h.2.2.1, h.2.2.2⟩, fun h => ⟨h.ne_empty, h.slash, h.ne_here, h.ne_up⟩⟩

namespace Tree

variable {t : Tree}

/-- A tree is well-formed if each of its entries is. -/
theorem isWellFormed_of_entries (h : ∀ entry ∈ t.entries, entry.1 ≠ [] →
    (∀ name ∈ entry.1, Path.IsName name) ∧ t.isDir entry.1.dropLast = true) :
    t.IsWellFormed := by
  have hentry : ∀ location, (t.node? location).isSome = true → location ≠ [] →
      (∀ name ∈ location, Path.IsName name) ∧ t.isDir location.dropLast = true := by
    intro location hnode hne
    obtain ⟨node, hnode⟩ := Option.isSome_iff_exists.1 hnode
    rw [node?, if_neg hne, List.lookup_eq_some_iff] at hnode
    obtain ⟨front, back, hentries, -⟩ := hnode
    exact h (location, node) (by rw [hentries]; simp) hne
  refine ⟨fun location hnode => ?_, fun location name hnode => ?_⟩
  · by_cases hne : location = []
    · simp [hne]
    · exact (hentry location hnode hne).1
  · simpa using (hentry _ hnode (by simp)).2

theorem isSome_of_isDir {location : Location} (h : t.isDir location = true) :
    (t.node? location).isSome = true := by
  rw [of_decide_eq_true h]
  rfl

theorem isSome_of_isFile {location : Location} (h : t.isFile location = true) :
    (t.node? location).isSome = true := by
  unfold isFile at h
  split at h
  · rename_i hnode
    rw [hnode]
    rfl
  · rename_i hnode
    rw [hnode]
    rfl
  · cases h

theorem exists_entry_of_isFile {location : Location} (h : t.isFile location = true) :
    ∃ node, (location, node) ∈ t.entries ∧ node ≠ .directory := by
  unfold isFile node? at h
  by_cases hne : location = []
  · simp [hne] at h
  · rw [if_neg hne] at h
    cases hnode : t.entries.lookup location with
    | none => simp [hnode] at h
    | some node =>
      obtain ⟨front, back, hentries, -⟩ := List.lookup_eq_some_iff.1 hnode
      refine ⟨node, by rw [hentries]; simp, ?_⟩
      rintro rfl
      simp [hnode] at h

theorem ne_nil_of_isFile {location : Location} (h : t.isFile location = true) :
    location ≠ [] := by
  rintro rfl
  simp [isFile, node?] at h

theorem IsWellFormed.isDir_of_append (ht : t.IsWellFormed) {location : Location}
    {name : String} {names : List String}
    (h : (t.node? (location ++ name :: names)).isSome = true) : t.isDir location = true := by
  induction names generalizing location name with
  | nil => exact ht.isDir location name h
  | cons next names ih =>
    rw [List.append_cons] at h
    exact ht.isDir location name (isSome_of_isDir (ih h))

/-! ## Spelled locations -/

/-- The names of what stands below a directory lead there. -/
theorem IsWellFormed.follow (ht : t.IsWellFormed) {location : Location} {names : List String}
    (h : (t.node? (location ++ names)).isSome = true) :
    t.follow location names = .ok (location ++ names) := by
  induction names generalizing location with
  | nil =>
    rw [List.append_nil] at h ⊢
    rw [Tree.follow, if_pos h]
  | cons name names ih =>
    have hdir : t.node? location = some .directory := of_decide_eq_true (ht.isDir_of_append h)
    have hname : Path.IsName name := ht.isName _ h name (by simp)
    rw [List.append_cons] at h ⊢
    rw [Tree.follow, hdir]
    dsimp only
    rw [if_neg (by simp [hname.ne_empty, hname.ne_here]), if_neg hname.ne_up, ih h]

theorem segments_text {location : Location} (hn : location ≠ [])
    (h : ∀ name ∈ location, Path.IsName name) : Path.segments location.text = "" :: location := by
  have htext : location.text = "" ++ "/" ++ String.intercalate "/" location := by
    simp [Location.text]
  rw [htext, Path.segments_append (by simp), Path.segments_intercalate hn h]

/-- **The spelling of a location leads there**, from wherever it is seen. -/
theorem IsWellFormed.resolve_text (ht : t.IsWellFormed) {location : Location}
    (hn : location ≠ []) (h : (t.node? location).isSome = true) (cwd : Location) :
    t.resolve cwd location.text = .ok location := by
  have hroot : Path.startsAtRoot location.text = true := by
    simp [Path.startsAtRoot, Location.text]
  have hne : location.text ≠ "" := by simp [Location.text]
  have hdir : t.node? [] = some .directory := rfl
  unfold resolve
  rw [if_neg hne, if_pos hroot, segments_text hn (ht.isName _ h), Tree.follow, hdir]
  exact ht.follow h

theorem getLast?_intercalate {names : List String} (hn : names ≠ [])
    (h : ∀ name ∈ names, Path.IsName name) :
    (String.intercalate "/" names).toList.getLast? ≠ some '/' := by
  obtain ⟨front, name, rfl⟩ := List.eq_nil_or_concat' names |>.resolve_left hn
  have hname : Path.IsName name := h name (by simp)
  have hchars : name.toList ≠ [] := by simpa using hname.ne_empty
  have hlast : (String.intercalate "/" (front ++ [name])).toList.getLast? =
      name.toList.getLast? := by
    by_cases he : front = []
    · simp [he]
    · rw [String.intercalate_append_of_ne_nil he (by simp), String.intercalate_singleton,
        String.toList_append, List.getLast?_append_of_ne_nil _ hchars]
  rw [hlast]
  exact fun hmem => hname.slash (List.mem_of_getLast? hmem)

/-- A path below a directory, seen from the directory, spells the location. -/
theorem joinText_text {dir : Location} {names : List String} (hn : names ≠ [])
    (hdir : ∀ name ∈ dir, Path.IsName name) (hnames : ∀ name ∈ names, Path.IsName name) :
    joinText dir.text (String.intercalate "/" names) = Location.text (dir ++ names) := by
  have hne : dir.text ≠ "" := by simp [Location.text]
  unfold joinText
  rw [if_neg (by simp [Path.not_startsAtRoot hn hnames]), if_neg hne]
  by_cases he : dir = []
  · subst he
    simp [Location.text]
  · have hchars : (String.intercalate "/" dir).toList ≠ [] := by
      intro hnil
      have hempty : String.intercalate "/" dir = String.intercalate "/" [] :=
        String.toList_inj.1 (hnil.trans rfl)
      exact he (intercalate_inj hdir (by simp) hempty)
    have hlast : dir.text.toList.getLast? ≠ some '/' := by
      rw [Location.text, String.toList_append, List.getLast?_append_of_ne_nil _ hchars]
      exact getLast?_intercalate he hdir
    rw [if_neg hlast]
    simp only [Location.text]
    rw [String.intercalate_append_of_ne_nil he hn]
    simp only [String.append_assoc]

/-- **What stands below a directory is present** under its path from there. -/
theorem IsWellFormed.isPresent (ht : t.IsWellFormed) {dir : Location} {names : List String}
    (hn : names ≠ []) (h : (t.node? (dir ++ names)).isSome = true) :
    t.isPresent dir (String.intercalate "/" names) = true := by
  have hall := ht.isName _ h
  rw [List.forall_mem_append] at hall
  unfold Tree.isPresent
  rw [joinText_text hn hall.1 hall.2, ht.resolve_text (by simp [hn]) h]
  rfl

theorem mem_names {dir : Location} {name : String}
    (h : (t.node? (dir ++ [name])).isSome = true) : name ∈ t.names dir := by
  obtain ⟨node, hnode⟩ := Option.isSome_iff_exists.1 h
  rw [node?, if_neg (by simp), List.lookup_eq_some_iff] at hnode
  obtain ⟨front, back, hentries, -⟩ := hnode
  unfold names sortedTexts
  rw [mem_sortedSet, List.mem_filterMap]
  exact ⟨(dir ++ [name], node), by rw [hentries]; simp, by simp⟩

end Tree

namespace Location

theorem startsAtRoot_text (location : Location) : Path.startsAtRoot location.text = true := by
  simp [Path.startsAtRoot, Location.text]

/-- **The spelling of a location** names it. -/
theorem location?_text {location : Location} (h : ∀ name ∈ location, Path.IsName name) :
    (Path.ofText location.text).location? = some location := by
  have hup : ".." ∉ location := fun hmem => (h _ hmem).ne_up rfl
  have hparts : location.filter Path.isPart = location :=
    List.filter_eq_self.2 fun name hname => by
      simp [Path.isPart, (h name hname).ne_empty, (h name hname).ne_here]
  have hpath : Path.ofText location.text = ⟨true, location⟩ := by
    unfold Path.ofText
    rw [startsAtRoot_text]
    by_cases hnil : location = []
    · subst hnil
      rfl
    · rw [Tree.segments_text hnil h]
      simp [hparts]
  rw [hpath]
  simp [Path.location?, hup]

/-- The parent of a spelled location is spelled as its directory. -/
theorem parentText?_text {dir : Location} {name : String} (hdir : ∀ name ∈ dir, Path.IsName name)
    (hname : Path.IsName name) : parentText? (Location.text (dir ++ [name])) = some dir.text := by
  have hall : ∀ other ∈ dir ++ [name], Path.IsName other := by
    rw [List.forall_mem_append, List.forall_mem_singleton]
    exact ⟨hdir, hname⟩
  have hpart : ∀ {name : String}, Path.IsName name → Path.isPart name = true := fun h => by
    simp [Path.isPart, h.ne_empty, h.ne_here]
  unfold parentText?
  rw [Tree.segments_text (by simp) hall, startsAtRoot_text]
  by_cases hnil : dir = []
  · subst hnil
    simp [trimSegments, hpart hname, Location.text]
  · obtain ⟨front, last, rfl⟩ := List.eq_nil_or_concat' dir |>.resolve_left hnil
    have hlast : Path.isPart last = true := hpart (hdir last (by simp))
    have htext : String.intercalate "/" ("" :: (front ++ [last])) =
        Location.text (front ++ [last]) := by
      rw [String.intercalate_cons_of_ne_nil (by simp), Location.text, String.empty_append]
    cases front with
    | nil => simpa [trimSegments, hpart hname, hlast] using htext
    | cons first front => simpa [trimSegments, hpart hname, hlast] using htext
end Location

/-! ## Packages -/

namespace Workspace

variable {w : Workspace} {t : Tree}

theorem relative?_eq_some {location : Location} {text : String} :
    w.relative? location = some text ↔
      ∃ names, w.root ++ names = location ∧ String.intercalate "/" names = text := by
  simp [relative?, Option.map_eq_some_iff, List.isPrefixOf?_eq_some_iff_append_eq]

theorem relative?_append (names : List String) :
    w.relative? (w.root ++ names) = some (String.intercalate "/" names) :=
  relative?_eq_some.2 ⟨names, rfl, rfl⟩

/-- **Directories of one package name are one directory.** -/
theorem relative?_inj {dir other : Location} {package : String}
    (hdir : ∀ name ∈ dir, Path.IsName name) (hother : ∀ name ∈ other, Path.IsName name)
    (h : w.relative? dir = some package) (ho : w.relative? other = some package) :
    dir = other := by
  obtain ⟨names, rfl, hnames⟩ := relative?_eq_some.1 h
  obtain ⟨others, rfl, hothers⟩ := relative?_eq_some.1 ho
  rw [List.forall_mem_append] at hdir hother
  rw [intercalate_inj hdir.2 hother.2 (hnames.trans hothers.symm)]

end Workspace

theorem Location.upward_concat (dir : Location) (name : String) :
    Location.upward (dir ++ [name]) = (dir ++ [name]) :: Location.upward dir := by
  unfold Location.upward
  rw [List.length_append, List.length_singleton, List.range_succ_eq_map, List.map_cons,
    List.map_map]
  congr 1
  · rw [Nat.sub_zero, ← List.length_singleton (a := name), ← List.length_append, List.take_length]
  · refine List.map_congr_left fun n _ => ?_
    have hlength : dir.length + 1 - (n + 1) = dir.length - n := by omega
    simp only [Function.comp_apply, Nat.succ_eq_add_one, hlength]
    rw [List.take_append_of_le_length (Nat.sub_le _ _)]

theorem Location.upward_eq_cons (dir : Location) : ∃ above, Location.upward dir = dir :: above := by
  unfold Location.upward
  rw [List.range_succ_eq_map, List.map_cons, Nat.sub_zero, List.take_length]
  exact ⟨_, rfl⟩

theorem Location.exists_append_of_mem_upward {dir above : Location}
    (h : above ∈ Location.upward dir) : ∃ names, above ++ names = dir := by
  obtain ⟨n, -, rfl⟩ := List.mem_map.1 h
  exact ⟨_, List.take_append_drop _ dir⟩

namespace Workspace

variable {w : Workspace} {t : Tree}

/-- **The package that owns a file** is a package above it within the workspace. -/
theorem owningPackage?_eq_some {file dir : Location} {package : String} (hf : file ≠ [])
    (h : w.owningPackage? t file = some (dir, package)) :
    t.isPackage dir = true ∧ w.relative? dir = some package ∧
      ∃ names, names ≠ [] ∧ dir ++ names = file := by
  obtain ⟨above, name, rfl⟩ := List.eq_nil_or_concat' file |>.resolve_left hf
  unfold owningPackage? at h
  rw [Location.upward_concat, List.drop_one, List.tail_cons] at h
  dsimp only at h
  split at h
  · rename_i found hfound
    obtain ⟨package', hpackage, he⟩ := Option.map_eq_some_iff.1 h
    cases he
    have hmem := List.mem_of_find?_eq_some hfound
    obtain ⟨names, rfl⟩ := Location.exists_append_of_mem_upward
      ((List.takeWhile_subset _) hmem)
    exact ⟨by simpa using List.find?_some hfound, hpackage, names ++ [name], by simp,
      (List.append_assoc _ _ _).symm⟩
  · cases h

/-- A file in the directory of a package belongs to that package. -/
theorem owningPackage?_sibling {dir : Location} {name package : String}
    (hp : t.isPackage dir = true) (hw : w.relative? dir = some package) :
    w.owningPackage? t (dir ++ [name]) = some (dir, package) := by
  obtain ⟨above, habove⟩ := Location.upward_eq_cons dir
  obtain ⟨names, hroot, -⟩ := relative?_eq_some.1 hw
  have hprefix : w.root.isPrefixOf dir = true := List.isPrefixOf_iff_prefix.2 ⟨names, hroot⟩
  unfold owningPackage?
  rw [Location.upward_concat, List.drop_one, List.tail_cons, habove,
    List.takeWhile_cons_of_pos hprefix]
  simp [hp, hw]

end Workspace

/-! ## What a specifier leads to -/

namespace ModulePath

variable {t : Tree}

/-- A search that finds something finds a file. -/
def Search.FindsFile (t : Tree) (s : Search) : Prop :=
  ∀ file, s.file? = some file → t.isFile file = true

namespace Search.FindsFile

theorem firstFile (locations : List Location) :
    Search.FindsFile t (Search.firstFile t locations) := by
  intro file h
  unfold Search.firstFile at h
  split at h
  · rename_i found hfound
    cases h
    exact List.find?_some hfound
  · cases h

theorem nothing : Search.FindsFile t .nothing := by
  intro file h
  cases h

theorem ended : Search.FindsFile t .ended := by
  intro file h
  cases h

theorem orElse {first second : Search} (hf : first.FindsFile t) (hs : second.FindsFile t) :
    (first.orElse second).FindsFile t := by
  cases first with
  | found file => exact hf
  | nothing => exact hs
  | ended => exact hf

end Search.FindsFile

theorem findsFile_searchFile (location : Location) : (searchFile t location).FindsFile t := by
  unfold searchFile
  split
  · exact .firstFile _
  · refine .orElse (.firstFile _) ?_
    split
    · exact .ended
    · exact .firstFile _

theorem findsFile_searchDir (dir : Location) : (searchDir t dir).FindsFile t := by
  have hmain : ∀ dir, (searchMain t dir).FindsFile t := fun _ => .firstFile _
  unfold searchDir
  split
  · split
    · exact .ended
    · split
      · exact .orElse (.orElse (findsFile_searchFile _) (hmain _)) (hmain _)
      · exact hmain _
  · exact hmain _

theorem findsFile_searchPath (dir : Location) (path : String) :
    (searchPath t dir path).FindsFile t := by
  unfold searchPath
  split
  · exact .nothing
  · refine .orElse ?_ ?_
    · split
      · exact .nothing
      · exact findsFile_searchFile _
    · split
      · exact findsFile_searchDir _
      · exact .nothing

end ModulePath

/-- **A specifier leads to a file.** -/
theorem Tree.isFile_of_moduleFile? {t : Tree} {dir file : Location} {specifier : String}
    (h : t.moduleFile? dir specifier = some file) : t.isFile file = true := by
  unfold Tree.moduleFile? at h
  split at h
  · dsimp only at h
    rw [Option.filter_eq_some_iff] at h
    obtain ⟨path, -, hpath⟩ := List.exists_of_findSome?_eq_some h.1
    exact ModulePath.findsFile_searchPath dir path file hpath
  · cases h

/-- The files of an earlier tree are still there. -/
def Tree.Retains (t seen : Tree) : Prop :=
  ∀ location, seen.isFile location = true → t.isFile location = true

theorem Tree.Retains.refl (t : Tree) : t.Retains t :=
  fun _ h => h

namespace Workspace

variable {w : Workspace} {t seen : Tree} {dir : Location}

/-- A target in the directory is a file there. -/
theorem isFile_of_target_sibling {specifier name : String}
    (h : w.target t dir specifier seen = .sibling name) : seen.isFile (dir ++ [name]) = true := by
  unfold target at h
  split at h
  · split at h
    · rename_i file hfile
      have hisFile := Tree.isFile_of_moduleFile? hfile
      obtain ⟨above, last, rfl⟩ :=
        List.eq_nil_or_concat' file |>.resolve_left (Tree.ne_nil_of_isFile hisFile)
      unfold fileTarget at h
      split at h
      · rename_i hdir
        obtain rfl : above = dir := by simpa using hdir
        obtain rfl : last = name := by simpa using h
        exact hisFile
      · split at h
        · cases h
        · split at h <;> cases h
    · cases h
  · cases h

/-- A target in a package is a file of that package, not in the directory. -/
theorem exists_file_of_target_member {specifier name file path : String} {owner : Location}
    (h : w.target t dir specifier seen = .member owner name file path) :
    ∃ location, seen.moduleFile? dir specifier = some location ∧ location.dropLast ≠ dir ∧
      w.owningPackage? t location = some (owner, name) ∧
      (Workspace.mk owner).relative? location = some file := by
  unfold target at h
  split at h
  · split at h
    · rename_i location hfile
      have hisFile := Tree.isFile_of_moduleFile? hfile
      unfold fileTarget at h
      split at h
      · cases h
      · rename_i hdir
        split at h
        · cases h
        · split at h
          · rename_i hown
            obtain ⟨rfl, rfl, hpath, -⟩ := Target.member.inj h
            obtain ⟨-, -, names, -, rfl⟩ :=
              owningPackage?_eq_some (Tree.ne_nil_of_isFile hisFile) hown
            rw [relative?_append (w := ⟨_⟩), Option.getD_some] at hpath
            exact ⟨_, hfile, hdir, hown, by rw [relative?_append (w := ⟨_⟩), hpath]⟩
          · cases h
    · cases h
  · cases h

end Workspace

end BuildSync
