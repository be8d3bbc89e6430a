import BuildSync.Proofs.Completeness
import BuildSync.Proofs.Files
import BuildSync.Proofs.IndexLabels

/-!
# A file has one provider

A file that a rule lists is provided by that rule, whichever package imports it. Three places
answer the question: the owners of the sources for a file in the directory of the package, the
package's own BUILD file for a file below, and the BUILD file of another package.

* `Tree.mem_sources`: the sources of a directory are its files with the names of sources.
* `Scope.owner?_eq`: for a file outside the directory, the BUILD file that is being edited answers
  as the one that was read.
* `Scope.resolve_listed`: the provider of a listed file. A file in the directory of the importing
  package must be a source: any other one has no provider there (`resolve_data`).
-/

namespace BuildSync

open Build

/-! ## The sources of a directory -/

namespace Tree

variable {t : Tree} {dir : Location} {sources : List Source}

theorem isDir_of_sources (h : t.sources dir = .ok sources) : t.isDir dir = true := by
  have hnames := sourceNames_of_sources h
  obtain ⟨all, hall, -⟩ := map_eq_ok hnames
  unfold list at hall
  split at hall
  · rename_i hnode
    exact decide_eq_true hnode
  · cases hall
  · cases hall

/-- **The sources of a directory** are its files with the names of sources. -/
theorem mem_sources (h : t.sources dir = .ok sources) {name : String} :
    name ∈ sources.map (·.name) ↔
      t.isFile (dir ++ [name]) = true ∧ (SourceKind.ofName? name).isSome = true := by
  obtain ⟨all, hall, hnames⟩ := map_eq_ok (sourceNames_of_sources h)
  have hlist : all = t.names dir := by
    unfold list at hall
    split at hall
    · exact (Except.ok.inj hall).symm
    · cases hall
    · cases hall
  rw [← hnames, List.mem_filter, Bool.and_eq_true]
  refine ⟨fun hm => hm.2, fun hm => ⟨?_, hm⟩⟩
  rw [hlist]
  exact mem_names (isSome_of_isFile hm.1)

theorem isSome_buildFile? (h : t.isPackage dir = true) (package : String)
    {found : Option Descriptor} (hd : t.descriptor? dir package = .ok found) :
    found.isSome = true := by
  obtain ⟨name, hname⟩ := Option.isSome_iff_exists.1 h
  unfold descriptor? at hd
  rw [hname] at hd
  dsimp only at hd
  split at hd
  · cases hd
  · split at hd
    · cases hd
    · cases hd
      rfl

theorem descriptor_of_descriptor? {package : String} {d : Descriptor}
    (h : t.descriptor? dir package = .ok (some d)) : t.descriptor dir package = .ok d := by
  rw [descriptor, h]
  rfl

theorem descriptor?_of_usableDescriptor? {package : String} {d : Descriptor}
    (h : t.usableDescriptor? dir package = some d) : t.descriptor? dir package = .ok (some d) := by
  unfold usableDescriptor? at h
  cases hd : t.descriptor? dir package with
  | error problem => simp [hd, Except.toOption] at h
  | ok found =>
    rw [hd] at h
    rw [show found = some d from h]

/-- What stands in the BUILD file of a package is usable. -/
theorem usableDescriptor?_of_descriptor {package : String} {d : Descriptor}
    (hp : t.isPackage dir = true) (hd : t.descriptor dir package = .ok d) :
    t.usableDescriptor? dir package = some d := by
  obtain ⟨found, hfound, rfl⟩ := map_eq_ok hd
  obtain ⟨d, rfl⟩ := Option.isSome_iff_exists.1 (isSome_buildFile? hp package hfound)
  unfold usableDescriptor?
  rw [hfound]
  rfl

end Tree

/-! ## The scope of a package -/

/-- The only rule that lists a file is known by its name. -/
theorem Build.Descriptor.ownerLabel?_congr {d d' : Descriptor} {file : String}
    (hp : d'.package = d.package)
    (h : (d'.owners file).map (·.name) = (d.owners file).map (·.name)) :
    d'.ownerLabel? file = d.ownerLabel? file := by
  unfold ownerLabel? owner? Rule.label
  rw [hp]
  cases hd : d.owners file with
  | nil =>
    rw [hd, List.map_nil, List.map_eq_nil_iff] at h
    rw [h]
  | cons r rs =>
    rw [hd, List.map_cons] at h
    obtain ⟨r', rs', hd', hr, hrs⟩ := List.map_eq_cons_iff.1 h
    rw [hd']
    cases rs with
    | nil =>
      rw [List.map_nil, List.map_eq_nil_iff] at hrs
      subst hrs
      simp [hr]
    | cons next rs =>
      obtain ⟨next', rs'', rfl, -, -⟩ := List.map_eq_cons_iff.1 hrs
      rfl

namespace Scope

variable {w : Workspace} {t seen : Tree} {index : Query.Index} {rulesFile : String} {dir : Location}
  {package : String} {old : Descriptor} {sources : List Source} {scope : Scope}

/-- What the scope of a package is made of. -/
theorem settled_of_ofDescriptor (hs : t.sources dir = .ok sources)
    (h : ofDescriptor w t index rulesFile dir old sources seen = .ok scope) :
    scope = ⟨w, t, index, dir, scope.descriptor, scope.ownership, seen⟩ ∧
      Ownership.Settled (w.around t index rulesFile dir old.package) old
        (sources.map fun source => (source.name, source.kind)) scope.descriptor
        scope.ownership := by
  obtain ⟨heq, hassign⟩ := ofDescriptor_ok h
  refine ⟨heq, Ownership.settled_of_assign ?_ hassign⟩
  rw [List.map_map]
  exact Tree.nodup_sources hs

section

variable (ht : t.IsWellFormed) (hw : w.relative? dir = some package)
  (hold : t.descriptor dir package = .ok old) (hs : t.sources dir = .ok sources)
  (hscope : ofDescriptor w t index rulesFile dir old sources seen = .ok scope)

include hold hs hscope in
theorem package_eq : scope.package = package := by
  obtain ⟨-, hsettled⟩ := settled_of_ofDescriptor hs hscope
  exact hsettled.package.trans (Tree.package_descriptor hold)

include hs hscope in
/-- Exactly the sources have an owner. -/
theorem isSome_owner?_iff {name : String} :
    (scope.ownership.owner? name).isSome = true ↔ name ∈ sources.map (·.name) := by
  obtain ⟨-, hsettled⟩ := settled_of_ofDescriptor hs hscope
  rw [hsettled.owned, List.map_map]
  rfl

include ht hs hscope in
/-- Settling the sources leaves the rules that list a file further down. -/
theorem owners_below {names : List String} (hn : 2 ≤ names.length)
    (hnode : (t.node? (dir ++ names)).isSome = true) :
    (scope.descriptor.owners (String.intercalate "/" names)).map (·.name) =
      (old.owners (String.intercalate "/" names)).map (·.name) := by
  obtain ⟨-, hsettled⟩ := settled_of_ofDescriptor hs hscope
  have hne : names ≠ [] := by
    rintro rfl
    simp at hn
  refine hsettled.owners _ ?_ fun hm => ?_
  · exact ht.isPresent hne hnode
  · -- A source is a single name, and the file is reached by several.
    obtain ⟨name, hname, he⟩ : ∃ name, t.isFile (dir ++ [name]) = true ∧
        name = String.intercalate "/" names := by
      rw [List.map_map] at hm
      exact ⟨_, ((Tree.mem_sources hs).1 hm).1, rfl⟩
    have hnames := ht.isName _ hnode
    have hsource := ht.isName _ (Tree.isSome_of_isFile hname)
    rw [List.forall_mem_append] at hnames hsource
    have heq : [name] = names := intercalate_inj hsource.2 hnames.2 (by simpa using he)
    rw [← heq] at hn
    simp at hn

include ht hw hold hs hscope in
/-- **For a file of a package that does not stand in the directory**, the BUILD file that is being
edited answers as the one that was read. -/
theorem owner?_eq {file owner : Location} {name path : String} (hfile : t.isFile file = true)
    (hdir : file.dropLast ≠ dir) (hown : w.owningPackage? t file = some (owner, name))
    (hpath : (Workspace.mk owner).relative? file = some path) :
    scope.owner? owner name path =
      (t.usableDescriptor? owner name).bind (·.ownerLabel? path) := by
  obtain ⟨heq, -⟩ := settled_of_ofDescriptor hs hscope
  have htree : scope.tree = t := by rw [heq]
  have hpackage := package_eq hold hs hscope
  unfold owner?
  rw [hpackage, htree]
  split
  · rename_i hsame
    subst hsame
    obtain ⟨hp, hrel, names, hne, rfl⟩ :=
      Workspace.owningPackage?_eq_some (Tree.ne_nil_of_isFile hfile) hown
    have hnode := Tree.isSome_of_isFile hfile
    have hnames := ht.isName _ hnode
    rw [List.forall_mem_append] at hnames
    have hother := ht.isName _ (Tree.isSome_of_isDir (Tree.isDir_of_sources hs))
    obtain rfl : owner = dir := Workspace.relative?_inj hnames.1 hother hrel hw
    rw [Workspace.relative?_append (w := ⟨owner⟩), Option.some.injEq] at hpath
    have hlong : 2 ≤ names.length := by
      match names, hne with
      | [name], _ => simp at hdir
      | _ :: _ :: _, _ => simp
    rw [Tree.usableDescriptor?_of_descriptor hp hold, Option.bind_some, ← hpath]
    exact Descriptor.ownerLabel?_congr (hpackage.trans (Tree.package_descriptor hold).symm)
      (owners_below ht hs hscope hlong hnode)
  · rfl

include ht hw hold hs hscope in
/-- A target that is no source of the package and stands in no directory is resolved as the
BUILD file of its package says. -/
theorem ofTarget_member {file owner : Location} {name path : String} {d : Descriptor}
    {r : Build.Rule} (hfile : t.isFile file = true) (hdir : file.dropLast ≠ dir)
    (hown : w.owningPackage? t file = some (owner, name))
    (hpath : (Workspace.mk owner).relative? file = some path)
    (hd : t.descriptor? owner name = .ok (some d)) (hr : d.owners path = [r]) :
    scope.ofTarget (w.fileTarget t dir file) = [r.label name] := by
  obtain ⟨-, hrel, names, -, rfl⟩ :=
    Workspace.owningPackage?_eq_some (Tree.ne_nil_of_isFile hfile) hown
  obtain ⟨above, rfl, -⟩ := Workspace.relative?_eq_some.1 hrel
  have hpackage : d.package = name :=
    Tree.package_descriptor (Tree.descriptor_of_descriptor? hd)
  have hanswer := owner?_eq ht hw hold hs hscope hfile hdir hown hpath
  unfold Workspace.fileTarget
  rw [if_neg hdir, List.append_assoc, Workspace.relative?_append, ← List.append_assoc, hown]
  dsimp only
  rw [hpath, Option.getD_some, ofTarget, hanswer, Tree.usableDescriptor?, hd]
  simp [Except.toOption, Descriptor.ownerLabel?, Descriptor.owner?, hr, hpackage]

include hold hs hscope in
/-- A source that one rule lists is provided by that rule. -/
theorem ofSibling_listed {name : String} {r : Build.Rule} (hname : name ∈ sources.map (·.name))
    (hr : old.owners name = [r]) : scope.ofSibling name = [r.label package] := by
  obtain ⟨-, hsettled⟩ := settled_of_ofDescriptor hs hscope
  obtain ⟨source, hsource, rfl⟩ := List.mem_map.1 hname
  have howner := hsettled.listed (source.name, source.kind)
    (List.mem_map_of_mem (f := fun source => (source.name, source.kind)) hsource) r (by simp [hr])
  unfold ofSibling
  rw [howner, package_eq hold hs hscope]
  rfl

end

/-- **A file that one rule lists is provided by that rule**, whichever package imports it. The file
was looked up in an earlier tree, or in this one. In the directory of the importing package it must
be a source. -/
theorem resolve_listed {w : Workspace} {t seen : Tree} {index : Query.Index} {rulesFile : String}
    {dir other file : Location} {package owner path specifier : String} {old d : Descriptor}
    {sources : List Source} {scope : Scope} {r : Build.Rule} (ht : t.IsWellFormed)
    (hw : w.relative? dir = some package) (hp : t.isPackage dir = true)
    (hold : t.descriptor dir package = .ok old) (hs : t.sources dir = .ok sources)
    (hscope : ofDescriptor w t index rulesFile dir old sources seen = .ok scope)
    (hseen : t.Retains seen) (hfile : seen.moduleFile? dir specifier = some file)
    (hown : w.owningPackage? t file = some (other, owner))
    (hd : t.descriptor? other owner = .ok (some d))
    (hpath : (Workspace.mk other).relative? file = some path) (hr : d.owners path = [r])
    (hsource : file.dropLast = dir → (SourceKind.ofName? path).isSome = true) :
    scope.resolve specifier = [r.label owner] := by
  have hisFile : t.isFile file = true := hseen file (Tree.isFile_of_moduleFile? hfile)
  obtain ⟨heq, -⟩ := settled_of_ofDescriptor hs hscope
  have htarget : scope.workspace.target scope.tree scope.dir specifier scope.seen =
      w.fileTarget t dir file := by
    have hrelative : ModulePath.isRelative specifier = true := by
      by_contra hne
      rw [Tree.moduleFile?, if_neg hne] at hfile
      cases hfile
    rw [heq]
    dsimp only [Workspace.target]
    rw [if_pos hrelative, hfile]
  unfold resolve
  rw [htarget, ← Label.sortedSet_singleton]
  congr 1
  by_cases hdir : file.dropLast = dir
  · obtain ⟨above, name, rfl⟩ :=
      List.eq_nil_or_concat' file |>.resolve_left (Tree.ne_nil_of_isFile hisFile)
    obtain rfl : above = dir := by simpa using hdir
    rw [Workspace.owningPackage?_sibling hp hw] at hown
    cases hown
    obtain rfl : name = path := by
      rw [Workspace.relative?_append (w := ⟨other⟩)] at hpath
      simpa using hpath
    obtain rfl : d = old := by
      rw [Tree.descriptor, hd] at hold
      exact Except.ok.inj hold
    have hname := (Tree.mem_sources hs).2 ⟨hisFile, hsource (by simp)⟩
    rw [Workspace.fileTarget, if_pos (by simp)]
    simpa [ofTarget] using ofSibling_listed hold hs hscope hname hr
  · exact ofTarget_member ht hw hold hs hscope hisFile hdir hown hpath hd hr

end Scope

/-! ## A listed file that is no source -/

def dataBuild : String :=
  "ts_library(name=\"p\",srcs=[\"a.ts\",\"data.json\"])"

/-- The rule of package `p` lists a file that is no source; package `q` has no rules. -/
def dataTree : Tree :=
  ⟨[(["p"], .directory), (["p", "BUILD"], .text dataBuild),
    (["p", "a.ts"], .text "import\"./data.json\""), (["p", "data.json"], .text "x"),
    (["q"], .directory), (["q", "BUILD"], .text "")]⟩

def dataRule : Build.Rule :=
  ⟨.library false, "p", .literal ⟨[.plain "a.ts", .plain "data.json"], []⟩, .absent, none,
    some ⟨⟨0, 46⟩, 45, 45, false, false, "    ", some ⟨25, 45⟩, none⟩, false, false⟩

def dataDescriptor : Descriptor :=
  ⟨"/p/BUILD", "p", dataBuild, [dataRule], [], ["ts_library"], []⟩

def dataSource : Source :=
  ⟨"a.ts", ["p", "a.ts"], .library, "import\"./data.json\"",
    [⟨"./data.json", .sideEffect, 1, 1, 0, 19⟩]⟩

/-- The scope of package `p`. -/
def dataScope (index : Query.Index) : Scope :=
  ⟨⟨[]⟩, dataTree, index, ["p"], dataDescriptor, ⟨[("a.ts", .rule "p")]⟩, dataTree⟩

/-- The scope of package `q`. -/
def readerScope : Scope :=
  ⟨⟨[]⟩, dataTree, .empty, ["q"], ⟨"/q/BUILD", "q", "", [], [], [], []⟩, ⟨[]⟩, dataTree⟩

theorem isWellFormed_dataTree : dataTree.IsWellFormed :=
  Tree.isWellFormed_of_entries (by decide)

/-- What is read from the two BUILD files and from the source. -/
theorem read_dataTree :
    dataTree.descriptor? ["p"] "p" = .ok (some dataDescriptor) ∧
      dataTree.descriptor ["q"] "q" = .ok readerScope.descriptor ∧
      dataTree.source ["p"] "a.ts" = .ok dataSource := by
  decide +kernel

theorem descriptor?_dataTree :
    dataTree.descriptor? ["p"] "p" = .ok (some dataDescriptor) :=
  read_dataTree.1

theorem sources_dataTree : dataTree.sources ["p"] = .ok [dataSource] := by
  have hnames : dataTree.names ["p"] = ["BUILD", "a.ts", "data.json"] := by
    change sortedTexts ["BUILD", "a.ts", "data.json"] = _
    simp [sortedTexts, sortedSet, List.mergeSort, List.MergeSort.Internal.splitInTwo, textLe,
      dropRepeats]
  refine Tree.sources_of_names rfl hnames rfl fun source hmem => ?_
  obtain rfl := List.mem_singleton.1 hmem
  exact read_dataTree.2.2

theorem sources_reader : dataTree.sources ["q"] = .ok [] := by
  have hnames : dataTree.names ["q"] = ["BUILD"] := by
    change sortedTexts ["BUILD"] = _
    simp [sortedTexts, sortedSet, dropRepeats]
  exact Tree.sources_of_names rfl hnames rfl (by simp)

/-- Another package finds the file that the rule lists. -/
theorem resolve_listed_data :
    dataTree.IsWellFormed ∧ (Workspace.mk []).relative? ["q"] = some "q" ∧
      dataTree.isPackage ["q"] = true ∧
      dataTree.descriptor ["q"] "q" = .ok readerScope.descriptor ∧
      dataTree.sources ["q"] = .ok [] ∧
      Scope.ofDescriptor ⟨[]⟩ dataTree .empty "" ["q"] readerScope.descriptor [] =
        .ok readerScope ∧
      dataTree.moduleFile? ["q"] "../p/data.json" = some ["p", "data.json"] ∧
      (Workspace.mk []).owningPackage? dataTree ["p", "data.json"] = some (["p"], "p") ∧
      dataTree.descriptor? ["p"] "p" = .ok (some dataDescriptor) ∧
      (Workspace.mk ["p"]).relative? ["p", "data.json"] = some "data.json" ∧
      dataDescriptor.owners "data.json" = [dataRule] ∧
      readerScope.resolve "../p/data.json" = [dataRule.label "p"] := by
  have hold : dataTree.descriptor ["q"] "q" = .ok readerScope.descriptor :=
    read_dataTree.2.1
  have hscope : Scope.ofDescriptor ⟨[]⟩ dataTree .empty "" ["q"] readerScope.descriptor [] =
    .ok readerScope := rfl
  have hfile : dataTree.moduleFile? ["q"] "../p/data.json" = some ["p", "data.json"] := rfl
  have hown : (Workspace.mk []).owningPackage? dataTree ["p", "data.json"] =
    some (["p"], "p") := rfl
  exact ⟨isWellFormed_dataTree, rfl, rfl, hold, sources_reader, hscope, hfile, hown,
    descriptor?_dataTree, rfl, rfl,
    Scope.resolve_listed isWellFormed_dataTree rfl rfl hold sources_reader hscope (.refl _) hfile
      hown descriptor?_dataTree rfl rfl (by simp)⟩

/-- **A listed file may have no provider**: the source of package `p` imports a file of its own
directory which one rule lists, and nothing is found. -/
theorem resolve_data :
    dataTree.IsWellFormed ∧ (Workspace.mk []).relative? ["p"] = some "p" ∧
      dataTree.isPackage ["p"] = true ∧
      dataTree.descriptor? ["p"] "p" = .ok (some dataDescriptor) ∧
      dataTree.sources ["p"] = .ok [dataSource] ∧
      Scope.ofDescriptor ⟨[]⟩ dataTree .empty "" ["p"] dataDescriptor [dataSource] =
        .ok (dataScope .empty) ∧
      dataTree.moduleFile? ["p"] "./data.json" = some ["p", "data.json"] ∧
      (Workspace.mk []).owningPackage? dataTree ["p", "data.json"] = some (["p"], "p") ∧
      dataDescriptor.owners "data.json" = [dataRule] ∧
      (dataScope .empty).resolve "./data.json" = [] := by
  have htarget : (dataScope .empty).workspace.target (dataScope .empty).tree (dataScope .empty).dir
      "./data.json" (dataScope .empty).seen = .sibling "data.json" := rfl
  have hsibling : (dataScope .empty).ofSibling "data.json" =
      Query.Index.empty.labels (.file "p/data.json") := rfl
  refine ⟨isWellFormed_dataTree, rfl, rfl, descriptor?_dataTree, sources_dataTree, rfl, rfl, rfl,
    rfl, ?_⟩
  rw [Scope.resolve, htarget, Scope.ofTarget, hsibling, Query.Index.labels_empty]
  simp [Label.sortedSet, sortedSet, dropRepeats]

end BuildSync
