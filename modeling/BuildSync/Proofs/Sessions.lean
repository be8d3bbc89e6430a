import BuildSync.Proofs.Rereading
import BuildSync.Query.IndexFile
import BuildSync.Session

/-!
# Sessions that follow each other

* `Session.start_eq_ok`: what a session knows once it is started.
* `Session.run_again_changes`: a session can change what an equal session left.
-/

namespace BuildSync

open Build

namespace Session

variable {w : Workspace} {t : Tree} {cwd : Location} {service : Query.Service}
  {options : SessionOptions}

/-- **A session is started** once its packages are found and its questions are answered. -/
theorem start_eq_ok {s : Session} : start w t cwd service options = .ok s ↔
    ∃ dirs packages index, packageDirs w t cwd options = .ok dirs ∧
      dirs.mapM (fun package => do pure (package, ← t.sources package.dir)) = .ok packages ∧
      Query.Index.build service (questions w t options packages) = .ok index ∧
      s = ⟨w, options, packages, index, t⟩ := by
  unfold start
  constructor
  · intro h
    obtain ⟨dirs, hdirs, h⟩ := bind_eq_ok.1 h
    obtain ⟨packages, hpackages, h⟩ := bind_eq_ok.1 h
    obtain ⟨index, hindex, h⟩ := bind_eq_ok.1 h
    cases h
    exact ⟨dirs, packages, index, hdirs, hpackages, hindex, rfl⟩
  · rintro ⟨dirs, packages, index, hdirs, hpackages, hindex, rfl⟩
    rw [hdirs]
    refine bind_eq_ok.2 ⟨dirs, rfl, ?_⟩
    rw [hpackages]
    refine bind_eq_ok.2 ⟨packages, rfl, ?_⟩
    rw [hindex]
    rfl

end Session

/-! ## A package that is made on the way -/

def movedBuild : String :=
  "ts_library(name=\"all\",srcs=[\"b/x.ts\",\"y.ts\"])"

/-- The rule at the root lists a file further down, which a source at the root imports. -/
def movedTree : Tree :=
  ⟨[(["BUILD"], .text movedBuild), (["b"], .directory), (["b", "x.ts"], .text ""),
    (["y.ts"], .text "import\"./b/x\"")]⟩

/-- The directory of that file is a package as well. -/
def movedOnce : Tree :=
  movedTree.put ["b", "BUILD"] (.text
    "load(\"\", \"ts_library\")\n\nts_library(\n    name = \"b\",\n    srcs = [\"x.ts\"],\n)\n")

/-- The rule at the root depends on that package. -/
def movedTwice : Tree :=
  movedOnce.put ["BUILD"]
    (.text "ts_library(name=\"all\",srcs=[\"b/x.ts\",\"y.ts\"], deps = [\"//b\"])")

def rootSource : Source :=
  ⟨"y.ts", ["y.ts"], .library, "import\"./b/x\"", [⟨"./b/x", .sideEffect, 1, 1, 0, 13⟩]⟩

def lowerSource : Source :=
  ⟨"x.ts", ["b", "x.ts"], .library, "", []⟩

def movedOptions : SessionOptions :=
  ⟨[".", "b"], false, false, false, false, sampleOptions⟩

/-- A session that was started in the tree `seen`. -/
def movedSession (index : Query.Index) (seen : Tree) : Session :=
  ⟨⟨[]⟩, movedOptions, [(⟨[], ".", ""⟩, [rootSource]), (⟨["b"], "b", "b"⟩, [lowerSource])], index,
    seen⟩

/-- The only question of the first session is about the file further down. -/
def movedIndex : Query.Index :=
  ⟨[(.file "b/x.ts", [])]⟩

/-- What the two sessions find and write. -/
theorem steps_movedTree :
    ((movedTree.source [] "y.ts" = .ok rootSource ∧
          movedTree.source ["b"] "x.ts" = .ok lowerSource) ∧
        movedOnce.source [] "y.ts" = .ok rootSource ∧
          movedOnce.source ["b"] "x.ts" = .ok lowerSource) ∧
      ((Session.packageDirs ⟨[]⟩ movedTree [] movedOptions).toOption =
          some ((movedSession .empty movedTree).packages.map Prod.fst) ∧
        (Session.packageDirs ⟨[]⟩ movedOnce [] movedOptions).toOption =
          some ((movedSession .empty movedOnce).packages.map Prod.fst)) ∧
      (Session.questions ⟨[]⟩ movedTree movedOptions (movedSession .empty movedTree).packages =
          [.file "b/x.ts"] ∧
        Session.questions ⟨[]⟩ movedOnce movedOptions (movedSession .empty movedOnce).packages =
          []) ∧
      (((movedSession movedIndex movedTree).run movedTree).tree = movedOnce ∧
        ((movedSession movedIndex movedTree).run movedTree).failures.length = 0) ∧
      ((movedSession .empty movedOnce).run movedOnce).tree = movedTwice ∧
      ((movedSession .empty movedOnce).run movedOnce).updates.map (·.2.isChanged) =
        [true, false] := by
  decide +kernel

theorem mapM_sources_moved {t : Tree} (hroot : t.sources [] = .ok [rootSource])
    (hlower : t.sources ["b"] = .ok [lowerSource]) (index : Query.Index) (seen : Tree) :
    ((movedSession index seen).packages.map Prod.fst).mapM
        (fun package => do pure (package, ← t.sources package.dir)) =
      .ok (movedSession index seen).packages := by
  simp [movedSession, hroot, hlower, bind, Except.bind, pure, Except.pure]

theorem sources_moved :
    (movedTree.sources [] = .ok [rootSource] ∧ movedTree.sources ["b"] = .ok [lowerSource]) ∧
      movedOnce.sources [] = .ok [rootSource] ∧ movedOnce.sources ["b"] = .ok [lowerSource] := by
  obtain ⟨⟨⟨hroot, hlower⟩, hroot', hlower'⟩, -⟩ := steps_movedTree
  have hnames : sortedTexts ["BUILD", "b", "y.ts"] = ["BUILD", "b", "y.ts"] ∧
      sortedTexts ["x.ts"] = ["x.ts"] ∧ sortedTexts ["BUILD", "x.ts"] = ["BUILD", "x.ts"] := by
    simp [sortedTexts, sortedSet, List.mergeSort, List.MergeSort.Internal.splitInTwo, textLe,
      dropRepeats]
  refine ⟨⟨?_, ?_⟩, ?_, ?_⟩
  · refine Tree.sources_of_names rfl (hnames.1 : movedTree.names [] = _) rfl fun s hs => ?_
    exact List.mem_singleton.1 hs ▸ hroot
  · refine Tree.sources_of_names rfl (hnames.2.1 : movedTree.names ["b"] = _) rfl fun s hs => ?_
    exact List.mem_singleton.1 hs ▸ hlower
  · refine Tree.sources_of_names rfl (hnames.1 : movedOnce.names [] = _) rfl fun s hs => ?_
    exact List.mem_singleton.1 hs ▸ hroot'
  · refine Tree.sources_of_names rfl (hnames.2.2 : movedOnce.names ["b"] = _) rfl fun s hs => ?_
    exact List.mem_singleton.1 hs ▸ hlower'

/-- **A session can change what an equal session left**: the first one makes a package of a
directory whose file was listed further up, and so the second one finds another rule for it. -/
theorem Session.run_again_changes :
    movedTree.IsWellFormed ∧ ∃ first again,
      start ⟨[]⟩ movedTree [] Query.IndexFile.empty.service movedOptions = .ok first ∧
      (first.run movedTree).failures = [] ∧
      start ⟨[]⟩ (first.run movedTree).tree [] Query.IndexFile.empty.service movedOptions =
        .ok again ∧
      (again.run (first.run movedTree).tree).tree.node? ["BUILD"] ≠
        (first.run movedTree).tree.node? ["BUILD"] := by
  obtain ⟨-, ⟨hdirs, hdirs'⟩, ⟨hasked, hasked'⟩, ⟨hrun, hfailures⟩, hrun', -⟩ := steps_movedTree
  obtain ⟨⟨hroot, hlower⟩, hroot', hlower'⟩ := sources_moved
  refine ⟨Tree.isWellFormed_of_entries (by decide), movedSession movedIndex movedTree,
    movedSession .empty movedOnce, start_eq_ok.2 ⟨_, _, movedIndex, toOption_eq_some.1 hdirs,
      mapM_sources_moved hroot hlower .empty movedTree, ?_, rfl⟩,
    List.length_eq_zero_iff.1 hfailures, ?_, ?_⟩
  · rw [hasked]
    simp [Query.Index.build, Query.Key.sortedSet, sortedSet, dropRepeats,
      Query.IndexFile.service, movedIndex]
    rfl
  · rw [hrun]
    refine start_eq_ok.2 ⟨_, _, .empty, toOption_eq_some.1 hdirs',
      mapM_sources_moved hroot' hlower' .empty movedOnce, ?_, rfl⟩
    rw [hasked']
    simp [Query.Index.build, Query.Key.sortedSet, sortedSet, dropRepeats]
  · rw [hrun, hrun']
    decide

end BuildSync
