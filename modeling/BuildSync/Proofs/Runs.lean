import BuildSync.Proofs.Build.Frame
import BuildSync.Proofs.Rereading
import BuildSync.Proofs.Sessions

/-!
# What a run does to one directory

The packages of a session stand in different directories, and an update writes in its own directory
only. So a run updates each of them as if there were no other.

* `Tree.HasBuildFile`: the BUILD file of a directory, with its text.
* `Workspace.node?_of_update`, `Workspace.hasBuildFile_of_update`: what one update leaves, and what
  it writes.
* `Session.IsKnown`, `Session.isKnown_of_start`: what is known of the packages of a session.
* `Session.exists_update`: the update of a package within a run.
* `Session.exists_buildFile`: what a run leaves of a BUILD file.
-/

namespace BuildSync

open Build

/-! ## BUILD files -/

namespace Tree

/-- The BUILD file of a directory has a name and a text. -/
structure HasBuildFile (t : Tree) (dir : Location) (name text : String) : Prop where
  isNamed : t.buildFile? dir = some name
  holds : t.read (dir ++ [name]) = .ok text

variable {t t' : Tree} {dir : Location} {package name text : String} {d : Descriptor}

/-- The BUILD file of a directory is found in the places where it may stand. -/
theorem HasBuildFile.congr (h : t.HasBuildFile dir name text)
    (hnode : ∀ name ∈ buildFileNames, t'.node? (dir ++ [name]) = t.node? (dir ++ [name])) :
    t'.HasBuildFile dir name text :=
  ⟨(buildFile?_congr hnode).trans h.isNamed,
    (read_congr (hnode name (List.mem_of_find?_eq_some h.isNamed))).trans h.holds⟩

/-- **A BUILD file that exists** is read from its text. -/
theorem descriptor?_eq_some : t.descriptor? dir package = .ok (some d) ↔
    ∃ name, t.HasBuildFile dir name d.text ∧
      Descriptor.parse (Location.text (dir ++ [name])) package d.text = .ok d := by
  constructor
  · intro h
    unfold descriptor? at h
    split at h
    · cases h
    · rename_i name hname
      dsimp only at h
      split at h
      · cases h
      · split at h
        · cases h
        · rename_i text hread _ _ hparse
          cases h
          obtain ⟨contents, hcontents, rfl⟩ := map_eq_ok hparse
          exact ⟨name, ⟨hname, hread⟩, hparse⟩
  · rintro ⟨name, hfile, hparse⟩
    unfold descriptor?
    rw [hfile.isNamed]
    dsimp only
    rw [hfile.holds]
    dsimp only
    rw [hparse]

end Tree

/-- **A changed BUILD file is read as it was written**, if the dependencies are read back and a
statement ends with the line of the last load where new loads are added. -/
theorem Tree.HasBuildFile.exists_read {t : Tree} {dir : Location} {package name : String}
    {old new : Descriptor} (h : t.HasBuildFile dir name new.render)
    (hparse : Descriptor.parse (Location.text (dir ++ [name])) package old.text = .ok old)
    (hchange : old.IsChange new) (hgathers : ∀ rule ∈ new.rules, rule.isNew = true →
      rule.kind = .devSources → rule.srcs.values? = some [])
    (hreads : ∀ rule ∈ new.rules, rule.AllDeps (·.ReadsIn package))
    (hclosed : new.pendingLoads ≠ [] → old.hasClosedLoads = true) :
    ∃ d, t.descriptor? dir package = .ok (some d) ∧
      List.Forall₂ Rule.Agrees new.rules d.rules := by
  obtain ⟨d, hd, hagree⟩ := hchange.exists_agrees hparse
    (fun rule hrule _ list hl => hreads rule hrule _ (by rw [hl]; rfl)) hclosed hgathers
  have htext : d.text = new.render := by
    obtain ⟨contents, -, rfl⟩ := map_eq_ok hd
    rfl
  exact ⟨d, descriptor?_eq_some.2 ⟨name, htext ▸ h, htext ▸ hd⟩, hagree⟩

/-! ## One update -/

namespace Workspace

variable {w : Workspace} {before t t' seen : Tree} {index : Query.Index} {options : UpdateOptions}
  {sources : List Source} {isProjectRoot : Bool} {package : PackageDir} {u : PackageUpdate}
  (hs : before.sources package.dir = .ok sources)
  (h : w.update t seen index options package sources isProjectRoot = .ok (t', u))
include hs h

/-- **An update writes in its own directory.** -/
theorem node?_of_update {location : Location} (hne : ∀ name, location ≠ package.dir ++ [name]) :
    t'.node? location = t.node? location := by
  obtain ⟨pending, hprepare, hwrite⟩ := update_eq_ok.1 h
  obtain ⟨_, _, -, -, -, -, -, hbuild⟩ := prepare_eq_ok.1 hprepare
  obtain ⟨t₁, hbuilt, rfl, -⟩ := Pending.write_eq_ok hwrite
  rw [Pending.node?_foldl_put fun entry he heq => ?_]
  · rcases hbuilt with ⟨-, rfl⟩ | ⟨-, -, rfl⟩
    · rfl
    · exact Tree.node?_put_of_ne (fun heq => hne _ (heq.trans hbuild)) _ _
  · obtain ⟨name, hname, -⟩ := locations_of_prepare hs hprepare entry he
    exact hne name (heq.symm.trans hname)

/-- **A BUILD file stays where it is**, and is written as it was prepared. -/
theorem hasBuildFile_of_update {old : Descriptor} {name : String}
    (hold : t.descriptor package.dir package.package = .ok old)
    (hfile : t.HasBuildFile package.dir name old.text) : ∃ pending,
      w.prepare t seen index options package.dir package.package sources isProjectRoot =
        .ok pending ∧
      t'.HasBuildFile package.dir name pending.descriptor.render := by
  obtain ⟨pending, hprepare, hwrite⟩ := update_eq_ok.1 h
  obtain ⟨_, _, -, -, -, -, -, hbuild⟩ := prepare_eq_ok.1 hprepare
  have htext := (isChange_of_prepare hold hprepare).1.text
  obtain ⟨t₁, hbuilt, rfl, -⟩ := Pending.write_eq_ok hwrite
  rw [hfile.isNamed, Option.getD_some] at hbuild
  refine ⟨pending, hprepare, ?_⟩
  have hwritten : t₁.HasBuildFile package.dir name pending.descriptor.render := by
    rcases hbuilt with ⟨hsame, rfl⟩ | ⟨-, -, rfl⟩
    · have hrender : pending.descriptor.render = old.text := by
        rw [← htext]
        simpa [Descriptor.isChanged] using hsame
      exact hrender ▸ hfile
    · have hput := @Tree.buildFile?_put t package.dir pending.descriptor.render
      rw [hfile.isNamed, Option.getD_some] at hput
      rw [hbuild]
      refine ⟨hput, ?_⟩
      unfold Tree.read
      rw [Tree.node?_put_self (by simp)]
  refine hwritten.congr fun other hother => Pending.node?_foldl_put (fun entry he heq => ?_) _
  obtain ⟨source, hsource, hnot⟩ := locations_of_prepare hs hprepare entry he
  rw [hsource] at heq
  exact hnot ((List.cons.inj (List.append_cancel_left heq)).1 ▸ hother)

end Workspace

/-! ## The packages of a session -/

/-- The packages that paths stand for stand in different directories, and are called by them. -/
theorem Workspace.nodup_packageDirs {w : Workspace} {t : Tree} {cwd : Location}
    {found dirs : List PackageDir} {paths : List String}
    (h : w.packageDirs t cwd found paths = .ok dirs) (hfound : (found.map (·.dir)).Nodup)
    (hnames : ∀ package ∈ found, w.relative? package.dir = some package.package) :
    (dirs.map (·.dir)).Nodup ∧
      ∀ package ∈ dirs, w.relative? package.dir = some package.package := by
  induction paths generalizing found with
  | nil =>
    cases h
    exact ⟨hfound, hnames⟩
  | cons path paths ih =>
    unfold packageDirs at h
    obtain ⟨dir, hdir, h⟩ := bind_eq_ok.1 h
    split at h
    · exact ih h hfound hnames
    · rename_i hnew
      obtain ⟨package, hpackage, h⟩ := bind_eq_ok.1 h
      unfold packageDir at hpackage
      obtain ⟨dir', hdir', hpackage⟩ := bind_eq_ok.1 hpackage
      cases Except.ok.inj (hdir.symm.trans hdir')
      obtain ⟨name, hname, hpackage⟩ := bind_eq_ok.1 hpackage
      cases hpackage
      refine ih h ?_ ?_
      · rw [List.map_append, List.nodup_append']
        refine ⟨hfound, List.nodup_singleton _, fun other hm ho => hnew ?_⟩
        obtain ⟨package, hmem, rfl⟩ := List.mem_map.1 hm
        exact List.any_eq_true.2 ⟨package, hmem, decide_eq_true (List.mem_singleton.1 ho)⟩
      · rw [List.forall_mem_append]
        refine ⟨hnames, fun package hmem => ?_⟩
        rw [List.mem_singleton.1 hmem]
        unfold packageOf at hname
        split at hname
        · rename_i relative hrelative
          cases hname
          exact hrelative
        · cases hname

namespace Session

/-- What is known of packages: they stand in different directories, by which they are called, and
their sources were read there. -/
structure IsKnown (w : Workspace) (before : Tree) (packages : List (PackageDir × List Source)) :
    Prop where
  nodup : (packages.map (·.1.dir)).Nodup
  package : ∀ entry ∈ packages, w.relative? entry.1.dir = some entry.1.package
  sources : ∀ entry ∈ packages, before.sources entry.1.dir = .ok entry.2

/-- **A started session knows its packages.** -/
theorem isKnown_of_start {w : Workspace} {t : Tree} {cwd : Location} {service : Query.Service}
    {options : SessionOptions} {s : Session} (h : start w t cwd service options = .ok s) :
    s.workspace = w ∧ s.options = options ∧ IsKnown w t s.packages := by
  obtain ⟨dirs, packages, index, hdirs, hpackages, -, rfl⟩ := start_eq_ok.1 h
  obtain ⟨hnodup, hnames⟩ : (dirs.map (·.dir)).Nodup ∧
      ∀ package ∈ dirs, w.relative? package.dir = some package.package := by
    unfold packageDirs at hdirs
    split at hdirs
    · cases hdirs
    · exact Workspace.nodup_packageDirs hdirs (by simp) (by simp)
  have hread : List.Forall₂ (fun package (entry : PackageDir × List Source) =>
      entry.1 = package ∧ t.sources package.dir = .ok entry.2) dirs packages := by
    refine (forall₂_of_mapM hpackages).imp fun package entry hentry => ?_
    obtain ⟨sources, hsources, hentry⟩ := bind_eq_ok.1 hentry
    cases hentry
    exact ⟨rfl, hsources⟩
  refine ⟨rfl, rfl, ?_, fun entry hmem => ?_, fun entry hmem => ?_⟩
  · have hmap : packages.map (·.1.dir) = dirs.map (·.dir) := by
      clear h hpackages hdirs hnodup hnames
      induction hread with
      | nil => rfl
      | cons hentry _ ih => rw [List.map_cons, List.map_cons, hentry.1, ih]
    exact hmap ▸ hnodup
  · obtain ⟨package, hmem, rfl, -⟩ := Ownership.exists_partner hread hmem
    exact hnames _ hmem
  · obtain ⟨package, -, rfl, hsources⟩ := Ownership.exists_partner hread hmem
    exact hsources

/-! ## A run -/

variable {s : Session} {before : Tree} {r : Report} {packages : List (PackageDir × List Source)}

/-- Failures stay. -/
theorem failures_updateAll_ne_nil (h : r.failures ≠ []) :
    (s.updateAll r packages).failures ≠ [] := by
  induction packages generalizing r with
  | nil => exact h
  | cons entry rest ih =>
    unfold updateAll
    split
    · exact ih h
    · dsimp only
      split
      · exact ih (by simp)
      · simp

/-- A run without a failure begins with an update and goes on from what that left. -/
theorem updateAll_cons {package : PackageDir} {sources : List Source}
    (h : (s.updateAll r ((package, sources) :: packages)).failures = []) :
    ∃ t u, s.updatePackage r.tree package sources packages.isEmpty = .ok (t, u) ∧
      s.updateAll r ((package, sources) :: packages) =
        s.updateAll { r with tree := t, updates := r.updates ++ [(package, u)] } packages := by
  cases hupdate : s.updatePackage r.tree package sources packages.isEmpty with
  | ok result => exact ⟨result.1, result.2, rfl, by rw [updateAll, hupdate]⟩
  | error failure =>
    rw [updateAll, hupdate] at h
    dsimp only at h
    split at h
    · exact absurd h (failures_updateAll_ne_nil (by simp))
    · simp at h

/-- **A run writes in the directories of its packages.** -/
theorem node?_updateAll (hs : ∀ entry ∈ packages, before.sources entry.1.dir = .ok entry.2)
    (h : (s.updateAll r packages).failures = []) {location : Location}
    (hne : ∀ entry ∈ packages, ∀ name, location ≠ entry.1.dir ++ [name]) :
    (s.updateAll r packages).tree.node? location = r.tree.node? location := by
  induction packages generalizing r with
  | nil => rfl
  | cons entry rest ih =>
    rw [List.forall_mem_cons] at hs hne
    obtain ⟨t, u, hupdate, heq⟩ := updateAll_cons h
    rw [heq] at h ⊢
    rw [ih hs.2 h hne.2]
    exact Workspace.node?_of_update hs.1 hupdate hne.1

/-- **A run updates each package as if there were no other**: what the update finds in the directory
stood there at first, and what it leaves there stands there in the end. -/
theorem exists_update (hk : IsKnown s.workspace before packages)
    (h : (s.updateAll r packages).failures = []) {package : PackageDir} {sources : List Source}
    (hmem : (package, sources) ∈ packages) : ∃ t t' u isLast,
      s.updatePackage t package sources isLast = .ok (t', u) ∧ ∀ name,
        t.node? (package.dir ++ [name]) = r.tree.node? (package.dir ++ [name]) ∧
        (s.updateAll r packages).tree.node? (package.dir ++ [name]) =
          t'.node? (package.dir ++ [name]) := by
  obtain ⟨hnodup, hnames, hs⟩ := hk
  induction packages generalizing r with
  | nil => cases hmem
  | cons entry rest ih =>
    obtain ⟨hfirst, hnodup⟩ := List.nodup_cons.1 hnodup
    rw [List.forall_mem_cons] at hnames hs
    obtain ⟨t, u, hupdate, heq⟩ := updateAll_cons h
    rw [heq] at h ⊢
    -- Files of one directory do not stand in another one.
    have hapart : ∀ entry' ∈ rest, ∀ name other,
        entry.1.dir ++ [name] ≠ entry'.1.dir ++ [other] := fun entry' hentry name other hsame =>
      hfirst (List.mem_map.2 ⟨entry', hentry, (List.append_inj' hsame rfl).1.symm⟩)
    rcases List.mem_cons.1 hmem with rfl | hmem
    · exact ⟨r.tree, t, u, _, hupdate, fun name => ⟨rfl,
        node?_updateAll hs.2 h fun entry' hentry other => hapart entry' hentry name other⟩⟩
    · obtain ⟨t₁, t₂, u', isLast, hlater, hnodes⟩ := ih h hmem hnodup hnames.2 hs.2
      refine ⟨t₁, t₂, u', isLast, hlater, fun name => ⟨?_, (hnodes name).2⟩⟩
      rw [(hnodes name).1]
      exact Workspace.node?_of_update hs.1 hupdate fun other hsame =>
        hapart _ hmem other name hsame.symm

/-- **What a run leaves of a BUILD file**: the file as it was, or what one update prepared. Nothing
but rules and loads changes; and if the dependencies are read back, the rules are, if a statement
ends with the line of the last load where new loads are added. -/
theorem exists_buildFile {w : Workspace} {t : Tree} {cwd : Location} {service : Query.Service}
    {options : SessionOptions} {s : Session} (hstart : start w t cwd service options = .ok s)
    (hrun : (s.run t).failures = []) {dir : Location} {package : String} {old : Descriptor}
    (hw : w.relative? dir = some package) (hold : t.descriptor? dir package = .ok (some old)) :
    ∃ name new, (s.run t).tree.HasBuildFile dir name new.render ∧
      (new = old ∨ ∃ t₁ sources isRoot pending, t.sources dir = .ok sources ∧
        t₁.descriptor dir package = .ok old ∧
        w.prepare t₁ s.seen s.index options.update dir package sources isRoot = .ok pending ∧
        new = pending.descriptor ∧ (isRoot = true → options.isProjectRoot = true)) ∧
      old.IsChange new ∧
      ((∀ rule ∈ new.rules, rule.AllDeps (·.ReadsIn package)) →
        (new.pendingLoads ≠ [] → old.hasClosedLoads = true) →
        ∃ d, (s.run t).tree.descriptor? dir package = .ok (some d) ∧
          List.Forall₂ Rule.Agrees new.rules d.rules) := by
  obtain ⟨rfl, rfl, hknown⟩ := isKnown_of_start hstart
  obtain ⟨name, hfile, hparse⟩ := Tree.descriptor?_eq_some.1 hold
  by_cases hin : ∃ entry ∈ s.packages, entry.1.dir = dir
  · obtain ⟨⟨entry, sources⟩, hentry, rfl⟩ := hin
    cases Option.some.inj ((hknown.package _ hentry).symm.trans hw)
    obtain ⟨t₁, t₂, u, isLast, hupdate, hnodes⟩ := exists_update hknown hrun hentry
    -- The update finds the BUILD file, and what it writes is there in the end.
    have hfound : t₁.HasBuildFile entry.dir name old.text :=
      hfile.congr fun other _ => (hnodes other).1
    have hold₁ : t₁.descriptor entry.dir entry.package = .ok old :=
      Tree.descriptor_of_descriptor? (Tree.descriptor?_eq_some.2 ⟨name, hfound, hparse⟩)
    have hs := hknown.sources _ hentry
    obtain ⟨pending, hprepare, hwritten⟩ :=
      Workspace.hasBuildFile_of_update hs hupdate hold₁ hfound
    obtain ⟨hchange, hgathers⟩ := Workspace.isChange_of_prepare hold₁ hprepare
    have hend := hwritten.congr fun other _ => (hnodes other).2
    exact ⟨name, pending.descriptor, hend, .inr ⟨t₁, sources, _, pending, hs, hold₁, hprepare, rfl,
      fun hroot => (Bool.and_eq_true_iff.1 hroot).1⟩, hchange,
      hend.exists_read hparse hchange hgathers⟩
  · -- No package stands there.
    have hread := (Descriptor.isRead_of_parse hparse).1
    have hend : (s.run t).tree.HasBuildFile dir name old.render := by
      rw [Descriptor.render_of_parse hparse]
      refine hfile.congr fun other _ => node?_updateAll hknown.sources hrun ?_
      exact fun entry hentry last hsame =>
        hin ⟨entry, hentry, (List.append_inj' hsame rfl).1.symm⟩
    refine ⟨name, old, hend, .inl rfl, .refl hread, hend.exists_read hparse (.refl hread) ?_⟩
    intro rule hrule hnew
    rw [(hread rule hrule).isNew] at hnew
    cases hnew

end Session

end BuildSync
