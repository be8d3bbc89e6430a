import BuildSync.Proofs.Runs

/-!
# What an update leaves of a tree

An update gives files of its directory other texts, and makes a BUILD file where there was none.

* `Tree.Touches`: two trees that differ by no more than that.
* `Workspace.touches_of_update`: an update and its directory.
* `Tree.Touches.isDir`, `Tree.Touches.node?_of_name`: directories stay, and so do files of all other
  names.
-/

namespace BuildSync

open Build

/-! ## Trees that differ in one directory -/

/-- What stands in a directory under a name that a BUILD file or a source may have: a file that was
one, or the directory's new BUILD file. -/
structure Tree.IsTouched (t t' : Tree) (dir : Location) (name : String) : Prop where
  named : name ∈ buildFileNames ∨ (SourceKind.ofName? name).isSome = true
  isFile : t'.isFile (dir ++ [name]) = true
  before : t.isFile (dir ++ [name]) = true ∨
    t.node? (dir ++ [name]) = none ∧ name = newBuildFileName ∧ t.buildFile? dir = none

/-- Two trees differ in files of one directory only. -/
structure Tree.Touches (t t' : Tree) (dir : Location) : Prop where
  elsewhere : ∀ location, (∀ name, location ≠ dir ++ [name]) →
    t'.node? location = t.node? location
  inside : ∀ name, t'.node? (dir ++ [name]) = t.node? (dir ++ [name]) ∨ t.IsTouched t' dir name

namespace Tree

variable {t t' : Tree} {dir : Location}

theorem isDir_of_isFile {location : Location} (h : t.isFile location = true) :
    t.isDir location = false := by
  unfold isFile at h
  unfold isDir
  split at h
  · rename_i hnode
    simp [hnode]
  · rename_i hnode
    simp [hnode]
  · cases h

theorem Touches.refl (t : Tree) (dir : Location) : t.Touches t dir :=
  ⟨fun _ _ => rfl, fun _ => .inl rfl⟩

theorem Touches.cases (h : t.Touches t' dir) (location : Location) :
    t'.node? location = t.node? location ∨
      ∃ name, location = dir ++ [name] ∧ t.IsTouched t' dir name := by
  by_cases hin : ∃ name, location = dir ++ [name]
  · obtain ⟨name, rfl⟩ := hin
    exact (h.inside name).imp_right fun htouched => ⟨name, rfl, htouched⟩
  · exact .inl (h.elsewhere location fun name heq => hin ⟨name, heq⟩)

/-- **Directories stay, and none is made.** -/
theorem Touches.isDir (h : t.Touches t' dir) (location : Location) :
    t'.isDir location = t.isDir location := by
  rcases h.cases location with hsame | ⟨name, rfl, htouched⟩
  · unfold Tree.isDir
    rw [hsame]
  · rw [isDir_of_isFile htouched.isFile]
    rcases htouched.before with hfile | ⟨hnone, -, -⟩
    · rw [isDir_of_isFile hfile]
    · simp [Tree.isDir, hnone]

/-- **Files of other names stay** as they were. -/
theorem Touches.node?_of_name (h : t.Touches t' dir) {name : String}
    (hbuild : name ∉ buildFileNames)
    (hsource : SourceKind.ofName? name = none) (place : Location) :
    t'.node? (place ++ [name]) = t.node? (place ++ [name]) := by
  rcases h.cases (place ++ [name]) with hsame | ⟨other, heq, htouched⟩
  · exact hsame
  · obtain ⟨-, hname⟩ := List.append_inj' heq rfl
    cases hname
    rcases htouched.named with hnamed | hnamed
    · exact absurd hnamed hbuild
    · rw [hsource] at hnamed
      cases hnamed

/-- One more file that an update may write. -/
theorem Touches.put (h : t.Touches t' dir) {name text : String}
    (hnamed : name ∈ buildFileNames ∨ (SourceKind.ofName? name).isSome = true)
    (hbefore : t.isFile (dir ++ [name]) = true ∨
      t.node? (dir ++ [name]) = none ∧ name = newBuildFileName ∧ t.buildFile? dir = none) :
    t.Touches (t'.put (dir ++ [name]) (.text text)) dir := by
  refine ⟨fun location hne => ?_, fun other => ?_⟩
  · rw [node?_put_of_ne (hne name)]
    exact h.elsewhere location hne
  · by_cases hother : other = name
    · subst hother
      refine .inr ⟨hnamed, ?_, hbefore⟩
      unfold Tree.isFile
      rw [node?_put_self (by simp)]
    · have hne : dir ++ [other] ≠ dir ++ [name] := by simpa using hother
      have hsame := node?_put_of_ne hne t' (.text text)
      rcases h.inside other with hold | hold
      · exact .inl (hsame.trans hold)
      · exact .inr ⟨hold.named, (isFile_congr hsame).trans hold.isFile, hold.before⟩

/-- Files of sources that an update may write. -/
theorem Touches.foldl_put {entries : List (Location × String)} (h : t.Touches t' dir)
    (hfiles : ∀ entry ∈ entries, t.isFile entry.1 = true)
    (hnamed : ∀ entry ∈ entries, ∃ name, entry.1 = dir ++ [name] ∧
      (SourceKind.ofName? name).isSome = true) :
    t.Touches (entries.foldl (fun t source => t.put source.1 (.text source.2)) t') dir := by
  induction entries generalizing t' with
  | nil => exact h
  | cons entry entries ih =>
    rw [List.forall_mem_cons] at hfiles hnamed
    obtain ⟨name, hplace, hname⟩ := hnamed.1
    rw [List.foldl_cons, hplace]
    exact ih (h.put (.inr hname) (.inl (hplace ▸ hfiles.1))) hfiles.2 hnamed.2

end Tree

/-! ## One update -/

namespace Pending

/-- A source that can be written is a file. -/
theorem isFile_of_checkSource {t : Tree} {source : Location × String}
    (h : checkSource t source = .ok ()) : t.isFile source.1 = true := by
  unfold checkSource at h
  unfold Tree.isFile
  cases hnode : t.node? source.1 with
  | none => simp [hnode] at h
  | some node => cases node <;> simp_all

theorem forall_of_forM {α ε : Type} {f : α → Except ε Unit} {xs : List α}
    (h : xs.forM f = .ok ()) : ∀ x ∈ xs, f x = .ok () := by
  induction xs with
  | nil => simp
  | cons x xs ih =>
    change (f x >>= fun _ => xs.forM f) = .ok () at h
    obtain ⟨u, hx, h⟩ := bind_eq_ok.1 h
    exact List.forall_mem_cons.2 ⟨hx, ih h⟩

theorem isFile_of_write {p : Pending} {t : Tree} {result : Tree × PackageUpdate}
    (h : p.write t = .ok result) : ∀ source ∈ p.sources, t.isFile source.1 = true := by
  obtain ⟨u, hcheck, -⟩ := bind_eq_ok.1 h
  exact fun source hmem => isFile_of_checkSource (forall_of_forM hcheck source hmem)

end Pending

namespace Workspace

variable {w : Workspace} {before t t' seen : Tree} {index : Query.Index} {options : UpdateOptions}
  {sources : List Source} {isProjectRoot : Bool}

/-- What an update writes besides the BUILD file are sources of the directory. -/
theorem named_of_prepare {dir : Location} {package : String} {pending : Pending}
    (hs : before.sources dir = .ok sources)
    (h : w.prepare t seen index options dir package sources isProjectRoot = .ok pending) :
    ∀ entry ∈ pending.sources, ∃ name, entry.1 = dir ++ [name] ∧
      (SourceKind.ofName? name).isSome = true := by
  obtain ⟨old, scope, -, -, -, hsources, -⟩ := prepare_eq_ok.1 h
  intro entry he
  obtain ⟨-, source, hsource, hlocation, -⟩ := (Scope.mem_annotations hsources).1 he
  exact ⟨source.name, hlocation.trans (location_of_source hs hsource).1,
    ((Tree.mem_sources hs).1 (List.mem_map_of_mem hsource)).2⟩

/-- The BUILD file stands in its place, or nothing does. -/
theorem isFile_or_none {dir : Location}
    (h : t.isDir (dir ++ [(t.buildFile? dir).getD newBuildFileName]) = false) :
    t.isFile (dir ++ [(t.buildFile? dir).getD newBuildFileName]) = true ∨
      t.node? (dir ++ [(t.buildFile? dir).getD newBuildFileName]) = none ∧
        (t.buildFile? dir).getD newBuildFileName = newBuildFileName ∧ t.buildFile? dir = none := by
  cases hname : t.buildFile? dir with
  | some name =>
    have hfile := List.find?_some hname
    exact .inl hfile
  | none =>
    rw [hname] at h
    refine .inr ⟨?_, rfl, rfl⟩
    have hnot := List.find?_eq_none.1 hname newBuildFileName (by decide)
    rw [Option.getD_none] at h ⊢
    unfold Tree.isDir at h
    unfold Tree.isFile at hnot
    cases hnode : t.node? (dir ++ [newBuildFileName]) with
    | none => rfl
    | some node => cases node <;> simp_all

/-- What is written as it was prepared touches the directory. -/
theorem touches_of_prepare {dir : Location} {package : String} {pending : Pending} {t₁ : Tree}
    (hs : before.sources dir = .ok sources)
    (h : w.prepare t seen index options dir package sources isProjectRoot = .ok pending)
    (hfiles : ∀ source ∈ pending.sources, t.isFile source.1 = true)
    (hbuilt : pending.descriptor.isChanged = false ∧ t₁ = t ∨ pending.descriptor.isChanged = true ∧
      t.isDir pending.buildFile = false ∧
        t₁ = t.put pending.buildFile (.text pending.descriptor.render)) :
    t.Touches (pending.sources.foldl (fun t source => t.put source.1 (.text source.2)) t₁) dir := by
  obtain ⟨_, _, -, -, -, -, -, hbuild⟩ := prepare_eq_ok.1 h
  have hfirst : t.Touches t₁ dir := by
    rcases hbuilt with ⟨-, rfl⟩ | ⟨-, hdir, rfl⟩
    · exact .refl t₁ dir
    · rw [hbuild] at hdir ⊢
      refine (Tree.Touches.refl t dir).put (.inl ?_) (isFile_or_none hdir)
      cases hname : t.buildFile? dir with
      | none => decide
      | some name => exact List.mem_of_find?_eq_some hname
  exact hfirst.foldl_put hfiles (named_of_prepare hs h)

/-- **An update touches its directory**: it gives files other texts, and may make a BUILD file. -/
theorem touches_of_update {package : PackageDir} {u : PackageUpdate}
    (hs : before.sources package.dir = .ok sources)
    (h : w.update t seen index options package sources isProjectRoot = .ok (t', u)) :
    t.Touches t' package.dir := by
  obtain ⟨pending, hprepare, hwrite⟩ := update_eq_ok.1 h
  obtain ⟨t₁, hbuilt, rfl, -⟩ := Pending.write_eq_ok hwrite
  exact touches_of_prepare hs hprepare (Pending.isFile_of_write hwrite) hbuilt

end Workspace

end BuildSync
