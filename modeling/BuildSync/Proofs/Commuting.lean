import BuildSync.Proofs.Atomicity
import BuildSync.Proofs.Overlooking

/-!
# Updates that commute

An update writes in its own directory, and looks into another package's directory only where its
sources and rules point there. So two updates that do not point at each other can be made in either
order. Where a specifier points was settled when the session was started.

* `Action.SameOutcome`: something done to two trees comes to the same;
  `Session.sameOutcome_perform`: an update does, if the trees differ in a directory that nothing in
  its package points into.
* `Session.touches_of_perform`: an update touches its directory, whichever files are refused.
* `Session.perform_commutes`: two updates that do not point at each other commute.
-/

namespace BuildSync

open Build

/-! ## Outcomes -/

/-- Something done to two trees comes to the same: it fails for the same reason and leaves both, or
it gives the same result and leaves the same where they had the same. -/
inductive Action.SameOutcome {ε α : Type} (t t' : Tree) :
    EStateM.Result ε Tree α → EStateM.Result ε Tree α → Prop
  | ok (a : α) {t₁ t₁' : Tree} :
    (∀ location, t'.node? location = t.node? location → t₁'.node? location = t₁.node? location) →
      SameOutcome t t' (.ok a t₁) (.ok a t₁')
  | error (e : ε) : SameOutcome t t' (.error e t) (.error e t')

namespace Action.SameOutcome

variable {ε α : Type} {t t' t₁ : Tree} {result result' : EStateM.Result ε Tree α}
  (h : SameOutcome t t' result result')
include h

theorem exists_of_ok {a : α} (hr : result = .ok a t₁) : ∃ t₁', result' = .ok a t₁' ∧
    ∀ location, t'.node? location = t.node? location →
      t₁'.node? location = t₁.node? location := by
  cases h with
  | ok _ hsame =>
    cases hr
    exact ⟨_, rfl, hsame⟩
  | error => cases hr

theorem eq_of_error {e : ε} (hr : result = .error e t₁) : result' = .error e t' := by
  cases h with
  | ok => cases hr
  | error =>
    cases hr
    rfl

end Action.SameOutcome

theorem Tree.node?_put_congr {t t' : Tree} {location : Location}
    (h : t'.node? location = t.node? location) (place : Location) (node : Node) :
    (t'.put place node).node? location = (t.put place node).node? location := by
  by_cases hnil : location = []
  · subst hnil
    rfl
  · by_cases hplace : location = place
    · subst hplace
      rw [node?_put_self hnil, node?_put_self hnil]
    · rw [node?_put_of_ne hplace, node?_put_of_ne hplace, h]

namespace Pending

variable {refused : Refusals} {p : Pending} {t t' : Tree}

theorem node?_foldl_put_congr {location : Location} (h : t'.node? location = t.node? location)
    (entries : List (Location × String)) :
    (entries.foldl (fun t entry => t.put entry.1 (.text entry.2)) t').node? location =
      (entries.foldl (fun t entry => t.put entry.1 (.text entry.2)) t).node? location := by
  induction entries generalizing t t' with
  | nil => exact h
  | cons entry entries ih => exact ih (Tree.node?_put_congr h entry.1 _)

theorem forM_congr {α ε : Type} {f g : α → Except ε Unit} {xs : List α}
    (h : ∀ x ∈ xs, f x = g x) : xs.forM f = xs.forM g := by
  induction xs with
  | nil => rfl
  | cons x xs ih =>
    rw [List.forall_mem_cons] at h
    change (f x >>= fun _ => xs.forM f) = (g x >>= fun _ => xs.forM g)
    rw [h.1, ih h.2]

/-- The BUILD file is replaced in both trees, or in none. -/
theorem replaceBuildFile_congr (hfile : t'.isDir p.buildFile = t.isDir p.buildFile)
    (hdir : t'.node? p.buildFile.dropLast = t.node? p.buildFile.dropLast) :
    p.replaceBuildFile refused t' = (p.replaceBuildFile refused t).map fun _ =>
      t'.put p.buildFile (.text p.descriptor.render) := by
  unfold replaceBuildFile writeBuildFile Tree.write
  rw [hfile, hdir]
  cases refused p.buildFile with
  | some fault => rfl
  | none =>
    cases t.isDir p.buildFile with
    | true => rfl
    | false =>
      cases t.node? p.buildFile.dropLast with
      | none => rfl
      | some node => cases node <;> rfl

/-- **An update is written to both trees**, or to none, if they have the same where it is
written. -/
theorem sameOutcome_commit
    (hsources : ∀ source ∈ p.sources, t'.node? source.1 = t.node? source.1)
    (hfile : t'.isDir p.buildFile = t.isDir p.buildFile)
    (hdir : t'.node? p.buildFile.dropLast = t.node? p.buildFile.dropLast) :
    Action.SameOutcome t t' ((p.commit refused).run t) ((p.commit refused).run t') := by
  have hopen : p.sources.forM (mayOpen refused · t') = p.sources.forM (mayOpen refused · t) := by
    refine forM_congr fun source hsource => ?_
    unfold mayOpen checkSource
    rw [hsources source hsource]
  rw [run_commit, run_commit, hopen]
  cases p.sources.forM (mayOpen refused · t) with
  | error problem => exact .error problem
  | ok _ =>
    dsimp only
    cases p.descriptor.isChanged with
    | false => exact .ok _ fun location hsame => node?_foldl_put_congr hsame p.sources
    | true =>
      simp only [if_true]
      rw [replaceBuildFile_congr hfile hdir]
      cases hreplaced : p.replaceBuildFile refused t with
      | error problem => exact .error problem
      | ok t₁ =>
        obtain rfl : t₁ = t.put p.buildFile (.text p.descriptor.render) := by
          unfold replaceBuildFile at hreplaced
          split at hreplaced
          · cases hreplaced
          · exact (writeBuildFile_eq_ok hreplaced).2
        exact .ok _ fun location hsame =>
          node?_foldl_put_congr (Tree.node?_put_congr hsame p.buildFile _) p.sources

/-- What is written goes where a file or nothing was. -/
theorem commit_eq_ok {u : PackageUpdate} (h : (p.commit refused).run t = .ok u t') :
    (∀ source ∈ p.sources, t.isFile source.1 = true) ∧ ∃ t₁,
      (p.descriptor.isChanged = false ∧ t₁ = t ∨ p.descriptor.isChanged = true ∧
        t.isDir p.buildFile = false ∧ t₁ = t.put p.buildFile (.text p.descriptor.render)) ∧
      t' = p.sources.foldl (fun t source => t.put source.1 (.text source.2)) t₁ := by
  rw [run_commit] at h
  split at h
  · cases h
  · rename_i hopen
    split at h
    · cases h
    · rename_i t₁ hbuilt
      cases h
      refine ⟨fun source hsource => ?_, t₁, ?_, rfl⟩
      · have hmay := forall_of_forM hopen source hsource
        unfold mayOpen at hmay
        split at hmay
        · cases hmay
        · exact isFile_of_checkSource hmay
      · cases hchanged : p.descriptor.isChanged with
        | false =>
          rw [hchanged] at hbuilt
          exact .inl ⟨rfl, (Except.ok.inj hbuilt).symm⟩
        | true =>
          rw [hchanged] at hbuilt
          refine .inr ⟨rfl, writeBuildFile_eq_ok ?_⟩
          simp only [if_true] at hbuilt
          unfold replaceBuildFile at hbuilt
          split at hbuilt
          · cases hbuilt
          · exact hbuilt

end Pending

/-! ## Updates of two packages -/

namespace Session

variable {s : Session} {refused : Refusals} {before t t' : Tree} {task : Task}

/-- **An update touches its directory**, whichever files are refused. -/
theorem touches_of_perform {u : PackageUpdate}
    (hs : before.sources task.package.dir = .ok task.sources)
    (h : (s.perform refused task).run t = .ok u t') : t.Touches t' task.package.dir := by
  rw [run_perform] at h
  split at h
  · cases h
  · rename_i pending hprepare
    split at h
    · cases h
    · rename_i hcommit
      cases h
      obtain ⟨hfiles, t₁, hbuilt, rfl⟩ := Pending.commit_eq_ok hcommit
      exact Workspace.touches_of_prepare hs hprepare hfiles hbuilt

/-- What is asked of a package and of another directory for the order of updates not to matter. -/
structure Task.StandsApart (s : Session) (t : Tree) (task : Task) (other : Location) : Prop where
  /-- The sources are those of the directory. -/
  sources : t.sources task.package.dir = .ok task.sources
  /-- There are no rules over the whole project. -/
  isPlain : (s.options.isProjectRoot && task.isLast) = false
  overlooks : s.workspace.Overlooks t s.seen task.package.dir task.package.package task.sources
    other

/-- **An update comes to the same** after a directory was touched that nothing in its package points
into. -/
theorem sameOutcome_perform {other : Location} (ht : t.IsWellFormed) (h : t.Touches t' other)
    (hother : t.isDir other = true) (hne : task.package.dir ≠ other)
    (hapart : task.StandsApart s t other) :
    Action.SameOutcome t t' ((s.perform refused task).run t) ((s.perform refused task).run t') := by
  have hprepare := @Workspace.Overlooks.prepare s.workspace t t' s.seen s.index s.options.update
    _ _ _ _ hapart.overlooks h ht hother hne hapart.sources
  have hisDir := Tree.isDir_of_sources hapart.sources
  rw [run_perform, run_perform, hapart.isPlain, hprepare]
  cases hpending : s.workspace.prepare t s.seen s.index s.options.update task.package.dir
      task.package.package task.sources false with
  | error problems => exact .error _
  | ok pending =>
    obtain ⟨_, _, -, -, -, -, -, hbuild⟩ := Workspace.prepare_eq_ok.1 hpending
    have hcommit : Action.SameOutcome t t' ((pending.commit refused).run t)
        ((pending.commit refused).run t') := by
      refine Pending.sameOutcome_commit (fun source hsource => ?_) (h.isDir _) ?_
      · obtain ⟨name, hname, -⟩ :=
          Workspace.locations_of_prepare hapart.sources hpending source hsource
        rw [hname]
        exact h.node?_of_ne hne name
      · rw [hbuild, List.dropLast_concat, of_decide_eq_true hisDir,
          of_decide_eq_true ((h.isDir _).trans hisDir)]
    dsimp only
    generalize (pending.commit refused).run t = result, (pending.commit refused).run t' = result'
      at hcommit
    cases hcommit with
    | ok u hsame => exact .ok u hsame
    | error problem => exact .error _

/-- An update succeeds, or fails and leaves the files. -/
theorem perform_cases (s : Session) (refused : Refusals) (task : Task) (t : Tree) :
    (∃ u t', (s.perform refused task).run t = .ok u t') ∨
      ∃ problems, (s.perform refused task).run t = .error (task.failure problems) t := by
  cases h : (s.perform refused task).run t with
  | ok u t' => exact .inl ⟨u, t', rfl⟩
  | error failure t' =>
    obtain ⟨rfl, problems, rfl⟩ := perform_error h
    exact .inr ⟨problems, rfl⟩

/-- **Independent updates commute.** Of two packages of which none points into the other's
directory, each fails or succeeds as it does alone, with the same result, and the files are the same
in the end, whichever is updated first. -/
theorem perform_commutes {first second : Task} (ht : t.IsWellFormed)
    (hne : first.package.dir ≠ second.package.dir)
    (hfirst : first.StandsApart s t second.package.dir)
    (hsecond : second.StandsApart s t first.package.dir) :
    ∃ result result' t₁ t₂, s.Attempts refused t [(first, result), (second, result')] t₁ ∧
      s.Attempts refused t [(second, result'), (first, result)] t₂ ∧
      ∀ location, t₁.node? location = t₂.node? location := by
  have hdir := Tree.isDir_of_sources hfirst.sources
  have hdir' := Tree.isDir_of_sources hsecond.sources
  -- Each update comes to the same after the other one.
  have hagain : ∀ {u t₁}, (s.perform refused first).run t = .ok u t₁ →
      Action.SameOutcome t t₁ ((s.perform refused second).run t)
        ((s.perform refused second).run t₁) := fun h =>
    sameOutcome_perform ht (touches_of_perform hfirst.sources h) hdir hne.symm hsecond
  have hagain' : ∀ {u t₂}, (s.perform refused second).run t = .ok u t₂ →
      Action.SameOutcome t t₂ ((s.perform refused first).run t)
        ((s.perform refused first).run t₂) := fun h =>
    sameOutcome_perform ht (touches_of_perform hsecond.sources h) hdir' hne hfirst
  rcases perform_cases s refused first t with ⟨u, t₁, h₁⟩ | ⟨problems, h₁⟩ <;>
    rcases perform_cases s refused second t with ⟨u', t₂, h₂⟩ | ⟨problems', h₂⟩
  · obtain ⟨t₁₂, h₁₂, hsame⟩ := (hagain h₁).exists_of_ok h₂
    obtain ⟨t₂₁, h₂₁, hsame'⟩ := (hagain' h₂).exists_of_ok h₁
    refine ⟨.ok u, .ok u', t₁₂, t₂₁, .ok h₁ (.ok h₁₂ (.nil _)), .ok h₂ (.ok h₂₁ (.nil _)),
      fun location => ?_⟩
    by_cases hin : location.dropLast = second.package.dir
    · have hother : location.dropLast ≠ first.package.dir := fun heq => hne (heq.symm.trans hin)
      rw [hsame location ((touches_of_perform hfirst.sources h₁).node?_of_dropLast hother),
        (touches_of_perform hfirst.sources h₂₁).node?_of_dropLast hother]
    · rw [hsame' location ((touches_of_perform hsecond.sources h₂).node?_of_dropLast hin),
        (touches_of_perform hsecond.sources h₁₂).node?_of_dropLast hin]
  · exact ⟨.ok u, .error problems', t₁, t₁, .ok h₁ (.error ((hagain h₁).eq_of_error h₂) (.nil _)),
      .error h₂ (.ok h₁ (.nil _)), fun _ => rfl⟩
  · exact ⟨.error problems, .ok u', t₂, t₂, .error h₁ (.ok h₂ (.nil _)),
      .ok h₂ (.error ((hagain' h₂).eq_of_error h₁) (.nil _)), fun _ => rfl⟩
  · exact ⟨.error problems, .error problems', t, t, .error h₁ (.error h₂ (.nil _)),
      .error h₂ (.error h₁ (.nil _)), fun _ => rfl⟩

end Session

/-! ## A file that is the main file of another directory once it is made -/

/-- The source of package `p` imports the directory `r`. The directory `q` has a source and no BUILD
file yet, which would be the main file of `r` by its `package.json`. -/
def describedTree : Tree :=
  ⟨[(["p"], .directory), (["p", "BUILD"], .text listedBuild),
    (["p", "a.ts"], .text "import\"../r\""),
    (["q"], .directory), (["q", "x.ts"], .text ""), (["r"], .directory),
    (["r", "BUILD"], .text "ts_library(name=\"r\",srcs=[\"index.ts\"])"),
    (["r", "index.ts"], .text ""),
    (["r", "package.json"], .text "\x7b\"main\":\"../q/BUILD\"\x7d")]⟩

def describedSource : Source :=
  ⟨"a.ts", ["p", "a.ts"], .library, "import\"../r\"", [⟨"../r", .sideEffect, 1, 1, 0, 12⟩]⟩

def plainSource : Source :=
  ⟨"x.ts", ["q", "x.ts"], .library, "", []⟩

def describedTask : Session.Task :=
  ⟨samplePackage, [describedSource], false⟩

def plainTask : Session.Task :=
  ⟨⟨["q"], "q", "q"⟩, [plainSource], true⟩

def describedSession : Session :=
  ⟨⟨[]⟩, ⟨["p", "q"], false, false, false, true, sampleOptions⟩,
    [(describedTask.package, describedTask.sources), (plainTask.package, plainTask.sources)],
    .empty, describedTree⟩

/-- What is read of the two packages. When the session is started, the import leads to a file that
is not in `q`. -/
theorem steps_describedTree :
    TypeScript.imports "a.ts" "import\"../r\"" = .ok describedSource.imports ∧
    TypeScript.imports "x.ts" "" = .ok [] ∧
    describedTree.moduleFile? ["p"] "../r" = some ["r", "index.ts"] := by
  decide +kernel

theorem sources_describedTree :
    describedTree.sources ["p"] = .ok [describedSource] ∧
      describedTree.sources ["q"] = .ok [plainSource] := by
  have hnames : describedTree.names ["p"] = ["BUILD", "a.ts"] ∧
      describedTree.names ["q"] = ["x.ts"] := by
    change sortedTexts ["BUILD", "a.ts"] = _ ∧ sortedTexts ["x.ts"] = _
    simp [sortedTexts, sortedSet, List.mergeSort, List.MergeSort.Internal.splitInTwo, textLe,
      dropRepeats]
  obtain ⟨hdescribed, hplain, -⟩ := steps_describedTree
  constructor
  · refine Tree.sources_of_names rfl hnames.1 rfl fun source hmem => ?_
    obtain rfl := List.mem_singleton.1 hmem
    have hread : describedTree.read (["p"] ++ ["a.ts"]) = .ok "import\"../r\"" := rfl
    unfold Tree.source describedSource
    dsimp only
    rw [hread]
    dsimp only
    rw [hdescribed]
    rfl
  · refine Tree.sources_of_names rfl hnames.2 rfl fun source hmem => ?_
    obtain rfl := List.mem_singleton.1 hmem
    have hread : describedTree.read (["q"] ++ ["x.ts"]) = .ok "" := rfl
    unfold Tree.source plainSource
    dsimp only
    rw [hread]
    dsimp only
    rw [hplain]
    rfl

/-- Nothing in the two packages points into the other's directory. -/
theorem standsApart_describedTree :
    describedTask.StandsApart describedSession describedTree ["q"] ∧
      plainTask.StandsApart describedSession describedTree ["p"] := by
  have hread : describedTree.descriptor ["p"] "p" = .ok listedDescriptor := by
    refine Eq.trans ?_ descriptor_listedBuild
    unfold Tree.descriptor
    rw [Tree.descriptor?_congr (t := sampleTree listedBuild) fun name hname => ?_]
    rcases List.mem_pair.1 hname with rfl | rfl <;> rfl
  have hnone : describedTree.descriptor ["q"] "q" = .ok (.empty "/q/BUILD" "q") := rfl
  constructor
  · refine ⟨sources_describedTree.1, rfl, fun source hsource i hi file hfile => ?_,
      fun d hd rule hrule source hsource _ => ?_, fun d hd rule hrule label hlabel _ => ?_⟩
    · obtain rfl := List.mem_singleton.1 hsource
      obtain rfl := List.mem_singleton.1 hi
      obtain rfl := Option.some.inj (steps_describedTree.2.2.symm.trans hfile)
      decide
    · cases Except.ok.inj (hread.symm.trans hd)
      obtain rfl := List.mem_singleton.1 hrule
      obtain rfl := List.mem_singleton.1 hsource
      decide
    · cases Except.ok.inj (hread.symm.trans hd)
      obtain rfl := List.mem_singleton.1 hrule
      cases hlabel
  · refine ⟨sources_describedTree.2, rfl, fun source hsource i hi => ?_,
      fun d hd rule hrule => ?_, fun d hd rule hrule => ?_⟩
    · obtain rfl := List.mem_singleton.1 hsource
      cases hi
    · cases Except.ok.inj (hnone.symm.trans hd)
      cases hrule
    · cases Except.ok.inj (hnone.symm.trans hd)
      cases hrule

/-- The two updates commute, though one of them makes what would be the main file of `r`. -/
theorem Session.perform_commutes_described :
    describedTree.IsWellFormed ∧ describedTask.StandsApart describedSession describedTree ["q"] ∧
    plainTask.StandsApart describedSession describedTree ["p"] ∧
    ∃ result result' t₁ t₂,
      describedSession.Attempts (fun _ => none) describedTree
        [(describedTask, result), (plainTask, result')] t₁ ∧
      describedSession.Attempts (fun _ => none) describedTree
        [(plainTask, result'), (describedTask, result)] t₂ ∧
      ∀ location, t₁.node? location = t₂.node? location := by
  have hwellFormed : describedTree.IsWellFormed := Tree.isWellFormed_of_entries (by decide)
  obtain ⟨happart, happart'⟩ := standsApart_describedTree
  exact ⟨hwellFormed, happart, happart',
    perform_commutes hwellFormed (by decide) happart happart'⟩

end BuildSync
