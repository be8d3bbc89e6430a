import BuildSync.Proofs.Rereading
import BuildSync.Session

/-!
# All of an update or nothing

An update is taken apart into the things that it does to the files, one after the other. What was
done before something fails stays done, and the file system may refuse to let a file be written
whatever the tree says.

* `Action`: something done to the files; `Pending.commit`, `Session.perform` and
  `Session.performAll` write an update, update a package and update the packages of a session in
  this way.
* `Session.perform_error`, `Session.perform_ok`: an update that fails leaves the files, and one that
  succeeds changes the files that it reports.
* `Session.Attempts`, `Session.Succeeds`: packages updated one after the other, with failures and
  without; `Session.Attempts.succeeds`: the failures may be left out.
* `Session.perform_atomic`: what a session leaves and reports when some of its packages fail.
-/

namespace BuildSync

/-! ## Actions -/

/-- Something done to the files that may fail on the way. What it did before stays done. -/
abbrev Action (ε α : Type) :=
  EStateM ε Tree α

/-- Files that the file system refuses to have written, and why, where the tree does not say so. -/
abbrev Refusals :=
  Location → Option FileFault

namespace Action

variable {ε α β : Type}

/-- A look at the files. -/
def look (f : Tree → Except ε α) : Action ε α := fun t =>
  match f t with
  | .ok a => .ok a t
  | .error e => .error e t

/-- One change of the files, which is made as a whole or not at all. -/
def change (f : Tree → Except ε Tree) : Action ε Unit := fun t =>
  match f t with
  | .ok t' => .ok () t'
  | .error e => .error e t

theorem run_bind (a : Action ε α) (f : α → Action ε β) (t : Tree) :
    (a >>= f).run t =
      match a.run t with
      | .ok x t' => (f x).run t'
      | .error e t' => .error e t' := by
  change EStateM.bind a f t = _
  unfold EStateM.bind EStateM.run
  cases a t <;> rfl

theorem run_look (f : Tree → Except ε α) (t : Tree) : (look f).run t =
    match f t with
    | .ok a => .ok a t
    | .error e => .error e t :=
  rfl

theorem run_change (f : Tree → Except ε Tree) (t : Tree) : (change f).run t =
    match f t with
    | .ok t' => .ok () t'
    | .error e => .error e t :=
  rfl

theorem run_adaptExcept {ε' : Type} (g : ε → ε') (a : Action ε α) (t : Tree) :
    (a.adaptExcept g).run t =
      match a.run t with
      | .ok x t' => .ok x t'
      | .error e t' => .error (g e) t' := by
  unfold EStateM.adaptExcept EStateM.run
  dsimp only
  cases a t <;> rfl

/-- Looks at one thing after the other leave the files. -/
theorem run_forM_look (f : β → Tree → Except ε Unit) (xs : List β) (t : Tree) :
    EStateM.run (xs.forM fun x => look (f x)) t =
      match xs.forM fun x => f x t with
      | .ok _ => .ok () t
      | .error e => .error e t := by
  induction xs with
  | nil => rfl
  | cons x xs ih =>
    change (look (f x) >>= fun _ => xs.forM fun x => look (f x)).run t =
      match f x t >>= fun _ => xs.forM fun x => f x t with
      | .ok _ => .ok () t
      | .error e => .error e t
    rw [run_bind, run_look]
    cases f x t with
    | error e => rfl
    | ok u => exact ih

/-- Changes that nothing stands against are made one after the other. -/
theorem run_forM_change (f : Tree → β → Tree) (xs : List β) (t : Tree) :
    EStateM.run (xs.forM fun x => (change fun t => .ok (f t x) : Action ε Unit)) t =
      .ok () (xs.foldl f t) := by
  induction xs generalizing t with
  | nil => rfl
  | cons x xs ih => exact ih (f t x)

end Action

/-! ## Writing an update -/

namespace Pending

variable (refused : Refusals)

/-- A source can be opened for writing. -/
def mayOpen (source : Location × String) (t : Tree) : Except Problem Unit :=
  match checkSource t source, refused source.1 with
  | .ok _, some fault => .error (.unusableFile .write source.1.text fault)
  | result, _ => result

/-- The tree with the BUILD file written, if it may be. -/
def replaceBuildFile (p : Pending) (t : Tree) : Except Problem Tree :=
  match refused p.buildFile with
  | some fault => .error (.unusableFile .write p.descriptor.path fault)
  | none => p.writeBuildFile t

/-- An update is written: the sources are opened, the BUILD file is replaced, and then the sources
that are open are filled. -/
def commit (p : Pending) : Action Problem PackageUpdate := do
  p.sources.forM fun source => .look (mayOpen refused source)
  if p.descriptor.isChanged then .change (p.replaceBuildFile refused)
  p.sources.forM fun source => .change fun t => .ok (t.put source.1 (.text source.2))
  pure ⟨if p.descriptor.isChanged then some p.buildFile else none, p.sources.map Prod.fst⟩

/-- Everything that may fail comes before the first change, or is the first change. -/
theorem run_commit (p : Pending) (t : Tree) : (p.commit refused).run t =
    match p.sources.forM (mayOpen refused · t) with
    | .error problem => .error problem t
    | .ok _ =>
      match if p.descriptor.isChanged then p.replaceBuildFile refused t else .ok t with
      | .error problem => .error problem t
      | .ok t₁ =>
        .ok ⟨if p.descriptor.isChanged then some p.buildFile else none, p.sources.map Prod.fst⟩
          (p.sources.foldl (fun t source => t.put source.1 (.text source.2)) t₁) := by
  unfold commit
  rw [Action.run_bind, Action.run_forM_look]
  cases p.sources.forM (mayOpen refused · t) with
  | error problem => rfl
  | ok _ =>
    dsimp only
    cases p.descriptor.isChanged with
    | false =>
      simp only [Bool.false_eq_true, if_false, Action.run_bind]
      rw [Action.run_forM_change]
      rfl
    | true =>
      simp only [if_true, Action.run_bind, Action.run_change]
      cases p.replaceBuildFile refused t with
      | error problem => rfl
      | ok t₁ =>
        dsimp only
        rw [Action.run_forM_change]
        rfl

/-- Where no file is refused, an update is written as `Pending.write` says. -/
theorem run_commit_write (p : Pending) (t : Tree) : (p.commit fun _ => none).run t =
    match p.write t with
    | .ok (t', update) => .ok update t'
    | .error problem => .error problem t := by
  have hopen : ∀ source, mayOpen (fun _ => none) source t = checkSource t source := by
    intro source
    unfold mayOpen
    cases checkSource t source <;> rfl
  rw [run_commit]
  simp only [hopen]
  unfold write
  cases p.sources.forM (checkSource t) with
  | error problem => rfl
  | ok _ =>
    cases p.descriptor.isChanged with
    | false => rfl
    | true =>
      simp only [if_true, replaceBuildFile, bind, Except.bind]
      cases p.writeBuildFile t <;> rfl

/-- **An update that cannot be written leaves the files.** -/
theorem commit_error {p : Pending} {t t' : Tree} {problem : Problem}
    (h : (p.commit refused).run t = .error problem t') : t' = t := by
  rw [run_commit] at h
  split at h
  · cases h
    rfl
  · split at h <;> cases h
    rfl

/-- **An update that is written changes the files that it reports.** -/
theorem commit_ok {p : Pending} {t t' : Tree} {update : PackageUpdate}
    (h : (p.commit refused).run t = .ok update t') {location : Location}
    (hne : t'.node? location ≠ t.node? location) :
    update.buildFile = some location ∨ location ∈ update.sources := by
  rw [run_commit] at h
  split at h
  · cases h
  · split at h
    · cases h
    · rename_i t₁ ht₁
      cases h
      by_contra hnot
      rw [not_or] at hnot
      refine hne ?_
      rw [node?_foldl_put fun entry he heq =>
        hnot.2 (List.mem_map.2 ⟨entry, he, heq⟩)]
      split at ht₁
      · rename_i hchanged
        unfold replaceBuildFile at ht₁
        split at ht₁
        · cases ht₁
        · rw [(writeBuildFile_eq_ok ht₁).2, Tree.node?_put_of_ne]
          rintro rfl
          exact hnot.1 (by rw [if_pos hchanged])
      · cases ht₁
        rfl

end Pending

/-! ## Updating packages -/

namespace Session

/-- A package to be updated. -/
structure Task where
  package : PackageDir
  sources : List Source
  isLast : Bool

/-- The packages of a session, of which the last may be the root of a project. -/
def tasksOf : List (PackageDir × List Source) → List Task
  | [] => []
  | (package, sources) :: rest => ⟨package, sources, rest.isEmpty⟩ :: tasksOf rest

variable (s : Session) (refused : Refusals)

/-- What goes wrong in the package of a task. -/
def Task.failure (task : Task) (problems : List Problem) : PackageFailure :=
  .package task.package.package problems

/-- A package is updated: it is looked at, and what has to change is written. -/
def perform (task : Task) : Action PackageFailure PackageUpdate := do
  let pending ← .look fun t =>
    (s.workspace.prepare t s.seen s.index s.options.update task.package.dir task.package.package
      task.sources (s.options.isProjectRoot && task.isLast)).mapError task.failure
  (pending.commit refused).adaptExcept fun problem => task.failure [problem]

/-- Packages are updated, after those that were updated before. The files are those that the update
before left, even if it failed. -/
def performAll (r : Report) : List Task → Report
  | [] => r
  | task :: rest =>
    match (s.perform refused task).run r.tree with
    | .ok update t =>
      performAll { r with tree := t, updates := r.updates ++ [(task.package, update)] } rest
    | .error failure t =>
      let r := { r with tree := t, failures := r.failures ++ [failure] }
      if s.options.keepsGoing then performAll r rest else r

variable {s refused}

theorem run_perform (task : Task) (t : Tree) : (s.perform refused task).run t =
    match s.workspace.prepare t s.seen s.index s.options.update task.package.dir
      task.package.package task.sources (s.options.isProjectRoot && task.isLast) with
    | .error problems => .error (task.failure problems) t
    | .ok pending =>
      match (pending.commit refused).run t with
      | .error problem t' => .error (task.failure [problem]) t'
      | .ok update t' => .ok update t' := by
  unfold perform
  rw [Action.run_bind, Action.run_look]
  cases s.workspace.prepare t s.seen s.index s.options.update task.package.dir task.package.package
      task.sources (s.options.isProjectRoot && task.isLast) with
  | error problems => rfl
  | ok pending =>
    dsimp only [Except.mapError]
    rw [Action.run_adaptExcept]
    cases (pending.commit refused).run t <;> rfl

/-- Where no file is refused, a package is updated as `Session.updatePackage` says. -/
theorem run_perform_update (task : Task) (t : Tree) :
    (s.perform (fun _ => none) task).run t =
      match s.updatePackage t task.package task.sources task.isLast with
      | .ok (t', update) => .ok update t'
      | .error failure => .error failure t := by
  rw [run_perform]
  unfold updatePackage Workspace.update
  cases s.workspace.prepare t s.seen s.index s.options.update task.package.dir task.package.package
      task.sources (s.options.isProjectRoot && task.isLast) with
  | error problems => rfl
  | ok pending =>
    dsimp only [bind, Except.bind]
    rw [pending.run_commit_write]
    cases pending.write t <;> rfl

/-- **An update that fails leaves the files**, and says what is wrong in its package. -/
theorem perform_error {task : Task} {t t' : Tree} {failure : PackageFailure}
    (h : (s.perform refused task).run t = .error failure t') :
    t' = t ∧ ∃ problems, failure = task.failure problems := by
  rw [run_perform] at h
  split at h
  · cases h
    exact ⟨rfl, _, rfl⟩
  · split at h <;> cases h
    rename_i hcommit
    exact ⟨Pending.commit_error refused hcommit, _, rfl⟩

/-- **An update that succeeds changes the files that it reports.** -/
theorem perform_ok {task : Task} {t t' : Tree} {update : PackageUpdate}
    (h : (s.perform refused task).run t = .ok update t') {location : Location}
    (hne : t'.node? location ≠ t.node? location) :
    update.buildFile = some location ∨ location ∈ update.sources := by
  rw [run_perform] at h
  split at h
  · cases h
  · split at h <;> cases h
    rename_i hcommit
    exact Pending.commit_ok refused hcommit hne

/-! ## Updating the packages of a session -/

/-- What came of a package: its update, or what went wrong. -/
abbrev Attempt :=
  Task × Except (List Problem) PackageUpdate

/-- The updates that succeed among some attempts. -/
def succeeded (attempts : List Attempt) : List (Task × PackageUpdate) :=
  attempts.filterMap fun (task, result) => result.toOption.map (task, ·)

/-- The updates that fail among some attempts. -/
def failed (attempts : List Attempt) : List (Task × List Problem) :=
  attempts.filterMap fun (task, result) =>
    match result with
    | .error problems => some (task, problems)
    | .ok _ => none

variable (s refused)

/-- Packages are attempted one after the other, each on the files that the one before left. -/
inductive Attempts : Tree → List Attempt → Tree → Prop
  | nil (t : Tree) : Attempts t [] t
  | ok {t t₁ t₂ : Tree} {task : Task} {update : PackageUpdate} {rest : List Attempt} :
    (s.perform refused task).run t = .ok update t₁ → Attempts t₁ rest t₂ →
      Attempts t ((task, .ok update) :: rest) t₂
  | error {t t₁ t₂ : Tree} {task : Task} {problems : List Problem} {rest : List Attempt} :
    (s.perform refused task).run t = .error (task.failure problems) t₁ → Attempts t₁ rest t₂ →
      Attempts t ((task, .error problems) :: rest) t₂

/-- Packages are updated one after the other, and none of them fails. -/
inductive Succeeds : Tree → List (Task × PackageUpdate) → Tree → Prop
  | nil (t : Tree) : Succeeds t [] t
  | cons {t t₁ t₂ : Tree} {task : Task} {update : PackageUpdate}
    {rest : List (Task × PackageUpdate)} :
    (s.perform refused task).run t = .ok update t₁ → Succeeds t₁ rest t₂ →
      Succeeds t ((task, update) :: rest) t₂

variable {s refused}

/-- **Failed updates may be left out.** -/
theorem Attempts.succeeds {t t' : Tree} {attempts : List Attempt}
    (h : s.Attempts refused t attempts t') : s.Succeeds refused t (succeeded attempts) t' := by
  induction h with
  | nil t => exact .nil t
  | ok h _ ih => exact .cons h ih
  | error h _ ih => exact (perform_error h).1 ▸ ih

/-- What is reported of updates that succeed. -/
def reported (done : List (Task × PackageUpdate)) : List (PackageDir × PackageUpdate) :=
  done.map fun (task, update) => (task.package, update)

/-- **A session that goes on after failures** attempts every package. -/
theorem performAll_keepsGoing (hk : s.options.keepsGoing = true) (r : Report) (tasks : List Task) :
    ∃ attempts, attempts.map Prod.fst = tasks ∧
      s.Attempts refused r.tree attempts (s.performAll refused r tasks).tree ∧
      (s.performAll refused r tasks).updates = r.updates ++ reported (succeeded attempts) ∧
      (s.performAll refused r tasks).failures =
        r.failures ++ (failed attempts).map fun (task, problems) => task.failure problems := by
  induction tasks generalizing r with
  | nil => exact ⟨[], rfl, .nil _, (List.append_nil _).symm, (List.append_nil _).symm⟩
  | cons task tasks ih =>
    unfold performAll
    cases h : (s.perform refused task).run r.tree with
    | ok update t =>
      obtain ⟨attempts, htasks, hattempts, hupdates, hfailures⟩ :=
        ih { r with tree := t, updates := r.updates ++ [(task.package, update)] }
      refine ⟨(task, .ok update) :: attempts, ?_, .ok h hattempts, ?_, hfailures⟩
      · rw [List.map_cons, htasks]
      · rw [hupdates, List.append_assoc]
        rfl
    | error failure t =>
      obtain ⟨problems, rfl⟩ := (perform_error h).2
      obtain ⟨attempts, htasks, hattempts, hupdates, hfailures⟩ :=
        ih { r with tree := t, failures := r.failures ++ [task.failure problems] }
      dsimp only
      rw [if_pos hk]
      refine ⟨(task, .error problems) :: attempts, ?_, .error h hattempts, hupdates, ?_⟩
      · rw [List.map_cons, htasks]
      · rw [hfailures, List.append_assoc]
        rfl

/-- **A session that ends with the first failure** updates the packages before it. -/
theorem performAll_failsFast (hk : s.options.keepsGoing = false) (r : Report)
    (tasks : List Task) : ∃ done,
      s.Succeeds refused r.tree done (s.performAll refused r tasks).tree ∧
      (s.performAll refused r tasks).updates = r.updates ++ reported done ∧
      (tasks = done.map Prod.fst ∧ (s.performAll refused r tasks).failures = r.failures ∨
        ∃ task rest problems, tasks = done.map Prod.fst ++ task :: rest ∧
          (s.perform refused task).run (s.performAll refused r tasks).tree =
            .error (task.failure problems) (s.performAll refused r tasks).tree ∧
          (s.performAll refused r tasks).failures = r.failures ++ [task.failure problems]) := by
  induction tasks generalizing r with
  | nil => exact ⟨[], .nil _, (List.append_nil _).symm, .inl ⟨rfl, rfl⟩⟩
  | cons task tasks ih =>
    unfold performAll
    cases h : (s.perform refused task).run r.tree with
    | ok update t =>
      obtain ⟨done, hdone, hupdates, hend⟩ :=
        ih { r with tree := t, updates := r.updates ++ [(task.package, update)] }
      refine ⟨(task, update) :: done, .cons h hdone, ?_, ?_⟩
      · rw [hupdates, List.append_assoc]
        rfl
      · rcases hend with ⟨htasks, hfailures⟩ | ⟨failing, rest, problems, htasks, hfails, hfailures⟩
        · exact .inl ⟨by rw [htasks]; rfl, hfailures⟩
        · exact .inr ⟨failing, rest, problems, by rw [htasks]; rfl, hfails, hfailures⟩
    | error failure t =>
      obtain ⟨rfl, problems, rfl⟩ := perform_error h
      dsimp only
      rw [if_neg (by simp [hk])]
      exact ⟨[], .nil _, (List.append_nil _).symm, .inr ⟨task, tasks, problems, rfl, h, rfl⟩⟩

/-- Where no file is refused, packages are updated as `Session.updateAll` says. -/
theorem performAll_updateAll (r : Report) (packages : List (PackageDir × List Source)) :
    s.performAll (fun _ => none) r (tasksOf packages) = s.updateAll r packages := by
  induction packages generalizing r with
  | nil => rfl
  | cons package packages ih =>
    unfold tasksOf performAll updateAll
    rw [run_perform_update]
    dsimp only
    cases s.updatePackage r.tree package.1 package.2 packages.isEmpty with
    | ok result => exact ih _
    | error failure =>
      dsimp only
      split
      · exact ih _
      · rfl

variable (s refused) in
/-- What comes of a session whose updates are performed. -/
def performRun (t : Tree) : Report :=
  s.performAll refused (.ofTree t) (tasksOf s.packages)

/-- A session is started: the files are only looked at. -/
def opening (w : Workspace) (cwd : Location) (service : Query.Service)
    (options : SessionOptions) : Action Problem Session :=
  .look fun t => start w t cwd service options

end Session

/-- The failures that a failed run reports. -/
def Failure.failures : Failure → List PackageFailure
  | one failure => [failure]
  | several failures => failures

theorem Session.Report.failures_of_failure? (r : Report) :
    (r.failure?.elim [] Failure.failures) = r.failures := by
  unfold failure?
  split <;> simp_all [Failure.failures]

/-- **Updates are made as a whole or not at all**, whichever files are refused. An update that fails
leaves every file, and one that succeeds changes the files that it reports. So a session that goes
on after failures leaves what the updates that succeed would leave without the others, and reports
the other packages in order; one that ends with the first failure leaves what the updates before
it left. Where no file is refused these are the sessions that `Session.run` describes. Starting a
session changes nothing. -/
theorem Session.perform_atomic (s : Session) (refused : Refusals) (t : Tree) :
    (∀ task before failure after, (s.perform refused task).run before = .error failure after →
      after = before ∧ ∃ problems, failure = task.failure problems) ∧
    (∀ task before update after, (s.perform refused task).run before = .ok update after →
      ∀ location, after.node? location ≠ before.node? location →
        update.buildFile = some location ∨ location ∈ update.sources) ∧
    (s.options.keepsGoing = true → ∃ attempts,
      attempts.map Prod.fst = tasksOf s.packages ∧
      s.Attempts refused t attempts (s.performRun refused t).tree ∧
      s.Succeeds refused t (succeeded attempts) (s.performRun refused t).tree ∧
      (s.performRun refused t).updates = reported (succeeded attempts) ∧
      (s.performRun refused t).failures =
        (failed attempts).map fun (task, problems) => task.failure problems) ∧
    (s.options.keepsGoing = false → ∃ done,
      s.Succeeds refused t done (s.performRun refused t).tree ∧
      (s.performRun refused t).updates = reported done ∧
      (tasksOf s.packages = done.map Prod.fst ∧ (s.performRun refused t).failures = [] ∨
        ∃ task rest problems, tasksOf s.packages = done.map Prod.fst ++ task :: rest ∧
          (s.perform refused task).run (s.performRun refused t).tree =
            .error (task.failure problems) (s.performRun refused t).tree ∧
          (s.performRun refused t).failures = [task.failure problems])) ∧
    (s.performRun refused t).failure?.elim [] Failure.failures =
      (s.performRun refused t).failures ∧
    s.performRun (fun _ => none) t = s.run t ∧
    ∀ w cwd service options,
      (∃ started, start w t cwd service options = .ok started ∧
        (opening w cwd service options).run t = .ok started t) ∨
      ∃ problem, start w t cwd service options = .error problem ∧
        (opening w cwd service options).run t = .error problem t := by
  refine ⟨fun task before failure after => perform_error,
    fun task before update after h location => perform_ok h, fun hk => ?_, fun hk => ?_,
    Report.failures_of_failure? _, performAll_updateAll _ _, fun w cwd service options => ?_⟩
  · obtain ⟨attempts, htasks, hattempts, hupdates, hfailures⟩ :=
      performAll_keepsGoing hk (.ofTree t) (tasksOf s.packages)
    exact ⟨attempts, htasks, hattempts, hattempts.succeeds, hupdates, hfailures⟩
  · exact performAll_failsFast hk (.ofTree t) (tasksOf s.packages)
  · unfold opening
    rw [Action.run_look]
    cases start w t cwd service options with
    | ok started => exact .inl ⟨started, rfl, rfl⟩
    | error problem => exact .inr ⟨problem, rfl, rfl⟩

end BuildSync
