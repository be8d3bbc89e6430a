import BuildSync.Proofs.Recurrence
import BuildSync.Proofs.SettledAnnotations
import BuildSync.Proofs.SettledImports
import BuildSync.Proofs.TypeScript.LaidImports

/-!
# Sources that are read again

An update that keeps annotations gives sources other texts. Each of them is read again with the
imports that it had, where the annotations have moved these.

* `Source.IsReread`: a source and the same one at another time. Plans and questions are the same for
  both (`Dependency.planRule_reread`, `Workspace.questions_reread`).
* `Scope.rewritten`: what an update leaves of a source; `Workspace.sources_of_write`: that is what
  is read after it.
* `Scope.IsSettled`: a source whose annotations can be kept once and for all;
  `Scope.annotations_again`: they change no more.
* `Session.IsAnnotatable`: a package whose sources are all settled when it is updated
  (`Session.HasScope.isSettled`).
-/

namespace BuildSync

open Annotation Build

/-! ## Sources with the same imports -/

theorem Scope.imports_resolveSource (scope : Scope) (source : Source) :
    (scope.resolveSource source).imports.map (·.source) = source.imports := by
  rw [resolveSource, List.map_map]
  exact List.map_id _

/-- A source was read again: its text and the places of its imports may be others. -/
structure Source.IsReread (source source' : Source) : Prop where
  name : source'.name = source.name
  kind : source'.kind = source.kind
  specifiers : source'.imports.map (·.specifier) = source.imports.map (·.specifier)

/-- What plans take from an import: its specifier and what that resolves to. -/
def ResolvedImport.use (i : ResolvedImport) : String × List Label :=
  (i.source.specifier, i.candidates)

/-- What plans take from a file. -/
def ResolvedFile.uses (file : ResolvedFile) : String × List (String × List Label) :=
  (file.name, file.imports.map (·.use))

theorem Source.IsReread.uses {source source' : Source} (h : source.IsReread source')
    (scope : Scope) : (scope.resolveSource source').uses = (scope.resolveSource source).uses := by
  have hall := congrArg (List.map fun specifier => (specifier, scope.resolve specifier))
    h.specifiers
  simp only [List.map_map] at hall
  simp only [ResolvedFile.uses, Scope.resolveSource, h.name, List.map_map]
  exact congrArg _ hall

namespace Dependency

variable {prune : Option (Label → RuleInfo)} {package : String} {ownership : Ownership}
  {files files' : List ResolvedFile} {r : Build.Rule} {own : Label} {current : List Label}
  {imports imports' : List ResolvedImport}

theorem uses_ownedFiles (h : files'.map (·.uses) = files.map (·.uses)) (rule : String) :
    (ownedFiles ownership files' rule).map (·.uses) =
      (ownedFiles ownership files rule).map (·.uses) := by
  have hfile : ∀ (files : List ResolvedFile) (name : String),
      (fileOf? files name).map (·.uses) = (files.map (·.uses)).reverse.find? (·.1 = name) := by
    intro files name
    rw [fileOf?, ← List.map_reverse, List.find?_map]
    rfl
  unfold ownedFiles
  rw [List.map_filterMap, List.map_filterMap]
  exact List.filterMap_congr fun name _ => by rw [hfile, hfile, h]

theorem problems_eq_nil_iff : problems files = [] ↔
    ∀ file ∈ files.map (·.uses), ∀ use ∈ file.2, ∃ label, use.2 = [label] := by
  simp only [problems, List.flatMap_eq_nil_iff, List.filterMap_eq_nil_iff, problem?_eq_none,
    List.forall_mem_map, ResolvedFile.uses, ResolvedImport.use]

theorem use_imports (h : files'.map (·.uses) = files.map (·.uses)) :
    (files'.flatMap (·.imports)).map (·.use) = (files.flatMap (·.imports)).map (·.use) := by
  have hall := congrArg (List.flatMap Prod.snd) h
  simpa only [List.flatMap_map, List.map_flatMap, ResolvedFile.uses] using hall

theorem wanted_uses (h : imports'.map (·.use) = imports.map (·.use)) :
    wanted prune r own current imports' = wanted prune r own current imports := by
  have hrequired : required own imports' = required own imports := by
    have hall := congrArg (List.flatMap Prod.snd) h
    simp only [List.flatMap_map, ResolvedImport.use] at hall
    rw [required, hall, required]
  have hmentioned : ∀ label moduleName,
      isMentioned label moduleName imports' = isMentioned label moduleName imports := by
    intro label moduleName
    have hall := congrArg (List.any · fun use => label ∈ use.2 || names use.1 label moduleName) h
    simpa only [isMentioned, List.any_map, Function.comp_def, ResolvedImport.use] using hall
  have hstays : stays prune r own imports' = stays prune r own imports := by
    funext label
    simp only [stays, hrequired, hmentioned]
  rw [wanted, hrequired, hstays, wanted]

/-- **A rule that wants nothing more** wants nothing more when its files are read again. -/
theorem planRule_reread (h : files'.map (·.uses) = files.map (·.uses))
    (hnone : planRule prune package ownership files r = (none, [])) :
    planRule prune package ownership files' r = (none, []) := by
  by_cases ha : r.kind.isAggregate = true
  · rw [planRule, if_pos ha]
  rw [Bool.not_eq_true] at ha
  cases hdeps : r.deps.values? with
  | none => rw [planRule, if_neg (by simp [ha]), hdeps]
  | some deps =>
    obtain ⟨hsettled, hlist⟩ := of_planRule_eq_none hnone ha hdeps
    have howned := @uses_ownedFiles ownership _ _ h r.name
    refine planRule_of_listed ha hdeps ?_ ?_
    · rwa [problems_eq_nil_iff, howned, ← problems_eq_nil_iff]
    · rwa [wanted_uses (use_imports howned)]

end Dependency

section
variable {f : Source → Source} {sources : List Source}
  (h : ∀ source ∈ sources, source.IsReread (f source))
include h

/-- **Settling owners** looks at no texts. -/
theorem Scope.ofDescriptor_reread {w : Workspace} {t seen : Tree} {index : Query.Index}
    {rulesFile : String} {dir : Location} {d : Descriptor} :
    ofDescriptor w t index rulesFile dir d (sources.map f) seen =
      ofDescriptor w t index rulesFile dir d sources seen := by
  have hnames : (sources.map f).map (fun source => (source.name, source.kind)) =
      sources.map fun source => (source.name, source.kind) := by
    rw [List.map_map]
    refine List.map_congr_left fun source hsource => ?_
    rw [Function.comp_apply, (h source hsource).name, (h source hsource).kind]
  unfold ofDescriptor
  rw [hnames]

/-- **The same is asked** for sources that are read again. -/
theorem Workspace.questions_reread {w : Workspace} {t : Tree} {dir : Location} {package : String}
    {withDependencies : Bool} : w.questions t dir package (sources.map f) withDependencies =
      w.questions t dir package sources withDependencies := by
  unfold questions
  dsimp only
  rw [List.flatMap_map]
  congr 2
  refine List.flatMap_congr fun source hsource => ?_
  have hall := congrArg (List.flatMap fun specifier =>
    w.targetQuestion t dir (t.usableDescriptor? dir package) (w.target t dir specifier))
    (h source hsource).specifiers
  simp only [List.flatMap_map] at hall
  rw [(h source hsource).name, hall]

theorem Scope.plan_reread {scope : Scope} {options : UpdateOptions}
    (hplan : Dependency.plan (scope.prune? options) scope.descriptor scope.ownership
      (sources.map scope.resolveSource) = ([], [])) :
    Dependency.plan (scope.prune? options) scope.descriptor scope.ownership
      ((sources.map f).map scope.resolveSource) = ([], []) := by
  have huses : ((sources.map f).map scope.resolveSource).map (·.uses) =
      (sources.map scope.resolveSource).map (·.uses) := by
    simp only [List.map_map]
    exact List.map_congr_left fun source hsource => (h source hsource).uses scope
  rw [Dependency.plan_eq_nil_iff] at hplan ⊢
  exact fun r hr => Dependency.planRule_reread huses (hplan r hr)

end

/-! ## What an update leaves of a source -/

/-- A source as an update is to leave it: new annotations move its imports. -/
def Scope.rewritten (scope : Scope) (options : UpdateOptions) (source : Source) : Source :=
  let imports := (scope.resolveSource source).imports
  if options.annotates then
    match Annotation.update source.text imports with
    | .changed text =>
      { source with
        text := text
        imports := (imports.map (movedImport
          (edits source.text.toList imports))).map (·.source) }
    | _ => source
  else source

/-- A text with new annotations has the imports that the source had, where they have moved. -/
def Source.StaysRead (source : Source) (imports : List ResolvedImport) (text : String) : Prop :=
  TypeScript.imports source.name text = .ok ((imports.map (movedImport
    (edits source.text.toList imports))).map (·.source))

section
variable {scope : Scope} {options : UpdateOptions} {source : Source}

theorem Scope.rewritten_of_ne (h : ∀ text, options.annotates = true →
      Annotation.update source.text (scope.resolveSource source).imports ≠ .changed text) :
    scope.rewritten options source = source := by
  unfold rewritten
  dsimp only
  split
  · rename_i ha
    split
    · rename_i text hupdate
      exact absurd hupdate (h text ha)
    · rfl
  · rfl

theorem Scope.rewritten_of_changed (ha : options.annotates = true) {text : String}
    (h : Annotation.update source.text (scope.resolveSource source).imports = .changed text) :
    scope.rewritten options source = { source with
      text := text
      imports := ((scope.resolveSource source).imports.map (movedImport
        (edits source.text.toList (scope.resolveSource source).imports))).map
          (·.source) } := by
  unfold rewritten
  dsimp only
  rw [if_pos ha, h]

/-- An update leaves a source, or changes its annotations. -/
theorem Scope.rewritten_cases (scope : Scope) (options : UpdateOptions) (source : Source) :
    (∀ text, options.annotates = true →
      Annotation.update source.text (scope.resolveSource source).imports ≠ .changed text) ∨
    options.annotates = true ∧ ∃ text,
      Annotation.update source.text (scope.resolveSource source).imports = .changed text := by
  by_cases h : options.annotates = true ∧ ∃ text,
      Annotation.update source.text (scope.resolveSource source).imports = .changed text
  · exact .inr h
  · exact .inl fun text ha hupdate => h ⟨ha, text, hupdate⟩

theorem Scope.isReread_rewritten (scope : Scope) (options : UpdateOptions) (source : Source) :
    source.IsReread (scope.rewritten options source) := by
  rcases scope.rewritten_cases options source with hne | ⟨ha, text, hchanged⟩
  · rw [rewritten_of_ne hne]
    exact ⟨rfl, rfl, rfl⟩
  · rw [rewritten_of_changed ha hchanged]
    refine ⟨rfl, rfl, ?_⟩
    simp only [resolveSource, List.map_map]
    rfl

end

namespace Pending

/-- The text that a file gets. -/
theorem node?_foldl_put_of_mem {entries : List (Location × String)} {location : Location}
    {text : String} (hne : location ≠ []) (hmem : (location, text) ∈ entries)
    (hall : ∀ entry ∈ entries, entry.1 = location → entry.2 = text) (t : Tree) :
    (entries.foldl (fun t entry => t.put entry.1 (.text entry.2)) t).node? location =
      some (.text text) := by
  induction entries generalizing t with
  | nil => cases hmem
  | cons entry entries ih =>
    rw [List.forall_mem_cons] at hall
    by_cases hrest : (location, text) ∈ entries
    · exact ih hrest hall.2 _
    · obtain rfl : (location, text) = entry := (List.mem_cons.1 hmem).resolve_right hrest
      rw [List.foldl_cons, node?_foldl_put, Tree.node?_put_self hne]
      rintro ⟨other, text'⟩ hother rfl
      exact hrest (hall.2 _ hother rfl ▸ hother)

end Pending

namespace Workspace

variable {t t' final : Tree} {dir : Location} {sources : List Source} {scope : Scope}
  {options : UpdateOptions} {pending : Pending} {u : PackageUpdate}
  (hs : t.sources dir = .ok sources)
  (hchanged : scope.annotations options sources = .ok pending.sources)
  (hbuild : ∃ name ∈ buildFileNames, pending.buildFile = dir ++ [name])
  (hwrite : pending.write t = .ok (t', u))
include hs hchanged hbuild hwrite

/-- The text of a source after an update. -/
theorem read_of_write {source : Source} (hsource : source ∈ sources) :
    t'.read (dir ++ [source.name]) = .ok (scope.rewritten options source).text := by
  obtain ⟨t₁, hbuilt, rfl, -⟩ := Pending.write_eq_ok hwrite
  have hplace : ∀ other ∈ sources, other.location = dir ++ [other.name] := fun other hother =>
    (location_of_source hs hother).1
  have hname : ∀ other ∈ sources, dir ++ [other.name] = dir ++ [source.name] → other = source := by
    intro other hother heq
    exact List.inj_on_of_nodup_map (Tree.nodup_sources hs) hother hsource (by simpa using heq)
  rcases scope.rewritten_cases options source with hne | ⟨ha, text, hupdate⟩
  · rw [Scope.rewritten_of_ne hne]
    obtain ⟨text, imports, hread, -, heq⟩ := Tree.source_eq_ok.1 (Tree.source_of_mem hs hsource)
    have hnode : (pending.sources.foldl (fun t entry => t.put entry.1 (.text entry.2)) t₁).node?
        (dir ++ [source.name]) = t.node? (dir ++ [source.name]) := by
      rw [Pending.node?_foldl_put]
      · rcases hbuilt with ⟨-, rfl⟩ | ⟨-, -, rfl⟩
        · rfl
        · obtain ⟨name, hmem, hbuild⟩ := hbuild
          refine Tree.node?_put_of_ne (fun heq => (location_of_source hs hsource).2 ?_) _ _
          rw [hbuild] at heq
          obtain ⟨-, heq⟩ := List.append_inj' heq rfl
          exact (List.cons.inj heq).1 ▸ hmem
      · rintro entry hentry heq
        obtain ⟨ha, other, hother, hlocation, hupdate⟩ := (Scope.mem_annotations hchanged).1 hentry
        rw [hlocation, hplace other hother] at heq
        exact hne _ ha (hname other hother heq ▸ hupdate)
    rw [Tree.read_congr hnode, hread, heq]
  · rw [Scope.rewritten_of_changed ha hupdate]
    have hmem : (dir ++ [source.name], text) ∈ pending.sources :=
      (Scope.mem_annotations hchanged).2
        ⟨ha, source, hsource, (hplace source hsource).symm, hupdate⟩
    have hnode := Pending.node?_foldl_put_of_mem (by simp) hmem (fun entry hentry heq => by
      obtain ⟨-, other, hother, hlocation, hupdate'⟩ := (Scope.mem_annotations hchanged).1 hentry
      rw [hlocation, hplace other hother] at heq
      rw [hname other hother heq, hupdate] at hupdate'
      cases hupdate'
      rfl) t₁
    unfold Tree.read
    rw [hnode]

/-- **The sources of a directory after an update** are those with the new annotations, if these are
read as they should be. -/
theorem sources_of_write (hrewrites : t.Rewrites final)
    (hlater : ∀ name, final.node? (dir ++ [name]) = t'.node? (dir ++ [name]))
    (hreread : options.annotates = true → ∀ source ∈ sources, ∀ text,
      Annotation.update source.text (scope.resolveSource source).imports = .changed text →
      final.read (dir ++ [source.name]) = .ok text →
        source.StaysRead (scope.resolveSource source).imports text) :
    final.sources dir = .ok (sources.map (scope.rewritten options)) := by
  refine hrewrites.sources_map hs fun source hsource => ?_
  have hread := read_of_write hs hchanged hbuild hwrite hsource
  rw [← Tree.read_congr (hlater source.name)] at hread
  obtain ⟨text, imports, hold, himports, heq⟩ :=
    Tree.source_eq_ok.1 (Tree.source_of_mem hs hsource)
  refine Tree.source_eq_ok.2 ⟨_, (scope.rewritten options source).imports, hread, ?_, ?_⟩
  · rcases scope.rewritten_cases options source with hne | ⟨ha, text, hupdate⟩
    · rw [Scope.rewritten_of_ne hne, heq]
      exact himports
    · rw [Scope.rewritten_of_changed ha hupdate] at hread ⊢
      exact .inl (hreread ha source hsource text hupdate hread)
  · rcases scope.rewritten_cases options source with hne | ⟨ha, text, hupdate⟩
    · rw [Scope.rewritten_of_ne hne, heq]
    · rw [Scope.rewritten_of_changed ha hupdate]
      rw [heq]

end Workspace

/-! ## Annotations that are settled -/

/-- The annotations of a source can be kept once and for all: its statements stand apart, and each
of its imports resolves to one rule, whose label fits on a line. -/
structure Scope.IsSettled (scope : Scope) (source : Source) : Prop where
  laid : Laid source.text.toList
    ((statements (scope.resolveSource source).imports).map (·.source))
  resolved : ∀ i ∈ source.imports, ∃ label, scope.resolve i.specifier = [label] ∧
    IsSolid (written label)

namespace Scope

variable {scope scope' : Scope} {options : UpdateOptions} {source : Source}
  (hresolve : ∀ specifier, scope.resolve specifier ≠ [] →
    scope'.resolve specifier = scope.resolve specifier)
include hresolve

/-- A settled source needs no other annotations when it is read again. -/
theorem IsSettled.update_rewritten (h : scope.IsSettled source)
    (ha : options.annotates = true) : Annotation.update (scope.rewritten options source).text
      (scope'.resolveSource (scope.rewritten options source)).imports = .same := by
  have hagain : ∀ i ∈ source.imports, scope'.resolve i.specifier = scope.resolve i.specifier := by
    intro i hi
    obtain ⟨label, hlabel, -⟩ := h.resolved i hi
    exact hresolve i.specifier (by simp [hlabel])
  obtain ⟨new, hnew, hsame⟩ := update_again h.laid fun r hr label hlabel => by
    obtain ⟨i, hi, rfl⟩ := List.mem_map.1 hr
    obtain ⟨only, honly, hsolid⟩ := h.resolved i hi
    dsimp only at hlabel
    rw [honly, List.mem_singleton] at hlabel
    exact hlabel ▸ hsolid
  rcases scope.rewritten_cases options source with hne | ⟨-, text, hupdate⟩
  · rw [rewritten_of_ne hne]
    have himports : (scope'.resolveSource source).imports =
        (scope.resolveSource source).imports :=
      List.map_congr_left fun i hi => by rw [hagain i hi]
    rw [himports]
    cases hupdate : Annotation.update source.text (scope.resolveSource source).imports with
    | same => rfl
    | changed text => exact absurd hupdate (hne text ha)
    | torn =>
      rw [hupdate] at hnew
      cases hnew
  · rw [hupdate] at hnew
    cases hnew
    rw [rewritten_of_changed ha hupdate]
    refine (congrArg (update new) ?_).trans hsame
    simp only [resolveSource, List.map_map]
    exact List.map_congr_left fun i hi => congrArg (ResolvedImport.mk _) (hagain i hi)

/-- **Settled annotations** change no more. -/
theorem annotations_again {sources : List Source}
    (h : options.annotates = true → ∀ source ∈ sources, scope.IsSettled source) :
    scope'.annotations options (sources.map (scope.rewritten options)) = .ok [] := by
  unfold annotations
  split
  · rename_i ha
    have hsame : ∀ source ∈ sources.map (scope.rewritten options),
        annotated? source (scope'.resolveSource source).imports = .ok none := by
      intro source hsource
      obtain ⟨old, hold, rfl⟩ := List.mem_map.1 hsource
      rw [annotated?, (h ha old hold).update_rewritten hresolve ha]
    generalize sources.map (scope.rewritten options) = left at hsame
    have hnone : (left.zip (left.map scope'.resolveSource)).mapM
        (fun pair => annotated? pair.1 pair.2.imports) = .ok (left.map fun _ => none) := by
      induction left with
      | nil => rfl
      | cons source left ih =>
        rw [List.forall_mem_cons] at hsame
        rw [List.map_cons, List.zip_cons_cons, List.mapM_cons, hsame.1, ih hsame.2]
        rfl
    refine bind_eq_ok.2 ⟨_, hnone, ?_⟩
    rw [List.filterMap_map]
    exact congrArg Except.ok (List.filterMap_eq_nil_iff.2 fun _ _ => rfl)
  · rfl

end Scope

/-! ## Packages whose sources are settled -/

/-- The sources of a directory stand where its BUILD file lists them. -/
theorem Tree.IsWellFormed.isPresent_of_sources {t : Tree} (ht : t.IsWellFormed) {dir : Location}
    {sources : List Source} (hs : t.sources dir = .ok sources) :
    ∀ source ∈ sources.map fun source => (source.name, source.kind),
      t.isPresent dir source.1 = true := by
  intro source hsource
  obtain ⟨found, hfound, rfl⟩ := List.mem_map.1 hsource
  have hfile := ((Tree.mem_sources hs).1 (List.mem_map_of_mem hfound)).1
  have hpresent := ht.isPresent (List.cons_ne_nil found.name []) (Tree.isSome_of_isFile hfile)
  rwa [String.intercalate_singleton] at hpresent

/-- The annotation for a label fits on a line, if the label is read back in a package whose name
does. -/
theorem Annotation.isSolid_of_readsIn {label : Label} {package : String}
    (hpackage : '\n' ∉ package.toList) (h : label.ReadsIn package) : IsSolid (written label) := by
  rcases Label.isPlain_or_of_parse? h with hplain | ⟨hin, hname, -⟩
  · exact isSolid_written (Label.isBlank_of_parse? (Label.parse?_canonical hplain package))
  · obtain ⟨hrepo, hsame⟩ : label.repo = none ∧ label.package = package := by
      simpa [Label.isIn] using hin
    have hne : label.name.toList ≠ [] := fun hnil => hname.ne_empty (String.toList_inj.1 hnil)
    refine isSolid_of_last ?_ fun c hc => ?_
    · have hplain : '\n' ∉ label.name.toList := fun hn =>
        absurd (hname.plain _ hn).1 (by decide)
      simp [Label.canonical, Label.root, hrepo, hsame, hpackage, hplain]
    · rw [Label.canonical, String.toList_append, List.getLast?_append_of_ne_nil _ hne] at hc
      exact (hname.plain c (List.mem_of_getLast? hc)).1

namespace Session

/-- The annotations of a package can be brought up to date once and for all in a run that ends in
`final`: each source belongs to a rule that lists its dependencies, no line ends in anything but a
newline, and a source that got new annotations is read with the imports that it had. -/
structure IsAnnotatable (s : Session) (final : Tree) (package : PackageDir)
    (sources : List Source) (d : Descriptor) : Prop where
  plain : '\n' ∉ package.package.toList
  deps : ∀ r ∈ d.rules, r.kind.isAggregate = false → r.deps.values?.isSome = true
  owned : ∀ source ∈ sources, d.owners source.name = [] →
    s.workspace.indexOwners s.index package.dir source.name = []
  unmarked : ∀ source ∈ sources, source.text.toList.head? ≠ some '\uFEFF'
  lines : ∀ source ∈ sources, TypeScript.HasPlainLines source.text.toList
  reads : ∀ source ∈ sources, ∀ imports text, imports.map (·.source) = source.imports →
    Annotation.update source.text imports = .changed text →
    final.read source.location = .ok text → source.StaysRead imports text

variable {s : Session} {t final : Tree} {task : Task} {old : Descriptor} {scope : Scope}

/-- **Every source is looked at**, if no dependencies are computed and no source belongs to a rule
by the index only. -/
theorem HasScope.examines_of_owned (h : s.HasScope t task old scope) (ht : t.IsWellFormed)
    (hs : t.sources task.package.dir = .ok task.sources) (hd : (old.rules.map (·.name)).Nodup)
    (hdeps : ∀ r ∈ old.rules, r.kind.isAggregate = false → r.deps.values?.isSome = true)
    (howned : ∀ source ∈ task.sources, old.owners source.name = [] →
      s.workspace.indexOwners s.index task.package.dir source.name = [])
    {source : Source} (hsource : source ∈ task.sources) : scope.Examines source := by
  have hassign := (Scope.ofDescriptor_ok h.scope).2
  have harranged := Ownership.arranged_of_assign hd (Tree.nodup_map_sources hs)
    (ht.isPresent_of_sources hs) hassign
  have hmem := List.mem_map_of_mem (f := fun source : Source => (source.name, source.kind)) hsource
  by_contra hnot
  rcases h.of_not_examines (Tree.nodup_sources hs) hsource hnot with
    ⟨hnil, hown⟩ | ⟨name, hown, hrules⟩
  · rw [howned source hsource hnil] at hown
    exact (Ownership.of_owner?_external hd (Tree.nodup_map_sources hs) hassign hmem hown).2.2.2 rfl
  · obtain ⟨r, hr, hname, hagg, -⟩ := harranged.inside _ hmem name hown
    obtain ⟨olds, news, hall, holds, hnews⟩ := harranged.rules
    have hlisted : r.deps.values?.isSome = true := by
      rw [hall] at hr
      rcases List.mem_append.1 hr with hr | hr
      · obtain ⟨r₀, hr₀, hfollows⟩ := Ownership.exists_partner holds hr
        rw [hfollows.frame] at hagg ⊢
        exact hdeps r₀ hr₀ hagg
      · rw [(hnews r hr).deps]
        rfl
    have hplan := hrules r hr hname
    rw [Dependency.isPlannable, hagg, hlisted] at hplan
    cases hplan

/-- **The sources of such a package are settled** when it is updated without a problem. -/
theorem HasScope.isSettled (h : s.HasScope t task old scope) (ht : t.IsWellFormed)
    (hw : s.workspace.relative? task.package.dir = some task.package.package)
    (hs : t.sources task.package.dir = .ok task.sources) (hd : (old.rules.map (·.name)).Nodup)
    (hnames : s.workspace.HasPlainNames t task.package.package) (hindex : s.index.IsPlain)
    (hproblems : s.problemsOf task scope = [])
    (hannotatable : s.IsAnnotatable final task.package task.sources old) :
    ∀ source ∈ task.sources, scope.IsSettled source := by
  intro source hsource
  refine ⟨?_, fun i hi => ?_⟩
  · obtain ⟨text, imports, -, hread, heq⟩ := Tree.source_eq_ok.1 (Tree.source_of_mem hs hsource)
    have htext : source.text = text := congrArg Source.text heq
    have hfound : source.imports = imports := congrArg Source.imports heq
    rcases hread with hread | ⟨-, rfl⟩
    · rw [← hfound, ← htext, ← scope.imports_resolveSource] at hread
      exact Annotation.laid_imports (hannotatable.unmarked source hsource)
        (hannotatable.lines source hsource) hread
    · rw [Scope.resolveSource, hfound]
      exact ⟨by simp [statements], .nil, .nil⟩
  · have hexamines := h.examines_of_owned ht hs hd hannotatable.deps hannotatable.owned hsource
    obtain ⟨label, hlabel⟩ : ∃ label, scope.resolve i.specifier = [label] := by
      by_contra hnot
      obtain ⟨problem, -, hmem⟩ := exists_mem_problemsOf (s := s) (Tree.nodup_sources hs) hsource
        hexamines hi fun label hlabel => hnot ⟨label, hlabel⟩
      rw [hproblems] at hmem
      cases hmem
    have hknows := Scope.knows_of_resolve hw h.descriptor hs h.scope
      (hlabel ▸ List.mem_singleton_self label)
    exact ⟨label, hlabel, Annotation.isSolid_of_readsIn hannotatable.plain
      (hknows.readsIn ht (Tree.isDir_of_sources hs) hw hnames hindex)⟩

end Session

end BuildSync
