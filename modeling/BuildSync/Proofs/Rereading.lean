import BuildSync.Proofs.Build.RoundTrip
import BuildSync.Proofs.WrittenLabels

/-!
# Reading again what an update wrote

* `Scope.mem_annotations`: the sources that an update gives other texts.
* `Workspace.isChange_of_prepare`: an update sets lists and adds rules, and leaves the rest of the
  BUILD file.
* `Workspace.exists_descriptor_of_update`: the BUILD file is read as it was prepared.
* `Workspace.update_reads`: every dependency that an update leaves is read back where the names of
  packages and rules are plain, and so is the whole BUILD file, if a statement ends with the line of
  its last load or nothing had to be loaded.
-/

namespace BuildSync

open Build

/-! ## The sources that an update writes -/

theorem annotated?_eq_some {source : Source} {imports : List ResolvedImport}
    {entry : Location × String} : annotated? source imports = .ok (some entry) ↔
      entry.1 = source.location ∧ Annotation.update source.text imports = .changed entry.2 := by
  obtain ⟨location, text⟩ := entry
  unfold annotated?
  cases Annotation.update source.text imports <;> simp [eq_comm]

theorem forall₂_of_annotations {scope : Scope} {sources : List Source}
    {found : List (Option (Location × String))}
    (h : (sources.zip (sources.map scope.resolveSource)).mapM
      (fun pair => annotated? pair.1 pair.2.imports) = .ok found) :
    List.Forall₂ (fun source y => annotated? source (scope.resolveSource source).imports = .ok y)
      sources found := by
  induction sources generalizing found with
  | nil =>
    cases h
    exact .nil
  | cons source sources ih =>
    rw [List.map_cons, List.zip_cons_cons, List.mapM_cons] at h
    obtain ⟨y, hy, h⟩ := bind_eq_ok.1 h
    obtain ⟨ys, hys, h⟩ := bind_eq_ok.1 h
    cases h
    exact .cons hy (ih hys)

/-- **The sources that change** are those whose annotations do. -/
theorem Scope.mem_annotations {scope : Scope} {options : UpdateOptions} {sources : List Source}
    {changed : List (Location × String)} (h : scope.annotations options sources = .ok changed)
    {entry : Location × String} : entry ∈ changed ↔ options.annotates = true ∧
      ∃ source ∈ sources, entry.1 = source.location ∧
        Annotation.update source.text (scope.resolveSource source).imports = .changed entry.2 := by
  unfold annotations at h
  split at h
  · rename_i ha
    obtain ⟨found, hfound, h⟩ := bind_eq_ok.1 h
    cases h
    have hall := forall₂_of_annotations hfound
    simp only [List.mem_filterMap, id_eq, exists_eq_right, ha, true_and]
    constructor
    · intro hmem
      obtain ⟨source, hsource, hannotated⟩ := Ownership.exists_partner hall hmem
      exact ⟨source, hsource, annotated?_eq_some.1 hannotated⟩
    · rintro ⟨source, hsource, hannotated⟩
      obtain ⟨y, hy, hsame⟩ := Ownership.exists_partner hall.flip hsource
      cases Except.ok.inj (hsame.symm.trans (annotated?_eq_some.2 hannotated))
      exact hy
  · rename_i ha
    cases h
    simp [ha]

/-! ## An update changes its BUILD file -/

namespace Build

/-- A new rule does not gather libraries. -/
def Rule.IsOrdinary (rule : Rule) : Prop :=
  rule.isNew = true → rule.kind ≠ .devSources

namespace Descriptor

variable {d d' : Descriptor}

/-- What an update has made of a BUILD file on the way. -/
structure IsMade (d d' : Descriptor) : Prop extends d.IsChange d' where
  ordinary : ∀ rule ∈ d'.rules, rule.IsOrdinary

theorem IsMade.refl (h : ∀ rule ∈ d.rules, rule.IsRead) : d.IsMade d := by
  refine ⟨.refl h, fun rule hmem hnew => ?_⟩
  rw [(h rule hmem).isNew] at hnew
  cases hnew

theorem IsMade.addRule (h : d.IsMade d') (hr : ∀ rule ∈ d.rules, rule.IsRead) {rule : Rule}
    (hf : rule.IsFresh) (hk : rule.kind ≠ .devSources) (file : String) :
    d.IsMade (d'.addRule rule file) := by
  refine ⟨h.change hr (c := .add rule file) hf, ?_⟩
  rw [rules_addRule, List.forall_mem_append]
  exact ⟨h.ordinary, fun r hmem _ => List.mem_singleton.1 hmem ▸ hk⟩

theorem IsMade.modifyRule_setSrcs (h : d.IsMade d') (hr : ∀ rule ∈ d.rules, rule.IsRead)
    (name : String) (names : List String) : d.IsMade (d'.modifyRule name (·.setSrcs names)) := by
  obtain ⟨i, hi⟩ := exists_modify_eq name (·.setSrcs names) d'.rules
  refine ⟨?_, forall_mem_modifyFirst (fun r ho => ?_) h.ordinary name⟩
  · unfold modifyRule
    rw [hi]
    exact h.change hr (c := .setSrcs i names) trivial
  · rw [Rule.setSrcs_eq]
    exact ho

theorem IsMade.modifyRule_setDeps (h : d.IsMade d') (hr : ∀ rule ∈ d.rules, rule.IsRead)
    (name package : String) (labels : List Label) :
    d.IsMade (d'.modifyRule name (·.setDeps package labels)) := by
  obtain ⟨i, hi⟩ := exists_modify_eq name (·.setDeps package labels) d'.rules
  refine ⟨?_, forall_mem_modifyFirst (fun r ho => ?_) h.ordinary name⟩
  · unfold modifyRule
    rw [hi]
    exact h.change hr (c := .setDeps i package labels) trivial
  · rw [Rule.setDeps_eq]
    exact ho

/-- Some rules have other sources. -/
theorem IsMade.relist (h : d.IsMade d') (hr : ∀ rule ∈ d.rules, rule.IsRead) {rules : List Rule}
    (hset : List.Forall₂ (fun r r' => r' = r ∨ ∃ names, r' = r.setSrcs names) d'.rules rules) :
    d.IsMade { d' with rules := rules } := by
  have hordinary : ∀ rule ∈ rules, rule.IsOrdinary := by
    intro rule hmem
    obtain ⟨r, hr, hrel⟩ := Ownership.exists_partner hset hmem
    have ho := h.ordinary r hr
    rcases hrel with rfl | ⟨names, rfl⟩
    · exact ho
    · rw [Rule.setSrcs_eq]
      exact ho
  obtain ⟨read, news, hrules, hread, hnews⟩ := h.rules
  rw [hrules] at hset
  obtain ⟨read', news', rfl, hsetRead, hsetNews⟩ := exists_of_forall₂_append hset
  refine ⟨⟨h.text, h.package, h.called, ⟨read', news', rfl, ?_, fun rule hmem => ?_⟩, h.loads⟩,
    hordinary⟩
  · clear hset hordinary hrules
    generalize d.rules = olds at hread hr
    induction hread generalizing read' with
    | nil =>
      cases hsetRead
      exact .nil
    | cons he _ ih =>
      rw [List.forall_mem_cons] at hr
      cases hsetRead with
      | cons hs hrest =>
        refine .cons ?_ (ih _ hrest hr.2)
        rcases hs with rfl | ⟨names, rfl⟩
        · exact he
        · exact he.setSrcs hr.1 names
  · obtain ⟨r, hr, hrel⟩ := Ownership.exists_partner hsetNews hmem
    rcases hrel with rfl | ⟨names, rfl⟩
    · exact hnews _ hr
    · exact (hnews r hr).setSrcs names

end Descriptor

end Build

namespace Ownership

theorem isSet_relistAll (gone : String → List String) (added : List (String × String))
    (rules : List Build.Rule) :
    List.Forall₂ (fun r r' => r' = r ∨ ∃ names, r' = r.setSrcs names) rules
      (relistAll gone added rules) := by
  induction rules generalizing added with
  | nil => exact .nil
  | cons r rules ih =>
    refine .cons ?_ (ih _)
    unfold relist
    split
    · exact .inl rfl
    · split
      · exact .inl rfl
      · exact .inr ⟨_, rfl⟩

theorem isMade_assign {s : Surroundings} {d d' : Descriptor} {o : Ownership}
    {sources : List (String × SourceKind)} (hr : ∀ rule ∈ d.rules, rule.IsRead)
    (h : assign s d sources = (d', .ok o)) : d.IsMade d' := by
  have hfold : ∀ p : Progress, d.IsMade p.descriptor →
      d.IsMade (sources.foldl (Progress.settle s) p).descriptor := by
    clear h
    induction sources with
    | nil => exact fun p hp => hp
    | cons source sources ih =>
      refine fun p hp => ih _ ?_
      rcases Progress.descriptor_settle s p source with heq | ⟨-, heq⟩
      · rw [heq]
        exact hp
      · rw [heq]
        refine hp.addRule hr (Rule.isFresh_ofName _ _) ?_ _
        change ruleKind source.2 ≠ _
        cases source.2 <;> simp [ruleKind]
  unfold assign at h
  dsimp only at h
  split at h
  · cases h
    exact (hfold _ (.refl hr)).relist hr (isSet_relistAll _ _ _)
  · cases (Prod.mk.inj h).2

end Ownership

theorem Dependency.isMade_apply {d d' : Descriptor} (hr : ∀ rule ∈ d.rules, rule.IsRead)
    (h : d.IsMade d') (plans : List DependencyPlan) : d.IsMade (apply d' plans) := by
  induction plans generalizing d' with
  | nil => exact h
  | cons p plans ih => exact ih (h.modifyRule_setDeps hr p.rule d'.package p.deps)

namespace Aggregate

/-- The rule that gathers the libraries is made without sources. -/
theorem isChange_deriveAll {w : Workspace} {t : Tree} {dir : Location} {rulesFile : String}
    {d d' e : Descriptor} (hr : ∀ rule ∈ d.rules, rule.IsRead) (hd : d.IsMade d')
    (h : deriveAll w t dir rulesFile d' = .ok e) :
    d.IsChange e ∧ ∀ rule ∈ e.rules, rule.isNew = true → rule.kind = .devSources →
      rule.srcs.values? = some [] := by
  obtain ⟨configs, -, h⟩ := bind_eq_ok.1 h
  obtain ⟨below, -, h⟩ := bind_eq_ok.1 h
  cases h
  have hconfig : d.IsMade (derive d' .config configName rulesFile (configs ≠ [])
      (·.setSrcs configs)) := by
    unfold derive
    split
    · exact hd.modifyRule_setSrcs hr _ configs
    · split
      · refine hd.addRule hr ((Rule.isFresh_ofName _ _).setSrcs configs) ?_ rulesFile
        rw [Rule.kind_setSrcs]
        simp [Rule.ofName]
      · exact hd
  generalize derive d' .config configName rulesFile (configs ≠ []) (·.setSrcs configs) = made
    at hconfig
  generalize libraries made ++ below = all
  have hordinary : ∀ rule : Rule, rule.IsOrdinary → rule.isNew = true →
      rule.kind = .devSources → rule.srcs.values? = some [] :=
    fun rule ho hnew hk => absurd hk (ho hnew)
  unfold derive
  split
  · have hset := hconfig.modifyRule_setDeps hr
    exact ⟨(hset _ _ _).toIsChange,
      fun rule hmem => hordinary rule ((hset _ _ _).ordinary rule hmem)⟩
  · split
    · refine ⟨hconfig.change hr (c := .add _ rulesFile) ((Rule.isFresh_ofName _ _).setDeps _ _), ?_⟩
      rw [Descriptor.rules_addRule, List.forall_mem_append]
      refine ⟨fun rule hmem => hordinary rule (hconfig.ordinary rule hmem), fun rule hmem _ _ => ?_⟩
      obtain rfl := List.mem_singleton.1 hmem
      dsimp only
      rw [Rule.setDeps_eq]
      rfl
    · exact ⟨hconfig.toIsChange, fun rule hmem => hordinary rule (hconfig.ordinary rule hmem)⟩

end Aggregate

/-! ## The BUILD file afterwards -/

namespace Tree

variable {t t' : Tree} {dir : Location} {package : String} {d : Descriptor}

theorem isFile_congr {location : Location} (h : t'.node? location = t.node? location) :
    t'.isFile location = t.isFile location := by
  unfold isFile
  rw [h]

theorem read_congr {location : Location} (h : t'.node? location = t.node? location) :
    t'.read location = t.read location := by
  unfold read
  rw [h]

theorem buildFile?_congr
    (h : ∀ name ∈ buildFileNames, t'.node? (dir ++ [name]) = t.node? (dir ++ [name])) :
    t'.buildFile? dir = t.buildFile? dir := by
  unfold buildFile?
  refine List.find?_congr fun name hname => ?_
  rw [isFile_congr (h name hname)]

/-- **A BUILD file is read from the places where it may stand.** -/
theorem descriptor?_congr
    (h : ∀ name ∈ buildFileNames, t'.node? (dir ++ [name]) = t.node? (dir ++ [name])) :
    t'.descriptor? dir package = t.descriptor? dir package := by
  unfold descriptor?
  rw [buildFile?_congr h]
  cases hname : t.buildFile? dir with
  | none => rfl
  | some name =>
    dsimp only
    rw [read_congr (h name (List.mem_of_find?_eq_some hname))]

/-- A BUILD file that was read, or is to be made. -/
theorem descriptor_eq_ok (h : t.descriptor dir package = .ok d) :
    d.path = Location.text (dir ++ [(t.buildFile? dir).getD newBuildFileName]) ∧
      Descriptor.parse d.path package d.text = .ok d := by
  obtain ⟨found, hfound, rfl⟩ := map_eq_ok h
  unfold descriptor? at hfound
  split at hfound
  · rename_i hnone
    cases hfound
    rw [hnone]
    refine ⟨rfl, ?_⟩
    simp [Descriptor.parse, Descriptor.empty, Contents.parse, tokens, Contents.empty, Except.map]
  · rename_i name hname
    dsimp only at hfound
    split at hfound
    · cases hfound
    · split at hfound
      · cases hfound
      · rename_i text _ _ hparse
        cases hfound
        obtain ⟨contents, -, hd⟩ := map_eq_ok hparse
        rw [hname]
        subst hd
        exact ⟨rfl, hparse⟩

/-- A BUILD file that is written stays where it is, or is the only one. -/
theorem buildFile?_put (text : String) :
    (t.put (dir ++ [(t.buildFile? dir).getD newBuildFileName]) (.text text)).buildFile? dir =
      some ((t.buildFile? dir).getD newBuildFileName) := by
  generalize hname : (t.buildFile? dir).getD newBuildFileName = name
  have hself : (t.put (dir ++ [name]) (.text text)).isFile (dir ++ [name]) = true := by
    unfold isFile
    rw [node?_put_self (by simp)]
  have hother : ∀ other, other ≠ name → (t.put (dir ++ [name]) (.text text)).isFile
      (dir ++ [other]) = t.isFile (dir ++ [other]) :=
    fun other hn => isFile_congr (node?_put_of_ne (by simpa using hn) t _)
  unfold buildFile? buildFileNames at hname ⊢
  rw [List.find?_cons] at hname ⊢
  split at hname
  · rename_i hfirst
    obtain rfl : "BUILD.bazel" = name := hname
    rw [hself]
  · rename_i hfirst
    obtain rfl : "BUILD" = name := by
      rw [List.find?_singleton] at hname
      split at hname <;> exact hname
    rw [hother "BUILD.bazel" (by decide), hfirst, List.find?_singleton, hself]
    rfl

theorem descriptor_of_read {name text : String} (hname : t.buildFile? dir = some name)
    (hread : t.read (dir ++ [name]) = .ok text)
    (hparse : Descriptor.parse (Location.text (dir ++ [name])) package text = .ok d) :
    t.descriptor dir package = .ok d := by
  refine descriptor_of_descriptor? ?_
  unfold descriptor?
  rw [hname]
  dsimp only
  rw [hread]
  dsimp only
  rw [hparse]

end Tree

namespace Pending

theorem node?_foldl_put {entries : List (Location × String)} {location : Location}
    (h : ∀ entry ∈ entries, entry.1 ≠ location) (t : Tree) :
    (entries.foldl (fun t entry => t.put entry.1 (.text entry.2)) t).node? location =
      t.node? location := by
  induction entries generalizing t with
  | nil => rfl
  | cons entry entries ih =>
    rw [List.forall_mem_cons] at h
    rw [List.foldl_cons, ih h.2, Tree.node?_put_of_ne h.1.symm]

/-- A BUILD file is written where there is no directory. -/
theorem writeBuildFile_eq_ok {p : Pending} {t t' : Tree} (h : p.writeBuildFile t = .ok t') :
    t.isDir p.buildFile = false ∧ t' = t.put p.buildFile (.text p.descriptor.render) := by
  unfold writeBuildFile Tree.write at h
  split at h
  · rename_i hwrite
    cases h
    split at hwrite
    · cases hwrite
    · rename_i hdir
      split at hwrite <;> cases hwrite
      exact ⟨Bool.eq_false_iff.2 hdir, rfl⟩
  · cases h

/-- **What an update writes**: the BUILD file, if it changes, and the sources. -/
theorem write_eq_ok {p : Pending} {t t' : Tree} {u : PackageUpdate}
    (h : p.write t = .ok (t', u)) : ∃ t₁,
      (p.descriptor.isChanged = false ∧ t₁ = t ∨ p.descriptor.isChanged = true ∧
        t.isDir p.buildFile = false ∧ t₁ = t.put p.buildFile (.text p.descriptor.render)) ∧
      t' = p.sources.foldl (fun t source => t.put source.1 (.text source.2)) t₁ ∧
      u = ⟨if p.descriptor.isChanged then some p.buildFile else none, p.sources.map Prod.fst⟩ := by
  unfold write at h
  obtain ⟨-, -, h⟩ := bind_eq_ok.1 h
  dsimp only at h
  cases hchanged : p.descriptor.isChanged with
  | false =>
    rw [hchanged] at h
    cases h
    exact ⟨t, .inl ⟨rfl, rfl⟩, rfl, rfl⟩
  | true =>
    rw [hchanged] at h
    obtain ⟨t₁, ht₁, h⟩ := bind_eq_ok.1 h
    cases h
    exact ⟨t₁, .inr ⟨rfl, writeBuildFile_eq_ok ht₁⟩, rfl, rfl⟩

/-- **The BUILD file is read as it was written.** -/
theorem descriptor_of_write {p : Pending} {t t' : Tree} {u : PackageUpdate} {dir : Location}
    {package : String} {old d : Descriptor} (hold : t.descriptor dir package = .ok old)
    (hbuild : p.buildFile = dir ++ [(t.buildFile? dir).getD newBuildFileName])
    (htext : p.descriptor.text = old.text)
    (hsources : ∀ entry ∈ p.sources, ∀ name ∈ buildFileNames, entry.1 ≠ dir ++ [name])
    (h : p.write t = .ok (t', u))
    (hparse : Descriptor.parse old.path package p.descriptor.render = .ok d) :
    t'.descriptor dir package = .ok d := by
  obtain ⟨hpath, hread⟩ := Tree.descriptor_eq_ok hold
  obtain ⟨t₁, hbuilt, rfl, -⟩ := write_eq_ok h
  have hnode : ∀ name ∈ buildFileNames,
      (p.sources.foldl (fun t source => t.put source.1 (.text source.2)) t₁).node?
        (dir ++ [name]) = t₁.node? (dir ++ [name]) :=
    fun name hname => node?_foldl_put (fun entry he => hsources entry he name hname) t₁
  unfold Tree.descriptor
  rw [Tree.descriptor?_congr hnode]
  change t₁.descriptor dir package = _
  rcases hbuilt with ⟨hsame, rfl⟩ | ⟨-, -, rfl⟩
  · have hrender : p.descriptor.render = old.text := by
      rw [← htext]
      simpa [Descriptor.isChanged] using hsame
    rw [hrender, hread] at hparse
    rw [hold, Except.ok.inj hparse]
  · rw [hbuild]
    have hwritten : (t.put (dir ++ [(t.buildFile? dir).getD newBuildFileName])
        (.text p.descriptor.render)).read (dir ++ [(t.buildFile? dir).getD newBuildFileName]) =
          .ok p.descriptor.render := by
      unfold Tree.read
      rw [Tree.node?_put_self (by simp)]
    exact Tree.descriptor_of_read (Tree.buildFile?_put _) hwritten (hpath ▸ hparse)

end Pending

namespace Workspace

variable {w : Workspace} {t seen : Tree} {index : Query.Index} {options : UpdateOptions}
  {dir : Location} {package : String} {sources : List Source} {isProjectRoot : Bool}
  {pending : Pending}

/-- **An update changes its BUILD file**: it sets lists and adds rules. -/
theorem isChange_of_prepare {old : Descriptor} (hold : t.descriptor dir package = .ok old)
    (h : w.prepare t seen index options dir package sources isProjectRoot = .ok pending) :
    old.IsChange pending.descriptor ∧ ∀ rule ∈ pending.descriptor.rules, rule.isNew = true →
      rule.kind = .devSources → rule.srcs.values? = some [] := by
  obtain ⟨old', scope, hold', hscope, -, -, hderived, -⟩ := prepare_eq_ok.1 h
  cases Except.ok.inj (hold.symm.trans hold')
  obtain ⟨-, hassign⟩ := Scope.ofDescriptor_ok hscope
  have hread := (Descriptor.isRead_of_parse (Tree.descriptor_eq_ok hold).2).1
  have hplanned : old.IsMade (scope.planned options sources) :=
    Dependency.isMade_apply hread (Ownership.isMade_assign hread hassign) _
  unfold Scope.derived at hderived
  split at hderived
  · exact Aggregate.isChange_deriveAll hread hplanned hderived
  · rw [← Except.ok.inj hderived]
    exact ⟨hplanned.toIsChange,
      fun rule hmem hnew hk => absurd hk (hplanned.ordinary rule hmem hnew)⟩

/-- The places of a directory's sources, none of which is one for a BUILD file. -/
theorem location_of_source (hs : t.sources dir = .ok sources) {source : Source}
    (hmem : source ∈ sources) : source.location = dir ++ [source.name] ∧
      source.name ∉ buildFileNames := by
  have hname := ((Tree.mem_sources hs).1 (List.mem_map_of_mem hmem)).2
  refine ⟨?_, fun hbuild => ?_⟩
  · obtain ⟨text, imports, -, -, hsource⟩ := Tree.source_eq_ok.1 (Tree.source_of_mem hs hmem)
    rw [hsource]
  · have hnone : ∀ name ∈ buildFileNames, SourceKind.ofName? name = none := by decide
    rw [hnone _ hbuild] at hname
    cases hname

/-- The sources that an update writes stand in its directory, and none of them where the BUILD file
may stand. -/
theorem locations_of_prepare {before : Tree} (hs : before.sources dir = .ok sources)
    (h : w.prepare t seen index options dir package sources isProjectRoot = .ok pending) :
    ∀ entry ∈ pending.sources, ∃ name, entry.1 = dir ++ [name] ∧ name ∉ buildFileNames := by
  obtain ⟨old, scope, -, -, -, hsources, -⟩ := prepare_eq_ok.1 h
  intro entry he
  obtain ⟨-, source, hsource, hlocation, -⟩ := (Scope.mem_annotations hsources).1 he
  obtain ⟨hplace, hnot⟩ := location_of_source hs hsource
  exact ⟨source.name, hlocation.trans hplace, hnot⟩

/-- **The BUILD file of an update is read as it was prepared**, if its dependencies are read back
and a statement ends with the line of the last load where new loads are added. -/
theorem exists_descriptor_of_update {before t' : Tree} {package : PackageDir} {u : PackageUpdate}
    (hs : before.sources package.dir = .ok sources)
    (h : w.update t seen index options package sources isProjectRoot = .ok (t', u))
    {old : Descriptor} {pending : Pending}
    (hold : t.descriptor package.dir package.package = .ok old)
    (hprepare : w.prepare t seen index options package.dir package.package sources isProjectRoot =
      .ok pending)
    (hreads : ∀ rule ∈ pending.descriptor.rules, rule.AllDeps (·.ReadsIn package.package))
    (hclosed : pending.descriptor.pendingLoads ≠ [] → old.hasClosedLoads = true) :
    ∃ d, t'.descriptor package.dir package.package = .ok d ∧
      List.Forall₂ Rule.Agrees pending.descriptor.rules d.rules := by
  obtain ⟨pending', hprepare', hwrite⟩ := update_eq_ok.1 h
  cases Except.ok.inj (hprepare.symm.trans hprepare')
  obtain ⟨_, _, -, -, -, -, -, hbuild⟩ := prepare_eq_ok.1 hprepare
  obtain ⟨hchange, hgathers⟩ := isChange_of_prepare hold hprepare
  obtain ⟨d, hd, hagree⟩ := hchange.exists_agrees (Tree.descriptor_eq_ok hold).2
    (fun rule hrule _ list hl => hreads rule hrule _ (by rw [hl]; rfl)) hclosed hgathers
  refine ⟨d, Pending.descriptor_of_write hold hbuild hchange.text (fun entry he name hn heq => ?_)
    hwrite hd, hagree⟩
  obtain ⟨source, hsource, hnot⟩ := locations_of_prepare hs hprepare entry he
  rw [hsource] at heq
  exact hnot ((List.cons.inj (List.append_cancel_left heq)).1 ▸ hn)

/-- **What an update writes can be read again**, where the names of packages and rules are plain:
every dependency that it leaves, and the whole BUILD file, if a statement ends with the line of the
last load where new loads are added. -/
theorem update_reads {t' : Tree} {package : PackageDir} {u : PackageUpdate}
    (ht : t.IsWellFormed) (hw : w.relative? package.dir = some package.package)
    (hs : t.sources package.dir = .ok sources) (hnames : w.HasPlainNames t package.package)
    (hindex : index.IsPlain)
    (h : w.update t seen index options package sources isProjectRoot = .ok (t', u)) :
    ∃ old pending, t.descriptor package.dir package.package = .ok old ∧
      w.prepare t seen index options package.dir package.package sources isProjectRoot =
        .ok pending ∧
      pending.write t = .ok (t', u) ∧
      (∀ rule ∈ pending.descriptor.rules, rule.AllDeps (·.ReadsIn package.package)) ∧
      ((pending.descriptor.pendingLoads ≠ [] → old.hasClosedLoads = true) →
        ∃ d, t'.descriptor package.dir package.package = .ok d ∧
          List.Forall₂ Rule.Agrees pending.descriptor.rules d.rules) := by
  obtain ⟨pending, hprepare, hwrite⟩ := update_eq_ok.1 h
  obtain ⟨old, -, hold, -⟩ := prepare_eq_ok.1 hprepare
  have hreads := reads_of_prepare ht hw hs hnames hindex hprepare
  exact ⟨old, pending, hold, hprepare, hwrite, hreads,
    exists_descriptor_of_update hs h hold hprepare hreads⟩

end Workspace

/-! ## A package with a blank in its name -/

def crossBuild : String :=
  "ts_library(name=\"p\",srcs=[\"y.ts\"])"

/-- The source of package `p` imports one of the package `other`, whose rule is called `x`. -/
def crossTree (other : String) : Tree :=
  ⟨[([other], .directory), ([other, "BUILD"], .text "ts_library(name=\"x\",srcs=[\"x.ts\"])"),
    ([other, "x.ts"], .text ""), (["p"], .directory), (["p", "BUILD"], .text crossBuild),
    (["p", "y.ts"], .text ("import\"../" ++ other ++ "/x\""))]⟩

/-- The source, whose import ends at the byte `stop`. -/
def crossSource (other : String) (stop : Nat) : Source :=
  ⟨"y.ts", ["p", "y.ts"], .library, "import\"../" ++ other ++ "/x\"",
    [⟨"../" ++ other ++ "/x", .sideEffect, 1, 1, 0, stop⟩]⟩

/-- The package with its new dependency. -/
def crossUpdated (other : String) : Tree :=
  (crossTree other).put ["p", "BUILD"]
    (.text ("ts_library(name=\"p\",srcs=[\"y.ts\"], deps = [\"//" ++ other ++ ":x\"])"))

/-- What the update of package `p` reads and writes. -/
theorem steps_crossTree :
    (crossTree "ab").source ["p"] "y.ts" = .ok (crossSource "ab" 15) ∧
      (crossTree "a b").source ["p"] "y.ts" = .ok (crossSource "a b" 16) ∧
      ((crossTree "ab").usableDescriptor? ["ab"] "ab").map (·.rules.map (·.name)) = some ["x"] ∧
      ((crossTree "ab").usableDescriptor? ["p"] "p").map (·.rules.map (·.name)) = some ["p"] ∧
      (Workspace.update ⟨[]⟩ (crossTree "ab") (crossTree "ab") .empty sampleOptions samplePackage
        [crossSource "ab" 15] false).toOption =
          some (crossUpdated "ab", ⟨some ["p", "BUILD"], []⟩) ∧
      (Workspace.update ⟨[]⟩ (crossTree "a b") (crossTree "a b") .empty sampleOptions samplePackage
        [crossSource "a b" 16] false).toOption =
          some (crossUpdated "a b", ⟨some ["p", "BUILD"], []⟩) ∧
      (Workspace.prepare ⟨[]⟩ (crossTree "a b") (crossTree "a b") .empty sampleOptions ["p"] "p"
        [crossSource "a b" 16] false).toOption.map (·.descriptor.rules.map (·.deps.values?)) =
          some [some [⟨none, "a b", "x"⟩]] ∧
      ((crossUpdated "a b").descriptor ["p"] "p").toOption = none := by
  decide +kernel

theorem sources_crossTree :
    (crossTree "ab").sources ["p"] = .ok [crossSource "ab" 15] ∧
      (crossTree "a b").sources ["p"] = .ok [crossSource "a b" 16] := by
  have hnames : sortedTexts ["BUILD", "y.ts"] = ["BUILD", "y.ts"] := by
    simp [sortedTexts, sortedSet, List.mergeSort, List.MergeSort.Internal.splitInTwo, textLe,
      dropRepeats]
  constructor
  · refine Tree.sources_of_names rfl (hnames : (crossTree "ab").names ["p"] = _) rfl fun s hs => ?_
    rw [List.mem_singleton.1 hs]
    exact steps_crossTree.1
  · refine Tree.sources_of_names rfl (hnames : (crossTree "a b").names ["p"] = _) rfl fun s hs => ?_
    rw [List.mem_singleton.1 hs]
    exact steps_crossTree.2.1

theorem hasPlainNames_crossTree : (Workspace.mk []).HasPlainNames (crossTree "ab") "p" := by
  -- Only two directories have a BUILD file.
  have hdirs : ∀ dir other d, (Workspace.mk []).relative? dir = some other →
      (crossTree "ab").descriptor? dir other = .ok (some d) →
      Label.IsPlainText other ∧ (d.rules.map (·.name) = ["x"] ∨ d.rules.map (·.name) = ["p"]) := by
    intro dir other d hrel hd
    have husable : (crossTree "ab").usableDescriptor? dir other = some d := by
      rw [Tree.usableDescriptor?, hd]
      rfl
    have hplaces : dir = ["ab"] ∨ dir = ["p"] := by
      obtain ⟨name, hfile⟩ := Tree.isFile_of_descriptor? hd
      obtain ⟨node, hmem, hnode⟩ := Tree.exists_entry_of_isFile hfile
      have hdir : dir = (dir ++ [name]).dropLast := by simp
      generalize dir ++ [name] = location at hmem hdir
      simp only [crossTree, List.mem_cons, Prod.mk.injEq, List.not_mem_nil, or_false] at hmem
      rcases hmem with ⟨-, rfl⟩ | ⟨rfl, -⟩ | ⟨rfl, -⟩ | ⟨-, rfl⟩ | ⟨rfl, -⟩ | ⟨rfl, -⟩
      · exact absurd rfl hnode
      · exact .inl hdir
      · exact .inl hdir
      · exact absurd rfl hnode
      · exact .inr hdir
      · exact .inr hdir
    obtain ⟨-, -, hx, hp, -⟩ := steps_crossTree
    rcases hplaces with rfl | rfl
    · obtain rfl : "ab" = other := by simpa [Workspace.relative?] using hrel
      rw [husable] at hx
      exact ⟨Label.isPlainText_of_all (by decide), .inl (Option.some.inj hx)⟩
    · obtain rfl : "p" = other := by simpa [Workspace.relative?] using hrel
      rw [husable] at hp
      exact ⟨Label.isPlainText_of_all (by decide), .inr (Option.some.inj hp)⟩
  refine ⟨fun dir other d hrel hd _ => (hdirs dir other d hrel hd).1,
    fun dir other d hrel hd r hr => ?_, ⟨by decide, Label.isPlainText_of_all (by decide)⟩⟩
  have hname := List.mem_map_of_mem (f := Build.Rule.name) hr
  rcases (hdirs dir other d hrel hd).2 with hnames | hnames <;>
  · rw [hnames, List.mem_singleton] at hname
    rw [hname]
    exact ⟨by decide, Label.isPlainText_of_all (by decide)⟩

/-- The dependency on a package of a plain name is read back. -/
theorem update_reads_cross :
    (crossTree "ab").IsWellFormed ∧ (Workspace.mk []).relative? ["p"] = some "p" ∧
      (crossTree "ab").sources ["p"] = .ok [crossSource "ab" 15] ∧
      (Workspace.mk []).HasPlainNames (crossTree "ab") "p" ∧ Query.Index.empty.IsPlain ∧
      Workspace.update ⟨[]⟩ (crossTree "ab") (crossTree "ab") .empty sampleOptions samplePackage
        [crossSource "ab" 15] false = .ok (crossUpdated "ab", ⟨some ["p", "BUILD"], []⟩) ∧
      ∃ pending, Workspace.prepare ⟨[]⟩ (crossTree "ab") (crossTree "ab") .empty sampleOptions
          ["p"] "p" [crossSource "ab" 15] false = .ok pending ∧
        ∀ rule ∈ pending.descriptor.rules, rule.AllDeps (·.ReadsIn "p") := by
  have hwellFormed : (crossTree "ab").IsWellFormed := Tree.isWellFormed_of_entries (by decide)
  have hindex : Query.Index.empty.IsPlain := by
    intro key label hlabel
    simp at hlabel
  have hupdate := toOption_eq_some.1 steps_crossTree.2.2.2.2.1
  obtain ⟨-, pending, -, hprepare, -, hreads, -⟩ :=
    @Workspace.update_reads ⟨[]⟩ (crossTree "ab") (crossTree "ab") .empty sampleOptions
      [crossSource "ab" 15] false (crossUpdated "ab") samplePackage ⟨some ["p", "BUILD"], []⟩
      hwellFormed rfl
      sources_crossTree.1 hasPlainNames_crossTree hindex hupdate
  exact ⟨hwellFormed, rfl, sources_crossTree.1, hasPlainNames_crossTree, hindex, hupdate, pending,
    hprepare, hreads⟩

/-- **What an update writes need not be read again**: the package that is depended on has a blank
in its name. The update succeeds, but the label that it writes is refused, and with it the whole
BUILD file. -/
theorem update_unreadable :
    (crossTree "a b").IsWellFormed ∧ (Workspace.mk []).relative? ["p"] = some "p" ∧
      (crossTree "a b").sources ["p"] = .ok [crossSource "a b" 16] ∧
      Workspace.update ⟨[]⟩ (crossTree "a b") (crossTree "a b") .empty sampleOptions samplePackage
        [crossSource "a b" 16] false = .ok (crossUpdated "a b", ⟨some ["p", "BUILD"], []⟩) ∧
      (∃ pending, Workspace.prepare ⟨[]⟩ (crossTree "a b") (crossTree "a b") .empty sampleOptions
          ["p"] "p" [crossSource "a b" 16] false = .ok pending ∧
        ∃ rule ∈ pending.descriptor.rules, ∃ deps, rule.deps.values? = some deps ∧
          ∃ label ∈ deps, ¬ label.ReadsIn "p") ∧
      ∀ d, (crossUpdated "a b").descriptor ["p"] "p" ≠ .ok d := by
  have hwellFormed : (crossTree "a b").IsWellFormed := Tree.isWellFormed_of_entries (by decide)
  obtain ⟨-, -, -, -, -, hupdate, hprepare, hnone⟩ := steps_crossTree
  refine ⟨hwellFormed, rfl, sources_crossTree.2, toOption_eq_some.1 hupdate, ?_, fun d hd => ?_⟩
  · obtain ⟨pending, hpending, hdeps⟩ := Option.map_eq_some_iff.1 hprepare
    obtain ⟨rule, hrule, hvalues⟩ : ∃ rule ∈ pending.descriptor.rules,
        rule.deps.values? = some [⟨none, "a b", "x"⟩] := by
      have hmem : some [⟨none, "a b", "x"⟩] ∈ pending.descriptor.rules.map (·.deps.values?) := by
        rw [hdeps]
        exact List.mem_singleton_self _
      exact List.mem_map.1 hmem
    refine ⟨pending, toOption_eq_some.1 hpending, rule, hrule, _, hvalues, _,
      List.mem_singleton_self _, ?_⟩
    unfold Label.ReadsIn
    decide
  · rw [hd] at hnone
    cases hnone

end BuildSync
