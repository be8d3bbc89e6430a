import BuildSync.Proofs.Runs

/-!
# Which BUILD files list a source

A file may be listed in the BUILD file of its own directory and of any directory above.

* `Workspace.listers`: the rules of a directory's BUILD file that list a file.
  `Workspace.ListsOnce`: at most one rule of all BUILD files does.
* `Ownership.countP_assign`: settling the owners lists a source in one rule at most, and a source
  that only the index knows in none. `Pending.length_owners`: so does an update.
* `Workspace.update_listsOnce`: an update keeps what is listed once, if the index knows the sources
  that are listed in other BUILD files. `update_listsTwice`: it need not, if the index does not.
-/

namespace BuildSync

open Build

/-! ## Rules that list a file -/

/-- The rule owns sources and lists the file. -/
def Build.Rule.lists (file : String) (r : Build.Rule) : Bool :=
  !r.kind.isAggregate && r.owns file

theorem Build.Descriptor.length_owners (d : Descriptor) (file : String) :
    (d.owners file).length = d.rules.countP (Rule.lists file) :=
  (List.countP_eq_length_filter ..).symm

/-- Setting sources only adds those that are set. -/
theorem Build.Rule.owns_setSrcs {r : Build.Rule} {names : List String} {file : String}
    (hf : file ∉ names) (h : (r.setSrcs names).owns file = true) : r.owns file = true := by
  cases hv : r.srcs.values? with
  | none =>
    have hcomputed : r.srcs = .computed := by
      cases hs : r.srcs with
      | computed => rfl
      | absent => simp [hs, ListAttr.values?] at hv
      | literal list => simp [hs, ListAttr.values?] at hv
    rw [Rule.setSrcs_eq] at h
    simp [Rule.owns, hcomputed] at h
  | some values =>
    obtain ⟨new, hnew, hmem⟩ := Rule.owns_iff.1 h
    rw [Rule.srcs_setSrcs names hv, Option.some.injEq] at hnew
    rw [← hnew, mem_sortedTexts] at hmem
    exact absurd hmem hf

/-- Changing the first rule of a name lists no file more often. -/
theorem Build.Descriptor.countP_modifyFirst {p : Build.Rule → Bool} {f : Build.Rule → Build.Rule}
    (hf : ∀ r, p (f r) = true → p r = true) (name : String) (rules : List Build.Rule) :
    (modifyFirst name f rules).countP p ≤ rules.countP p := by
  induction rules with
  | nil => exact Nat.le_refl _
  | cons r rules ih =>
    rw [modifyFirst]
    split
    · rw [List.countP_cons, List.countP_cons]
      have hr := hf r
      split <;> simp_all
    · rw [List.countP_cons, List.countP_cons]
      omega

/-! ## Settling the owners -/

namespace Ownership

variable {s : Surroundings} {d d' : Descriptor} {o : Ownership}

/-- A rule is relisted with what is added to it, and the rest is left to the other rules. -/
theorem countP_relistAll (gone : String → List String) (added : List (String × String))
    (rules : List Build.Rule) (file : String) :
    (relistAll gone added rules).countP (Rule.lists file) ≤
      rules.countP (Rule.lists file) + added.countP (·.2 = file) := by
  induction rules generalizing added with
  | nil => exact Nat.zero_le _
  | cons r rules ih =>
    have hrest := ih (added.filter (·.1 ≠ r.name))
    have hsplit : added.countP (·.2 = file) =
        (added.filter (·.1 = r.name)).countP (·.2 = file) +
          (added.filter (·.1 ≠ r.name)).countP (·.2 = file) := by
      simpa using List.countP_eq_countP_filter_add added (·.2 = file) (·.1 = r.name)
    have hhead : (relist r (gone r.name) ((added.filter (·.1 = r.name)).map Prod.snd)).lists file =
        true → r.lists file = true ∨ 0 < (added.filter (·.1 = r.name)).countP (·.2 = file) := by
      intro hlists
      have hrel := @relisted_relist (added.filter (·.1 = r.name)) r (gone r.name)
        ((added.filter (·.1 = r.name)).map Prod.snd) fun other hother => by
          obtain ⟨entry, he, rfl⟩ := List.mem_map.1 hother
          have hname : entry.1 = r.name := of_decide_eq_true (List.mem_filter.1 he).2
          exact (Prod.ext hname.symm rfl : (r.name, entry.2) = entry) ▸ he
      simp only [Rule.lists, hrel.kind, Bool.and_eq_true] at hlists ⊢
      refine (hrel.owns file hlists.2).imp (fun ho => ⟨hlists.1, ho⟩) fun hm => ?_
      exact List.countP_pos_iff.2 ⟨_, hm, decide_eq_true rfl⟩
    rw [relistAll, List.countP_cons, List.countP_cons]
    split
    · rename_i hlists
      rcases hhead hlists with hr | hmine
      · rw [if_pos hr]
        omega
      · omega
    · omega

/-- A source that is settled is listed by one rule or added to one, not both. -/
def Single (d : Descriptor) (done : List (String × SourceKind)) (p : Progress) : Prop :=
  ∀ source ∈ done, (d.owners source.1).length + p.added.countP (·.2 = source.1) ≤ 1

namespace Single

variable {done : List (String × SourceKind)} {p : Progress} {source : String × SourceKind}

/-- What is not settled yet is added to no rule. -/
theorem countP_eq_zero (hs : Sound s d done p) (hn : source.1 ∉ done.map (·.1)) :
    p.added.countP (·.2 = source.1) = 0 := by
  refine List.countP_eq_zero.2 fun entry hm he => hn ?_
  obtain ⟨⟨other, hmem, hname⟩, -⟩ := hs.added entry hm
  exact List.mem_map.2 ⟨other, hmem, hname.trans (of_decide_eq_true he)⟩

theorem own (h : Single d done p) (hs : Sound s d done p) (hn : source.1 ∉ done.map (·.1))
    (hl : (d.owners source.1).length ≤ 1) (owner : Owner) :
    Single d (done ++ [source]) (p.own source.1 owner) := by
  intro other hm
  rcases List.mem_append.1 hm with hm | hm
  · exact h other hm
  · rw [List.mem_singleton.1 hm]
    show _ + p.added.countP (·.2 = source.1) ≤ 1
    rw [countP_eq_zero hs hn]
    exact hl

theorem attach (h : Single d done p) (hs : Sound s d done p) (hn : source.1 ∉ done.map (·.1))
    (ho : d.owners source.1 = []) {q : Progress} (hq : q.added = p.added) (rule : String) :
    Single d (done ++ [source]) (q.attach source.1 rule) := by
  intro other hm
  show _ + (q.added ++ [(rule, source.1)]).countP (·.2 = other.1) ≤ 1
  rw [hq, List.countP_append]
  rcases List.mem_append.1 hm with hm | hm
  · have hne : source.1 ≠ other.1 := fun he => hn (he ▸ List.mem_map_of_mem hm)
    simpa [hne] using h other hm
  · rw [List.mem_singleton.1 hm, countP_eq_zero hs hn, ho]
    simp

/-- **A step keeps the invariant.** -/
theorem step (h : Single d done p) (hs : Sound s d done p) (hn : source.1 ∉ done.map (·.1))
    {q : Progress} (hq : Progress.Step s p source q) : Single d (done ++ [source]) q := by
  cases hq with
  | listed rule ho =>
    rw [hs.owners_eq] at ho
    exact h.own hs hn (by simp [ho]) _
  | external ho _ =>
    rw [hs.owners_eq] at ho
    exact h.own hs hn (by simp [ho]) _
  | attached rule ho _ _ _ =>
    rw [hs.owners_eq] at ho
    exact h.attach hs hn ho rfl rule.name
  | made ho _ _ =>
    rw [hs.owners_eq] at ho
    exact h.attach hs hn ho rfl _

/-- **A run that reports nothing keeps the invariant.** -/
theorem run {sources : List (String × SourceKind)} (h : Single d done p) (hs : Sound s d done p)
    (hn : ((done ++ sources).map (·.1)).Nodup)
    (hp : (sources.foldl (Progress.settle s) p).problems = []) :
    Single d (done ++ sources) (sources.foldl (Progress.settle s) p) :=
  (@Progress.run_induction s p (fun done p => Single d done p ∧ Sound s d done p)
    (fun _ _ _ hfresh hstep h => ⟨h.1.step h.2 hfresh hstep, h.2.step hfresh hstep⟩)
    done sources ⟨h, hs⟩ hn hp).1

end Single

/-- **A source is listed once** after its owner is settled, and not at all if only the index knows
a rule that lists it. -/
theorem countP_assign {sources : List (String × SourceKind)} (hn : (sources.map (·.1)).Nodup)
    (h : assign s d sources = (d', .ok o)) {source : String × SourceKind} (hm : source ∈ sources) :
    d'.rules.countP (Rule.lists source.1) ≤ 1 ∧
      (d.owners source.1 = [] → s.external source.1 ≠ [] →
        d'.rules.countP (Rule.lists source.1) = 0) := by
  obtain ⟨p, hrun, hp, -, rfl⟩ := assign_eq_ok h
  have hs := (Sound.start s d).run (by simpa using hn) (hrun ▸ hp)
  have hsingle : Single d ([] ++ sources) (sources.foldl (Progress.settle s) (Progress.start d)) :=
    Single.run (by simp [Single]) (Sound.start s d) (by simpa using hn) (hrun ▸ hp)
  rw [List.nil_append, ← hrun] at hs hsingle
  have hcount := countP_relistAll (missingOf s d.rules) p.added p.descriptor.rules source.1
  rw [← Descriptor.length_owners, hs.owners_eq] at hcount
  refine ⟨hcount.trans (hsingle source hm), fun ho he => Nat.le_zero.1 (hcount.trans ?_)⟩
  -- What only the index knows is added to no rule.
  have hnone : p.added.countP (·.2 = source.1) = 0 := by
    refine List.countP_eq_zero.2 fun entry hentry hfile => ?_
    have howner := (hs.added entry hentry).2
    rw [of_decide_eq_true hfile, hs.external source hm ho he] at howner
    cases howner
  simp [ho, hnone]

end Ownership

/-! ## An update -/

/-- Plans list no file more often. -/
theorem Dependency.countP_apply (d : Descriptor) (plans : List DependencyPlan) (file : String) :
    (apply d plans).rules.countP (Rule.lists file) ≤ d.rules.countP (Rule.lists file) := by
  induction plans generalizing d with
  | nil => exact Nat.le_refl _
  | cons p plans ih =>
    refine (ih (d.modifyRule p.rule (·.setDeps d.package p.deps))).trans ?_
    refine Descriptor.countP_modifyFirst (fun r hr => ?_) p.rule d.rules
    simpa [Rule.lists, Rule.owns, Rule.setDeps_eq] using hr

namespace Aggregate

theorem countP_derive {d : Descriptor} {kind : RuleKind} (hk : kind.isAggregate = true)
    {fill : Build.Rule → Build.Rule} (hkind : ∀ r, (fill r).kind = r.kind) {file : String}
    (hf : ∀ r, (fill r).owns file = true → r.owns file = true) (name rulesFile : String)
    (isNeeded : Bool) :
    (derive d kind name rulesFile isNeeded fill).rules.countP (Rule.lists file) ≤
      d.rules.countP (Rule.lists file) := by
  unfold derive
  split
  · refine Descriptor.countP_modifyFirst (fun r hr => ?_) _ d.rules
    simp only [Rule.lists, hkind, Bool.and_eq_true] at hr ⊢
    exact ⟨hr.1, hf r hr.2⟩
  · split
    · rw [Descriptor.rules_addRule, List.countP_append]
      simp [Rule.lists, hkind, Rule.ofName, hk]
    · exact Nat.le_refl _

theorem getLast?_of_endsWith {cs final : List Char} (h : Text.endsWith cs final = true)
    (hf : final ≠ []) : cs.getLast? = final.getLast? := by
  obtain ⟨rest, rfl⟩ := Text.endsWith_iff.1 h
  exact List.getLast?_append_of_ne_nil _ hf

/-- A configuration file is no source. -/
theorem not_isConfigName {name : String} (h : (SourceKind.ofName? name).isSome = true) :
    isConfigName name = false := by
  refine Bool.eq_false_iff.2 fun hconfig => ?_
  have hlast := getLast?_of_endsWith (Bool.and_eq_true_iff.1 hconfig).2 (by decide)
  have hnot : ∀ final : String, final.toList ≠ [] → final.toList.getLast? ≠ some 'n' →
      Text.endsWith name.toList final.toList = false := fun final hne hn =>
    Bool.eq_false_iff.2 fun he => hn ((getLast?_of_endsWith he hne).symm.trans hlast)
  unfold SourceKind.ofName? at h
  simp only [hnot ".d.ts" (by decide) (by decide), hnot "_test.ts" (by decide) (by decide),
    hnot "_test.tsx" (by decide) (by decide), hnot ".ts" (by decide) (by decide),
    hnot ".tsx" (by decide) (by decide)] at h
  cases h

/-- **The rules over the whole project** list no source more often. -/
theorem countP_deriveAll {w : Workspace} {t : Tree} {dir : Location} {rulesFile : String}
    {d d' : Descriptor} {file : String} (hfile : (SourceKind.ofName? file).isSome = true)
    (h : deriveAll w t dir rulesFile d = .ok d') :
    d'.rules.countP (Rule.lists file) ≤ d.rules.countP (Rule.lists file) := by
  unfold deriveAll at h
  obtain ⟨configs, hconfigs, h⟩ := bind_eq_ok.1 h
  obtain ⟨below, -, h⟩ := bind_eq_ok.1 h
  cases h
  have hnot : file ∉ configs := by
    intro hm
    unfold configFiles at hconfigs
    split at hconfigs
    · cases hconfigs
    · cases hconfigs
      simp [not_isConfigName hfile] at hm
  refine (countP_derive rfl (fun r => Rule.kind_setDeps r _ _) (fun r hr => ?_) _ _ _).trans
    (countP_derive rfl (fun r => Rule.kind_setSrcs r _)
      (fun r hr => Rule.owns_setSrcs hnot hr) _ _ _)
  simpa [Rule.owns, Rule.setDeps_eq] using hr

end Aggregate

namespace Workspace

variable {w : Workspace} {before t t' seen : Tree} {index : Query.Index} {options : UpdateOptions}
  {sources : List Source} {isProjectRoot : Bool}

/-- **An update lists a source in one rule at most**, and in none if only the index knows a rule
that lists it. -/
theorem length_owners_of_prepare {dir : Location} {package : String} {old : Descriptor}
    {pending : Pending} (hs : before.sources dir = .ok sources)
    (hold : t.descriptor dir package = .ok old)
    (h : w.prepare t seen index options dir package sources isProjectRoot = .ok pending)
    {source : Source} (hm : source ∈ sources) :
    (pending.descriptor.owners source.name).length ≤ 1 ∧
      (old.owners source.name = [] → w.indexOwners index dir source.name ≠ [] →
        pending.descriptor.owners source.name = []) := by
  obtain ⟨old', scope, hold', hscope, -, -, hderived, -⟩ := prepare_eq_ok.1 h
  cases Except.ok.inj (hold.symm.trans hold')
  obtain ⟨-, hassign⟩ := Scope.ofDescriptor_ok hscope
  have hnodup : ((sources.map fun source => (source.name, source.kind)).map Prod.fst).Nodup := by
    rw [List.map_map]
    exact Tree.nodup_sources hs
  obtain ⟨hle, hzero⟩ := Ownership.countP_assign hnodup hassign (List.mem_map_of_mem hm)
  -- What follows lists no source more often.
  have hkind := ((Tree.mem_sources hs).1 (List.mem_map_of_mem hm)).2
  have hrest : pending.descriptor.rules.countP (Rule.lists source.name) ≤
      scope.descriptor.rules.countP (Rule.lists source.name) := by
    have hplanned := Dependency.countP_apply scope.descriptor
      (Dependency.plan (scope.prune? options) scope.descriptor scope.ownership
        (sources.map scope.resolveSource)).1 source.name
    unfold Scope.derived at hderived
    split at hderived
    · exact (Aggregate.countP_deriveAll hkind hderived).trans hplanned
    · rw [← Except.ok.inj hderived]
      exact hplanned
  rw [Descriptor.length_owners]
  refine ⟨hrest.trans hle, fun ho he => List.length_eq_zero_iff.1 ?_⟩
  rw [Descriptor.length_owners]
  exact Nat.le_zero.1 (hrest.trans (hzero ho he).le)

/-! ## All BUILD files -/

/-- The rules of a directory's BUILD file that list a file below the directory by its path. -/
def listers (w : Workspace) (t : Tree) (file dir : Location) : List Build.Rule :=
  match w.relative? dir, dir.isPrefixOf? file with
  | some package, some names =>
    ((t.usableDescriptor? dir package).map (·.owners (String.intercalate "/" names))).getD []
  | _, _ => []

/-- At most one rule of all BUILD files lists the file. -/
structure ListsOnce (w : Workspace) (t : Tree) (file : Location) : Prop where
  length_le : ∀ dir, (w.listers t file dir).length ≤ 1
  eq : ∀ dir other, w.listers t file dir ≠ [] → w.listers t file other ≠ [] → dir = other

/-- The rules of a BUILD file that list a file beside it. -/
theorem listers_eq {dir : Location} {package name : String} {d : Descriptor}
    (hw : w.relative? dir = some package) (hd : t.descriptor dir package = .ok d) :
    w.listers t (dir ++ [name]) dir = d.owners name := by
  have hprefix : dir.isPrefixOf? (dir ++ [name]) = some [name] :=
    List.isPrefixOf?_eq_some_iff_append_eq.2 rfl
  obtain ⟨found, hfound, rfl⟩ := map_eq_ok hd
  unfold listers Tree.usableDescriptor?
  rw [hw, hprefix]
  dsimp only
  rw [hfound]
  -- A BUILD file that is not there lists nothing.
  cases found with
  | none => rfl
  | some d => simp [Except.toOption]

variable {package : PackageDir} {u : PackageUpdate} (hs : before.sources package.dir = .ok sources)
  (h : w.update t seen index options package sources isProjectRoot = .ok (t', u))
include hs h

/-- **An update leaves the other BUILD files.** -/
theorem listers_of_update {dir : Location} (hne : dir ≠ package.dir) (file : Location) :
    w.listers t' file dir = w.listers t file dir := by
  have hnode : ∀ name ∈ buildFileNames, t'.node? (dir ++ [name]) = t.node? (dir ++ [name]) :=
    fun name _ => node?_of_update hs h fun other heq => hne (List.append_inj' heq rfl).1
  unfold listers Tree.usableDescriptor?
  split
  · rw [Tree.descriptor?_congr hnode]
  · rfl

omit hs h in
/-- Rules that agree list the same files. -/
theorem length_owners_of_agrees {d d' : Descriptor} (h : List.Forall₂ Rule.Agrees d.rules d'.rules)
    (file : String) : (d'.owners file).length = (d.owners file).length := by
  rw [Descriptor.length_owners, Descriptor.length_owners]
  generalize d.rules = rules, d'.rules = rules' at h
  induction h with
  | nil => rfl
  | @cons r r' rules rules' hr _ ih =>
    have hlists : r'.lists file = r.lists file := by
      rw [Bool.eq_iff_iff]
      simp only [Rule.lists, hr.kind, Bool.and_eq_true, Rule.owns_iff, hr.srcs]
    rw [List.countP_cons, List.countP_cons, ih, hlists]

/-- **An update keeps what is listed once**: other BUILD files stay, a source is listed in one rule
of the package's at most, and where the index knows the sources that other BUILD files list, these
are not listed again. -/
theorem update_listsOnce (hw : w.relative? package.dir = some package.package) :
    ∃ old pending, t.descriptor package.dir package.package = .ok old ∧
      w.prepare t seen index options package.dir package.package sources isProjectRoot =
        .ok pending ∧
      (∀ dir, dir ≠ package.dir → ∀ file, w.listers t' file dir = w.listers t file dir) ∧
      ∀ source ∈ sources, (pending.descriptor.owners source.name).length ≤ 1 ∧
        (w.ListsOnce t (package.dir ++ [source.name]) →
          (∀ dir, dir ≠ package.dir → w.listers t (package.dir ++ [source.name]) dir ≠ [] →
            w.indexOwners index package.dir source.name ≠ []) →
          (∀ rule ∈ pending.descriptor.rules, rule.AllDeps (·.ReadsIn package.package)) →
          (pending.descriptor.pendingLoads ≠ [] → old.hasClosedLoads = true) →
          w.ListsOnce t' (package.dir ++ [source.name])) := by
  obtain ⟨pending, hprepare, -⟩ := update_eq_ok.1 h
  obtain ⟨old, -, hold, -⟩ := prepare_eq_ok.1 hprepare
  refine ⟨old, pending, hold, hprepare, fun dir hne file => listers_of_update hs h hne file,
    fun source hm => ?_⟩
  obtain ⟨hle, hnone⟩ := length_owners_of_prepare hs hold hprepare hm
  refine ⟨hle, fun honce hindex hreads hclosed => ?_⟩
  obtain ⟨d, hd, hagree⟩ := exists_descriptor_of_update hs h hold hprepare hreads hclosed
  have hown := @listers_eq w t' package.dir package.package source.name d hw hd
  have hother : ∀ dir, dir ≠ package.dir → w.listers t' (package.dir ++ [source.name]) dir =
      w.listers t (package.dir ++ [source.name]) dir :=
    fun dir hne => listers_of_update hs h hne _
  -- A source that another BUILD file lists was not listed here, and is not.
  have hapart : ∀ dir, dir ≠ package.dir →
      w.listers t' (package.dir ++ [source.name]) dir ≠ [] →
      w.listers t' (package.dir ++ [source.name]) package.dir = [] := by
    intro dir hne hlists
    rw [hother dir hne] at hlists
    have hold' : old.owners source.name = [] := by
      rw [← listers_eq hw hold]
      by_contra hhere
      exact hne (honce.eq dir package.dir hlists hhere)
    rw [hown]
    refine List.length_eq_zero_iff.1 ?_
    rw [length_owners_of_agrees hagree, hnone hold' (hindex dir hne hlists)]
    rfl
  refine ⟨fun dir => ?_, fun dir other hdir hother' => ?_⟩
  · by_cases hne : dir = package.dir
    · rw [hne, hown, length_owners_of_agrees hagree]
      exact hle
    · rw [hother dir hne]
      exact honce.length_le dir
  · by_cases hd : dir = package.dir
    · by_cases ho : other = package.dir
      · rw [hd, ho]
      · exact absurd (hapart other ho hother') (hd ▸ hdir)
    · by_cases ho : other = package.dir
      · exact absurd (hapart dir hd hdir) (ho ▸ hother')
      · rw [hother dir hd] at hdir
        rw [hother other ho] at hother'
        exact honce.eq dir other hdir hother'

end Workspace

/-! ## A file that is listed further up -/

def lowerPackage : PackageDir :=
  ⟨["b"], "b", "b"⟩

/-- The index gives the file further down to the rule at the root. -/
def knownIndex : Query.Index :=
  ⟨[(.file "b/x.ts", [⟨.ofPackage "" "all", none⟩])]⟩

/-- What the update of the lower package finds and writes. -/
theorem steps_lowerPackage :
    ((Workspace.mk []).listers movedTree ["b", "x.ts"] []).length = 1 ∧
      ((Workspace.mk []).listers movedOnce ["b", "x.ts"] []).length = 1 ∧
      ((Workspace.mk []).listers movedOnce ["b", "x.ts"] ["b"]).length = 1 ∧
      (Workspace.update ⟨[]⟩ movedTree movedTree .empty sampleOptions lowerPackage [lowerSource]
        false).toOption = some (movedOnce, ⟨some ["b", "BUILD"], []⟩) ∧
      (Workspace.update ⟨[]⟩ movedTree movedTree knownIndex sampleOptions lowerPackage [lowerSource]
        false).toOption = some (movedTree, ⟨none, []⟩) ∧
      (Workspace.prepare ⟨[]⟩ movedTree movedTree knownIndex sampleOptions ["b"] "b" [lowerSource]
        false).toOption.map (·.descriptor) = some (.empty "/b/BUILD" "b") := by
  decide +kernel

/-- Only the directory at the root has a BUILD file. -/
theorem listsOnce_movedTree : (Workspace.mk []).ListsOnce movedTree ["b", "x.ts"] := by
  have hroot : ∀ dir, (Workspace.mk []).listers movedTree ["b", "x.ts"] dir ≠ [] → dir = [] := by
    intro dir hlists
    by_contra hne
    have hnone : movedTree.buildFile? dir = none := by
      refine List.find?_eq_none.2 fun name hname hfile => ?_
      obtain ⟨node, hmem, hnode⟩ := Tree.exists_entry_of_isFile hfile
      have hdir : dir = (dir ++ [name]).dropLast := by simp
      have hlast : (dir ++ [name]).getLast? = some name := by simp
      generalize dir ++ [name] = location at hmem hdir hlast
      simp only [movedTree, List.mem_cons, Prod.mk.injEq, List.not_mem_nil, or_false] at hmem
      rcases hmem with ⟨rfl, -⟩ | ⟨-, rfl⟩ | ⟨rfl, -⟩ | ⟨rfl, -⟩
      · exact hne hdir
      · exact absurd rfl hnode
      · cases hlast
        exact absurd hname (by decide)
      · exact hne hdir
    refine hlists ?_
    unfold Workspace.listers Tree.usableDescriptor? Tree.descriptor?
    rw [hnone]
    split <;> rfl
  refine ⟨fun dir => ?_,
    fun dir other hdir hother => (hroot dir hdir).trans (hroot other hother).symm⟩
  by_cases hlists : (Workspace.mk []).listers movedTree ["b", "x.ts"] dir = []
  · simp [hlists]
  · rw [hroot dir hlists, steps_lowerPackage.1]

/-- The index knows the rule at the root, and the file is not listed again. -/
theorem update_listsOnce_known :
    (Workspace.mk []).relative? ["b"] = some "b" ∧ movedTree.sources ["b"] = .ok [lowerSource] ∧
      Workspace.update ⟨[]⟩ movedTree movedTree knownIndex sampleOptions lowerPackage [lowerSource]
        false = .ok (movedTree, ⟨none, []⟩) ∧
      ∃ pending, Workspace.prepare ⟨[]⟩ movedTree movedTree knownIndex sampleOptions ["b"] "b"
          [lowerSource] false = .ok pending ∧
        pending.descriptor.owners "x.ts" = [] ∧
        (Workspace.mk []).ListsOnce movedTree ["b", "x.ts"] := by
  obtain ⟨-, -, -, -, hupdate, hprepare⟩ := steps_lowerPackage
  have hsources := sources_moved.1.2
  have hupdate := toOption_eq_some.1 hupdate
  obtain ⟨old, pending, -, hpending, -, hlisted⟩ :=
    @Workspace.update_listsOnce ⟨[]⟩ movedTree movedTree movedTree movedTree knownIndex
      sampleOptions [lowerSource] false lowerPackage ⟨none, []⟩ hsources hupdate rfl
  obtain ⟨pending', hpending', hempty⟩ := Option.map_eq_some_iff.1 hprepare
  cases Except.ok.inj (hpending.symm.trans (toOption_eq_some.1 hpending'))
  refine ⟨rfl, hsources, hupdate, pending, hpending, by rw [hempty]; rfl, ?_⟩
  refine (hlisted lowerSource (List.mem_singleton_self _)).2 listsOnce_movedTree (fun _ _ _ => ?_)
    (by simp [hempty, Descriptor.empty]) (by simp [hempty, Descriptor.empty])
  decide +kernel

/-- **A source is listed twice**: the index does not know the rule further up that lists it, and so
a package is made below for it. -/
theorem Workspace.update_listsTwice :
    movedTree.IsWellFormed ∧ movedTree.sources ["b"] = .ok [lowerSource] ∧
      (Workspace.mk []).ListsOnce movedTree ["b", "x.ts"] ∧
      Workspace.update ⟨[]⟩ movedTree movedTree .empty sampleOptions lowerPackage [lowerSource]
        false = .ok (movedOnce, ⟨some ["b", "BUILD"], []⟩) ∧
      ¬(Workspace.mk []).ListsOnce movedOnce ["b", "x.ts"] := by
  obtain ⟨-, hroot, hlower, hupdate, -⟩ := steps_lowerPackage
  refine ⟨Tree.isWellFormed_of_entries (by decide), sources_moved.1.2, listsOnce_movedTree,
    toOption_eq_some.1 hupdate, fun honce => ?_⟩
  have hsame := honce.eq [] ["b"] (List.ne_nil_of_length_eq_add_one hroot)
    (List.ne_nil_of_length_eq_add_one hlower)
  cases hsame

end BuildSync
