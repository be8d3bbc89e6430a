import BuildSync.Proofs.Libraries
import BuildSync.Proofs.Resettling
import BuildSync.Proofs.Rewrites

/-!
# Deriving the rules over a project again

The rules over the whole project are derived from the files of its root and from the libraries
below. Where these stay, rules that were brought up to date stay as well.

* `Aggregate.derive_eq_self`: a rule that is filled in as it is.
* `Aggregate.outlines_deriveAll`: the rules that own sources stay.
* `Aggregate.Gathers.unique`: the libraries have one order.
* `Aggregate.deriveAll_again`: rules that were derived, written and read are derived again as they
  are.
-/

namespace BuildSync

open Build

namespace Build

/-- What is listed already is not replaced. -/
theorem ListAttr.replace?_eq_none {α : Type} [DecidableEq α] {attr : ListAttr α} {new : List α}
    (h : ∀ values, attr.values? = some values → values = new) : attr.replace? new = none := by
  cases attr with
  | absent => exact if_pos (h [] rfl).symm
  | literal list => exact if_pos (h _ rfl)
  | computed => rfl

theorem Rule.setSrcs_eq_self {r : Rule} {names : List String}
    (h : ∀ values, r.srcs.values? = some values → values = sortedTexts names) :
    r.setSrcs names = r := by
  rw [setSrcs, ListAttr.replace?_eq_none h]

/-- Sources that are set are in order, unless they are computed. -/
theorem Rule.srcs_of_setSrcs {r : Rule} {names values : List String}
    (h : (r.setSrcs names).srcs.values? = some values) : values = sortedTexts names := by
  cases hold : r.srcs.values? with
  | some old =>
    rw [srcs_setSrcs names hold] at h
    exact (Option.some.inj h).symm
  | none =>
    have hcomputed : r.srcs = .computed := by
      cases hsrcs : r.srcs <;> simp_all [ListAttr.values?]
    rw [setSrcs_eq, hcomputed] at h
    cases h

theorem Rule.setDeps_eq_self {r : Rule} {package : String} {labels : List Label}
    (h : ∀ values, r.deps.values? = some values → values = r.arrangeDeps package labels) :
    r.setDeps package labels = r := by
  rw [setDeps, ListAttr.replace?_eq_none h]

/-- What a reader sees of two rules is the same to their sources and to other rules. -/
theorem Rule.Agrees.outline_eq {r r' : Rule} (h : r.Agrees r') : r'.outline = r.outline := by
  rw [outline, outline, h.kind, h.name, h.srcs, h.moduleName]

theorem names_of_agrees {rules rules' : List Rule} (h : List.Forall₂ Rule.Agrees rules rules') :
    rules'.map (·.name) = rules.map (·.name) := by
  induction h with
  | nil => rfl
  | cons hr _ ih => rw [List.map_cons, List.map_cons, hr.name, ih]

theorem Descriptor.outlines_of_agrees {d d' : Descriptor}
    (h : List.Forall₂ Rule.Agrees d.rules d'.rules) : d'.outlines = d.outlines := by
  unfold outlines
  generalize d.rules = rules at h
  generalize d'.rules = rules' at h
  induction h with
  | nil => rfl
  | cons hr _ ih =>
    rw [List.filter_cons, List.filter_cons, hr.kind]
    split
    · rw [List.map_cons, List.map_cons, hr.outline_eq, ih]
    · exact ih

theorem Descriptor.isSome_rule? {d : Descriptor} {name : String} :
    (d.rule? name).isSome = true ↔ name ∈ d.rules.map (·.name) := by
  simp [rule?, List.find?_isSome]

end Build

namespace Aggregate

/-! ## One rule -/

section
variable {d : Descriptor} {kind : RuleKind} {name rulesFile : String} {isNeeded : Bool}
  {fill : Build.Rule → Build.Rule}

/-- **A rule that is filled in as it is** stays, and so does a file that needs none. -/
theorem derive_eq_self (hd : (d.rules.map (·.name)).Nodup)
    (hfill : ∀ rule, d.rules.find? (·.kind = kind) = some rule → fill rule = rule)
    (hnone : d.rules.find? (·.kind = kind) = none → isNeeded = true →
      (d.rule? name).isSome = true) :
    derive d kind name rulesFile isNeeded fill = d := by
  unfold derive
  split
  · rename_i rule hfind
    have hrules : Descriptor.modifyFirst rule.name fill d.rules = d.rules := by
      rw [Dependency.modifyFirst_of_nodup hd]
      refine (List.map_congr_left fun r hr => ?_).trans (List.map_id _)
      split
      · rename_i hname
        rw [List.inj_on_of_nodup_map hd hr (List.mem_of_find?_eq_some hfind) hname,
          hfill rule hfind]
        rfl
      · rfl
    rw [Descriptor.modifyRule, hrules]
  · rename_i hfind
    refine if_neg fun hneeds => ?_
    obtain ⟨hneeded, hfree⟩ := Bool.and_eq_true_iff.1 hneeds
    have hsome := hnone hfind hneeded
    rw [Option.isNone_iff_eq_none.1 hfree] at hsome
    cases hsome

/-- A name that was taken still is. -/
theorem isSome_rule?_derive (hname : ∀ r, (fill r).name = r.name) {other : String}
    (h : (d.rule? other).isSome = true) :
    ((derive d kind name rulesFile isNeeded fill).rule? other).isSome = true := by
  rw [Descriptor.isSome_rule?] at h ⊢
  unfold derive
  split
  · rename_i rule _
    rwa [Descriptor.modifyRule, names_modifyFirst hname]
  · split
    · rw [Descriptor.rules_addRule, List.map_append]
      exact List.mem_append_left _ h
    · exact h

variable (hd : (d.rules.map (·.name)).Nodup) (hkind : ∀ r, (fill r).kind = r.kind)
include hd hkind

theorem find?_modifyRule (other : RuleKind) (rule : String) :
    (d.modifyRule rule fill).rules.find? (·.kind = other) =
      (d.rules.find? (·.kind = other)).map fun r => if r.name = rule then fill r else r := by
  have hkinds (r : Build.Rule) : (if r.name = rule then fill r else r).kind = r.kind := by
    split
    · exact hkind r
    · rfl
  rw [Descriptor.modifyRule, Dependency.modifyFirst_of_nodup hd, List.find?_map]
  simp only [Function.comp_def, hkinds]

/-- Where no rule is made although one is needed, the name was taken. -/
theorem isSome_rule?_of_find?_eq_none
    (h : (derive d kind name rulesFile isNeeded fill).rules.find? (·.kind = kind) = none)
    (hneeded : isNeeded = true) : (d.rule? name).isSome = true := by
  unfold derive at h
  split at h
  · rename_i rule hfind
    rw [find?_modifyRule hd hkind, hfind] at h
    cases h
  · split at h
    · rw [Descriptor.rules_addRule, List.find?_append, Option.or_eq_none_iff] at h
      have hmade : (fill (.ofName kind name)).kind = kind := hkind _
      simp [hmade] at h
    · rename_i hfree
      rw [hneeded, Bool.true_and, Option.isNone_iff_eq_none] at hfree
      exact Option.isSome_iff_ne_none.2 hfree

/-- The rules of other kinds stay. -/
theorem find?_derive_of_ne {other : RuleKind} (hne : other ≠ kind) :
    (derive d kind name rulesFile isNeeded fill).rules.find? (·.kind = other) =
      d.rules.find? (·.kind = other) := by
  unfold derive
  split
  · rename_i rule hfind
    rw [find?_modifyRule hd hkind]
    cases hother : d.rules.find? (·.kind = other) with
    | none => rfl
    | some r =>
      have hr : r.kind = other := by simpa using List.find?_some hother
      have hrule : rule.kind = kind := by simpa using List.find?_some hfind
      have hname : r.name ≠ rule.name := fun heq => hne <| by
        rw [← hr, List.inj_on_of_nodup_map hd (List.mem_of_find?_eq_some hother)
          (List.mem_of_find?_eq_some hfind) heq, hrule]
      rw [Option.map_some, if_neg hname]
  · split
    · have hmade : (fill (.ofName kind name)).kind ≠ other := fun heq =>
        hne (heq.symm.trans (hkind _))
      rw [Descriptor.rules_addRule, List.find?_append, List.find?_singleton,
        if_neg (by simpa using hmade), Option.or_none]
    · rfl

omit hd hkind in
theorem find?_eq_none_of_agrees {rules rules' : List Build.Rule}
    (h : List.Forall₂ Rule.Agrees rules rules')
    (hnone : rules'.find? (·.kind = kind) = none) : rules.find? (·.kind = kind) = none := by
  induction h with
  | nil => rfl
  | cons hr _ ih =>
    rw [List.find?_cons, hr.kind] at hnone
    rw [List.find?_cons]
    split at hnone
    · cases hnone
    · exact ih hnone

/-- **A rule that was brought up to date** is filled in again as it is, also after the file was
written and read. -/
theorem derive_again (hk : kind.isAggregate = true) (hname : ∀ r, (fill r).name = r.name)
    {mid e : Descriptor} {isNeeded' : Bool} {fill' : Build.Rule → Build.Rule}
    (hmid : (derive d kind name rulesFile isNeeded fill).rules.find? (·.kind = kind) =
      mid.rules.find? (·.kind = kind))
    (hmore : ∀ other, ((derive d kind name rulesFile isNeeded fill).rule? other).isSome = true →
      (mid.rule? other).isSome = true)
    (hagrees : List.Forall₂ Rule.Agrees mid.rules e.rules) (he : (e.rules.map (·.name)).Nodup)
    (hneeded : isNeeded' = true → isNeeded = true)
    (hfill : ∀ old rule, e.rules.find? (·.kind = kind) = some rule → (fill old).Agrees rule →
      fill' rule = rule) :
    derive e kind name rulesFile isNeeded' fill' = e := by
  have hderived : ((derive d kind name rulesFile isNeeded fill).rules.map (·.name)).Nodup :=
    (mem_derive hd hk hname hkind).1
  refine derive_eq_self he (fun rule hrule => ?_) fun hnone hneeds => ?_
  · obtain ⟨r, hr, hag⟩ := exists_find?_of_agrees hagrees hrule
    obtain ⟨old, rfl⟩ := exists_filled hname hkind hderived (hmid.trans hr)
    exact hfill old rule hrule hag
  · have hfree := isSome_rule?_of_find?_eq_none hd hkind
      (hmid.trans (find?_eq_none_of_agrees hagrees hnone)) (hneeded hneeds)
    rw [Descriptor.isSome_rule?, names_of_agrees hagrees, ← Descriptor.isSome_rule?]
    exact hmore name (isSome_rule?_derive hname hfree)

/-- **The rules that own sources stay.** -/
theorem outlines_derive (hk : kind.isAggregate = true) :
    (derive d kind name rulesFile isNeeded fill).outlines = d.outlines := by
  unfold derive
  split
  · rename_i rule hfind
    have hrule : rule.kind = kind := by simpa using List.find?_some hfind
    have hkinds (r : Build.Rule) : (if r.name = rule.name then fill r else r).kind = r.kind := by
      split
      · exact hkind r
      · rfl
    rw [Descriptor.outlines, Descriptor.modifyRule, Dependency.modifyFirst_of_nodup hd,
      List.filter_map]
    simp only [Function.comp_def, hkinds]
    refine (List.map_map ..).trans (List.map_congr_left fun r hr => ?_)
    obtain ⟨hmem, hagg⟩ := List.mem_filter.1 hr
    have hname : r.name ≠ rule.name := fun heq => by
      rw [List.inj_on_of_nodup_map hd hmem (List.mem_of_find?_eq_some hfind) heq, hrule, hk] at hagg
      cases hagg
    rw [Function.comp_apply, if_neg hname]
  · split
    · have hmade : (fill (.ofName kind name)).kind.isAggregate = true := by
        rw [hkind]
        exact hk
      simp [Descriptor.outlines, List.filter_append, hmade]
    · rfl

end

/-! ## Both rules -/

/-- The steps of bringing both rules up to date. -/
theorem deriveAll_eq_ok {w : Workspace} {t : Tree} {dir : Location} {rulesFile : String}
    {d d' : Descriptor} : deriveAll w t dir rulesFile d = .ok d' ↔ ∃ configs below mid,
      configFiles t dir = .ok configs ∧ librariesBelow w t dir = .ok below ∧
      derive d .config configName rulesFile (configs ≠ []) (·.setSrcs configs) = mid ∧
      derive mid .devSources devSourcesName rulesFile (libraries mid ++ below ≠ [])
        (·.setDeps mid.package (libraries mid ++ below)) = d' := by
  constructor
  · intro h
    obtain ⟨configs, hconfigs, h⟩ := bind_eq_ok.1 h
    obtain ⟨below, hbelow, h⟩ := bind_eq_ok.1 h
    exact ⟨configs, below, _, hconfigs, hbelow, rfl, Except.ok.inj h⟩
  · rintro ⟨configs, below, mid, hconfigs, hbelow, rfl, rfl⟩
    exact bind_eq_ok.2 ⟨configs, hconfigs, bind_eq_ok.2 ⟨below, hbelow, rfl⟩⟩

theorem names_of_config {d mid : Descriptor} {rulesFile : String} {configs : List String}
    (hd : (d.rules.map (·.name)).Nodup)
    (hmid : derive d .config configName rulesFile (configs ≠ []) (·.setSrcs configs) = mid) :
    (mid.rules.map (·.name)).Nodup :=
  hmid ▸ (mem_derive hd rfl (fun r => Rule.name_setSrcs r configs)
    fun r => Rule.kind_setSrcs r configs).1

theorem outlines_deriveAll {w : Workspace} {t : Tree} {dir : Location} {rulesFile : String}
    {d d' : Descriptor} (hd : (d.rules.map (·.name)).Nodup)
    (h : deriveAll w t dir rulesFile d = .ok d') :
    (d'.rules.map (·.name)).Nodup ∧ d'.outlines = d.outlines := by
  obtain ⟨configs, below, mid, -, -, hmid, rfl⟩ := deriveAll_eq_ok.1 h
  have hnames := names_of_config hd hmid
  have hconfig : mid.outlines = d.outlines :=
    hmid ▸ outlines_derive hd (fun r => Rule.kind_setSrcs r configs) rfl
  exact ⟨(mem_derive hnames rfl (fun r => Rule.name_setDeps r _ _)
    fun r => Rule.kind_setDeps r _ _).1,
    (outlines_derive hnames (fun r => Rule.kind_setDeps r _ _) rfl).trans hconfig⟩

/-- **The libraries have one order**, if their labels are read back. -/
theorem Gathers.unique {w : Workspace} {t : Tree} {dir : Location} {d : Descriptor}
    {deps others : List Label} (h : Gathers w t dir d deps) (h' : Gathers w t dir d others)
    (hreads : ∀ label ∈ deps, label.ReadsIn d.package) : deps = others := by
  have hmem : ∀ label, label ∈ deps ↔ label ∈ others := fun label =>
    (h.mem label).trans (h'.mem label).symm
  refine List.Perm.eq_of_pairwise (fun a b ha hb hab hba => ?_) h.sorted h'.sorted
    ((List.perm_ext_iff_of_nodup h.nodup h'.nodup).2 hmem)
  exact (hreads a ha).inj (hreads b ((hmem b).2 hb)) (Label.renderIn_eq_of_writtenLe hab hba)

/-- The libraries below a directory are found in the BUILD files there. -/
theorem isGathered_congr {w : Workspace} {t t' : Tree} {dir : Location} (h : t.Rewrites t')
    (hbelow : ∀ place, place ≠ dir → ∀ package,
      t'.descriptor? place package = t.descriptor? place package) {d : Descriptor} {label : Label} :
    IsGathered w t' dir d label ↔ IsGathered w t dir d label := by
  refine or_congr_right (exists_congr fun names => ?_)
  rw [h.mem_visited]
  refine and_congr_right fun hnames => ?_
  have hne : dir ++ names ≠ dir := by simpa using (Tree.mem_visited.1 hnames).1
  simp only [hbelow _ hne]

theorem exists_librariesBelow {w : Workspace} {t t' : Tree} {dir : Location} (h : t.Rewrites t')
    (hbelow : ∀ place, place ≠ dir → ∀ package,
      t'.descriptor? place package = t.descriptor? place package) {below : List Label}
    (hlibraries : librariesBelow w t dir = .ok below) :
    ∃ below', librariesBelow w t' dir = .ok below' := by
  unfold librariesBelow at hlibraries ⊢
  obtain ⟨found, hfound, -⟩ := bind_eq_ok.1 hlibraries
  have hall := exists_mapM_iff.1 ⟨found, hfound⟩
  have hall' : ∀ names ∈ t'.visited dir, ∃ y, (do
      t'.descriptor? (dir ++ names) (← w.packageOf (dir ++ names))) = .ok y := by
    intro names hnames
    rw [h.mem_visited] at hnames
    have hne : dir ++ names ≠ dir := by simpa using (Tree.mem_visited.1 hnames).1
    obtain ⟨y, hy⟩ := hall names hnames
    obtain ⟨package, hpackage, hy⟩ := bind_eq_ok.1 hy
    exact ⟨y, bind_eq_ok.2 ⟨package, hpackage, (hbelow _ hne package).trans hy⟩⟩
  obtain ⟨found', hfound'⟩ := exists_mapM_iff.2 hall'
  exact ⟨_, bind_eq_ok.2 ⟨found', hfound', rfl⟩⟩

section
variable {w : Workspace} {t t' : Tree} {dir : Location} {rulesFile : String}
  {d d' e : Descriptor} (hd : (d.rules.map (·.name)).Nodup)
  (h : deriveAll w t dir rulesFile d = .ok d')
  (hagrees : List.Forall₂ Rule.Agrees d'.rules e.rules)
include hd h hagrees

/-- The rule over the configuration files lists them. -/
theorem derive_config_again {configs : List String} (hconfigs : configFiles t dir = .ok configs) :
    derive e .config configName rulesFile (configs ≠ []) (·.setSrcs configs) = e := by
  have he : (e.rules.map (·.name)).Nodup := names_of_agrees hagrees ▸ (outlines_deriveAll hd h).1
  obtain ⟨configs', below, mid, hconfigs', -, hmid, hlast⟩ := deriveAll_eq_ok.1 h
  cases Except.ok.inj (hconfigs'.symm.trans hconfigs)
  have hfind : (derive d .config configName rulesFile (configs ≠ [])
      (·.setSrcs configs)).rules.find? (·.kind = .config) =
        d'.rules.find? (·.kind = .config) := by
    rw [hmid, ← hlast]
    exact (find?_derive_of_ne (names_of_config hd hmid) (fun r => Rule.kind_setDeps r _ _)
      (by simp)).symm
  refine derive_again hd (fun r => Rule.kind_setSrcs r configs) rfl
    (fun r => Rule.name_setSrcs r configs) hfind ?_ hagrees he id
    fun old rule _ hag => Rule.setSrcs_eq_self fun values hvalues => ?_
  · rw [hmid, ← hlast]
    exact fun other => isSome_rule?_derive fun r => Rule.name_setDeps r _ _
  · exact Rule.srcs_of_setSrcs (hag.srcs ▸ hvalues)

variable (ht : t.IsWellFormed) (hrewrites : t.Rewrites t')
  (hbelow : ∀ place, place ≠ dir → ∀ package,
    t'.descriptor? place package = t.descriptor? place package)
  (hw : w.relative? dir = some d'.package)
  (hreads : ∀ rule ∈ d'.rules, rule.AllDeps (·.ReadsIn d'.package))
  (hpackage : e.package = d'.package)
include ht hrewrites hbelow hw hreads hpackage

/-- The rule over the libraries depends on them. -/
theorem derive_devSources_again {below' : List Label}
    (hlibraries' : librariesBelow w t' dir = .ok below') :
    derive e .devSources devSourcesName rulesFile (libraries e ++ below' ≠ [])
      (·.setDeps e.package (libraries e ++ below')) = e := by
  have hnames := (outlines_deriveAll hd h).1
  have he : (e.rules.map (·.name)).Nodup := names_of_agrees hagrees ▸ hnames
  have hplaces {tree : Tree} (htree : tree.IsWellFormed) :
      ∀ place, tree.isDir place = true → ∀ name ∈ place, Path.IsName name :=
    fun place hplace => htree.isName place (Tree.isSome_of_isDir hplace)
  obtain ⟨configs, below, mid, hconfigs, hlibraries, hmid, hlast⟩ := deriveAll_eq_ok.1 h
  have hmidlibraries : libraries d' = libraries mid := hlast ▸ libraries_derive mid
    (by simp : RuleKind.devSources ≠ .library false) devSourcesName rulesFile
    (libraries mid ++ below ≠ [])
    (fun r => Rule.name_setDeps r mid.package (libraries mid ++ below))
    fun r => Rule.kind_setDeps r _ _
  have hgathered (label : Label) : IsGathered w t' dir e label ↔ IsGathered w t dir d' label := by
    rw [isGathered_congr hrewrites hbelow, ← mem_gathered hlibraries,
      libraries_of_agrees hpackage hagrees, mem_gathered hlibraries]
  have hfind : (derive mid .devSources devSourcesName rulesFile (libraries mid ++ below ≠ [])
      (·.setDeps mid.package (libraries mid ++ below))).rules.find? (·.kind = .devSources) =
        d'.rules.find? (·.kind = .devSources) := by
    rw [hlast]
  refine derive_again (names_of_config hd hmid) (fun r => Rule.kind_setDeps r mid.package _) rfl
    (fun r => Rule.name_setDeps r mid.package (libraries mid ++ below)) hfind
    (fun _ hother => hlast ▸ hother) hagrees he (fun hneeded => ?_)
    fun old rule hrule _ => Rule.setDeps_eq_self fun values hvalues => ?_
  · obtain ⟨label, hlabel⟩ := List.exists_mem_of_ne_nil _ (of_decide_eq_true hneeded)
    rw [mem_gathered hlibraries', hgathered, ← mem_gathered hlibraries, hmidlibraries] at hlabel
    exact decide_eq_true (List.ne_nil_of_mem hlabel)
  · obtain ⟨r, hr, hag⟩ := exists_find?_of_agrees hagrees hrule
    have hgather := gathers_of_deriveAll (hplaces ht) hw h hnames hr (hag.deps ▸ hvalues)
    have hown : ∀ label, IsLibrary e label → label.name ≠ rule.name := by
      rintro _ ⟨other, hother, hkind, rfl⟩ hname
      have hdev := List.find?_some hrule
      rw [← List.inj_on_of_nodup_map he hother (List.mem_of_find?_eq_some hrule) hname, hkind]
        at hdev
      simp at hdev
    have hagain := gathers_arrangeDeps (hplaces (hrewrites.isWellFormed ht))
      (hrewrites.isDir ▸ isDir_of_configFiles hconfigs) (hpackage ▸ hw) hlibraries' hown
    have hsame : Gathers w t' dir e values :=
      ⟨hgather.nodup, hpackage ▸ hgather.sorted,
        fun label => (hgather.mem label).trans (hgathered label).symm⟩
    exact hsame.unique hagain fun label hlabel => hpackage ▸
      hreads r (List.mem_of_find?_eq_some hr) values (hag.deps ▸ hvalues) label hlabel

/-- **Rules that were derived are derived again as they are**, also after the file was written and
read again. The files of the directory stay, and so do the BUILD files below. -/
theorem deriveAll_again : deriveAll w t' dir rulesFile e = .ok e := by
  obtain ⟨configs, below, -, hconfigs, hlibraries, -⟩ := deriveAll_eq_ok.1 h
  have hconfigs' : configFiles t' dir = .ok configs := by
    rw [← hconfigs, configFiles, configFiles, hrewrites.list, hrewrites.isFile]
  obtain ⟨below', hlibraries'⟩ := exists_librariesBelow hrewrites hbelow hlibraries
  exact deriveAll_eq_ok.2 ⟨configs, below', e, hconfigs', hlibraries',
    derive_config_again hd h hagrees hconfigs,
    derive_devSources_again hd h hagrees ht hrewrites hbelow hw hreads hpackage hlibraries'⟩

end

end Aggregate

end BuildSync
