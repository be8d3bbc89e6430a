import BuildSync.Proofs.Build.Places
import BuildSync.Proofs.Providers

/-!
# The labels that an update writes

A dependency list is written from labels that were read, from labels that the index names, and from
labels made of the names of directories and rules, which nothing has checked.

* `Workspace.Knows`: the labels that an update adds; `Scope.knows_of_resolve`: whatever an import
  resolves to is one of them.
* `Build.Rule.AllDeps`: something holds of all dependencies of a rule. It is kept by
  `Dependency.allDeps_apply` and `Aggregate.allDeps_deriveAll`.
* `Workspace.reads_of_prepare`: where the names of packages and rules are plain, every dependency
  that an update leaves is read back.
-/

namespace BuildSync

open Build

/-! ## Plain names -/

theorem isPlainName_ruleName {base : String} (h : Label.IsPlainName base) (kind : SourceKind) :
    Label.IsPlainName (Ownership.ruleName base kind) := by
  cases kind with
  | library => exact h
  | test => exact h.append (Label.isPlainText_of_all (by decide))
  | declaration => exact h.append (Label.isPlainText_of_all (by decide))

/-- **The name of a package** has no slash at its ends. -/
theorem isTrimmed_of_relative? {w : Workspace} {dir : Location} {package : String}
    (hdir : ∀ name ∈ dir, Path.IsName name) (h : w.relative? dir = some package) :
    Label.IsTrimmed package := by
  obtain ⟨names, rfl, rfl⟩ := Workspace.relative?_eq_some.1 h
  rw [List.forall_mem_append] at hdir
  by_cases hn : names = []
  · subst hn
    exact ⟨by simp, by simp⟩
  · refine ⟨fun hhead => ?_, Tree.getLast?_intercalate hn hdir.2⟩
    have hroot := Path.not_startsAtRoot hn hdir.2
    rw [Path.startsAtRoot, hhead] at hroot
    cases hroot

namespace Workspace

/-- The names that an update of a package makes labels of are plain, but for that of the package
itself. -/
structure HasPlainNames (w : Workspace) (t : Tree) (package : String) : Prop where
  packages : ∀ dir other d, w.relative? dir = some other → t.descriptor? dir other = .ok (some d) →
    other ≠ package → Label.IsPlainText other
  rules : ∀ dir other d, w.relative? dir = some other → t.descriptor? dir other = .ok (some d) →
    ∀ r ∈ d.rules, Label.IsPlainName r.name
  baseName : Label.IsPlainName (w.baseName package)

/-- The labels that an update of a package may add. -/
inductive Knows (w : Workspace) (t : Tree) (index : Query.Index) (package : String) : Label → Prop
  | indexed {key : Query.Key} {label : Label} : label ∈ index.labels key →
      Knows w t index package label
  | rule {dir : Location} {other : String} {d : Descriptor} {r : Build.Rule} :
      w.relative? dir = some other → t.descriptor? dir other = .ok (some d) → r ∈ d.rules →
      Knows w t index package (r.label other)
  | made (kind : SourceKind) :
      Knows w t index package (.ofPackage package (Ownership.ruleName (w.baseName package) kind))

end Workspace

theorem Tree.isFile_of_descriptor? {t : Tree} {dir : Location} {package : String} {d : Descriptor}
    (h : t.descriptor? dir package = .ok (some d)) : ∃ name, t.isFile (dir ++ [name]) = true := by
  unfold descriptor? at h
  split at h
  · cases h
  · rename_i name hname
    have hfile := List.find?_some (p := fun name => t.isFile (dir ++ [name])) hname
    exact ⟨name, hfile⟩

theorem Build.Descriptor.mem_of_owner? {d : Descriptor} {file : String} {r : Build.Rule}
    (h : d.owner? file = some r) : r ∈ d.rules := by
  unfold owner? at h
  split at h
  · rename_i howners
    cases h
    exact (Ownership.mem_owners.1 (howners ▸ List.mem_singleton_self r)).1
  · cases h

/-- **A label that an update adds is read back**, if the names are plain. -/
theorem Workspace.Knows.readsIn {w : Workspace} {t : Tree} {index : Query.Index} {dir : Location}
    {package : String} {label : Label} (ht : t.IsWellFormed) (hdir : t.isDir dir = true)
    (hw : w.relative? dir = some package) (hnames : w.HasPlainNames t package)
    (hindex : index.IsPlain) (h : w.Knows t index package label) : label.ReadsIn package := by
  have hown : ∀ name, Label.IsPlainName name → (Label.ofPackage package name).ReadsIn package :=
    fun name hname => Label.parse?_renderIn_own (by simp [Label.isIn, Label.ofPackage]) hname
      (isTrimmed_of_relative? (ht.isName _ (Tree.isSome_of_isDir hdir)) hw)
  cases h with
  | indexed hlabel => exact Label.parse?_renderIn (hindex _ _ hlabel) package
  | @rule other name d r hrel hd hr =>
    have hrule := hnames.rules other name d hrel hd r hr
    by_cases hsame : name = package
    · rw [hsame]
      exact hown r.name hrule
    · obtain ⟨file, hfile⟩ := Tree.isFile_of_descriptor? hd
      have hall := ht.isName _ (Tree.isSome_of_isFile hfile)
      rw [List.forall_mem_append] at hall
      exact Label.parse?_renderIn (Label.isPlain_ofPackage hrule
        (hnames.packages other name d hrel hd hsame) (isTrimmed_of_relative? hall.1 hrel)) package
  | made kind => exact hown _ (isPlainName_ruleName hnames.baseName kind)

/-! ## What imports resolve to -/

namespace Scope

variable {w : Workspace} {t seen : Tree} {index : Query.Index} {rulesFile : String}
  {dir : Location} {package : String} {old : Descriptor} {sources : List Source} {scope : Scope}

section

variable (hw : w.relative? dir = some package) (hold : t.descriptor dir package = .ok old)
  (hs : t.sources dir = .ok sources)
  (hscope : ofDescriptor w t index rulesFile dir old sources seen = .ok scope)

include hw hold in
/-- The rules that were read are known. -/
theorem knows_of_mem_old {r : Build.Rule} (hr : r ∈ old.rules) :
    w.Knows t index package (r.label package) := by
  obtain ⟨found, hfound, rfl⟩ := map_eq_ok hold
  cases found with
  | none => cases hr
  | some d => exact .rule hw hfound hr

include hw hold hs hscope in
/-- The rules of the package are known, those that are made as well. -/
theorem knows_of_name {name : String} (h : name ∈ scope.descriptor.rules.map (·.name)) :
    w.Knows t index package (.ofPackage package name) := by
  obtain ⟨-, hsettled⟩ := settled_of_ofDescriptor hs hscope
  have hpackage := Tree.package_descriptor hold
  rcases hsettled.names name h with hname | ⟨kind, rfl⟩
  · obtain ⟨r, hr, rfl⟩ := List.mem_map.1 hname
    exact knows_of_mem_old hw hold hr
  · rw [← hpackage]
    exact .made kind

include hw hold hs hscope in
theorem knows_of_ofSibling {name : String} {label : Label} (h : label ∈ scope.ofSibling name) :
    w.Knows t index package label := by
  obtain ⟨heq, hsettled⟩ := settled_of_ofDescriptor hs hscope
  have hindexed : ∀ path : Option String,
      label ∈ (path.map fun path => index.labels (.file path)).getD [] →
        w.Knows t index package label := by
    rintro (- | path) hlabel
    · cases hlabel
    · exact .indexed hlabel
  unfold ofSibling at h
  split at h
  · rename_i rule howner
    rw [List.mem_singleton.1 h, package_eq hold hs hscope]
    exact knows_of_name hw hold hs hscope (hsettled.inside name rule howner)
  · rename_i labels howner
    rw [hsettled.outside name labels howner] at h
    exact hindexed _ h
  · rw [heq] at h
    exact hindexed _ h

include hw hold hs hscope in
/-- **Whatever an import resolves to is known.** -/
theorem knows_of_resolve {specifier : String} {label : Label}
    (h : label ∈ scope.resolve specifier) : w.Knows t index package label := by
  obtain ⟨heq, -⟩ := settled_of_ofDescriptor hs hscope
  have hpackage := package_eq hold hs hscope
  have hindexed : ∀ path, label ∈ scope.indexed path → w.Knows t index package label := by
    intro path hlabel
    rw [heq] at hlabel
    exact .indexed hlabel
  have htarget : scope.workspace.target scope.tree scope.dir specifier scope.seen =
      w.target t dir specifier seen := by
    rw [heq]
  rw [resolve, Label.mem_sortedSet, htarget] at h
  cases hcase : w.target t dir specifier seen with
  | module name =>
    rw [hcase, ofTarget, heq] at h
    exact .indexed h
  | sibling name =>
    rw [hcase] at h
    exact knows_of_ofSibling hw hold hs hscope h
  | member owner name file path =>
    rw [hcase, ofTarget] at h
    cases howner : scope.owner? owner name file with
    | none =>
      rw [howner] at h
      exact hindexed path h
    | some found =>
      rw [howner] at h
      obtain rfl := List.mem_singleton.1 h
      unfold owner? at howner
      split at howner
      · obtain ⟨r, hr, rfl⟩ := Option.map_eq_some_iff.1 howner
        have hmem := Descriptor.mem_of_owner? hr
        have hlabel : r.label scope.descriptor.package = .ofPackage package r.name := by
          rw [← hpackage]
          rfl
        rw [hlabel]
        exact knows_of_name hw hold hs hscope (List.mem_map_of_mem hmem)
      · obtain ⟨d, hd, hfound⟩ := Option.bind_eq_some_iff.1 howner
        obtain ⟨r, hr, rfl⟩ := Option.map_eq_some_iff.1 hfound
        have htree : scope.tree = t := by rw [heq]
        rw [htree] at hd
        obtain ⟨location, hfile, -, hown, -⟩ := Workspace.exists_file_of_target_member hcase
        have hisFile := Tree.isFile_of_moduleFile? hfile
        obtain ⟨-, hrel, -⟩ := Workspace.owningPackage?_eq_some (Tree.ne_nil_of_isFile hisFile) hown
        have hd' := Tree.descriptor?_of_usableDescriptor? hd
        have hname : d.package = name :=
          Tree.package_descriptor (Tree.descriptor_of_descriptor? hd')
        rw [hname]
        exact .rule hrel hd' (Descriptor.mem_of_owner? hr)
  | stray path =>
    rw [hcase] at h
    exact hindexed path h
  | missing =>
    rw [hcase] at h
    cases h

end

end Scope

/-! ## Labels that were read -/

namespace Build

/-- Something holds of all dependencies that the rule lists. -/
def Rule.AllDeps (P : Label → Prop) (rule : Rule) : Prop :=
  ∀ deps, rule.deps.values? = some deps → ∀ label ∈ deps, P label

theorem reads_of_labels? {package : String} {list : ListValue String} {labels : ListValue Label}
    (h : labels? package list = some labels) : ∀ label ∈ labels.values, label.ReadsIn package := by
  obtain ⟨items, hitems, rfl⟩ := Option.map_eq_some_iff.1 h
  clear h
  generalize list.items = old at hitems
  induction old generalizing items with
  | nil =>
    cases hitems
    simp [ListValue.values]
  | cons item old ih =>
    rw [List.mapM_cons] at hitems
    obtain ⟨new, hnew, hitems⟩ := Option.bind_eq_some_iff.1 hitems
    obtain ⟨news, hnews, hitems⟩ := Option.bind_eq_some_iff.1 hitems
    cases hitems
    obtain ⟨label, hlabel, rfl⟩ := Option.map_eq_some_iff.1 hnew
    rintro other ho
    rcases List.mem_cons.1 ho with rfl | ho
    · exact Label.reads_of_parse? hlabel
    · exact ih news hnews other ho

/-- **The labels of a BUILD file that was read** are read back. -/
theorem Descriptor.reads_of_parse {path package text : String} {d : Descriptor}
    (h : parse path package text = .ok d) : ∀ rule ∈ d.rules, rule.AllDeps (·.ReadsIn package) := by
  obtain ⟨ts, hts, hc, -⟩ := parse_eq_ok h
  obtain ⟨sites, hin, -, hrules, -⟩ := Contents.exists_sites hc (areTokens_of_tokens hts).1
  dsimp only at hrules
  intro rule hrule deps hdeps
  rw [hrules] at hrule
  obtain ⟨site, hsite, hmade⟩ := List.mem_flatMap.1 hrule
  rcases Contents.ofCall_eq_ok (hin site hsite).made with ⟨-, -, -, hnone, -⟩ |
    ⟨kind, made, -, hparse, hone, -⟩ | ⟨-, -, hnone, -⟩
  · rw [hnone] at hmade
    cases hmade
  · rw [hone] at hmade
    obtain rfl := List.mem_singleton.1 hmade
    obtain ⟨hread, -⟩ := Rule.parse_eq_ok hparse
    rw [hread.deps] at hdeps
    unfold depsFrom at hdeps
    split at hdeps
    · cases hdeps
      simp
    · rename_i a _
      cases hl : a.list? with
      | none => simp [hl, ListAttr.values?] at hdeps
      | some list =>
        cases hlabels : labels? package list with
        | none => simp [hl, hlabels, ListAttr.values?] at hdeps
        | some labels =>
          simp only [hl, hlabels, Option.map_some, Option.getD_some, ListAttr.values?,
            Option.some.injEq] at hdeps
          exact hdeps ▸ reads_of_labels? hlabels
  · rw [hnone] at hmade
    cases hmade

end Build

theorem Tree.reads_of_descriptor {t : Tree} {dir : Location} {package : String} {d : Descriptor}
    (h : t.descriptor dir package = .ok d) :
    ∀ rule ∈ d.rules, rule.AllDeps (·.ReadsIn package) := by
  obtain ⟨found, hfound, rfl⟩ := map_eq_ok h
  cases found with
  | none =>
    intro rule hr
    cases hr
  | some d =>
    unfold descriptor? at hfound
    split at hfound
    · cases hfound
    · dsimp only at hfound
      split at hfound
      · cases hfound
      · split at hfound
        · cases hfound
        · rename_i hparse
          cases hfound
          exact Descriptor.reads_of_parse hparse

/-! ## From step to step -/

section

variable {P : Label → Prop}

namespace Build

theorem Rule.AllDeps.setDeps (rule : Rule) (package : String) {labels : List Label}
    (h : ∀ label ∈ labels, P label) : (rule.setDeps package labels).AllDeps P := by
  intro deps hdeps label hlabel
  cases hold : rule.deps with
  | computed =>
    rw [Rule.setDeps_eq, hold] at hdeps
    cases hdeps
  | absent =>
    rw [Rule.deps_setDeps (by rw [hold]; rfl)] at hdeps
    cases hdeps
    exact h label (Rule.mem_arrangeDeps.1 hlabel).1
  | literal list =>
    rw [Rule.deps_setDeps (by rw [hold]; rfl)] at hdeps
    cases hdeps
    exact h label (Rule.mem_arrangeDeps.1 hlabel).1

theorem Rule.allDeps_ofName (kind : RuleKind) (name : String) :
    (Rule.ofName kind name).AllDeps P := by
  intro deps hdeps label hlabel
  cases hdeps
  cases hlabel

theorem Descriptor.forall_mem_modifyFirst {Q : Rule → Prop} {f : Rule → Rule}
    (hf : ∀ r, Q r → Q (f r)) {rules : List Rule} (h : ∀ r ∈ rules, Q r) (name : String) :
    ∀ r ∈ modifyFirst name f rules, Q r := by
  obtain ⟨i, hi⟩ := exists_modify_eq name f rules
  rw [hi]
  exact forall_mem_modify hf h i

end Build

namespace Dependency

/-- A planned dependency was listed, or an import resolves to it. -/
theorem mem_deps_of_mem_plan {prune : Option (Label → RuleInfo)} {d : Descriptor}
    {ownership : Ownership} {files : List ResolvedFile} {p : DependencyPlan}
    (hp : p ∈ (plan prune d ownership files).1) {label : Label} (hl : label ∈ p.deps) :
    (∃ r ∈ d.rules, ∃ deps, r.deps.values? = some deps ∧ label ∈ deps) ∨
      ∃ file ∈ files, ∃ i ∈ file.imports, label ∈ i.candidates := by
  obtain ⟨result, hresult, hfst⟩ := List.mem_filterMap.1 hp
  obtain ⟨r, hr, rfl⟩ := List.mem_map.1 hresult
  unfold planRule at hfst
  split at hfst
  · cases hfst
  · split at hfst
    · cases hfst
    · rename_i current hcurrent
      dsimp only at hfst
      split at hfst
      · cases hfst
      · split at hfst
        · cases hfst
        · cases hfst
          unfold wanted at hl
          rw [Label.mem_sortedSet] at hl
          rcases List.mem_append.1 (List.mem_of_mem_filter hl) with hl | hl
          · exact .inl ⟨r, hr, current, hcurrent, List.mem_of_mem_filter hl⟩
          · obtain ⟨⟨i, hi, hc⟩, -⟩ := mem_required.1 hl
            obtain ⟨file, hfile, hi⟩ := List.mem_flatMap.1 hi
            obtain ⟨name, -, hfound⟩ := List.mem_filterMap.1 hfile
            have hmem := List.mem_reverse.1 (List.mem_of_find?_eq_some hfound)
            exact .inr ⟨file, hmem, i, hi, hc⟩

/-- **Plans keep what holds of all dependencies**, if it holds of the planned ones. -/
theorem allDeps_apply {d : Descriptor} {plans : List DependencyPlan}
    (hd : ∀ r ∈ d.rules, r.AllDeps P) (hp : ∀ p ∈ plans, ∀ label ∈ p.deps, P label) :
    ∀ r ∈ (apply d plans).rules, r.AllDeps P := by
  induction plans generalizing d with
  | nil => exact hd
  | cons p plans ih =>
    rw [List.forall_mem_cons] at hp
    refine ih (d := d.modifyRule p.rule (·.setDeps d.package p.deps)) ?_ hp.2
    exact Descriptor.forall_mem_modifyFirst (fun r _ => .setDeps r d.package hp.1) hd p.rule

end Dependency

namespace Aggregate

theorem allDeps_derive {d : Descriptor} (hd : ∀ r ∈ d.rules, r.AllDeps P) (kind : RuleKind)
    (name rulesFile : String) (isNeeded : Bool) {fill : Build.Rule → Build.Rule}
    (hf : ∀ r : Build.Rule, r.AllDeps P → (fill r).AllDeps P) :
    ∀ r ∈ (derive d kind name rulesFile isNeeded fill).rules, r.AllDeps P := by
  unfold derive
  split
  · rename_i rule _
    exact Descriptor.forall_mem_modifyFirst hf hd rule.name
  · split
    · rw [Descriptor.rules_addRule, List.forall_mem_append]
      exact ⟨hd, fun r hr => List.mem_singleton.1 hr ▸ hf _ (Build.Rule.allDeps_ofName kind name)⟩
    · exact hd

theorem filter_modifyFirst {p : Build.Rule → Bool} {f : Build.Rule → Build.Rule}
    {g : Build.Rule → Label} (hp : ∀ r, p (f r) = p r) (hg : ∀ r, g (f r) = g r) (name : String)
    (rules : List Build.Rule) :
    ((Descriptor.modifyFirst name f rules).filter p).map g = (rules.filter p).map g := by
  induction rules with
  | nil => rfl
  | cons r rules ih =>
    rw [Descriptor.modifyFirst]
    split
    · rw [List.filter_cons, List.filter_cons, hp]
      split
      · rw [List.map_cons, List.map_cons, hg]
      · rfl
    · rw [List.filter_cons, List.filter_cons]
      split
      · rw [List.map_cons, List.map_cons, ih]
      · exact ih

/-- Another aggregate leaves the libraries. -/
theorem libraries_derive (d : Descriptor) {kind : RuleKind} (hk : kind ≠ .library false)
    (name rulesFile : String) (isNeeded : Bool) {fill : Build.Rule → Build.Rule}
    (hname : ∀ r, (fill r).name = r.name) (hkind : ∀ r, (fill r).kind = r.kind) :
    libraries (derive d kind name rulesFile isNeeded fill) = libraries d := by
  unfold derive
  split
  · refine filter_modifyFirst (fun r => by rw [hkind]) (fun r => ?_) _ d.rules
    unfold Build.Rule.label
    rw [hname]
  · split
    · unfold libraries
      rw [Descriptor.rules_addRule, Descriptor.package_addRule, List.filter_append,
        List.filter_cons_of_neg (by simp [hkind, Build.Rule.ofName, hk])]
      simp
    · rfl

/-- **The rules over the whole project keep what holds of all dependencies**, if it holds of all
libraries. -/
theorem allDeps_deriveAll {w : Workspace} {t : Tree} {dir : Location} {rulesFile : String}
    {d d' : Descriptor} (hd : ∀ r ∈ d.rules, r.AllDeps P) (hown : ∀ label ∈ libraries d, P label)
    (hbelow : ∀ below, librariesBelow w t dir = .ok below → ∀ label ∈ below, P label)
    (h : deriveAll w t dir rulesFile d = .ok d') : ∀ r ∈ d'.rules, r.AllDeps P := by
  obtain ⟨configs, -, h⟩ := bind_eq_ok.1 h
  obtain ⟨below, hlibraries, h⟩ := bind_eq_ok.1 h
  cases h
  have hset : ∀ r : Build.Rule, r.AllDeps P → (r.setSrcs configs).AllDeps P :=
    fun r hr deps hdeps => hr deps (by simpa using hdeps)
  have hconfig := allDeps_derive hd .config configName rulesFile (configs ≠ []) hset
  refine allDeps_derive hconfig _ _ _ _ fun r _ => .setDeps r _ ?_
  rw [libraries_derive d (by simp) _ _ _ (fun r => Build.Rule.name_setSrcs r configs)
    fun r => Build.Rule.kind_setSrcs r configs, List.forall_mem_append]
  exact ⟨hown, hbelow below hlibraries⟩

/-- The libraries below are rules of BUILD files. -/
theorem knows_of_librariesBelow {w : Workspace} {t : Tree} {index : Query.Index}
    {dir : Location} {package : String} {below : List Label}
    (h : librariesBelow w t dir = .ok below) : ∀ label ∈ below, w.Knows t index package label := by
  obtain ⟨found, hfound, h⟩ := bind_eq_ok.1 h
  cases h
  intro label hlabel
  obtain ⟨d, hd, hlabel⟩ := List.mem_flatMap.1 hlabel
  obtain ⟨other, hother, rfl⟩ := List.mem_filterMap.1 hd
  obtain ⟨names, -, hread⟩ := Ownership.exists_partner (forall₂_of_mapM hfound) hother
  obtain ⟨name, hname, hread⟩ := bind_eq_ok.1 hread
  obtain ⟨r, hr, rfl⟩ := List.mem_map.1 hlabel
  have hrel : w.relative? (dir ++ names) = some name := by
    unfold Workspace.packageOf at hname
    split at hname
    · rename_i hrel
      cases hname
      exact hrel
    · cases hname
  rw [Tree.package_descriptor (Tree.descriptor_of_descriptor? hread)]
  exact .rule hrel hread (List.mem_of_mem_filter hr)

end Aggregate

end

/-! ## The update -/

theorem Aggregate.libraries_apply (d : Descriptor) (plans : List DependencyPlan) :
    libraries (Dependency.apply d plans) = libraries d := by
  induction plans generalizing d with
  | nil => rfl
  | cons p plans ih =>
    refine (ih (d.modifyRule p.rule (·.setDeps d.package p.deps))).trans ?_
    refine filter_modifyFirst (fun r => ?_) (fun r => ?_) p.rule d.rules
    · rw [Build.Rule.kind_setDeps]
    · unfold Build.Rule.label
      rw [Build.Rule.name_setDeps]

/-- **Every dependency that an update leaves is read back**, if the names of packages and rules are
plain. -/
theorem Workspace.reads_of_prepare {w : Workspace} {t seen : Tree} {index : Query.Index}
    {options : UpdateOptions} {dir : Location} {package : String} {sources : List Source}
    {isProjectRoot : Bool} {pending : Pending} (ht : t.IsWellFormed)
    (hw : w.relative? dir = some package) (hs : t.sources dir = .ok sources)
    (hnames : w.HasPlainNames t package) (hindex : index.IsPlain)
    (h : w.prepare t seen index options dir package sources isProjectRoot = .ok pending) :
    ∀ rule ∈ pending.descriptor.rules, rule.AllDeps (·.ReadsIn package) := by
  obtain ⟨old, scope, hold, hscope, -, -, hderived, -⟩ := prepare_eq_ok.1 h
  obtain ⟨-, hsettled⟩ := Scope.settled_of_ofDescriptor hs hscope
  have hknows : ∀ label, w.Knows t index package label → label.ReadsIn package :=
    fun label hl => hl.readsIn ht (Tree.isDir_of_sources hs) hw hnames hindex
  have hread := Tree.reads_of_descriptor hold
  have hscoped : ∀ rule ∈ scope.descriptor.rules, rule.AllDeps (·.ReadsIn package) := by
    intro rule hrule deps hdeps
    rcases hsettled.deps rule hrule with hnew | ⟨r, hr, hsame⟩
    · rw [hnew] at hdeps
      cases hdeps
      exact fun label hl => by cases hl
    · exact hread r hr deps (hsame ▸ hdeps)
  have hplanned : ∀ rule ∈ (scope.planned options sources).rules,
      rule.AllDeps (·.ReadsIn package) := by
    refine Dependency.allDeps_apply hscoped fun p hp label hl => ?_
    rcases Dependency.mem_deps_of_mem_plan hp hl with ⟨r, hr, deps, hdeps, hmem⟩ |
      ⟨file, hfile, i, hi, hcandidate⟩
    · exact hscoped r hr deps hdeps label hmem
    · obtain ⟨source, -, rfl⟩ := List.mem_map.1 hfile
      obtain ⟨i, -, rfl⟩ := List.mem_map.1 hi
      exact hknows label (Scope.knows_of_resolve hw hold hs hscope hcandidate)
  unfold Scope.derived at hderived
  split at hderived
  · refine Aggregate.allDeps_deriveAll hplanned (fun label hl => hknows label ?_)
      (fun below hbelow label hl => hknows label ?_) hderived
    · rw [Scope.planned, Aggregate.libraries_apply] at hl
      obtain ⟨r, hr, rfl⟩ := List.mem_map.1 hl
      have hpackage : scope.descriptor.package = package := Scope.package_eq hold hs hscope
      rw [hpackage]
      exact Scope.knows_of_name hw hold hs hscope
        (List.mem_map_of_mem (List.mem_of_mem_filter hr))
    · exact Aggregate.knows_of_librariesBelow hbelow label hl
  · exact Except.ok.inj hderived ▸ hplanned

end BuildSync
