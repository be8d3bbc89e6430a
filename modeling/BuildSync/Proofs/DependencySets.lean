import Mathlib.Data.List.Forall2
import BuildSync.Dependency
import BuildSync.Proofs.Build.Setters
import BuildSync.Proofs.Text.Lines

/-!
# The dependencies that a plan leaves

`Dependency.plan` followed by `Dependency.apply`, described without either:

* `IsOwnedImport`, `IsCandidate`, `IsSettled`: the imports of a rule's files and what they resolve
  to. `ownedFiles_perm`: the model's list of a rule's files holds each of them once.
* `Names`: an import names a rule by its module name or its package (`names_iff`).
* `IsDropped`: a listed dependency that pruning takes away (`mem_wanted`).
* `rules_apply`: plans for rules of distinct names are made one by one.
* `apply_plan`: every settled rule gets exactly the set of labels it should have, every other
  rule stays as it is, and each import that does not resolve is reported once.
-/

namespace BuildSync.Dependency

open Build

/-! ## The imports of a rule -/

section
variable (ownership : Ownership) (files : List ResolvedFile) (rule : String)

/-- The file belongs to the rule. -/
def isOwned (file : ResolvedFile) : Bool :=
  ownership.owner? file.name = some (.rule rule)

/-- An import of a file that belongs to the rule. -/
def IsOwnedImport (i : ResolvedImport) : Prop :=
  ∃ file ∈ files, isOwned ownership rule file ∧ i ∈ file.imports

/-- Some import of the rule's files resolves to the label. -/
def IsCandidate (label : Label) : Prop :=
  ∃ i, IsOwnedImport ownership files rule i ∧ label ∈ i.candidates

/-- Every import of the rule's files resolves to exactly one label. -/
def IsSettled : Prop :=
  ∀ i, IsOwnedImport ownership files rule i → ∃ label, i.candidates = [label]

end

/-! ## Names of a rule -/

/-- A text is `name`, or is below it. -/
def IsAtOrBelow (name text : List Char) : Prop :=
  text = name ∨ name ++ ['/'] <+: text

/-- What a specifier says of a place, behind every `./` at its front. -/
def IsBare (specifier bare : List Char) : Prop :=
  ¬ ['.', '/'] <+: bare ∧ ∃ n, specifier = (List.replicate n ['.', '/']).flatten ++ bare

/-- **A specifier names a rule** by its module name, or by its package: in full, with something
below it, or by the last segments. The root package has no name. -/
def Names (specifier : String) (label : Label) (moduleName : Option String) : Prop :=
  (∃ name, moduleName = some name ∧ IsAtOrBelow name.toList specifier.toList) ∨
    label.package ≠ "" ∧ ∃ bare, IsBare specifier.toList bare ∧
      (IsAtOrBelow label.package.toList bare ∨ '/' :: bare <:+ label.package.toList)

theorem isAtOrBelow_iff {name text : List Char} :
    isAtOrBelow name text = true ↔ IsAtOrBelow name text := by
  unfold isAtOrBelow IsAtOrBelow
  constructor
  · intro h
    split at h
    · rename_i hstrip
      exact .inl (by simpa using Text.strip?_eq_some_iff.1 hstrip)
    · rename_i c rest hstrip
      obtain rfl := of_decide_eq_true h
      exact .inr ⟨rest, by simp [Text.strip?_eq_some_iff.1 hstrip]⟩
    · cases h
  · rintro (rfl | ⟨rest, rfl⟩)
    · rw [Text.strip?_eq_some_iff.2 (List.append_nil text).symm]
    · rw [Text.strip?_eq_some_iff.2 (List.append_assoc name ['/'] rest)]
      rfl

theorem isBare_iff {specifier bare : List Char} :
    IsBare specifier bare ↔ dropHere specifier = bare := by
  fun_induction dropHere specifier with
  | case1 rest ih =>
    rw [← ih]
    refine and_congr_right fun hbare => ?_
    constructor
    · rintro ⟨n, hn⟩
      cases n with
      | zero => exact absurd ⟨rest, by simpa using hn⟩ hbare
      | succ n => exact ⟨n, by simpa [List.replicate_succ] using hn⟩
    · rintro ⟨n, rfl⟩
      exact ⟨n + 1, by simp [List.replicate_succ]⟩
  | case2 text hother =>
    constructor
    · rintro ⟨-, n, rfl⟩
      cases n with
      | zero => rfl
      | succ n => exact (hother ((List.replicate n ['.', '/']).flatten ++ bare) rfl).elim
    · rintro rfl
      exact ⟨fun ⟨rest, hrest⟩ => hother rest hrest.symm, 0, rfl⟩

theorem names_iff {specifier : String} {label : Label} {moduleName : Option String} :
    names specifier label moduleName = true ↔ Names specifier label moduleName := by
  have hpackage : label.package.toList ≠ [] ↔ label.package ≠ "" := by simp
  simp only [names, namesPackage, Names, Bool.or_eq_true, Bool.and_eq_true, Option.any_eq_true,
    isAtOrBelow_iff, decide_eq_true_eq, hpackage, isBare_iff, exists_eq_left', Text.endsWith_iff]

/-- A listed dependency that goes: pruning is on, nothing protects it, it is known to be a
declaration, and no import of the rule resolves to it or names it. -/
def IsDropped (prune : Option (Label → RuleInfo)) (ownership : Ownership)
    (files : List ResolvedFile) (rule : Build.Rule) (label : Label) : Prop :=
  ∃ info, prune = some info ∧ ¬ IsCandidate ownership files rule.name label ∧
    rule.isKept label = false ∧ (info label).kind = some .declaration ∧
    ∀ i, IsOwnedImport ownership files rule.name i →
      label ∉ i.candidates ∧ ¬ Names i.source.specifier label (info label).moduleName

theorem fileOf?_eq_some {files : List ResolvedFile} (hf : (files.map (·.name)).Nodup)
    {name : String} {file : ResolvedFile} :
    fileOf? files name = some file ↔ file ∈ files ∧ file.name = name := by
  unfold fileOf?
  constructor
  · intro h
    exact ⟨List.mem_reverse.1 (List.mem_of_find?_eq_some h), by simpa using List.find?_some h⟩
  · rintro ⟨hmem, rfl⟩
    cases h : files.reverse.find? (·.name = file.name) with
    | none => exact absurd (List.find?_eq_none.1 h file (List.mem_reverse.2 hmem)) (by simp)
    | some other =>
      have hother := List.mem_reverse.1 (List.mem_of_find?_eq_some h)
      have hname : other.name = file.name := by simpa using List.find?_some h
      rw [List.inj_on_of_nodup_map hf hother hmem hname]

theorem mem_filesOf {ownership : Ownership} {rule file : String} :
    file ∈ ownership.filesOf rule ↔ ownership.owner? file = some (.rule rule) := by
  unfold Ownership.filesOf
  rw [List.mem_filter, mem_sortedTexts, decide_eq_true_eq]
  refine ⟨And.right, fun h => ⟨?_, h⟩⟩
  unfold Ownership.owner? at h
  obtain ⟨front, back, ho, -⟩ := List.lookup_eq_some_iff.1 h
  rw [ho]
  simp

theorem mem_ownedFiles {ownership : Ownership} {files : List ResolvedFile} {rule : String}
    (hf : (files.map (·.name)).Nodup) {file : ResolvedFile} :
    file ∈ ownedFiles ownership files rule ↔ file ∈ files ∧ isOwned ownership rule file := by
  unfold ownedFiles isOwned
  simp only [List.mem_filterMap, mem_filesOf, fileOf?_eq_some hf, decide_eq_true_eq]
  constructor
  · rintro ⟨name, ho, hmem, rfl⟩
    exact ⟨hmem, ho⟩
  · rintro ⟨hmem, ho⟩
    exact ⟨file.name, ho, hmem, rfl⟩

/-- Each file of a rule is counted once. -/
theorem ownedFiles_perm (ownership : Ownership) {files : List ResolvedFile}
    (hf : (files.map (·.name)).Nodup) (rule : String) :
    (ownedFiles ownership files rule).Perm (files.filter (isOwned ownership rule)) := by
  refine (List.perm_ext_iff_of_nodup ?_ (hf.of_map.filter _)).2 fun file => ?_
  · refine List.Nodup.filterMap ?_ ((nodup_sortedTexts _).filter _)
    intro a b file ha hb
    exact ((fileOf?_eq_some hf).1 ha).2.symm.trans ((fileOf?_eq_some hf).1 hb).2
  · rw [mem_ownedFiles hf, List.mem_filter]

theorem mem_ownedImports {ownership : Ownership} {files : List ResolvedFile} {rule : String}
    (hf : (files.map (·.name)).Nodup) {i : ResolvedImport} :
    i ∈ (ownedFiles ownership files rule).flatMap (·.imports) ↔
      IsOwnedImport ownership files rule i := by
  simp only [List.mem_flatMap, mem_ownedFiles hf, IsOwnedImport, and_assoc]

theorem problem?_eq_none {file : String} {i : ResolvedImport} :
    problem? file i = none ↔ ∃ label, i.candidates = [label] := by
  unfold problem?
  split <;> simp_all

theorem problems_eq_nil {ownership : Ownership} {files : List ResolvedFile} {rule : String}
    (hf : (files.map (·.name)).Nodup) :
    problems (ownedFiles ownership files rule) = [] ↔ IsSettled ownership files rule := by
  unfold problems IsSettled
  simp only [List.flatMap_eq_nil_iff, List.filterMap_eq_nil_iff, problem?_eq_none,
    mem_ownedFiles hf, IsOwnedImport]
  constructor
  · rintro h i ⟨file, hmem, ho, hi⟩
    exact h file ⟨hmem, ho⟩ i hi
  · rintro h file ⟨hmem, ho⟩ i hi
    exact h i ⟨file, hmem, ho, hi⟩

/-! ## The wanted set -/

theorem mem_required {own label : Label} {imports : List ResolvedImport} :
    label ∈ required own imports ↔ (∃ i ∈ imports, label ∈ i.candidates) ∧ label ≠ own := by
  simp [required, List.mem_filter, List.mem_flatMap]

theorem isMentioned_eq_false {label : Label} {moduleName : Option String}
    {imports : List ResolvedImport} :
    isMentioned label moduleName imports = false ↔
      ∀ i ∈ imports, label ∉ i.candidates ∧ ¬ Names i.source.specifier label moduleName := by
  simp [isMentioned, List.any_eq_false, ← names_iff]

/-- What is wanted is listed or some import resolves to it, and it stays. -/
theorem mem_wanted_iff {prune : Option (Label → RuleInfo)} {rule : Build.Rule} {own label : Label}
    {current : List Label} {imports : List ResolvedImport} :
    label ∈ wanted prune rule own current imports ↔
      (label ∈ current ∨ ∃ i ∈ imports, label ∈ i.candidates) ∧ label ≠ own ∧
        stays prune rule own imports label = true := by
  unfold wanted
  rw [Label.mem_sortedSet, List.mem_filter, List.mem_append, List.mem_filter, mem_required,
    decide_eq_true_eq, ← or_and_right, and_assoc]

/-- **The labels a rule is to have**: what it lists and what its imports resolve to, without
itself and without what pruning takes away. -/
theorem mem_wanted {prune : Option (Label → RuleInfo)} {ownership : Ownership}
    {files : List ResolvedFile} (hf : (files.map (·.name)).Nodup) {rule : Build.Rule}
    {own : Label} {current : List Label} {label : Label} :
    label ∈ wanted prune rule own current
        ((ownedFiles ownership files rule.name).flatMap (·.imports)) ↔
      (label ∈ current ∨ IsCandidate ownership files rule.name label) ∧ label ≠ own ∧
        ¬ IsDropped prune ownership files rule label := by
  have hcand : (∃ i ∈ (ownedFiles ownership files rule.name).flatMap (·.imports),
      label ∈ i.candidates) ↔ IsCandidate ownership files rule.name label :=
    exists_congr fun i => and_congr_left fun _ => mem_ownedImports hf
  have hstays : label ≠ own →
      (stays prune rule own ((ownedFiles ownership files rule.name).flatMap (·.imports)) label
        = true ↔ ¬ IsDropped prune ownership files rule label) := by
    intro hne
    cases prune with
    | none => simp [stays, IsDropped]
    | some info =>
      simp only [stays, IsDropped, Option.some.injEq, exists_eq_left']
      rw [← not_iff_not, not_not, Bool.not_eq_true]
      simp only [Bool.or_eq_false_iff, decide_eq_false_iff_not, mem_required, hne, ne_eq,
        not_false_eq_true, and_true, not_not, isMentioned_eq_false, mem_ownedImports hf]
      tauto
  rw [mem_wanted_iff, hcand]
  exact and_congr_right fun _ => and_congr_right hstays

/-! ## Making plans -/

theorem modifyFirst_of_nodup {name : String} {f : Build.Rule → Build.Rule}
    {rules : List Build.Rule} (h : (rules.map (·.name)).Nodup) :
    Descriptor.modifyFirst name f rules =
      rules.map fun r => if r.name = name then f r else r := by
  induction rules with
  | nil => rfl
  | cons r rules ih =>
    obtain ⟨hr, hrest⟩ := List.nodup_cons.1 h
    by_cases hn : r.name = name
    · have hid : ∀ s ∈ rules, (if s.name = name then f s else s) = s := by
        intro s hs
        exact if_neg fun he => hr (List.mem_map.2 ⟨s, hs, he.trans hn.symm⟩)
      rw [Descriptor.modifyFirst, if_pos hn, List.map_cons, if_pos hn,
        List.map_congr_left hid, List.map_id']
    · rw [Descriptor.modifyFirst, if_neg hn, List.map_cons, if_neg hn, ih hrest]

/-- The rule as the plan for its name leaves it. -/
def planned (package : String) (plans : List DependencyPlan) (r : Build.Rule) : Build.Rule :=
  match plans.find? (·.rule = r.name) with
  | some p => r.setDeps package p.deps
  | none => r

/-- Only the rules change. -/
theorem apply_eq (d : Descriptor) (plans : List DependencyPlan) :
    apply d plans = { d with rules := (apply d plans).rules } := by
  induction plans generalizing d with
  | nil => rfl
  | cons p plans ih =>
    have h := ih (d.modifyRule p.rule (·.setDeps d.package p.deps))
    simpa only [apply, List.foldl_cons, Descriptor.modifyRule] using h

/-- **Plans of distinct names** are made rule by rule. -/
theorem rules_apply {d : Descriptor} {plans : List DependencyPlan}
    (hd : (d.rules.map (·.name)).Nodup) (hp : (plans.map (·.rule)).Nodup) :
    (apply d plans).rules = d.rules.map (planned d.package plans) := by
  induction plans generalizing d with
  | nil => exact (List.map_id' d.rules).symm
  | cons p plans ih =>
    obtain ⟨hpn, hpr⟩ := List.nodup_cons.1 hp
    let d' := d.modifyRule p.rule (·.setDeps d.package p.deps)
    have hrules : d'.rules =
        d.rules.map fun r => if r.name = p.rule then r.setDeps d.package p.deps else r :=
      modifyFirst_of_nodup hd
    have hnames : (d'.rules.map (·.name)).Nodup := by
      rw [hrules, List.map_map]
      convert hd using 2
      funext r
      by_cases h : r.name = p.rule <;> simp [h]
    have hstep : (apply d (p :: plans)).rules = (apply d' plans).rules := rfl
    rw [hstep, ih hnames hpr, hrules, List.map_map]
    refine List.map_congr_left fun r _ => ?_
    have hpackage : d'.package = d.package := rfl
    rw [Function.comp_apply, hpackage]
    unfold planned
    by_cases h : r.name = p.rule
    · have hnone : plans.find? (·.rule = p.rule) = none := by
        rw [List.find?_eq_none]
        intro q hq he
        exact hpn (List.mem_map.2 ⟨q, hq, by simpa using he⟩)
      simp [h, hnone]
    · simp [h, Ne.symm h]

/-! ## What a plan leaves -/

/-- The rule with the plan that is made for it, if there is one. -/
def followed (prune : Option (Label → RuleInfo)) (package : String) (ownership : Ownership)
    (files : List ResolvedFile) (r : Build.Rule) : Build.Rule :=
  match (planRule prune package ownership files r).1 with
  | some p => r.setDeps package p.deps
  | none => r

/-- The rule's dependencies are kept up to date: it owns sources, and its list is missing or
written out. -/
def isPlannable (r : Build.Rule) : Bool :=
  !r.kind.isAggregate && r.deps.values?.isSome

/-- What planning makes of a rule `r`. A settled rule lists, in order and each once, what it
listed and what its imports resolve to, without itself and without what pruning takes away; any
other rule stays as it is. -/
structure Outcome (prune : Option (Label → RuleInfo)) (package : String) (ownership : Ownership)
    (files : List ResolvedFile) (r r' : Build.Rule) : Prop where
  settled : ∀ old, r.kind.isAggregate = false → r.deps.values? = some old →
    IsSettled ownership files r.name → ∃ new, r'.deps.values? = some new ∧
      (∀ label, label ∈ new ↔
        (label ∈ old ∨ IsCandidate ownership files r.name label) ∧ label ≠ r.label package ∧
          ¬ IsDropped prune ownership files r label) ∧
      new.Pairwise (fun a b => Label.writtenLe package a b = true) ∧ new.Nodup
  frame : r' = { r with deps := r'.deps, depsChanged := r'.depsChanged }
  other : r.kind.isAggregate = true ∨ r.deps.values? = none ∨
    ¬ IsSettled ownership files r.name → r' = r

section
variable {prune : Option (Label → RuleInfo)} {package : String} {ownership : Ownership}
  {files : List ResolvedFile} (hf : (files.map (·.name)).Nodup)

/-- The plan of a rule carries its name. -/
theorem rule_of_planRule {r : Build.Rule} {p : DependencyPlan}
    (h : (planRule prune package ownership files r).1 = some p) : p.rule = r.name := by
  unfold planRule at h
  split at h
  · cases h
  · split at h
    · cases h
    · dsimp only at h
      split at h
      · cases h
      · split at h
        · cases h
        · cases h; rfl

omit hf in
/-- The plan of a rule without problems: none if its list is the sorted wanted set already. -/
theorem planRule_of_problems_nil {r : Build.Rule} {old : List Label}
    (ha : r.kind.isAggregate = false) (hold : r.deps.values? = some old)
    (hs : problems (ownedFiles ownership files r.name) = []) :
    planRule prune package ownership files r =
      (let deps := wanted prune r (r.label package) old
        ((ownedFiles ownership files r.name).flatMap (·.imports))
       if Label.sortFor package deps = old then none else some ⟨r.name, deps⟩, []) := by
  unfold planRule
  rw [if_neg (by simp [ha]), hold]
  dsimp only
  rw [if_neg (not_not.2 hs)]
  split <;> rfl

include hf

/-- A rule that is not settled, or not kept up to date, has no plan. -/
theorem planRule_eq_none {r : Build.Rule}
    (h : r.kind.isAggregate = true ∨ r.deps.values? = none ∨
      ¬ IsSettled ownership files r.name) :
    (planRule prune package ownership files r).1 = none := by
  unfold planRule
  split
  · rfl
  · rename_i ha
    split
    · rfl
    · rename_i old hold
      dsimp only
      have hs : ¬ IsSettled ownership files r.name := by simp_all
      rw [if_pos ((problems_eq_nil hf).not.2 hs)]

/-- The plan of a settled rule: none if its list is the sorted wanted set already. -/
theorem planRule_of_settled {r : Build.Rule} {old : List Label}
    (ha : r.kind.isAggregate = false) (hold : r.deps.values? = some old)
    (hs : IsSettled ownership files r.name) :
    planRule prune package ownership files r =
      (let deps := wanted prune r (r.label package) old
        ((ownedFiles ownership files r.name).flatMap (·.imports))
       if Label.sortFor package deps = old then none else some ⟨r.name, deps⟩, []) :=
  planRule_of_problems_nil ha hold ((problems_eq_nil hf).2 hs)

/-- The problems of a rule: one for each import of its files without exactly one candidate. -/
theorem problems_planRule_perm (r : Build.Rule) :
    ((planRule prune package ownership files r).2).Perm
      (if isPlannable r then
        (files.filter (isOwned ownership r.name)).flatMap fun file =>
          file.imports.filterMap (problem? file.name)
      else []) := by
  by_cases hp : isPlannable r = true
  · obtain ⟨ha, hv⟩ : r.kind.isAggregate = false ∧ r.deps.values?.isSome = true := by
      simpa [isPlannable] using hp
    obtain ⟨old, hold⟩ := Option.isSome_iff_exists.1 hv
    have hperm := (ownedFiles_perm ownership hf r.name).flatMap_right
      fun file => file.imports.filterMap (problem? file.name)
    rw [if_pos hp]
    by_cases hs : IsSettled ownership files r.name
    · rw [planRule_of_settled hf ha hold hs]
      have hnil := (problems_eq_nil hf).2 hs
      unfold problems at hnil
      rwa [hnil] at hperm
    · unfold planRule
      rw [if_neg (by simp [ha]), hold]
      dsimp only
      rw [if_pos ((problems_eq_nil hf).not.2 hs)]
      exact hperm
  · rw [if_neg hp]
    unfold planRule
    split
    · exact .refl _
    · rename_i ha
      split
      · exact .refl _
      · rename_i old hold
        exact absurd (by simp [isPlannable, ha, hold]) hp

/-- **The outcome of a rule** whose plan is made. -/
theorem outcome_followed (r : Build.Rule) : Outcome prune package ownership files r
    (followed prune package ownership files r) := by
  generalize h : followed prune package ownership files r = r'
  unfold followed at h
  have hframe : r' = { r with deps := r'.deps, depsChanged := r'.depsChanged } := by
    rw [← h]
    split
    · rw [Build.Rule.setDeps_eq]
    · rfl
  refine ⟨fun old ha hold hs => ?_, hframe, fun ho => ?_⟩
  · rw [planRule_of_settled hf ha hold hs] at h
    dsimp only at h
    have hmem := fun label => @mem_wanted prune ownership files hf r (r.label package) old label
    have hnd : (wanted prune r (r.label package) old
        ((ownedFiles ownership files r.name).flatMap (·.imports))).Nodup :=
      Label.nodup_sortedSet _
    generalize wanted prune r (r.label package) old
      ((ownedFiles ownership files r.name).flatMap (·.imports)) = deps at h hmem hnd
    have hsort := Label.sortFor_perm package deps
    have hown : r.label package ∉ deps := fun hm => ((hmem _).1 hm).2.1 rfl
    refine ⟨Label.sortFor package deps, ?_, fun label => hsort.mem_iff.trans (hmem label),
      Label.pairwise_sortFor package deps, hsort.nodup_iff.2 hnd⟩
    by_cases hsame : Label.sortFor package deps = old
    · rw [if_pos hsame] at h
      rw [← h, hsame, hold]
    · rw [if_neg hsame] at h
      rw [← h, Build.Rule.deps_setDeps hold, Build.Rule.arrangeDeps_of_nodup hnd hown]
  · rw [planRule_eq_none hf ho] at h
    exact h.symm

end

/-- The plans of rules of distinct names, found by name. -/
theorem find?_plans {plan? : Build.Rule → Option DependencyPlan}
    (hplan : ∀ r p, plan? r = some p → p.rule = r.name) {rules : List Build.Rule}
    (hnd : (rules.map (·.name)).Nodup) {r : Build.Rule} (hr : r ∈ rules) :
    (rules.filterMap plan?).find? (·.rule = r.name) = plan? r := by
  cases h : plan? r with
  | none =>
    rw [List.find?_eq_none]
    intro p hp he
    obtain ⟨s, hs, hsp⟩ := List.mem_filterMap.1 hp
    have hname : s.name = r.name := (hplan s p hsp).symm.trans (by simpa using he)
    rw [List.inj_on_of_nodup_map hnd hs hr hname, h] at hsp
    cases hsp
  | some p =>
    cases hfind : (rules.filterMap plan?).find? (·.rule = r.name) with
    | none =>
      have := List.find?_eq_none.1 hfind p (List.mem_filterMap.2 ⟨r, hr, h⟩)
      exact absurd (hplan r p h) (by simpa using this)
    | some q =>
      obtain ⟨s, hs, hsq⟩ := List.mem_filterMap.1 (List.mem_of_find?_eq_some hfind)
      have hq : q.rule = r.name := by simpa using List.find?_some hfind
      have hname : s.name = r.name := (hplan s q hsq).symm.trans hq
      rw [List.inj_on_of_nodup_map hnd hs hr hname, h] at hsq
      exact hsq.symm

theorem nodup_plans {plan? : Build.Rule → Option DependencyPlan}
    (hplan : ∀ r p, plan? r = some p → p.rule = r.name) {rules : List Build.Rule}
    (hnd : (rules.map (·.name)).Nodup) : ((rules.filterMap plan?).map (·.rule)).Nodup := by
  have hsub : ((rules.filterMap plan?).map (·.rule)).Sublist (rules.map (·.name)) := by
    induction rules with
    | nil => exact .slnil
    | cons r rules ih =>
      have ih := ih (List.nodup_cons.1 hnd).2
      cases h : plan? r with
      | none => simpa [List.filterMap_cons, h] using ih.cons _
      | some p => simpa [List.filterMap_cons, h, hplan r p h] using ih.cons_cons r.name
  exact hsub.nodup hnd

/-- **Planning goes rule by rule**, where the names are distinct. -/
theorem rules_apply_plan {d : Descriptor} (hd : (d.rules.map (·.name)).Nodup)
    (prune : Option (Label → RuleInfo)) (ownership : Ownership) (files : List ResolvedFile) :
    (apply d (plan prune d ownership files).1).rules =
      d.rules.map (followed prune d.package ownership files) := by
  let plan? := fun r => (planRule prune d.package ownership files r).1
  have hplan : ∀ r p, plan? r = some p → p.rule = r.name := fun r p => rule_of_planRule
  have hplans : (plan prune d ownership files).1 = d.rules.filterMap plan? := by
    simp only [plan, List.filterMap_map]
    rfl
  rw [hplans, rules_apply hd (nodup_plans hplan hd)]
  refine List.map_congr_left fun r hr => ?_
  unfold planned
  rw [find?_plans hplan hd hr]
  rfl

/-- The rules after planning, one by one. -/
theorem outcomes_apply_plan {d : Descriptor} (hd : (d.rules.map (·.name)).Nodup)
    {files : List ResolvedFile} (hf : (files.map (·.name)).Nodup)
    (prune : Option (Label → RuleInfo)) (ownership : Ownership) :
    List.Forall₂ (Outcome prune d.package ownership files) d.rules
      (apply d (plan prune d ownership files).1).rules := by
  rw [rules_apply_plan hd, List.forall₂_map_right_iff]
  exact List.forall₂_same.2 fun r _ => outcome_followed hf r

theorem names_eq {prune : Option (Label → RuleInfo)} {package : String} {ownership : Ownership}
    {files : List ResolvedFile} {rules rules' : List Build.Rule}
    (h : List.Forall₂ (Outcome prune package ownership files) rules rules') :
    rules'.map (·.name) = rules.map (·.name) := by
  induction h with
  | nil => rfl
  | cons hr _ ih => rw [List.map_cons, List.map_cons, hr.frame, ih]

theorem problems_plan_perm {d : Descriptor} {files : List ResolvedFile}
    (hf : (files.map (·.name)).Nodup) (prune : Option (Label → RuleInfo))
    (ownership : Ownership) :
    ((plan prune d ownership files).2).Perm
      ((d.rules.filter isPlannable).flatMap fun r =>
        (files.filter (isOwned ownership r.name)).flatMap fun file =>
          file.imports.filterMap (problem? file.name)) := by
  unfold plan
  dsimp only
  rw [List.flatMap_map]
  induction d.rules with
  | nil => exact .refl _
  | cons r rules ih =>
    have h := @problems_planRule_perm prune d.package ownership files hf r
    rw [List.flatMap_cons, List.filter_cons]
    split
    · rename_i hr
      rw [if_pos hr] at h
      exact h.append ih
    · rename_i hr
      rw [if_neg hr] at h
      rw [h.eq_nil]
      exact ih

/-- Every label is taken for a declaration. -/
def samplePrune : Option (Label → RuleInfo) :=
  some fun _ => ⟨some .declaration, none⟩

end BuildSync.Dependency
