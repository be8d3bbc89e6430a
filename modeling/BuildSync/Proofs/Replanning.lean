import BuildSync.Proofs.Build.MarkedEntries
import BuildSync.Proofs.Rereading

/-!
# Planning again

Once the plans for a BUILD file are made, nothing is left to plan, also after the file was written
and read again.

* `Dependency.planRule_setDeps`, `Dependency.planRule_followed`: a plan that is made leaves none.
* `Dependency.planRule_congr`: plans depend on what a reader sees of a rule.
* `Dependency.plan_again`: a BUILD file whose plans were made, written and read again has no plan,
  and is written as it stands.
-/

namespace BuildSync

open Build

namespace Dependency

variable {prune : Option (Label → RuleInfo)} {package : String} {ownership : Ownership}
  {files : List ResolvedFile}

/-! ## One rule -/

/-- What some import resolves to stays. -/
theorem stays_of_candidate {r : Build.Rule} {own label : Label} {imports : List ResolvedImport}
    (h : ∃ i ∈ imports, label ∈ i.candidates) (hown : label ≠ own) :
    stays prune r own imports label = true := by
  unfold stays
  split
  · rfl
  · simp [mem_required.2 ⟨h, hown⟩]

/-- What stays of a rule stays of one that keeps it as well. -/
theorem stays_of_isKept {r r' : Build.Rule} {own label : Label} {imports : List ResolvedImport}
    (hkept : prune.isSome = true → r.isKept label = true → r'.isKept label = true)
    (h : stays prune r own imports label = true) : stays prune r' own imports label = true := by
  unfold stays at h ⊢
  split
  · rfl
  · rename_i info
    simp only [Bool.or_eq_true] at h ⊢
    exact h.imp_left (.imp_left (.imp_right (hkept rfl)))

/-- **A rule that lists what is wanted wants it again**, if what was kept still is. -/
theorem wanted_of_listed {r r' : Build.Rule} {own : Label} {old new : List Label}
    {imports : List ResolvedImport}
    (hlist : ∀ label, label ∈ new ↔ label ∈ wanted prune r own old imports)
    (hkept : prune.isSome = true → ∀ label ∈ new, r.isKept label = true → r'.isKept label = true) :
    wanted prune r' own new imports = wanted prune r own old imports := by
  suffices h : ∀ label, label ∈ wanted prune r' own new imports ↔
      label ∈ wanted prune r own old imports from
    Label.sortedSet_congr fun label => by simpa only [wanted, Label.mem_sortedSet] using h label
  intro label
  rw [← hlist, mem_wanted_iff]
  constructor
  · rintro ⟨hnew | hcandidate, hown, -⟩
    · exact hnew
    · exact (hlist label).2 (mem_wanted_iff.2
        ⟨.inr hcandidate, hown, stays_of_candidate hcandidate hown⟩)
  · intro hnew
    obtain ⟨-, hown, hstays⟩ := mem_wanted_iff.1 ((hlist label).1 hnew)
    exact ⟨.inl hnew, hown, stays_of_isKept (fun hp => hkept hp label hnew) hstays⟩

/-- Nothing is planned for a rule that lists what is wanted, in order. -/
theorem planRule_of_listed {r : Build.Rule} {new : List Label}
    (ha : r.kind.isAggregate = false) (hnew : r.deps.values? = some new)
    (hs : problems (ownedFiles ownership files r.name) = [])
    (hwanted : Label.sortFor package (wanted prune r (r.label package) new
      ((ownedFiles ownership files r.name).flatMap (·.imports))) = new) :
    planRule prune package ownership files r = (none, []) := by
  rw [planRule_of_problems_nil ha hnew hs]
  dsimp only
  rw [if_pos hwanted]

/-- **A rule that was given what is wanted wants nothing more.** Where dependencies are dropped, the
list held none twice: of two entries only the first is written again, and the mark of the other one
would be lost. -/
theorem planRule_setDeps {r : Build.Rule} {old : List Label} (ha : r.kind.isAggregate = false)
    (hold : r.deps.values? = some old) (hs : problems (ownedFiles ownership files r.name) = [])
    (hn : prune.isSome = true → old.Nodup) :
    planRule prune package ownership files (r.setDeps package (wanted prune r (r.label package) old
      ((ownedFiles ownership files r.name).flatMap (·.imports)))) = (none, []) := by
  generalize hdeps : wanted prune r (r.label package) old
    ((ownedFiles ownership files r.name).flatMap (·.imports)) = deps
  have hown : r.label package ∉ deps := by
    rw [← hdeps]
    exact fun hm => (mem_wanted_iff.1 hm).2.1 rfl
  have hnodup : deps.Nodup := hdeps ▸ Label.nodup_sortedSet _
  have hnew : (r.setDeps package deps).deps.values? = some (Label.sortFor package deps) := by
    rw [Rule.deps_setDeps hold, Rule.arrangeDeps_of_nodup hnodup hown]
  have hlabel : (r.setDeps package deps).label package = r.label package := by
    rw [Rule.label, Rule.name_setDeps, Rule.label]
  have hagain : wanted prune (r.setDeps package deps) (r.label package)
      (Label.sortFor package deps)
      ((ownedFiles ownership files r.name).flatMap (·.imports)) = deps := by
    refine (wanted_of_listed (fun label => ?_) fun hp label hm hkeep => ?_).trans hdeps
    · rw [hdeps, (Label.sortFor_perm package deps).mem_iff]
    · exact Rule.isKept_setDeps hkeep hold (hn hp) hnew hm
  refine planRule_of_listed (by rwa [Rule.kind_setDeps]) hnew (by rwa [Rule.name_setDeps]) ?_
  rw [hlabel, Rule.name_setDeps, hagain]

theorem planRule_followed_of_none {r : Build.Rule}
    (h : planRule prune package ownership files r = (none, [])) :
    planRule prune package ownership files (followed prune package ownership files r) =
      (none, []) := by
  rw [followed, h]
  exact h

/-- **A plan that is made leaves none.** -/
theorem planRule_followed {r : Build.Rule}
    (hs : problems (ownedFiles ownership files r.name) = [])
    (hn : prune.isSome = true → ∀ old, r.deps.values? = some old → old.Nodup) :
    planRule prune package ownership files (followed prune package ownership files r) =
      (none, []) := by
  by_cases ha : r.kind.isAggregate = true
  · exact planRule_followed_of_none (by rw [planRule, if_pos ha])
  rw [Bool.not_eq_true] at ha
  cases hold : r.deps.values? with
  | none => exact planRule_followed_of_none (by rw [planRule, if_neg (by simp [ha]), hold])
  | some old =>
    have hplan := @planRule_of_problems_nil prune package ownership files r old ha hold hs
    dsimp only at hplan
    split at hplan
    · exact planRule_followed_of_none hplan
    · rw [followed, hplan]
      exact planRule_setDeps ha hold hs fun hp => hn hp old hold

/-- **Plans depend on what a reader sees of a rule.** -/
theorem planRule_congr {r r' : Build.Rule} (h : r.Agrees r') :
    planRule prune package ownership files r' = planRule prune package ownership files r := by
  have hkept : r'.isKept = r.isKept := funext h.isKept
  unfold planRule wanted stays Rule.label
  rw [h.kind, h.deps, h.name, hkept]

/-! ## The whole file -/

section
variable {path text : String} {d : Descriptor} (h : Descriptor.parse path package text = .ok d)
include h

/-- Every dependency of the planned rules is read back, if every candidate is. -/
theorem reads_apply_plan
    (hreads : ∀ file ∈ files, ∀ i ∈ file.imports, ∀ label ∈ i.candidates, label.ReadsIn package) :
    ∀ r ∈ (apply d (plan prune d ownership files).1).rules, r.AllDeps (·.ReadsIn package) := by
  have hread := Descriptor.reads_of_parse h
  refine allDeps_apply hread fun p hp label hl => ?_
  rcases mem_deps_of_mem_plan hp hl with ⟨r, hr, deps, hdeps, hmem⟩ | ⟨file, hfile, i, hi, hc⟩
  · exact hread r hr deps hdeps label hmem
  · exact hreads file hfile i hi label hc

variable (prune ownership) in
/-- **A file whose plans are made is read again** as its planned rules, if every candidate is read
back. -/
theorem exists_parse_apply_plan
    (hreads : ∀ file ∈ files, ∀ i ∈ file.imports, ∀ label ∈ i.candidates, label.ReadsIn package) :
    ∃ d', Descriptor.parse path package (apply d (plan prune d ownership files).1).render = .ok d' ∧
      List.Forall₂ Rule.Agrees (apply d (plan prune d ownership files).1).rules d'.rules := by
  obtain ⟨hread, -⟩ := Descriptor.isRead_of_parse h
  have hmade := isMade_apply hread (.refl hread) (plan prune d ownership files).1
  refine hmade.exists_agrees h (fun r hr _ list hlist => ?_) (fun hpending => ?_)
    fun r hr hnew hdev => absurd hdev (hmade.ordinary r hr hnew)
  · exact reads_apply_plan h hreads r hr _ (by rw [hlist]; rfl)
  · -- Plans load nothing.
    obtain ⟨contents, -, hd⟩ := map_eq_ok h
    rw [apply_eq, ← hd] at hpending
    exact absurd rfl hpending

end

/-- Imports that resolve to one label each are no problem. -/
theorem problems_eq_nil_of_one
    (hone : ∀ file ∈ files, ∀ i ∈ file.imports, ∃ label, i.candidates = [label]) (rule : String) :
    problems (ownedFiles ownership files rule) = [] := by
  unfold problems ownedFiles
  simp only [List.flatMap_eq_nil_iff, List.filterMap_eq_nil_iff, problem?_eq_none]
  intro file hfile i hi
  obtain ⟨name, -, hfound⟩ := List.mem_filterMap.1 hfile
  exact hone file (List.mem_reverse.1 (List.mem_of_find?_eq_some hfound)) i hi

/-- Nothing is planned for a file if nothing is planned for its rules. -/
theorem plan_eq_nil_iff {d : Descriptor} : plan prune d ownership files = ([], []) ↔
    ∀ r ∈ d.rules, planRule prune d.package ownership files r = (none, []) := by
  simp only [plan, List.filterMap_map, List.flatMap_map, List.filterMap_eq_nil_iff,
    List.flatMap_eq_nil_iff, Function.comp_apply, ← forall₂_and, Prod.ext_iff]

/-- **A plan that is made, written and read again leaves nothing to plan**, and the file is then
written as it stands. Each import resolves to one label, which is read back as it is written. Where
dependencies are dropped, no list of the file holds one twice. -/
theorem plan_again {path package text : String} {d : Descriptor}
    (h : Descriptor.parse path package text = .ok d) (hd : (d.rules.map (·.name)).Nodup)
    (ownership : Ownership) {files : List ResolvedFile}
    (hone : ∀ file ∈ files, ∀ i ∈ file.imports, ∃ label, i.candidates = [label])
    (hreads : ∀ file ∈ files, ∀ i ∈ file.imports, ∀ label ∈ i.candidates, label.ReadsIn package)
    (prune : Option (Label → RuleInfo))
    (hn : prune.isSome = true → ∀ r ∈ d.rules, ∀ deps, r.deps.values? = some deps → deps.Nodup) :
    let e := apply d (plan prune d ownership files).1
    ∃ d', Descriptor.parse path package e.render = .ok d' ∧
      plan prune d' ownership files = ([], []) ∧
      (apply d' (plan prune d' ownership files).1).render = e.render := by
  obtain ⟨d', hparse, hagree⟩ := exists_parse_apply_plan prune ownership h hreads
  obtain ⟨-, -, -, hread⟩ := Descriptor.parse_eq_ok h
  obtain ⟨-, -, -, hreread⟩ := Descriptor.parse_eq_ok hparse
  have hpackage : d.package = package ∧ d'.package = package := by
    rw [hread, hreread]
    exact ⟨rfl, rfl⟩
  have hnone : plan prune d' ownership files = ([], []) := by
    refine plan_eq_nil_iff.2 fun r' hr' => ?_
    obtain ⟨r, hr, hsame⟩ := Ownership.exists_partner hagree hr'
    rw [rules_apply_plan hd] at hr
    obtain ⟨old, hold, rfl⟩ := List.mem_map.1 hr
    rw [planRule_congr hsame, hpackage.1, hpackage.2]
    exact planRule_followed (problems_eq_nil_of_one hone old.name) fun hp => hn hp old hold
  refine ⟨d', hparse, hnone, ?_⟩
  rw [hnone]
  exact (Descriptor.render_of_parse hparse).trans (by rw [hreread])

/-- One source of the sample file's rule, with one import. -/
def replannedFiles : List ResolvedFile :=
  [⟨"b.ts", [⟨⟨"q", .value, 1, 1, 0, 10⟩, [⟨none, "q", "q"⟩]⟩]⟩]

/-- The rule gets a dependency and loses an unused one, and the file is planned again. -/
theorem plan_again_sample :
    Descriptor.parse "p/BUILD" "p" Descriptor.sampleText = .ok Descriptor.sampleFile ∧
      (Descriptor.sampleFile.rules.map (·.name)).Nodup ∧
      (∀ file ∈ replannedFiles, ∀ i ∈ file.imports, ∃ label, i.candidates = [label]) ∧
      (∀ file ∈ replannedFiles, ∀ i ∈ file.imports, ∀ label ∈ i.candidates,
        label.ReadsIn "p") ∧
      (samplePrune.isSome = true → ∀ r ∈ Descriptor.sampleFile.rules, ∀ deps,
        r.deps.values? = some deps → deps.Nodup) ∧
      ∃ d', Descriptor.parse "p/BUILD" "p" (apply Descriptor.sampleFile (plan samplePrune
          Descriptor.sampleFile ⟨[("b.ts", .rule "a")]⟩ replannedFiles).1).render = .ok d' ∧
        plan samplePrune d' ⟨[("b.ts", .rule "a")]⟩ replannedFiles = ([], []) := by
  have hd : (Descriptor.sampleFile.rules.map (·.name)).Nodup := by decide
  have hone : ∀ file ∈ replannedFiles, ∀ i ∈ file.imports, ∃ label, i.candidates = [label] := by
    simp [replannedFiles]
  have hreads : ∀ file ∈ replannedFiles, ∀ i ∈ file.imports, ∀ label ∈ i.candidates,
      label.ReadsIn "p" := by
    simp only [replannedFiles, List.mem_singleton, forall_eq, Label.ReadsIn]
    decide
  have hn : samplePrune.isSome = true → ∀ r ∈ Descriptor.sampleFile.rules, ∀ deps,
      r.deps.values? = some deps → deps.Nodup := by
    rintro - r hr deps hdeps
    obtain rfl := List.mem_singleton.1 hr
    cases hdeps
    decide
  obtain ⟨d', hparse, hnone, -⟩ := plan_again Descriptor.parse_sampleText hd
    ⟨[("b.ts", .rule "a")]⟩ hone hreads samplePrune hn
  exact ⟨Descriptor.parse_sampleText, hd, hone, hreads, hn, d', hparse, hnone⟩

end Dependency

end BuildSync
