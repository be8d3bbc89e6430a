import BuildSync.Proofs.Build.Setters
import BuildSync.Proofs.Labels

/-!
# The order of a dependency list

A list of dependencies that is set is a function of the set of labels.

* `Label.Precedes`: the order in which the labels stand. `Label.precedes_of_writtenLe`: sorted
  labels that were read stand in it, since no two of them are on a par
  (`Label.IsPlain.writtenLe_antisymm`).
* `Build.Rule.arrangeDeps_congr`, `Build.Rule.pairwise_arrangeDeps`: labels are arranged in this
  order, each once, in whatever order and however often they are given.
* `Build.Rule.setDeps_congr`: so setting the dependencies of a rule depends on the set of labels.
-/

namespace BuildSync

namespace Label

/-- The label of a rule in `package`. -/
def IsOwn (package : String) (label : Label) : Prop :=
  label.repo = none ∧ label.package = package

/-- The label of a rule in another package of the main repository. -/
def IsMain (package : String) (label : Label) : Prop :=
  label.repo = none ∧ label.package ≠ package

/-- The label of a rule in another repository. -/
def IsExternal (label : Label) : Prop :=
  label.repo ≠ none

/-- A label stands before another in a dependency list of `package`. -/
inductive Precedes (package : String) (a b : Label) : Prop
  /-- The labels of the package come first, -/
  | own_main : IsOwn package a → IsMain package b → Precedes package a b
  | own_external : IsOwn package a → IsExternal b → Precedes package a b
  /-- then those of the main repository, then external ones, -/
  | main_external : IsMain package a → IsExternal b → Precedes package a b
  /-- and each group stands in the order of its written forms. -/
  | own : IsOwn package a → IsOwn package b → a.renderIn package < b.renderIn package →
      Precedes package a b
  | main : IsMain package a → IsMain package b → a.renderIn package < b.renderIn package →
      Precedes package a b
  | external : IsExternal a → IsExternal b → a.renderIn package < b.renderIn package →
      Precedes package a b

/-- The number of a group tells which it is. -/
theorem group_cases (package : String) (label : Label) :
    IsOwn package label ∧ label.group package = 0 ∨
      IsMain package label ∧ label.group package = 1 ∨
      IsExternal label ∧ label.group package = 2 := by
  unfold group isIn IsOwn IsMain IsExternal
  cases label.repo with
  | some repo => simp
  | none => by_cases h : label.package = package <;> simp [h]

/-- **Plain labels that stand side by side are one label.** Their packages may differ. -/
theorem IsPlain.writtenLe_antisymm {package : String} {a b : Label} (ha : a.IsPlain)
    (hb : b.IsPlain) (hab : writtenLe package a b = true) (hba : writtenLe package b a = true) :
    a = b :=
  (parse?_renderIn ha package).inj (parse?_renderIn hb package) (renderIn_eq_of_writtenLe hab hba)

theorem precedes_of_writtenLe {package : String} {a b : Label} (ha : a.IsPlain) (hb : b.IsPlain)
    (hab : writtenLe package a b = true) (hne : a ≠ b) : Precedes package a b := by
  have hba : writtenLe package b a ≠ true := fun hba => hne (ha.writtenLe_antisymm hb hab hba)
  rw [writtenLe_iff] at hab
  rw [ne_eq, writtenLe_iff, not_or, not_and] at hba
  have hwritten : a.group package = b.group package → a.renderIn package < b.renderIn package :=
    fun hgroup => by simpa [textLe] using hba.2 hgroup.symm
  have hle : a.group package ≤ b.group package := by
    rcases hab with hgroup | ⟨hgroup, -⟩ <;> omega
  rcases group_cases package a with ⟨ha, hga⟩ | ⟨ha, hga⟩ | ⟨ha, hga⟩ <;>
    rcases group_cases package b with ⟨hb, hgb⟩ | ⟨hb, hgb⟩ | ⟨hb, hgb⟩
  · exact .own ha hb (hwritten (hga.trans hgb.symm))
  · exact .own_main ha hb
  · exact .own_external ha hb
  · omega
  · exact .main ha hb (hwritten (hga.trans hgb.symm))
  · exact .main_external ha hb
  · omega
  · omega
  · exact .external ha hb (hwritten (hga.trans hgb.symm))

end Label

namespace Build.Rule

section
variable (r : Rule) (package : String) {labels : List Label} (h : ∀ label ∈ labels, label.IsPlain)
include h

/-- The order tells the labels that are arranged apart. -/
theorem writtenLe_antisymm_of_plain :
    ∀ a ∈ labels.filter (· ≠ r.label package), ∀ b ∈ labels.filter (· ≠ r.label package),
      Label.writtenLe package a b = true → Label.writtenLe package b a = true → a = b :=
  fun a ha b hb => (h a (List.mem_of_mem_filter ha)).writtenLe_antisymm
    (h b (List.mem_of_mem_filter hb))

/-- **Arranged labels depend on the set of labels only.** -/
theorem arrangeDeps_congr {others : List Label} (hsame : ∀ label, label ∈ labels ↔ label ∈ others) :
    r.arrangeDeps package labels = r.arrangeDeps package others :=
  sortedSet_congr (Label.writtenLe_trans package) (Label.writtenLe_total package)
    (writtenLe_antisymm_of_plain r package h) fun label => by
      rw [List.mem_filter, List.mem_filter, hsame]

/-- **Arranged labels stand in strict order.** -/
theorem pairwise_arrangeDeps :
    (r.arrangeDeps package labels).Pairwise (Label.Precedes package) := by
  have hsorted : (r.arrangeDeps package labels).Pairwise
      fun a b => Label.writtenLe package a b = true :=
    pairwise_sortedSet (Label.writtenLe_trans package) (Label.writtenLe_total package) _
  have hnodup : (r.arrangeDeps package labels).Nodup :=
    nodup_sortedSet (Label.writtenLe_trans package) (Label.writtenLe_total package)
      (writtenLe_antisymm_of_plain r package h)
  have hplain : ∀ label ∈ r.arrangeDeps package labels, label.IsPlain :=
    fun label hl => h label (mem_arrangeDeps.1 hl).1
  refine (hsorted.and hnodup).imp_of_mem fun ha hb hab => ?_
  exact Label.precedes_of_writtenLe (hplain _ ha) (hplain _ hb) hab.1 hab.2

end

/-- **The dependencies of a rule depend on the set of labels that is given**, not on their order
and repetitions: the rule is the same, and its list holds each of the labels but its own once, in
strict order. The labels were read in packages of plain names. -/
theorem setDeps_congr {r : Rule} {old : List Label} (hold : r.deps.values? = some old)
    (package : String) {labels others : List Label}
    (hread : ∀ label ∈ labels, ∃ text home, Label.IsPlainText home ∧
      Label.parse? text home = some label)
    (hsame : ∀ label, label ∈ labels ↔ label ∈ others) :
    r.setDeps package labels = r.setDeps package others ∧
      ∃ deps, (r.setDeps package labels).deps.values? = some deps ∧
        (∀ label, label ∈ deps ↔ label ∈ labels ∧ label ≠ r.label package) ∧
        deps.Pairwise (Label.Precedes package) := by
  have hplain : ∀ label ∈ labels, label.IsPlain := fun label hl => by
    obtain ⟨text, home, hhome, hparse⟩ := hread label hl
    exact Label.isPlain_of_parse? hhome hparse
  refine ⟨?_, _, deps_setDeps hold, fun label => mem_arrangeDeps,
    pairwise_arrangeDeps r package hplain⟩
  unfold setDeps
  rw [arrangeDeps_congr r package hplain hsame]

/-- A rule that lists one dependency, which is protected. -/
def keepingRule : Rule :=
  { ofName (.library false) "p" with
    deps := .literal ⟨[⟨⟨none, "a", "a"⟩, some "# keep", []⟩], []⟩ }

/-- Labels of all three groups, and the rule's own. -/
def givenOnce : List Label :=
  [⟨some "npm", "x", "y"⟩, ⟨none, "p", "b"⟩, ⟨none, "p", "p"⟩, ⟨none, "a", "a"⟩]

/-- The same labels in another order, some of them twice. -/
def givenTwice : List Label :=
  [⟨none, "a", "a"⟩, ⟨none, "p", "p"⟩, ⟨none, "a", "a"⟩, ⟨none, "p", "b"⟩, ⟨some "npm", "x", "y"⟩,
    ⟨none, "p", "b"⟩]

theorem setDeps_congr_given :
    keepingRule.deps.values? = some [⟨none, "a", "a"⟩] ∧
      (∀ label ∈ givenOnce, ∃ text home, Label.IsPlainText home ∧
        Label.parse? text home = some label) ∧
      (∀ label, label ∈ givenOnce ↔ label ∈ givenTwice) ∧
      keepingRule.setDeps "p" givenOnce = keepingRule.setDeps "p" givenTwice ∧
      ∃ deps, (keepingRule.setDeps "p" givenOnce).deps.values? = some deps ∧
        deps.Pairwise (Label.Precedes "p") := by
  have hold : keepingRule.deps.values? = some [⟨none, "a", "a"⟩] := rfl
  have hhome : Label.IsPlainText "p" := Label.isPlainText_of_all (by decide)
  have hread : ∀ label ∈ givenOnce, ∃ text home, Label.IsPlainText home ∧
      Label.parse? text home = some label := by
    simp only [givenOnce, List.forall_mem_cons, List.not_mem_nil, false_imp_iff, implies_true,
      and_true]
    exact ⟨⟨"@npm//x:y", "p", hhome, by decide⟩, ⟨":b", "p", hhome, by decide⟩,
      ⟨"p", "p", hhome, by decide⟩, ⟨"//a", "p", hhome, by decide⟩⟩
  have hsame : ∀ label, label ∈ givenOnce ↔ label ∈ givenTwice := by
    intro label
    simp only [givenOnce, givenTwice, List.mem_cons, List.not_mem_nil, or_false]
    tauto
  obtain ⟨hset, deps, hdeps, -, hsorted⟩ := setDeps_congr hold "p" hread hsame
  exact ⟨hold, hread, hsame, hset, deps, hdeps, hsorted⟩

end Build.Rule

end BuildSync
