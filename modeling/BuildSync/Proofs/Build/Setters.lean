import BuildSync.Build.Rule
import BuildSync.Proofs.Order

/-!
# Setting the lists of a rule

* `ListAttr.values?_replaced`: a list attribute that has values gets the new ones.
* `Rule.setSrcs_eq`, `Rule.setDeps_eq`: a setter touches its own list and flag only.
* `Rule.srcs_setSrcs`, `Rule.deps_setDeps`: the values that a setter leaves.
-/

namespace BuildSync.Build

namespace ListAttr

/-- The attribute with other values, itself if that changes nothing or cannot be done. -/
def replaced [DecidableEq α] (attr : ListAttr α) (values : List α) : ListAttr α :=
  ((attr.replace? values).map ListAttr.literal).getD attr

/-- **A list attribute that has values gets the new ones.** -/
theorem values?_replaced [DecidableEq α] {attr : ListAttr α} {old : List α} (new : List α)
    (h : attr.values? = some old) : (attr.replaced new).values? = some new := by
  cases attr with
  | computed => cases h
  | absent =>
    by_cases hn : new = []
    · simp [replaced, replace?, values?, hn]
    · simp [replaced, replace?, values?, hn, ListValue.values_withValues]
  | literal list =>
    by_cases hn : list.values = new
    · simp [replaced, replace?, values?, hn]
    · simp [replaced, replace?, values?, hn, ListValue.values_withValues]

/-- A computed list stays. -/
@[simp] theorem replaced_computed [DecidableEq α] (new : List α) :
    (computed : ListAttr α).replaced new = computed := rfl

end ListAttr

namespace Rule

/-- Setting sources touches nothing else. -/
theorem setSrcs_eq (r : Rule) (names : List String) :
    r.setSrcs names = { r with
      srcs := r.srcs.replaced (sortedTexts names)
      srcsChanged := r.srcsChanged || (r.srcs.replace? (sortedTexts names)).isSome } := by
  unfold setSrcs ListAttr.replaced
  cases h : r.srcs.replace? (sortedTexts names) <;> simp

/-- Setting dependencies touches nothing else. -/
theorem setDeps_eq (r : Rule) (package : String) (labels : List Label) :
    r.setDeps package labels = { r with
      deps := r.deps.replaced (r.arrangeDeps package labels)
      depsChanged := r.depsChanged ||
        (r.deps.replace? (r.arrangeDeps package labels)).isSome } := by
  unfold setDeps ListAttr.replaced
  cases h : r.deps.replace? (r.arrangeDeps package labels) <;> simp

@[simp] theorem name_setSrcs (r : Rule) (names : List String) :
    (r.setSrcs names).name = r.name := by
  rw [setSrcs_eq]

@[simp] theorem kind_setSrcs (r : Rule) (names : List String) :
    (r.setSrcs names).kind = r.kind := by
  rw [setSrcs_eq]

@[simp] theorem deps_setSrcs (r : Rule) (names : List String) :
    (r.setSrcs names).deps = r.deps := by
  rw [setSrcs_eq]

@[simp] theorem name_setDeps (r : Rule) (package : String) (labels : List Label) :
    (r.setDeps package labels).name = r.name := by
  rw [setDeps_eq]

@[simp] theorem kind_setDeps (r : Rule) (package : String) (labels : List Label) :
    (r.setDeps package labels).kind = r.kind := by
  rw [setDeps_eq]

/-- **Sources that are written out are what was set**, in order and each once. -/
theorem srcs_setSrcs {r : Rule} {old : List String} (names : List String)
    (h : r.srcs.values? = some old) :
    (r.setSrcs names).srcs.values? = some (sortedTexts names) := by
  rw [setSrcs_eq]
  exact ListAttr.values?_replaced _ h

/-- **Dependencies that are written out are what was set**, in order. -/
theorem deps_setDeps {r : Rule} {package : String} {labels old : List Label}
    (h : r.deps.values? = some old) :
    (r.setDeps package labels).deps.values? = some (r.arrangeDeps package labels) := by
  rw [setDeps_eq]
  exact ListAttr.values?_replaced _ h

/-- Dependencies that are set are arranged, unless they are computed. -/
theorem deps_of_setDeps {r : Rule} {package : String} {labels deps : List Label}
    (h : (r.setDeps package labels).deps.values? = some deps) :
    deps = r.arrangeDeps package labels := by
  cases hold : r.deps.values? with
  | some old =>
    rw [deps_setDeps hold] at h
    exact (Option.some.inj h).symm
  | none =>
    have hcomputed : r.deps = .computed := by
      cases hdeps : r.deps <;> simp_all [ListAttr.values?]
    rw [setDeps_eq, hcomputed] at h
    cases h

theorem mem_arrangeDeps {r : Rule} {package : String} {labels : List Label} {label : Label} :
    label ∈ r.arrangeDeps package labels ↔ label ∈ labels ∧ label ≠ r.label package := by
  unfold arrangeDeps
  rw [mem_dropRepeats, (Label.sortFor_perm package _).mem_iff, List.mem_filter, decide_eq_true_eq]

/-- Labels already without the rule's own and without repetitions are only sorted. -/
theorem arrangeDeps_of_nodup {r : Rule} {package : String} {labels : List Label}
    (hn : labels.Nodup) (ho : r.label package ∉ labels) :
    r.arrangeDeps package labels = Label.sortFor package labels := by
  have hfilter : labels.filter (· ≠ r.label package) = labels :=
    List.filter_eq_self.2 fun l hl => decide_eq_true fun he => ho (he ▸ hl)
  unfold arrangeDeps
  rw [hfilter, dropRepeats_of_nodup ((Label.sortFor_perm package labels).nodup_iff.2 hn)]

/-- A rule lists a file exactly if its sources are written out and hold the file. -/
theorem owns_iff {r : Rule} {file : String} :
    r.owns file = true ↔ ∃ values, r.srcs.values? = some values ∧ file ∈ values := by
  unfold owns
  cases h : r.srcs with
  | absent => simp [ListAttr.values?]
  | computed => simp [ListAttr.values?]
  | literal list => simp [ListAttr.values?]

end Rule

end BuildSync.Build
