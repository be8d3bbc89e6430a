import BuildSync.Proofs.Build.Setters

/-!
# Entries of a list that are marked to be kept

When a list is replaced, a dependency that stays is written as its first entry
(`ListValue.itemFor_withValues`).

* `Rule.protects`: the first entry of a dependency has the mark.
* `Rule.protects_setDeps`: setting the dependencies of a rule leaves the mark of those that stay.
* `Rule.isKept_setDeps`: so a dependency that is listed once stays kept.
-/

namespace BuildSync.Build

namespace ListValue

variable {α : Type} [DecidableEq α] (list : ListValue α)

@[simp] theorem value_itemFor (value : α) : (list.itemFor value).value = value := by
  unfold itemFor
  cases hf : list.items.find? (fun item => item.value = value) with
  | none => rfl
  | some item => simpa using List.find?_some hf

/-- **The first entry of a value stands for it**, in every list that replaces the list. -/
theorem itemFor_withValues {values : List α} {value : α} (h : value ∈ values) :
    (list.withValues values).itemFor value = list.itemFor value := by
  have hfind : (values.map list.itemFor).find? (fun item => item.value = value) =
      some (list.itemFor value) := by
    induction values with
    | nil => cases h
    | cons first rest ih =>
      rw [List.map_cons, List.find?_cons]
      by_cases hfirst : first = value
      · simp [hfirst]
      · simpa [hfirst] using ih ((List.mem_cons.1 h).resolve_left (Ne.symm hfirst))
  rw [itemFor, withValues, hfind, Option.getD_some]

/-- A value whose entry has a comment is in the list. -/
theorem itemFor_mem {value : α} {P : String → Bool}
    (h : (list.itemFor value).trailing.any P = true) : list.itemFor value ∈ list.items := by
  unfold itemFor at h ⊢
  cases hf : list.items.find? (fun item => item.value = value) with
  | none =>
    rw [hf] at h
    cases h
  | some item => exact List.mem_of_find?_eq_some hf

end ListValue

theorem ListAttr.replace?_literal {α : Type} [DecidableEq α] {list new : ListValue α}
    {values : List α} (h : (literal list).replace? values = some new) :
    new = list.withValues values := by
  unfold replace? at h
  split at h <;> simp_all

namespace Rule

variable {rule r r' : Rule} {label : Label} {package : String}

/-- The first entry of a dependency has a comment that protects it. -/
def protects (rule : Rule) (label : Label) : Bool :=
  match rule.deps with
  | .literal list => (list.itemFor label).trailing.any isKeep
  | _ => false

theorem protects_iff : rule.protects label = true ↔
    ∃ list, rule.deps = .literal list ∧ (list.itemFor label).trailing.any isKeep = true := by
  unfold protects
  split
  · rename_i list hlist
    simp [hlist]
  · rename_i hnone
    simp only [Bool.false_eq_true, false_iff, not_exists, not_and]
    exact fun list hlist => absurd hlist (hnone list)

theorem protects_congr (h : r'.deps = r.deps) : r'.protects = r.protects := by
  funext label
  unfold protects
  rw [h]

/-- A protected dependency is listed and kept. -/
theorem isKept_of_protects (h : rule.protects label = true) :
    rule.isKept label = true ∧ ∃ deps, rule.deps.values? = some deps ∧ label ∈ deps := by
  obtain ⟨list, hlist, hkeep⟩ := protects_iff.1 h
  have hmem := list.itemFor_mem hkeep
  have hvalue := list.value_itemFor label
  refine ⟨?_, list.values, by rw [hlist]; rfl, List.mem_map.2 ⟨_, hmem, hvalue⟩⟩
  unfold isKept
  rw [hlist]
  exact List.any_eq_true.2 ⟨_, hmem, by simp [hkeep]⟩

/-- A kept dependency that is listed once is protected. -/
theorem protects_of_isKept {deps : List Label} (h : rule.isKept label = true)
    (hdeps : rule.deps.values? = some deps) (hn : deps.Nodup) : rule.protects label = true := by
  unfold isKept at h
  split at h
  · rename_i list hlist
    rw [hlist] at hdeps
    cases hdeps
    obtain ⟨item, hmem, hitem⟩ := List.any_eq_true.1 h
    rw [Bool.and_eq_true, decide_eq_true_eq] at hitem
    obtain ⟨rfl, hkeep⟩ := hitem
    refine protects_iff.2 ⟨list, hlist, ?_⟩
    -- The entry that stands for the dependency is this one.
    have hfirst : list.itemFor item.value = item := by
      unfold ListValue.itemFor
      cases hf : list.items.find? (fun other => other.value = item.value) with
      | none => exact absurd (List.find?_eq_none.1 hf item hmem) (by simp)
      | some other =>
        exact List.inj_on_of_nodup_map hn (List.mem_of_find?_eq_some hf) hmem
          (by simpa using List.find?_some hf)
    rwa [hfirst]
  · cases h

/-- **Setting dependencies leaves the mark** of a dependency that stays. -/
theorem protects_setDeps {labels deps : List Label} (h : r.protects label = true)
    (hdeps : (r.setDeps package labels).deps.values? = some deps) (hm : label ∈ deps) :
    (r.setDeps package labels).protects label = true := by
  obtain ⟨list, hlist, hkeep⟩ := protects_iff.1 h
  cases hreplace : r.deps.replace? (r.arrangeDeps package labels) with
  | none =>
    have hsame : r.setDeps package labels = r := by
      unfold setDeps
      rw [hreplace]
    rwa [hsame]
  | some new =>
    have hset : (r.setDeps package labels).deps = .literal new := by
      unfold setDeps
      rw [hreplace]
    rw [hlist] at hreplace
    obtain rfl := ListAttr.replace?_literal hreplace
    rw [hset] at hdeps
    cases hdeps
    rw [ListValue.values_withValues] at hm
    refine protects_iff.2 ⟨_, hset, ?_⟩
    rwa [list.itemFor_withValues hm]

/-- A kept dependency that is listed once stays kept. -/
theorem isKept_setDeps {labels old deps : List Label} (h : r.isKept label = true)
    (hold : r.deps.values? = some old) (hn : old.Nodup)
    (hdeps : (r.setDeps package labels).deps.values? = some deps) (hm : label ∈ deps) :
    (r.setDeps package labels).isKept label = true :=
  (isKept_of_protects (protects_setDeps (protects_of_isKept h hold hn) hdeps hm)).1

end Rule

end BuildSync.Build
