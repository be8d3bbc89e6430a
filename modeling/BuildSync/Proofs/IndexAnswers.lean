import BuildSync.Proofs.IndexLabels

/-!
# What an index answers

The answers of an index are those of the service for the questions that were asked. With an index
file behind it, an answer depends on its question alone.

* `Query.Index.questions_of_build`: each question has an answer;
  `Query.Index.answers_of_build`: the questions with their answers.
* `Query.Index.labels_of_build`, `Query.Index.kindOf?_of_build`: the labels for a question that was
  asked, and the kind of a rule that was asked about.
-/

namespace BuildSync.Query

namespace IndexFile

/-- Whatever question it answers, a rule is of the kind that the file gives. -/
theorem kind_of_mem_answer {file : IndexFile} {key : Key} {rule : KnownRule}
    (h : rule ∈ file.answer key) : rule.kind = (lastOf? file.kinds rule.label).join := by
  have hknown : ∀ labels, rule ∈ file.known labels →
      rule.kind = (lastOf? file.kinds rule.label).join := fun labels hrule => by
    obtain ⟨label, -, rfl⟩ := List.mem_map.1 hrule
    rfl
  cases key with
  | module specifier => exact hknown _ h
  | file path => exact hknown _ h
  | rule label =>
    unfold answer at h
    dsimp only at h
    split at h
    · rename_i kind hkind
      obtain rfl := List.mem_singleton.1 h
      rw [hkind]
      rfl
    · cases h

end IndexFile

namespace Index

variable {file : IndexFile} {keys : List Key} {index : Index}

/-- **Each question has an answer**, whatever service is asked. -/
theorem questions_of_build {service : Service} (h : build service keys = .ok index) :
    index.answers.map Prod.fst = Key.sortedSet keys := by
  unfold build at h
  generalize Key.sortedSet keys = asked at h ⊢
  split at h
  · cases h
    rfl
  · obtain ⟨rules, -, h⟩ := Build.bind_eq_ok.1 h
    by_cases hcount : rules.length = asked.length
    · rw [if_neg (not_not_intro hcount)] at h
      cases h
      exact List.map_fst_zip hcount.ge
    · rw [if_pos hcount] at h
      cases h

variable (h : build file.service keys = .ok index)
include h

/-- **Each question with its answer**, in the order of the questions. -/
theorem answers_of_build :
    index.answers = (Key.sortedSet keys).map fun key => (key, file.answer key) := by
  cases (build_indexFile file keys).symm.trans h
  rfl

/-- **The labels for a question** are those of its answer, if it was asked. -/
theorem labels_of_build (key : Key) : index.labels key =
    if key ∈ keys then Label.sortedSet ((file.answer key).map KnownRule.label) else [] := by
  have hmem : key ∈ Key.sortedSet keys ↔ key ∈ keys := mem_sortedSet
  rw [labels, answers_of_build h]
  split
  · rename_i hasked
    rw [List.lookup_graph file.answer (hmem.2 hasked)]
    rfl
  · rename_i hasked
    have hnone : ((Key.sortedSet keys).map fun key => (key, file.answer key)).lookup key =
        none := by
      refine List.lookup_eq_none_iff.2 fun entry hentry => ?_
      obtain ⟨other, hother, rfl⟩ := List.mem_map.1 hentry
      exact bne_iff_ne.2 fun heq => hasked (hmem.1 (heq ▸ hother))
    simp [hnone, Label.sortedSet, sortedSet, dropRepeats]

/-- **The kind of a rule that was asked about** is the one that the file gives. -/
theorem kindOf?_of_build {label : Label} (hasked : .rule label ∈ keys) :
    index.kindOf? label = (lastOf? file.kinds label).join := by
  have hrules : ∀ rule ∈ (index.answers.flatMap Prod.snd).reverse, rule.label = label →
      rule.kind = (lastOf? file.kinds label).join := fun rule hrule heq => by
    rw [answers_of_build h, List.mem_reverse, List.mem_flatMap] at hrule
    obtain ⟨entry, hentry, hrule⟩ := hrule
    obtain ⟨key, -, rfl⟩ := List.mem_map.1 hentry
    rw [IndexFile.kind_of_mem_answer hrule, heq]
  unfold kindOf?
  cases hkind : (lastOf? file.kinds label).join with
  | none =>
    refine List.findSome?_eq_none_iff.2 fun rule hrule => ?_
    split
    · rename_i heq
      rw [hrules rule hrule heq, hkind]
    · rfl
  | some kind =>
    have hanswer : (⟨label, some kind⟩ : KnownRule) ∈ file.answer (.rule label) := by
      unfold IndexFile.answer
      dsimp only
      rw [Option.join_eq_some_iff.1 hkind]
      exact List.mem_singleton_self _
    have hmem : (⟨label, some kind⟩ : KnownRule) ∈ (index.answers.flatMap Prod.snd).reverse := by
      rw [answers_of_build h, List.mem_reverse, List.mem_flatMap]
      exact ⟨_, List.mem_map_of_mem (mem_sortedSet.2 hasked), hanswer⟩
    cases hfound : (index.answers.flatMap Prod.snd).reverse.findSome? fun rule =>
        if rule.label = label then rule.kind else none with
    | none =>
      have hnone := List.findSome?_eq_none_iff.1 hfound _ hmem
      rw [if_pos rfl] at hnone
      cases hnone
    | some found =>
      obtain ⟨rule, hrule, hsome⟩ := List.exists_of_findSome?_eq_some hfound
      rw [Option.ite_none_right_eq_some] at hsome
      rw [← hsome.2, hrules rule hrule hsome.1, hkind]

end Index

end BuildSync.Query
