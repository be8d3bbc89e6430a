import BuildSync.Proofs.Build.Nesting
import BuildSync.Proofs.Labels
import BuildSync.Proofs.Order
import BuildSync.Query.Index
import BuildSync.Query.IndexFile

/-!
# The labels of an index

* `Query.Index.IsPlain`: the labels in the answers are plain.
* `Query.isPlain_of_indexFile`: they are if an index file gives the answers, since its labels are
  read where they stand.
-/

namespace BuildSync

theorem exists_of_mapM_eq_some {α β : Type} {f : α → Option β} {xs : List α} {ys : List β}
    (h : xs.mapM f = some ys) {y : β} (hy : y ∈ ys) : ∃ x ∈ xs, f x = some y := by
  induction xs generalizing ys with
  | nil =>
    cases h
    cases hy
  | cons x xs ih =>
    rw [List.mapM_cons] at h
    obtain ⟨first, hfirst, h⟩ := Option.bind_eq_some_iff.1 h
    obtain ⟨rest, hrest, h⟩ := Option.bind_eq_some_iff.1 h
    cases h
    rcases List.mem_cons.1 hy with rfl | hy
    · exact ⟨x, List.mem_cons_self, hfirst⟩
    · obtain ⟨other, ho, hf⟩ := ih hrest hy
      exact ⟨other, List.mem_cons_of_mem _ ho, hf⟩

namespace Query

/-- The labels in the answers are plain. -/
def Index.IsPlain (index : Index) : Prop :=
  ∀ key, ∀ label ∈ index.labels key, label.IsPlain

/-- The labels of an index file are plain. -/
structure IndexFile.IsPlain (file : IndexFile) : Prop where
  modules : ∀ entry ∈ file.modules, ∀ label ∈ entry.2, label.IsPlain
  files : ∀ entry ∈ file.files, ∀ label ∈ entry.2, label.IsPlain
  kinds : ∀ entry ∈ file.kinds, entry.1.IsPlain

theorem mem_of_lastOf? {α β : Type} [BEq α] [LawfulBEq α] {entries : List (α × β)} {key : α}
    {value : β} (h : lastOf? entries key = some value) : (key, value) ∈ entries := by
  obtain ⟨front, back, hentries, -⟩ := List.lookup_eq_some_iff.1 h
  rw [← List.mem_reverse, hentries]
  simp

namespace IndexFile

theorem isPlain_of_labelLists? {json : Json} {lists : List (String × List Label)}
    (h : labelLists? json = some lists) : ∀ entry ∈ lists, ∀ label ∈ entry.2, label.IsPlain := by
  obtain ⟨fields, -, h⟩ := Option.bind_eq_some_iff.1 h
  intro entry he label hl
  obtain ⟨⟨name, value⟩, -, h⟩ := exists_of_mapM_eq_some h he
  obtain ⟨items, -, h⟩ := Option.bind_eq_some_iff.1 h
  obtain ⟨labels, hlabels, h⟩ := Option.bind_eq_some_iff.1 h
  cases h
  obtain ⟨item, -, h⟩ := exists_of_mapM_eq_some hlabels hl
  obtain ⟨text, -, h⟩ := Option.bind_eq_some_iff.1 h
  exact Label.isPlain_of_parseAbsolute? h

theorem isPlain_of_ruleKinds? {json : Json} {kinds : List (Label × Option Build.RuleKind)}
    (h : ruleKinds? json = some kinds) : ∀ entry ∈ kinds, entry.1.IsPlain := by
  obtain ⟨fields, -, h⟩ := Option.bind_eq_some_iff.1 h
  obtain ⟨functions, -, h⟩ := Option.bind_eq_some_iff.1 h
  intro entry he
  obtain ⟨name, -, h⟩ := exists_of_mapM_eq_some h he
  obtain ⟨label, hlabel, h⟩ := Option.bind_eq_some_iff.1 h
  cases h
  exact Label.isPlain_of_parseAbsolute? hlabel

theorem IsPlain.withField? {file file' : IndexFile} (hf : file.IsPlain) {name : String}
    {json : Json} (h : file.withField? name json = some file') : file'.IsPlain := by
  unfold IndexFile.withField? at h
  split at h
  · obtain ⟨modules, hm, rfl⟩ := Option.map_eq_some_iff.1 h
    exact ⟨isPlain_of_labelLists? hm, hf.files, hf.kinds⟩
  · obtain ⟨files, hm, rfl⟩ := Option.map_eq_some_iff.1 h
    exact ⟨hf.modules, isPlain_of_labelLists? hm, hf.kinds⟩
  · obtain ⟨kinds, hm, rfl⟩ := Option.map_eq_some_iff.1 h
    exact ⟨hf.modules, hf.files, isPlain_of_ruleKinds? hm⟩
  · cases h

theorem isPlain_of_ofFields? {fields : List (String × Json)} {file : IndexFile}
    (h : ofFields? fields = some file) : file.IsPlain := by
  have hfold : ∀ start : IndexFile, start.IsPlain →
      fields.foldlM (fun file field => file.withField? field.1 field.2) start = some file →
      file.IsPlain := by
    clear h
    induction fields with
    | nil =>
      intro start hs h
      cases h
      exact hs
    | cons field fields ih =>
      intro start hs h
      rw [List.foldlM_cons] at h
      obtain ⟨next, hnext, h⟩ := Option.bind_eq_some_iff.1 h
      exact ih next (hs.withField? hnext) h
  unfold ofFields? at h
  split at h
  · exact hfold .empty ⟨by simp [empty], by simp [empty], by simp [empty]⟩ h
  · cases h

theorem isPlain_of_parse? {text : String} {file : IndexFile} (h : parse? text = some file) :
    file.IsPlain := by
  obtain ⟨json, -, h⟩ := Option.bind_eq_some_iff.1 h
  unfold ofJson? at h
  split at h
  · exact isPlain_of_ofFields? h
  · split at h
    · exact isPlain_of_ofFields? h
    · cases h
  · cases h

theorem IsPlain.answer {file : IndexFile} (hf : file.IsPlain) (key : Key) :
    ∀ rule ∈ file.answer key, rule.label.IsPlain := by
  have hknown : ∀ labels : List Label, (∀ label ∈ labels, label.IsPlain) →
      ∀ rule ∈ file.known labels, rule.label.IsPlain := by
    intro labels hl rule hr
    obtain ⟨label, hlabel, rfl⟩ := List.mem_map.1 hr
    exact hl label hlabel
  cases key with
  | module specifier =>
    refine hknown _ fun label hl => ?_
    cases hfound : (moduleNames specifier).findSome? (lastOf? file.modules) with
    | none =>
      rw [hfound] at hl
      cases hl
    | some labels =>
      rw [hfound] at hl
      obtain ⟨name, -, hlast⟩ := List.exists_of_findSome?_eq_some hfound
      exact hf.modules _ (mem_of_lastOf? hlast) label hl
  | file path =>
    refine hknown _ fun label hl => ?_
    cases hfound : lastOf? file.files path with
    | none =>
      rw [hfound] at hl
      cases hl
    | some labels =>
      rw [hfound] at hl
      exact hf.files _ (mem_of_lastOf? hfound) label hl
  | rule label =>
    unfold IndexFile.answer
    dsimp only
    split
    · rename_i kind hkind
      simpa using hf.kinds _ (mem_of_lastOf? hkind)
    · simp

end IndexFile

/-- **An index file answers every question.** -/
theorem Index.build_indexFile (file : IndexFile) (keys : List Key) :
    build file.service keys =
      .ok ⟨(Key.sortedSet keys).map fun key => (key, file.answer key)⟩ := by
  unfold build
  split
  · rename_i hnone
    rw [hnone]
    rfl
  · have hzip := List.zip_map' (f := id) (g := file.answer) (l := Key.sortedSet keys)
    rw [List.map_id] at hzip
    simpa [IndexFile.service, bind, Except.bind, pure, Except.pure] using hzip

@[simp]
theorem Index.labels_empty (key : Key) : Index.empty.labels key = [] := by
  simp [Index.labels, Index.empty, Label.sortedSet, sortedSet, dropRepeats]

/-- **The answers of an index file are plain.** -/
theorem isPlain_of_indexFile {text : String} {file : IndexFile} {keys : List Key} {index : Index}
    (h : IndexFile.parse? text = some file) (hi : Index.build file.service keys = .ok index) :
    index.IsPlain := by
  have hfile := IndexFile.isPlain_of_parse? h
  intro key label hl
  unfold Index.labels at hl
  rw [Label.mem_sortedSet] at hl
  obtain ⟨rule, hrule, rfl⟩ := List.mem_map.1 hl
  cases (Index.build_indexFile file keys).symm.trans hi
  dsimp only at hrule
  cases hlookup : ((Key.sortedSet keys).map fun key => (key, file.answer key)).lookup key with
  | none =>
    rw [hlookup] at hrule
    cases hrule
  | some found =>
    rw [hlookup] at hrule
    obtain ⟨front, back, hentries, -⟩ := List.lookup_eq_some_iff.1 hlookup
    have hmem : (key, found) ∈ (Key.sortedSet keys).map fun key => (key, file.answer key) := by
      rw [hentries]
      simp
    obtain ⟨asked, -, hasked⟩ := List.mem_map.1 hmem
    cases hasked
    exact hfile.answer _ rule hrule

end Query

end BuildSync
