import Mathlib.Data.List.Infix
import BuildSync.Label

/-!
# Labels that are read back

* `Label.IsPlain`: the parts of a label can be told apart in its written form.
* `Label.parse?_renderIn`: a plain label is read back in every package;
  `Label.parse?_renderIn_own`: one of the package itself, whatever the package is called.
* `Label.isPlain_of_parse?`, `Label.reads_of_parse?`: so is a label that was read.
* `Label.reads_everywhere`: a label that was read in a package of a plain name is read back wherever
  it is written, and nothing else is written like it.
-/

namespace BuildSync

/-! ## Cuts -/

namespace Text

theorem cut?_append {sep : Char} {front : List Char} (h : sep ∉ front) (back : List Char) :
    cut? [sep] (front ++ sep :: back) = some (front, back) := by
  induction front with
  | nil => simp [cut?, strip?]
  | cons c front ih =>
    rw [List.mem_cons, not_or] at h
    simp [cut?, strip?, h.1, ih h.2]

theorem cut?_eq_none {sep : Char} {cs : List Char} : cut? [sep] cs = none ↔ sep ∉ cs := by
  induction cs with
  | nil => simp [cut?]
  | cons c cs ih =>
    by_cases h : sep = c
    · simp [cut?, strip?, h]
    · simp [cut?, strip?, h, ih]

theorem not_mem_of_cut? {sep : Char} {cs front back : List Char}
    (h : cut? [sep] cs = some (front, back)) : sep ∉ front := by
  induction cs generalizing front with
  | nil => simp [cut?] at h
  | cons c cs ih =>
    by_cases hc : sep = c
    · simp only [cut?, strip?, hc, if_true, Option.some.injEq, Prod.mk.injEq] at h
      simp [← h.1]
    · simp only [cut?, strip?, if_neg hc, Option.map_eq_some_iff] at h
      obtain ⟨⟨front', back'⟩, hcut, he⟩ := h
      obtain ⟨rfl, rfl⟩ := Prod.mk.inj he
      simp [hc, ih hcut]

/-- A separator ends a text at the first place where it stands. -/
theorem cut?_of_not_infix {sep front : List Char} (hsep : sep ≠ [])
    (h : ¬ sep <:+: front ++ sep.dropLast) (back : List Char) :
    cut? sep (front ++ sep ++ back) = some (front, back) := by
  induction front with
  | nil =>
    obtain ⟨s, ss, rfl⟩ := List.exists_cons_of_ne_nil hsep
    have hstrip : strip? (s :: ss) (s :: (ss ++ back)) = some back := strip?_eq_some_iff.2 rfl
    rw [List.nil_append, List.cons_append, cut?, hstrip]
  | cons c front ih =>
    have hrest : ¬ sep <:+: front ++ sep.dropLast := fun hi =>
      h (hi.trans (List.suffix_cons _ _).isInfix)
    have hhead : strip? sep (c :: front ++ sep ++ back) = none := by
      refine Option.eq_none_iff_forall_ne_some.2 fun rest hstrip => h ?_
      have hshort : c :: front ++ sep.dropLast <+: c :: front ++ sep ++ back :=
        ((List.prefix_append_right_inj _).2 (List.dropLast_prefix sep)).trans
          (List.prefix_append _ _)
      have hpos := List.length_pos_of_ne_nil hsep
      refine (List.prefix_of_prefix_length_le ⟨rest, (strip?_eq_some_iff.1 hstrip).symm⟩ hshort
        ?_).isInfix
      simp only [List.length_append, List.length_cons, List.length_dropLast]
      omega
    rw [List.cons_append, List.cons_append] at hhead ⊢
    rw [cut?, hhead]
    dsimp only
    rw [ih hrest]
    rfl

theorem not_infix_of_cut? {cs front back : List Char}
    (h : cut? ['/', '/'] cs = some (front, back)) : ¬ ['/', '/'] <:+: front ++ ['/'] := by
  induction cs generalizing front with
  | nil => simp [cut?] at h
  | cons c cs ih =>
    rw [cut?] at h
    cases hs : strip? ['/', '/'] (c :: cs) with
    | some rest =>
      rw [hs] at h
      obtain ⟨rfl, -⟩ := Prod.mk.inj (Option.some.inj h)
      rintro hi
      exact absurd hi.length_le (by simp)
    | none =>
      rw [hs] at h
      obtain ⟨⟨front', back'⟩, hcut, he⟩ := Option.map_eq_some_iff.1 h
      obtain ⟨rfl, rfl⟩ := Prod.mk.inj he
      rw [List.cons_append, List.infix_cons_iff]
      rintro (hp | hi)
      · -- Two slashes at the front would have been found there.
        have hcs := cut?_eq_some hcut
        rw [List.cons_prefix_cons] at hp
        obtain ⟨rfl, hp⟩ := hp
        obtain ⟨rest, hrest⟩ : ∃ rest, cs = '/' :: rest := by
          cases front' with
          | nil => exact ⟨_, by rw [hcs]; rfl⟩
          | cons d front' =>
            rw [List.cons_append, List.cons_prefix_cons] at hp
            exact ⟨_, by rw [hcs, ← hp.1]; rfl⟩
        rw [hrest] at hs
        simp [strip?] at hs
      · exact ih hcut hi

theorem lastSegment_subset {cs : List Char} : ∀ c ∈ lastSegment cs, c ∈ cs := by
  intro c hc
  unfold lastSegment at hc
  rw [List.mem_reverse] at hc
  exact List.mem_reverse.1 ((List.takeWhile_subset _) hc)

end Text

namespace Label

/-! ## Plain labels -/

/-- A text without blanks and colons. -/
def IsPlainText (text : String) : Prop :=
  ∀ c ∈ text.toList, Text.isBlank c = false ∧ c ≠ ':'

theorem isPlainText_of_all {text : String}
    (h : text.toList.all (fun c => !Text.isBlank c && c != ':') = true) : IsPlainText text := by
  intro c hc
  simpa using List.all_eq_true.1 h c hc

/-- A name that a label can have. -/
structure IsPlainName (name : String) : Prop where
  ne_empty : name ≠ ""
  plain : IsPlainText name

/-- The name of a package has no slash at its ends. -/
structure IsTrimmed (package : String) : Prop where
  head : package.toList.head? ≠ some '/'
  last : package.toList.getLast? ≠ some '/'

/-- The name of a repository ends where two slashes stand. -/
structure IsRepo (repo : String) : Prop where
  ne_empty : repo ≠ ""
  blank : ∀ c ∈ repo.toList, Text.isBlank c = false
  slashes : ¬ ['/', '/'] <:+: repo.toList ++ ['/']

/-- The parts of a label can be told apart in its written form. -/
structure IsPlain (label : Label) : Prop where
  name : IsPlainName label.name
  package : IsPlainText label.package
  trimmed : IsTrimmed label.package
  repo : ∀ repo, label.repo = some repo → IsRepo repo

/-- A label that a BUILD file of `package` is read with as it was written there. -/
def ReadsIn (label : Label) (package : String) : Prop :=
  parse? (label.renderIn package) package = some label

theorem isPlain_ofPackage {package name : String} (hn : IsPlainName name)
    (hp : IsPlainText package) (ht : IsTrimmed package) : (ofPackage package name).IsPlain :=
  ⟨hn, hp, ht, fun _ hr => by cases hr⟩

theorem IsPlainName.append {name suffix : String} (hn : IsPlainName name)
    (hs : IsPlainText suffix) : IsPlainName (name ++ suffix) := by
  refine ⟨fun h => hn.ne_empty ?_, fun c hc => ?_⟩
  · have hlist : (name ++ suffix).toList = [] := by rw [h]; rfl
    rw [String.toList_append, List.append_eq_nil_iff] at hlist
    exact String.toList_inj.1 hlist.1
  · rw [String.toList_append] at hc
    exact (List.mem_append.1 hc).elim (hn.plain c) (hs c)

theorem ofParts?_eq_some {repo : Option String} {package name : List Char} {label : Label} :
    ofParts? repo package name = some label ↔
      (name ≠ [] ∧ ':' ∉ name ∧ package.head? ≠ some '/' ∧ package.getLast? ≠ some '/') ∧
        label = ⟨repo, String.ofList package, String.ofList name⟩ := by
  unfold ofParts?
  split
  · rename_i h
    simp only [reduceCtorEq, false_iff]
    tauto
  · rename_i h
    simp only [not_or] at h
    rw [Option.some.injEq, eq_comm]
    tauto

theorem ofParts?_of_plain {repo : Option String} {package name : String} (hn : IsPlainName name)
    (hp : IsTrimmed package) :
    ofParts? repo package.toList name.toList = some ⟨repo, package, name⟩ := by
  refine ofParts?_eq_some.2 ⟨⟨by simpa using hn.ne_empty, fun hc => (hn.plain _ hc).2 rfl,
    hp.head, hp.last⟩, ?_⟩
  rw [String.ofList_toList, String.ofList_toList]

/-! ## Reading back -/

theorem not_blank {cs : List Char} (hn : cs ≠ []) (hb : ∀ d ∈ cs, Text.isBlank d = false) :
    ¬ (cs = [] ∨ cs.any Text.isBlank = true) := by
  rw [List.any_eq_true]
  rintro (hnil | ⟨d, hd, hblank⟩)
  · exact hn hnil
  · rw [hb d hd] at hblank
    cases hblank

/-- **A label of the package itself** is read back, whatever the package is called. -/
theorem parse?_renderIn_own {label : Label} {package : String} (hi : label.isIn package = true)
    (hn : IsPlainName label.name) (hp : IsTrimmed package) : label.ReadsIn package := by
  obtain ⟨repo, package', name⟩ := label
  simp only [isIn, Bool.and_eq_true, Option.isNone_iff_eq_none, beq_iff_eq] at hi
  obtain ⟨rfl, rfl⟩ := hi
  have htext : (renderIn ⟨none, package', name⟩ package').toList = ':' :: name.toList := by
    simp [renderIn, isIn]
  have hblank : ∀ d ∈ ':' :: name.toList, Text.isBlank d = false := by
    rw [List.forall_mem_cons]
    exact ⟨by decide, fun d hd => (hn.plain d hd).1⟩
  unfold ReadsIn parse?
  dsimp only
  rw [htext, if_neg (not_blank (by simp) hblank)]
  exact ofParts?_of_plain hn hp

/-- What follows the repository is read back. -/
theorem ofAbsolute?_of_plain {repo : Option String} {package name : String}
    (hn : IsPlainName name) (hp : IsPlainText package) (ht : IsTrimmed package) :
    ofAbsolute? repo (package.toList ++ ':' :: name.toList) = some ⟨repo, package, name⟩ ∧
      (Text.lastSegment package.toList = name.toList →
        ofAbsolute? repo package.toList = some ⟨repo, package, name⟩) := by
  have hcolon : ':' ∉ package.toList := fun hc => (hp _ hc).2 rfl
  constructor
  · unfold ofAbsolute?
    rw [Text.cut?_append hcolon]
    exact ofParts?_of_plain hn ht
  · intro hlast
    unfold ofAbsolute?
    rw [Text.cut?_eq_none.2 hcolon, hlast]
    exact ofParts?_of_plain hn ht

/-- What stands after the root of a repository is read as what it is there. -/
theorem parse?_root {label : Label} {rest : String}
    (hr : ∀ repo, label.repo = some repo → IsRepo repo)
    (hb : ∀ c ∈ rest.toList, Text.isBlank c = false) (package : String) :
    parse? (label.root ++ rest) package = ofAbsolute? label.repo rest.toList := by
  cases hrepo : label.repo with
  | none =>
    have htext : (label.root ++ rest).toList = '/' :: '/' :: rest.toList := by
      simp [root, hrepo]
    have hblank : ∀ d ∈ '/' :: '/' :: rest.toList, Text.isBlank d = false := by
      rw [List.forall_mem_cons, List.forall_mem_cons]
      exact ⟨by decide, by decide, hb⟩
    unfold parse?
    dsimp only
    rw [htext, if_neg (not_blank (by simp) hblank)]
    rfl
  | some repo =>
    have h := hr repo hrepo
    have htext : (label.root ++ rest).toList =
        '@' :: (repo.toList ++ '/' :: '/' :: rest.toList) := by
      simp [root, hrepo]
    have hblank : ∀ d ∈ '@' :: (repo.toList ++ '/' :: '/' :: rest.toList),
        Text.isBlank d = false := by
      rw [List.forall_mem_cons, List.forall_mem_append, List.forall_mem_cons, List.forall_mem_cons]
      exact ⟨by decide, h.blank, by decide, by decide, hb⟩
    unfold parse?
    dsimp only
    rw [htext, if_neg (not_blank (by simp) hblank)]
    have hcut : Text.cut? ['/', '/'] (repo.toList ++ '/' :: '/' :: rest.toList) =
        some (repo.toList, rest.toList) := by
      simpa using Text.cut?_of_not_infix (by simp) h.slashes rest.toList
    simp only [hcut]
    rw [if_neg (by simpa using h.ne_empty), String.ofList_toList]

theorem canonical_eq (label : Label) :
    label.canonical = label.root ++ (label.package ++ ":" ++ label.name) := by
  simp [canonical, String.append_assoc]

/-- A plain label is read back from its full form. -/
theorem parse?_canonical {label : Label} (h : label.IsPlain) (package : String) :
    parse? label.canonical package = some label := by
  obtain ⟨hfull, -⟩ := @ofAbsolute?_of_plain label.repo _ _ h.name h.package h.trimmed
  have hlist : (label.package ++ ":" ++ label.name).toList =
      label.package.toList ++ ':' :: label.name.toList := by
    simp
  rw [canonical_eq, parse?_root h.repo, hlist]
  · exact hfull
  · rw [hlist, List.forall_mem_append, List.forall_mem_cons]
    exact ⟨fun c hc => (h.package c hc).1, by decide, fun c hc => (h.name.plain c hc).1⟩

/-- **A plain label is read back in every package.** -/
theorem parse?_renderIn {label : Label} (h : label.IsPlain) (package : String) :
    label.ReadsIn package := by
  by_cases hi : label.isIn package = true
  · have hp : label.package = package := by
      rw [isIn, Bool.and_eq_true] at hi
      exact eq_of_beq hi.2
    exact parse?_renderIn_own hi h.name (hp ▸ h.trimmed)
  · obtain ⟨-, hshort⟩ := @ofAbsolute?_of_plain label.repo _ _ h.name h.package h.trimmed
    unfold ReadsIn renderIn
    rw [if_neg hi]
    split
    · rename_i hs
      rw [isShort, Bool.and_eq_true] at hs
      rw [parse?_root h.repo fun c hc => (h.package c hc).1]
      exact hshort (eq_of_beq hs.2)
    · exact parse?_canonical h package

/-- The full form says where its repository starts. -/
theorem parseAbsolute?_canonical {label : Label} (h : label.IsPlain) :
    parseAbsolute? label.canonical = some label := by
  have hroot : ∃ c cs, label.canonical.toList = c :: cs ∧
      (c = '@' ∨ c = '/' ∧ cs.head? = some '/') := by
    rw [canonical_eq, String.toList_append]
    cases hrepo : label.repo <;> simp [root, hrepo]
  unfold parseAbsolute?
  obtain ⟨c, cs, htext, rfl | ⟨rfl, hc⟩⟩ := hroot
  · rw [htext]
    exact parse?_canonical h ""
  · obtain ⟨cs', rfl⟩ := List.head?_eq_some_iff.1 hc
    rw [htext]
    exact parse?_canonical h ""

/-- Labels that are read back are not written alike. -/
theorem ReadsIn.inj {a b : Label} {package : String} (ha : a.ReadsIn package)
    (hb : b.ReadsIn package) (h : a.renderIn package = b.renderIn package) : a = b := by
  unfold ReadsIn at ha hb
  rw [h, hb] at ha
  exact (Option.some.inj ha).symm

/-! ## Labels that were read -/

theorem isPlain_of_ofAbsolute? {repo : Option String} {rest : List Char} {label : Label}
    (h : ofAbsolute? repo rest = some label) (hb : ∀ c ∈ rest, Text.isBlank c = false)
    (hr : ∀ r, repo = some r → IsRepo r) : label.IsPlain := by
  unfold ofAbsolute? at h
  split at h
  · rename_i package name hcut
    obtain ⟨⟨hne, hcolon, hhead, hlast⟩, rfl⟩ := ofParts?_eq_some.1 h
    have hrest := Text.cut?_eq_some hcut
    have hfront := Text.not_mem_of_cut? hcut
    refine ⟨⟨by simpa using hne, ?_⟩, ?_, ⟨by simpa using hhead, by simpa using hlast⟩, hr⟩
    · intro c hc
      rw [String.toList_ofList] at hc
      exact ⟨hb c (by simp [hrest, hc]), fun he => hcolon (he ▸ hc)⟩
    · intro c hc
      rw [String.toList_ofList] at hc
      exact ⟨hb c (by simp [hrest, hc]), fun he => hfront (he ▸ hc)⟩
  · rename_i hcut
    obtain ⟨⟨hne, hcolon, hhead, hlast⟩, rfl⟩ := ofParts?_eq_some.1 h
    have hrest := Text.cut?_eq_none.1 hcut
    refine ⟨⟨by simpa using hne, ?_⟩, ?_, ⟨by simpa using hhead, by simpa using hlast⟩, hr⟩
    · intro c hc
      rw [String.toList_ofList] at hc
      exact ⟨hb c (Text.lastSegment_subset c hc), fun he => hcolon (he ▸ hc)⟩
    · intro c hc
      rw [String.toList_ofList] at hc
      exact ⟨hb c hc, fun he => hrest (he ▸ hc)⟩

/-- A text with blanks is no label. -/
theorem isBlank_of_parse? {text package : String} {label : Label}
    (h : parse? text package = some label) : ∀ c ∈ text.toList, Text.isBlank c = false := by
  unfold parse? at h
  dsimp only at h
  split at h
  · cases h
  · rename_i hnot
    rw [not_or, List.any_eq_true] at hnot
    exact fun c hc => Bool.eq_false_iff.2 fun hblank => hnot.2 ⟨c, hc, hblank⟩

/-- What was read is plain, or a label of the package itself. -/
theorem isPlain_or_of_parse? {text package : String} {label : Label}
    (h : parse? text package = some label) :
    label.IsPlain ∨ (label.isIn package = true ∧ IsPlainName label.name ∧ IsTrimmed package) := by
  have hown : ∀ name : List Char, (∀ c ∈ name, Text.isBlank c = false) →
      ofParts? none package.toList name = some label →
      label.isIn package = true ∧ IsPlainName label.name ∧ IsTrimmed package := by
    intro name hb hparts
    obtain ⟨⟨hne, hcolon, hhead, hlast⟩, rfl⟩ := ofParts?_eq_some.1 hparts
    refine ⟨by simp [isIn], ⟨by simpa using hne, fun c hc => ?_⟩, ⟨hhead, hlast⟩⟩
    rw [String.toList_ofList] at hc
    exact ⟨hb c hc, fun he => hcolon (he ▸ hc)⟩
  have hb := isBlank_of_parse? h
  unfold parse? at h
  dsimp only at h
  split at h
  · cases h
  · split at h
    · rename_i rest htext
      rw [htext, List.forall_mem_cons] at hb
      split at h
      · rename_i repo back hcut
        split at h
        · cases h
        · rename_i hne
          have hrest := Text.cut?_eq_some hcut
          refine .inl (isPlain_of_ofAbsolute? h (fun c hc => hb.2 c (by simp [hrest, hc])) ?_)
          rintro r hr
          cases hr
          refine ⟨by simpa using hne, ?_, ?_⟩
          · intro c hc
            rw [String.toList_ofList] at hc
            exact hb.2 c (by simp [hrest, hc])
          · rw [String.toList_ofList]
            exact Text.not_infix_of_cut? hcut
      · cases h
    · rename_i rest htext
      rw [htext, List.forall_mem_cons, List.forall_mem_cons] at hb
      exact .inl (isPlain_of_ofAbsolute? h hb.2.2 fun r hr => by cases hr)
    · rename_i name htext
      rw [htext, List.forall_mem_cons] at hb
      exact .inr (hown name hb.2 h)
    · split at h
      · cases h
      · exact .inr (hown _ hb h)

/-- **A label that was read is read back**, in the same package. -/
theorem reads_of_parse? {text package : String} {label : Label}
    (h : parse? text package = some label) : label.ReadsIn package := by
  rcases isPlain_or_of_parse? h with hplain | ⟨hi, hn, hp⟩
  · exact parse?_renderIn hplain package
  · exact parse?_renderIn_own hi hn hp

/-- **A label that was read in a package of a plain name is plain.** -/
theorem isPlain_of_parse? {text package : String} {label : Label} (hp : IsPlainText package)
    (h : parse? text package = some label) : label.IsPlain := by
  rcases isPlain_or_of_parse? h with hplain | ⟨hi, hn, ht⟩
  · exact hplain
  · obtain ⟨repo, package', name⟩ := label
    simp only [isIn, Bool.and_eq_true, Option.isNone_iff_eq_none, beq_iff_eq] at hi
    obtain ⟨rfl, rfl⟩ := hi
    exact isPlain_ofPackage hn hp ht

/-- A label that was read outside any BUILD file is plain. -/
theorem isPlain_of_parseAbsolute? {text : String} {label : Label}
    (h : parseAbsolute? text = some label) : label.IsPlain := by
  have hparse : parse? text "" = some label := by
    unfold parseAbsolute? at h
    split at h
    · exact h
    · exact h
    · cases h
  exact isPlain_of_parse? (fun c hc => by cases hc) hparse

/-- **A label that was read is read back everywhere**: in every package as it is written there, and
in full outside any BUILD file. No other label is written like it. -/
theorem reads_everywhere {text package : String} {label : Label} (hp : IsPlainText package)
    (h : parse? text package = some label) :
    (∀ other, label.ReadsIn other) ∧ parseAbsolute? label.canonical = some label ∧
      ∀ text' package' label', IsPlainText package' → parse? text' package' = some label' →
        ∀ other, label'.renderIn other = label.renderIn other → label' = label := by
  have hplain := isPlain_of_parse? hp h
  refine ⟨parse?_renderIn hplain, parseAbsolute?_canonical hplain, fun _ _ _ hp' h' other heq => ?_⟩
  exact (parse?_renderIn (isPlain_of_parse? hp' h') other).inj (parse?_renderIn hplain other) heq

/-- An external label whose name has slashes and a sign in it. -/
def oddLabel : Label :=
  ⟨some "npm", "a//b", "@c//b"⟩

theorem reads_everywhere_odd :
    IsPlainText "p" ∧ parse? "@npm//a//b:@c//b" "p" = some oddLabel ∧
      (∀ other, oddLabel.ReadsIn other) ∧ parseAbsolute? oddLabel.canonical = some oddLabel := by
  have hp : IsPlainText "p" := isPlainText_of_all (by decide)
  have hread : parse? "@npm//a//b:@c//b" "p" = some oddLabel := by decide
  obtain ⟨heverywhere, hfull, -⟩ := reads_everywhere hp hread
  exact ⟨hp, hread, heverywhere, hfull⟩

end Label

end BuildSync
