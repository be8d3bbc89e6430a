import Mathlib.Data.List.Basic
import BuildSync.Proofs.FileLabels
import BuildSync.Proofs.ModuleNames
import BuildSync.Proofs.Order

/-!
# The terms of a query

All questions are put to the build tool in one query, whose words hold texts from sources and names
of files. In its language a quoted word goes up to the next quotation mark, and nothing in a word is
escaped.

* `queryTerms`, `wordsOf?`: a query falls into terms outside its words, and a term has words.
* `alternatives?`, `literal?`: the texts that a pattern in a word stands for.
* `IsClosed`: a text that a query has within one term; `queryTerms_joined`: terms with a sign
  between them are found again.
* `alternatives?_names`, `literal?_exactPattern`: a pattern stands for the texts it is made from.
* `terms_expression`: a query has one term for each question, whose words ask just that, unless a
  quotation mark is in a text (`terms_unquotable`).
-/

namespace BuildSync.Query

/-! ## The language of queries -/

/-- What stands between the signs of union outside quoted words, from a place on that may be inside
such a word. -/
def termsFrom : Bool → List Char → List (List Char)
  | _, [] => [[]]
  | false, ' ' :: '+' :: ' ' :: cs => [] :: termsFrom false cs
  | inside, c :: cs => (termsFrom (if c = '\x22' then !inside else inside) cs).modifyHead (c :: ·)

/-- The terms of a query. -/
def queryTerms (text : List Char) : List (List Char) :=
  if text = [] then [] else termsFrom false text

/-- Every second of the parts between quotation marks is a word, if the last word is closed. -/
def closedWords? : List (List Char) → Option (List (List Char))
  | [] => none
  | [_] => some []
  | _ :: word :: rest => (closedWords? rest).map (word :: ·)

/-- The quoted words of a text, none if one of them is not closed. -/
def wordsOf? (text : List Char) : Option (List (List Char)) :=
  closedWords? (Text.splitOnChar '\x22' text)

/-! ## The language of patterns -/

/-- The characters that do not stand for themselves in a regular expression. -/
def metacharacters : List Char :=
  ['^', '$', '.', '|', '?', '*', '+', '(', ')', '[', ']', '\x7b', '\x7d', '\\']

/-- The one text that a pattern matches, none for other patterns. -/
def literal? : List Char → Option (List Char)
  | [] => some []
  | '\\' :: c :: cs => if c ∈ metacharacters then (literal? cs).map (c :: ·) else none
  | c :: cs => if c ∈ metacharacters then none else (literal? cs).map (c :: ·)

/-- The texts between the bars of a group, from behind its opening on up to the end of the
pattern. -/
def grouped? : List Char → Option (List (List Char))
  | [] => none
  | [')', '$'] => some [[]]
  | '|' :: cs => (grouped? cs).map ([] :: ·)
  | '\\' :: c :: cs =>
    if c ∈ metacharacters then (grouped? cs).map (·.modifyHead (c :: ·)) else none
  | c :: cs => if c ∈ metacharacters then none else (grouped? cs).map (·.modifyHead (c :: ·))

/-- The texts that a pattern matches as a whole, none unless it is one group of such texts. -/
def alternatives? : List Char → Option (List (List Char))
  | '^' :: '(' :: cs => grouped? cs
  | _ => none

/-! ## Questions -/

/-- The words of a term ask a question: for the rules with one of these module names, for those that
list the label of the file, or for the rule itself. -/
def Asks (w : Workspace) (t : Tree) (words : List (List Char)) : Key → Prop
  | .module specifier => ∃ pattern, words = ["module_name".toList, pattern] ∧
      alternatives? pattern = some ((moduleNames specifier).map String.toList)
  | .file path => ∃ pattern, words = ["srcs".toList, pattern] ∧
      literal? pattern = some (fileLabel w t path).toList
  | .rule label => words = [label.canonical.toList]

/-- The text that a question puts into words of the query. -/
def Key.text : Key → String
  | .module specifier => specifier
  | .file path => path
  | .rule label => label.canonical

/-- No quotation mark is in the text of a question. -/
def Key.IsQuotable (key : Key) : Prop :=
  '\x22' ∉ key.text.toList

instance (key : Key) : Decidable key.IsQuotable :=
  inferInstanceAs (Decidable ('\x22' ∉ key.text.toList))

/-! ## Terms -/

/-- A text that is within one term of a query, whatever follows it. -/
def IsClosed (text : List Char) : Prop :=
  ∀ rest, termsFrom false (text ++ rest) = (termsFrom false rest).modifyHead (text ++ ·)

theorem termsFrom_cons {inside : Bool} {c : Char} {cs : List Char}
    (h : inside = true ∨ c ≠ ' ' ∨ cs.head? ≠ some '+') :
    termsFrom inside (c :: cs) =
      (termsFrom (if c = '\x22' then !inside else inside) cs).modifyHead (c :: ·) := by
  rw [termsFrom]
  rintro rest rfl rfl rfl
  simp at h

theorem IsClosed.append {a b : List Char} (ha : IsClosed a) (hb : IsClosed b) :
    IsClosed (a ++ b) := by
  intro rest
  rw [List.append_assoc, ha, hb, List.modifyHead_modifyHead]
  simp [Function.comp_def]

theorem modifyHead_nil_append (parts : List (List Char)) : parts.modifyHead ([] ++ ·) = parts := by
  cases parts <;> rfl

/-- A text without blanks and quotation marks. -/
theorem isClosed_of_all {text : List Char}
    (h : (text.all fun c => c != ' ' && c != '\x22') = true) : IsClosed text := by
  intro rest
  induction text with
  | nil => exact (modifyHead_nil_append _).symm
  | cons c text ih =>
    simp only [List.all_cons, Bool.and_eq_true, bne_iff_ne] at h
    rw [List.cons_append, termsFrom_cons (.inr (.inl h.1.1)), if_neg h.1.2, ih h.2,
      List.modifyHead_modifyHead]
    rfl

/-- A blank in front of what is no sign of union. -/
theorem IsClosed.blank {text : List Char} (h : IsClosed text) (hne : text ≠ [])
    (hhead : text.head? ≠ some '+') : IsClosed (' ' :: text) := by
  intro rest
  have hnext : (text ++ rest).head? ≠ some '+' := by rwa [List.head?_append_of_ne_nil text hne]
  rw [List.cons_append, termsFrom_cons (.inr (.inr hnext)), if_neg (by decide), h,
    List.modifyHead_modifyHead]
  rfl

/-- The rest of a quoted word, with its closing mark. -/
theorem termsFrom_word {word : List Char} (h : '\x22' ∉ word) (rest : List Char) :
    termsFrom true (word ++ '\x22' :: rest) =
      (termsFrom false rest).modifyHead (word ++ ['\x22'] ++ ·) := by
  induction word with
  | nil =>
    rw [List.nil_append, termsFrom_cons (.inl rfl), if_pos rfl]
    rfl
  | cons c word ih =>
    rw [List.mem_cons, not_or] at h
    rw [List.cons_append, termsFrom_cons (.inl rfl), if_neg (Ne.symm h.1), ih h.2,
      List.modifyHead_modifyHead]
    rfl

/-- A quoted word, whatever stands in it. -/
theorem isClosed_quoted {word : String} (h : '\x22' ∉ word.toList) :
    IsClosed (quoted word).toList := by
  have hquoted : (quoted word).toList = '\x22' :: (word.toList ++ ['\x22']) := by
    simp [quoted]
  intro rest
  rw [hquoted, List.cons_append, List.append_assoc, List.singleton_append,
    termsFrom_cons (.inr (.inl (by decide))), if_pos rfl, Bool.not_false, termsFrom_word h,
    List.modifyHead_modifyHead]
  rfl

/-- **Terms are found again** between signs of union. -/
theorem queryTerms_joined {terms : List (List Char)} (hne : [] ∉ terms)
    (h : ∀ term ∈ terms, IsClosed term) :
    queryTerms (Text.joined [' ', '+', ' '] terms) = terms := by
  have hsplit : ∀ terms : List (List Char), terms ≠ [] → (∀ term ∈ terms, IsClosed term) →
      termsFrom false (Text.joined [' ', '+', ' '] terms) = terms := by
    intro terms
    induction terms with
    | nil => exact fun hnil => absurd rfl hnil
    | cons term terms ih =>
      intro _ h
      rw [List.forall_mem_cons] at h
      cases terms with
      | nil =>
        have hlast := h.1 []
        rw [List.append_nil] at hlast
        rw [Text.joined, hlast]
        simp [termsFrom]
      | cons next terms =>
        have hjoined : Text.joined [' ', '+', ' '] (term :: next :: terms) =
            term ++ ' ' :: '+' :: ' ' :: Text.joined [' ', '+', ' '] (next :: terms) := by
          simp [Text.joined]
        rw [hjoined, h.1, termsFrom, ih (by simp) h.2]
        simp
  cases terms with
  | nil => rfl
  | cons term terms =>
    have hfirst : term ≠ [] := fun hnil => hne (hnil ▸ List.mem_cons_self)
    have hjoined : Text.joined [' ', '+', ' '] (term :: terms) ≠ [] := by
      cases terms with
      | nil => exact hfirst
      | cons next terms => simp [Text.joined, hfirst]
    rw [queryTerms, if_neg hjoined, hsplit _ (by simp) h]

/-! ## Patterns -/

theorem mem_metacharacters {c : Char} : c ∈ metacharacters ↔ c ∈ patternMarks := by
  have hsame : metacharacters.Perm patternMarks := by decide
  exact hsame.mem_iff

/-- A character as it is written in a pattern. -/
def escaped (c : Char) : List Char :=
  if c ∈ patternMarks then ['\\', c] else [c]

theorem toList_exactPattern (text : String) :
    (exactPattern text).toList = text.toList.flatMap escaped :=
  String.toList_ofList

/-- **A pattern made from a text matches this text alone.** -/
theorem literal?_exactPattern (text : String) :
    literal? (exactPattern text).toList = some text.toList := by
  rw [toList_exactPattern]
  induction text.toList with
  | nil => rfl
  | cons c cs ih =>
    rw [List.flatMap_cons, escaped]
    by_cases hc : c ∈ patternMarks
    · rw [if_pos hc, List.cons_append, List.singleton_append, literal?,
        if_pos (mem_metacharacters.2 hc), ih]
      rfl
    · have hne : c ≠ '\\' := by
        rintro rfl
        exact hc (by decide)
      rw [if_neg hc, List.singleton_append, literal?, if_neg (mt mem_metacharacters.1 hc), ih]
      · rfl
      · exact fun _ _ hback _ => hne hback

theorem grouped?_escaped (c : Char) (cs : List Char) :
    grouped? (escaped c ++ cs) = (grouped? cs).map (·.modifyHead (c :: ·)) := by
  unfold escaped
  by_cases hc : c ∈ patternMarks
  · rw [if_pos hc, List.cons_append, List.singleton_append, grouped?,
      if_pos (mem_metacharacters.2 hc)]
  · have hmarks : ')' ∈ patternMarks ∧ '|' ∈ patternMarks ∧ '\\' ∈ patternMarks := by decide
    rw [if_neg hc, List.singleton_append, grouped?, if_neg (mt mem_metacharacters.1 hc)]
    · rintro rfl _
      exact hc hmarks.1
    · rintro rfl
      exact hc hmarks.2.1
    · rintro _ _ rfl _
      exact hc hmarks.2.2

/-- What is written for a text goes into the first of the texts of a group. -/
theorem grouped?_exactPattern (text : String) (rest : List Char) :
    grouped? ((exactPattern text).toList ++ rest) =
      (grouped? rest).map (·.modifyHead (text.toList ++ ·)) := by
  rw [toList_exactPattern]
  induction text.toList with
  | nil =>
    rw [List.flatMap_nil, List.nil_append]
    cases grouped? rest with
    | none => rfl
    | some parts => exact congrArg some (modifyHead_nil_append parts).symm
  | cons c cs ih =>
    rw [List.flatMap_cons, List.append_assoc, grouped?_escaped, ih, Option.map_map]
    simp [Function.comp_def, List.modifyHead_modifyHead]

/-- **The pattern for module names matches these names.** -/
theorem alternatives?_names {names : List String} (h : names ≠ []) :
    alternatives? ("^(" ++ String.intercalate "|" (names.map exactPattern) ++ ")$").toList =
      some (names.map String.toList) := by
  have hopening : ∀ text : String, ("^(" ++ text ++ ")$").toList =
      '^' :: '(' :: (text.toList ++ [')', '$']) := by simp
  rw [hopening, alternatives?]
  induction names with
  | nil => exact absurd rfl h
  | cons name names ih =>
    cases names with
    | nil =>
      rw [List.map_singleton, String.intercalate_singleton, grouped?_exactPattern, grouped?]
      simp
    | cons next names =>
      rw [List.map_cons, String.intercalate_cons_of_ne_nil (by simp), String.toList_append,
        String.toList_append, List.append_assoc, List.append_assoc, grouped?_exactPattern]
      have hbar : ∀ cs : List Char, "|".toList ++ cs = '|' :: cs := fun _ => rfl
      rw [hbar, grouped?, ih (by simp)]
      simp

/-! ## One question -/

theorem quote_not_mem_exactPattern {text : String} (h : '\x22' ∉ text.toList) :
    '\x22' ∉ (exactPattern text).toList := by
  rw [toList_exactPattern, List.mem_flatMap]
  rintro ⟨c, hc, hmem⟩
  unfold escaped at hmem
  split at hmem
  · rcases List.mem_pair.1 hmem with hback | rfl
    · exact absurd hback (by decide)
    · exact h hc
  · exact h (List.mem_singleton.1 hmem ▸ hc)

/-- The label of a file has the characters of its path. -/
theorem quote_not_mem_fileLabel (w : Workspace) (t : Tree) {path : String}
    (h : '\x22' ∉ path.toList) : '\x22' ∉ (fileLabel w t path).toList := by
  obtain ⟨package, name, hlabel, ⟨rfl, rfl⟩ | rfl⟩ := exists_fileLabel w t path
  · rw [hlabel]
    simpa [Label.ofPackage, Label.canonical, Label.root] using h
  · rw [hlabel]
    simpa [Label.ofPackage, Label.canonical, Label.root] using h

/-- The pattern for module names has the characters of the specifier. -/
theorem quote_not_mem_names {specifier : String} (h : '\x22' ∉ specifier.toList) :
    '\x22' ∉ ("^(" ++ String.intercalate "|" ((moduleNames specifier).map exactPattern) ++
      ")$").toList := by
  have hname : ∀ name ∈ moduleNames specifier, '\x22' ∉ (exactPattern name).toList :=
    fun name hmem => quote_not_mem_exactPattern fun hquote =>
      h ((mem_moduleNames.1 hmem).isPrefix.subset hquote)
  have hjoined : ∀ names : List String, (∀ name ∈ names, '\x22' ∉ (exactPattern name).toList) →
      '\x22' ∉ (String.intercalate "|" (names.map exactPattern)).toList := by
    intro names
    induction names with
    | nil => simp
    | cons name names ih =>
      intro hnames
      rw [List.forall_mem_cons] at hnames
      cases names with
      | nil => simpa using hnames.1
      | cons next names =>
        rw [List.map_cons, String.intercalate_cons_of_ne_nil (by simp), String.toList_append,
          String.toList_append, List.mem_append, List.mem_append, not_or, not_or]
        exact ⟨⟨hnames.1, by decide⟩, ih hnames.2⟩
  simpa using hjoined _ hname

theorem wordsOf?_quoted {word : String} (h : '\x22' ∉ word.toList) :
    wordsOf? (quoted word).toList = some [word.toList] := by
  have hquoted : (quoted word).toList = [] ++ '\x22' :: (word.toList ++ '\x22' :: []) := by
    simp [quoted]
  rw [wordsOf?, hquoted, splitOnChar_append (by simp), splitOnChar_append h,
    splitOnChar_of_not_mem (by simp)]
  rfl

theorem wordsOf?_attributeTerm {name pattern : String} (hname : '\x22' ∉ name.toList)
    (hpattern : '\x22' ∉ pattern.toList) :
    wordsOf? (attributeTerm name pattern).toList = some [name.toList, pattern.toList] := by
  have hterm : (attributeTerm name pattern).toList = "attr(".toList ++ '\x22' :: (name.toList ++
      '\x22' :: (", ".toList ++ '\x22' :: (pattern.toList ++ '\x22' :: ", //...)".toList))) := by
    simp [attributeTerm, quoted]
  have hfront : '\x22' ∉ "attr(".toList := by decide
  have hcomma : '\x22' ∉ ", ".toList := by decide
  have hback : '\x22' ∉ ", //...)".toList := by decide
  rw [wordsOf?, hterm, splitOnChar_append hfront, splitOnChar_append hname,
    splitOnChar_append hcomma, splitOnChar_append hpattern, splitOnChar_of_not_mem hback]
  rfl

theorem isClosed_attributeTerm {name pattern : String} (hname : '\x22' ∉ name.toList)
    (hpattern : '\x22' ∉ pattern.toList) : IsClosed (attributeTerm name pattern).toList := by
  have hterm : (attributeTerm name pattern).toList = "attr(".toList ++ ((quoted name).toList ++
      ([','] ++ (' ' :: (quoted pattern).toList ++ ([','] ++ ' ' :: "//...)".toList)))) := by
    simp [attributeTerm]
  have hopening : IsClosed "attr(".toList := isClosed_of_all (by decide)
  have hcomma : IsClosed [','] := isClosed_of_all (by decide)
  have hscope : IsClosed (' ' :: "//...)".toList) :=
    (isClosed_of_all (by decide)).blank (by decide) (by decide)
  have hword : IsClosed (' ' :: (quoted pattern).toList) :=
    (isClosed_quoted hpattern).blank (by simp [quoted]) (by simp [quoted])
  rw [hterm]
  exact hopening.append ((isClosed_quoted hname).append
    (hcomma.append (hword.append (hcomma.append hscope))))

variable {w : Workspace} {t : Tree}

/-- **The words of a term ask its question.** -/
theorem exists_asks {key : Key} (h : key.IsQuotable) :
    IsClosed (term w t key).toList ∧ (term w t key).toList ≠ [] ∧
      ∃ words, wordsOf? (term w t key).toList = some words ∧ Asks w t words key := by
  cases key with
  | module specifier =>
    have hname : '\x22' ∉ "module_name".toList := by decide
    have hpattern := quote_not_mem_names h
    refine ⟨isClosed_attributeTerm hname hpattern, by simp [term, attributeTerm],
      _, wordsOf?_attributeTerm hname hpattern, _, rfl, alternatives?_names ?_⟩
    simp [moduleNames]
  | file path =>
    have hname : '\x22' ∉ "srcs".toList := by decide
    have hpattern := quote_not_mem_exactPattern (quote_not_mem_fileLabel w t h)
    exact ⟨isClosed_attributeTerm hname hpattern, by simp [term, attributeTerm],
      _, wordsOf?_attributeTerm hname hpattern, _, rfl, literal?_exactPattern _⟩
  | rule label =>
    exact ⟨isClosed_quoted h, by simp [term, quoted], _, wordsOf?_quoted h, rfl⟩

/-! ## The whole query -/

theorem toList_intercalate (sep : String) (texts : List String) :
    (String.intercalate sep texts).toList = Text.joined sep.toList (texts.map String.toList) := by
  induction texts with
  | nil => rfl
  | cons text texts ih =>
    cases texts with
    | nil => simp [Text.joined]
    | cons next texts =>
      rw [String.intercalate_cons_of_ne_nil (by simp), String.toList_append,
        String.toList_append, ih]
      simp [Text.joined]

/-- **A query has one term for each question**, and its words ask that question. -/
theorem terms_expression (w : Workspace) (t : Tree) {keys : List Key}
    (h : ∀ key ∈ keys, key.IsQuotable) :
    (queryTerms (expression w t keys).toList).Nodup ∧
      (∀ text, text ∈ queryTerms (expression w t keys).toList ↔
        ∃ key ∈ keys, text = (term w t key).toList) ∧
      ∀ key ∈ keys, ∃ words, wordsOf? (term w t key).toList = some words ∧ Asks w t words key := by
  have hterms : ∀ text ∈ (sortedTexts (keys.map (term w t))).map String.toList,
      ∃ key ∈ keys, text = (term w t key).toList := by
    intro text hmem
    obtain ⟨_, hsorted, rfl⟩ := List.mem_map.1 hmem
    obtain ⟨key, hkey, rfl⟩ := List.mem_map.1 (mem_sortedTexts.1 hsorted)
    exact ⟨key, hkey, rfl⟩
  have hsplit : queryTerms (expression w t keys).toList =
      (sortedTexts (keys.map (term w t))).map String.toList := by
    rw [expression, toList_intercalate]
    refine queryTerms_joined (fun hnil => ?_) fun text hmem => ?_
    · obtain ⟨key, hkey, htext⟩ := hterms [] hnil
      exact (exists_asks (h key hkey)).2.1 htext.symm
    · obtain ⟨key, hkey, rfl⟩ := hterms text hmem
      exact (exists_asks (h key hkey)).1
  rw [hsplit]
  refine ⟨?_, fun text => ⟨hterms text, ?_⟩, fun key hkey => (exists_asks (h key hkey)).2.2⟩
  · exact (nodup_sortedTexts _).map fun _ _ => String.toList_inj.1
  · rintro ⟨key, hkey, rfl⟩
    exact List.mem_map_of_mem (mem_sortedTexts.2 (List.mem_map_of_mem hkey))

/-- Questions with signs of both languages in their texts, one of them asked twice. -/
def oddKeys : List Key :=
  [.module "a' + 'b/c.*|(d)", .file "p/[x] + 1.ts", .rule ⟨some "npm", "a", "b+c"⟩,
    .module "a' + 'b/c.*|(d)"]

theorem terms_expression_odd :
    (∀ key ∈ oddKeys, key.IsQuotable) ∧
      (queryTerms (expression ⟨["ws"]⟩ .empty oddKeys).toList).Nodup ∧
      ∃ words, wordsOf? (term ⟨["ws"]⟩ .empty (.module "a' + 'b/c.*|(d)")).toList = some words ∧
        words = ["module_name".toList, "^(a' \\+ 'b/c\\.\\*\\|\\(d\\)|a' \\+ 'b)$".toList] := by
  have hkeys : ∀ key ∈ oddKeys, key.IsQuotable := by decide
  obtain ⟨hnodup, -, hwords⟩ := terms_expression ⟨["ws"]⟩ .empty hkeys
  obtain ⟨words, hread, -⟩ := hwords _ List.mem_cons_self
  refine ⟨hkeys, hnodup, words, hread, ?_⟩
  have hterm : wordsOf? (term ⟨["ws"]⟩ .empty (.module "a' + 'b/c.*|(d)")).toList =
      some ["module_name".toList, "^(a' \\+ 'b/c\\.\\*\\|\\(d\\)|a' \\+ 'b)$".toList] := by
    decide +kernel
  exact Option.some.inj (hread.symm.trans hterm)

/-- **A quotation mark in a specifier ends a word of the query**: a word is not closed then, and
what follows the term, up to the next mark, is taken for a word of it. -/
theorem terms_unquotable :
    (queryTerms (expression ⟨["ws"]⟩ .empty [.module "a\x22b", .module "c"]).toList).length = 1 ∧
      term ⟨["ws"]⟩ .empty (.module "a\x22b") ≠ term ⟨["ws"]⟩ .empty (.module "c") ∧
      wordsOf? (term ⟨["ws"]⟩ .empty (.module "a\x22b")).toList = none := by
  refine ⟨?_, ?_, ?_⟩
  · cbv
  · decide +kernel
  · decide +kernel

end BuildSync.Query
