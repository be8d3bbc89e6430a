import Mathlib.Data.List.Basic
import BuildSync.Proofs.Files
import BuildSync.Proofs.IndexLabels
import BuildSync.Query.Graph
import BuildSync.Query.IndexFile

/-!
# The module name that provides a specifier

An import may name a part of a module. Index files and answers of the build tool both look for the
longest module name that provides it.

* `Provides`: a module name can provide a specifier; `mem_moduleNames`, `pairwise_moduleNames`: the
  candidates are these names, the longest first.
* `IsLongest`: the longest listed name that provides a specifier (`IsLongest.unique`);
  `isLongest_find?`: the first candidate that is listed.
* `IndexFile.labels_answer`, `answer_rulesUnder`: what is known under that name is the answer.
* `answer_longest`: so an index file that lists the rules of an answer answers alike.
-/

namespace BuildSync

/-! ## Parts between separators -/

namespace Text

theorem not_mem_of_mem_splitOnChar {sep : Char} {cs part : List Char}
    (h : part ∈ splitOnChar sep cs) : sep ∉ part := by
  induction cs generalizing part with
  | nil =>
    rw [splitOnChar, List.mem_singleton] at h
    simp [h]
  | cons c cs ih =>
    rw [splitOnChar] at h
    split at h
    · rcases List.mem_cons.1 h with rfl | h
      · simp
      · exact ih h
    · rename_i hc
      cases hs : splitOnChar sep cs with
      | nil => exact absurd hs (splitOnChar_ne_nil sep cs)
      | cons first rest =>
        rw [hs] at h ih
        rcases List.mem_cons.1 h with rfl | h
        · rw [List.mem_cons, not_or]
          exact ⟨Ne.symm hc, ih List.mem_cons_self⟩
        · exact ih (List.mem_cons_of_mem _ h)

theorem joined_append {xs ys : List (List Char)} (hx : xs ≠ []) (hy : ys ≠ []) (sep : Char) :
    joined [sep] (xs ++ ys) = joined [sep] xs ++ sep :: joined [sep] ys := by
  induction xs with
  | nil => exact absurd rfl hx
  | cons x xs ih =>
    obtain ⟨y, ys, rfl⟩ := List.exists_cons_of_ne_nil hy
    cases xs with
    | nil => simp [joined]
    | cons x' xs => simpa [joined] using ih (by simp)

/-- Parts without the separator are found again between the separators. -/
theorem splitOnChar_joined {sep : Char} {parts : List (List Char)} (hn : parts ≠ [])
    (h : ∀ part ∈ parts, sep ∉ part) : splitOnChar sep (joined [sep] parts) = parts := by
  induction parts with
  | nil => exact absurd rfl hn
  | cons part parts ih =>
    rw [List.forall_mem_cons] at h
    cases parts with
    | nil => exact splitOnChar_of_not_mem h.1
    | cons next parts =>
      have hjoined : joined [sep] (part :: next :: parts) =
          part ++ sep :: joined [sep] (next :: parts) := by
        simp [joined]
      rw [hjoined, splitOnChar_append h.1, ih (by simp) h.2]

end Text

namespace Query

/-! ## Candidates -/

/-- A module name can provide a specifier: it is the specifier, or stands before one of its slashes.
A scope alone provides nothing. -/
def Provides (name specifier : String) : Prop :=
  specifier = name ∨
    (name ++ "/").toList <+: specifier.toList ∧
      (specifier.toList.head? = some '@' → '/' ∈ name.toList)

theorem Provides.isPrefix {name specifier : String} (h : Provides name specifier) :
    name.toList <+: specifier.toList := by
  rcases h with rfl | ⟨h, -⟩
  · exact List.prefix_rfl
  · rw [String.toList_append] at h
    exact (List.prefix_append _ _).trans h

/-- The front segments of a text are shorter than it, by a slash at least. -/
theorem exists_joined_take {cs : List Char} {m n : Nat} (hm : 0 < m) (h : m < n)
    (hn : n ≤ (Text.splitOnChar '/' cs).length) :
    ∃ rest, Text.joined ['/'] ((Text.splitOnChar '/' cs).take n) =
      Text.joined ['/'] ((Text.splitOnChar '/' cs).take m) ++ '/' :: rest := by
  have hsplit : (Text.splitOnChar '/' cs).take n = (Text.splitOnChar '/' cs).take m ++
      ((Text.splitOnChar '/' cs).drop m).take (n - m) := by
    rw [← List.take_add, Nat.add_sub_cancel' (Nat.le_of_lt h)]
  have hfront : (Text.splitOnChar '/' cs).take m ≠ [] := by
    rw [← List.length_pos_iff, List.length_take]
    omega
  have hback : ((Text.splitOnChar '/' cs).drop m).take (n - m) ≠ [] := by
    rw [← List.length_pos_iff, List.length_take, List.length_drop]
    omega
  exact ⟨_, by rw [hsplit, Text.joined_append hfront hback]⟩

theorem count_joined_take {cs : List Char} {n : Nat} (hpos : 0 < n)
    (hlt : n < (Text.splitOnChar '/' cs).length) :
    (Text.joined ['/'] ((Text.splitOnChar '/' cs).take n)).count '/' + 1 = n := by
  have hne : (Text.splitOnChar '/' cs).take n ≠ [] := by
    rw [← List.length_pos_iff, List.length_take]
    omega
  rw [← length_splitOnChar, Text.splitOnChar_joined hne fun part hpart =>
    Text.not_mem_of_mem_splitOnChar (List.mem_of_mem_take hpart), List.length_take]
  omega

/-- How many segments a module name has at least. -/
def fewestSegments (specifier : String) : Nat :=
  if specifier.toList.head? = some '@' then 2 else 1

theorem fewestSegments_pos (specifier : String) : 0 < fewestSegments specifier := by
  unfold fewestSegments
  split <;> decide

/-- The numbers of segments that the candidates have, in order. -/
def segmentCounts (specifier : String) : List Nat :=
  (List.range (Text.splitOnChar '/' specifier.toList).length).reverse.filter
    (fewestSegments specifier ≤ ·)

theorem mem_segmentCounts {specifier : String} {n : Nat} : n ∈ segmentCounts specifier ↔
    n < (Text.splitOnChar '/' specifier.toList).length ∧ fewestSegments specifier ≤ n := by
  simp [segmentCounts]

theorem pairwise_segmentCounts (specifier : String) :
    (segmentCounts specifier).Pairwise fun n m => m < n := by
  refine List.Pairwise.filter _ ?_
  rw [List.pairwise_reverse]
  exact List.pairwise_lt_range

theorem moduleNames_eq (specifier : String) : moduleNames specifier =
    specifier :: (segmentCounts specifier).map fun n =>
      String.ofList (Text.joined ['/'] ((Text.splitOnChar '/' specifier.toList).take n)) :=
  rfl

/-- **The candidates for a specifier are the module names that can provide it.** -/
theorem mem_moduleNames {name specifier : String} :
    name ∈ moduleNames specifier ↔ Provides name specifier := by
  have hpos := fewestSegments_pos specifier
  rw [moduleNames_eq, List.mem_cons, Provides, eq_comm, List.mem_map]
  refine or_congr Iff.rfl ⟨?_, ?_⟩
  · rintro ⟨n, hn, rfl⟩
    obtain ⟨hlt, hfewest⟩ := mem_segmentCounts.1 hn
    obtain ⟨rest, hrest⟩ := exists_joined_take (Nat.lt_of_lt_of_le hpos hfewest) hlt Nat.le.refl
    rw [List.take_length, Text.joined_splitOnChar] at hrest
    refine ⟨⟨rest, ?_⟩, fun hscope => ?_⟩
    · rw [String.toList_append, String.toList_ofList, List.append_assoc]
      exact hrest.symm
    · have hcount := count_joined_take (Nat.lt_of_lt_of_le hpos hfewest) hlt
      rw [fewestSegments, if_pos hscope] at hfewest
      rw [String.toList_ofList]
      exact List.count_pos_iff.1 (by omega)
  · rintro ⟨⟨rest, hrest⟩, hscope⟩
    have hspecifier : specifier.toList = name.toList ++ '/' :: rest := by
      rw [← hrest]
      simp
    have hsegments : Text.splitOnChar '/' specifier.toList =
        Text.splitOnChar '/' name.toList ++ Text.splitOnChar '/' rest := by
      rw [hspecifier, splitOnChar_append_cons]
    refine ⟨(Text.splitOnChar '/' name.toList).length, mem_segmentCounts.2 ⟨?_, ?_⟩, ?_⟩
    · rw [hsegments, List.length_append]
      have := List.length_pos_iff.2 (Text.splitOnChar_ne_nil '/' rest)
      omega
    · rw [length_splitOnChar]
      unfold fewestSegments
      split
      · rename_i hhead
        have := List.count_pos_iff.2 (hscope hhead)
        omega
      · omega
    · rw [hsegments, List.take_left, Text.joined_splitOnChar, String.ofList_toList]

/-- **The candidates are in order, the longest first.** -/
theorem pairwise_moduleNames (specifier : String) :
    (moduleNames specifier).Pairwise fun a b => b.length < a.length := by
  have hshorter : ∀ {cs ds rest : List Char}, cs = ds ++ '/' :: rest →
      (String.ofList ds).length < cs.length := by
    rintro _ ds rest rfl
    rw [String.length_ofList, List.length_append, List.length_cons]
    omega
  have hpos : ∀ n ∈ segmentCounts specifier, 0 < n := fun n hn =>
    Nat.lt_of_lt_of_le (fewestSegments_pos specifier) (mem_segmentCounts.1 hn).2
  rw [moduleNames_eq]
  refine List.pairwise_cons.2 ⟨fun name hname => ?_, ?_⟩
  · obtain ⟨n, hn, rfl⟩ := List.mem_map.1 hname
    obtain ⟨rest, hrest⟩ := exists_joined_take (hpos n hn) (mem_segmentCounts.1 hn).1 Nat.le.refl
    rw [List.take_length, Text.joined_splitOnChar] at hrest
    exact hshorter hrest
  · rw [List.pairwise_map]
    refine (pairwise_segmentCounts specifier).imp_of_mem fun {n m} hn hm hlt => ?_
    obtain ⟨rest, hrest⟩ :=
      exists_joined_take (hpos m hm) hlt (Nat.le_of_lt (mem_segmentCounts.1 hn).1)
    have hlength := hshorter hrest
    rwa [← String.length_ofList] at hlength

/-! ## The longest name -/

/-- The longest of the listed names that can provide a specifier, none if none of them can. -/
def IsLongest (listed : String → Prop) (specifier : String) : Option String → Prop
  | some name => listed name ∧ Provides name specifier ∧
      ∀ other, listed other → Provides other specifier → other.length ≤ name.length
  | none => ∀ name, listed name → ¬ Provides name specifier

/-- There is one longest name at most: both stand at the front of the specifier. -/
theorem IsLongest.unique {listed : String → Prop} {specifier : String} {a b : Option String}
    (ha : IsLongest listed specifier a) (hb : IsLongest listed specifier b) : a = b := by
  cases a with
  | none =>
    cases b with
    | none => rfl
    | some b => exact absurd hb.2.1 (ha b hb.1)
  | some a =>
    cases b with
    | none => exact absurd ha.2.1 (hb a ha.1)
    | some b =>
      have hlength : a.toList.length = b.toList.length := by
        rw [String.length_toList, String.length_toList]
        exact Nat.le_antisymm (hb.2.2 a ha.1 ha.2.1) (ha.2.2 b hb.1 hb.2.1)
      have hfront := List.prefix_of_prefix_length_le ha.2.1.isPrefix hb.2.1.isPrefix
        (Nat.le_of_eq hlength)
      exact congrArg some (String.toList_inj.1 (hfront.eq_of_length hlength))

/-- **The first candidate that is listed is the longest name that provides the specifier.** -/
theorem isLongest_find? (listed : String → Bool) (specifier : String) :
    IsLongest (listed · = true) specifier ((moduleNames specifier).find? listed) := by
  cases hfind : (moduleNames specifier).find? listed with
  | none =>
    intro name hlisted hprovides
    exact List.find?_eq_none.1 hfind name (mem_moduleNames.2 hprovides) hlisted
  | some name =>
    refine ⟨List.find?_some hfind, mem_moduleNames.1 (List.mem_of_find?_eq_some hfind),
      fun other hlisted hprovides => ?_⟩
    obtain ⟨-, front, back, hnames, hfront⟩ := List.find?_eq_some_iff_append.1 hfind
    have horder := pairwise_moduleNames specifier
    have hmem := mem_moduleNames.2 hprovides
    rw [hnames] at horder hmem
    rcases List.mem_append.1 hmem with hother | hother
    · have := hfront other hother
      rw [hlisted] at this
      cases this
    · rcases List.mem_cons.1 hother with rfl | hother
      · exact Nat.le_refl _
      · exact Nat.le_of_lt (List.rel_of_pairwise_cons (List.pairwise_append.1 horder).2.1 hother)

/-! ## Answers -/

theorem findSome?_eq_bind_find? {α β : Type} (f : α → Option β) (xs : List α) :
    xs.findSome? f = (xs.find? fun x => (f x).isSome).bind f := by
  induction xs with
  | nil => rfl
  | cons x xs ih =>
    rw [List.findSome?_cons, List.find?_cons]
    cases hx : f x with
    | none => simpa using ih
    | some y => simp [hx]

/-- The rules that have a module name, in order. -/
def rulesUnder (rules : List QueriedRule) : Option String → List QueriedRule
  | some name => rules.filter (·.moduleName = some name)
  | none => []

/-- Some rule has this module name. -/
def IsNamed (rules : List QueriedRule) (name : String) : Prop :=
  ∃ rule ∈ rules, rule.moduleName = some name

/-- **The rules of the build tool answer with those under the longest name** that provides the
specifier. -/
theorem answer_rulesUnder (rules : List QueriedRule) (specifier : String) :
    ∃ found, IsLongest (IsNamed rules) specifier found ∧ answer rules (.module specifier) =
      (rulesUnder rules found).map fun rule => ⟨rule.label, some rule.kind⟩ := by
  refine ⟨QueriedRule.provider? rules specifier, ?_, ?_⟩
  · have hnamed : IsNamed rules = fun name =>
        (rules.any (·.moduleName = some name)) = true := by
      funext name
      simp [IsNamed]
    rw [hnamed]
    exact isLongest_find? _ specifier
  · have hanswers : QueriedRule.answers rules (.module specifier) = fun rule =>
        match QueriedRule.provider? rules specifier with
        | some name => rule.moduleName = some name
        | none => false := by
      funext rule
      rfl
    rw [answer, hanswers]
    cases QueriedRule.provider? rules specifier with
    | none => simp [rulesUnder]
    | some name => rfl

namespace IndexFile

/-- The names of modules that an index file lists. -/
def HasModule (file : IndexFile) (name : String) : Prop :=
  (lastOf? file.modules name).isSome = true

/-- **An index file answers with the labels under the longest name** that provides the
specifier. -/
theorem labels_answer (file : IndexFile) (specifier : String) :
    ∃ found, IsLongest file.HasModule specifier found ∧
      (file.answer (.module specifier)).map (·.label) =
        (found.bind (lastOf? file.modules)).getD [] := by
  refine ⟨_, isLongest_find? (fun name => (lastOf? file.modules name).isSome) specifier, ?_⟩
  simp [answer, known, findSome?_eq_bind_find?, Function.comp_def]

/-- The index file lists each rule under its module name, and lists nothing else. In which sense the
labels under a name are those of the rules (in the same order, say) is what `same` tells. -/
structure Lists (same : List Label → List Label → Prop) (file : IndexFile)
    (rules : List QueriedRule) : Prop where
  named : ∀ name, file.HasModule name ↔ IsNamed rules name
  labels : ∀ name labels, lastOf? file.modules name = some labels →
    same labels ((rulesUnder rules (some name)).map (·.label))

end IndexFile

/-- **The longest module name that provides a specifier answers**, both from an index file and from
the rules of the build tool. If the file lists these rules, both give the same labels. -/
theorem answer_longest (file : IndexFile) (rules : List QueriedRule) (specifier : String) :
    (∃ found, IsLongest file.HasModule specifier found ∧
      (file.answer (.module specifier)).map (·.label) =
        (found.bind (lastOf? file.modules)).getD []) ∧
    (∃ found, IsLongest (IsNamed rules) specifier found ∧ answer rules (.module specifier) =
      (rulesUnder rules found).map fun rule => ⟨rule.label, some rule.kind⟩) ∧
    ∀ same : List Label → List Label → Prop, same [] [] → file.Lists same rules →
      same ((file.answer (.module specifier)).map (·.label))
        ((answer rules (.module specifier)).map (·.label)) := by
  refine ⟨file.labels_answer specifier, answer_rulesUnder rules specifier,
    fun same hnil hlists => ?_⟩
  obtain ⟨found, hfound, hfile⟩ := file.labels_answer specifier
  obtain ⟨found', hfound', hrules⟩ := answer_rulesUnder rules specifier
  have hnames : file.HasModule = IsNamed rules := funext fun name => propext (hlists.named name)
  rw [hnames] at hfound
  obtain rfl := hfound.unique hfound'
  rw [hfile, hrules, List.map_map]
  cases found with
  | none => exact hnil
  | some name =>
    obtain ⟨labels, hlabels⟩ := Option.isSome_iff_exists.1 ((hlists.named name).2 hfound.1)
    rw [Option.bind_some, hlabels]
    exact hlists.labels name labels hlabels

/-! ## A scoped module -/

/-- Two rules of one scoped module, one of its part, and one of another module. -/
def scopedRules : List QueriedRule :=
  [⟨⟨none, "w", "w"⟩, .library false, some "@s/w", []⟩,
    ⟨⟨none, "w/b", "b"⟩, .library false, some "@s/w/b", []⟩,
    ⟨⟨none, "w", "types"⟩, .declaration, some "@s/w", []⟩,
    ⟨⟨none, "s", "s"⟩, .library false, some "@s", []⟩,
    ⟨⟨none, "t", "t"⟩, .library true, none, []⟩]

/-- The index file that lists these rules. -/
def scopedFile : IndexFile where
  modules := [("@s", [⟨none, "s", "s"⟩]), ("@s/w", [⟨none, "w", "w"⟩, ⟨none, "w", "types"⟩]),
    ("@s/w/b", [⟨none, "w/b", "b"⟩])]
  files := []
  kinds := []

theorem lists_scopedFile : scopedFile.Lists Eq scopedRules := by
  have hlisted : ∀ name labels, lastOf? scopedFile.modules name = some labels →
      name ∈ ["@s", "@s/w", "@s/w/b"] := by
    intro name labels h
    have hmem := List.mem_map_of_mem (f := Prod.fst) (mem_of_lastOf? h)
    exact hmem
  refine ⟨fun name => ⟨fun h => ?_, ?_⟩, fun name labels h => ?_⟩
  · obtain ⟨labels, hlabels⟩ := Option.isSome_iff_exists.1 h
    have hall : ∀ name ∈ ["@s", "@s/w", "@s/w/b"],
        (scopedRules.any (·.moduleName = some name)) = true := by
      decide
    simpa [IsNamed] using hall name (hlisted name labels hlabels)
  · rintro ⟨rule, hrule, hname⟩
    have hall : ∀ rule ∈ scopedRules, ∀ name ∈ rule.moduleName,
        (lastOf? scopedFile.modules name).isSome = true := by
      decide
    exact hall rule hrule name hname
  · have hall : ∀ name ∈ ["@s", "@s/w", "@s/w/b"], lastOf? scopedFile.modules name =
        some ((rulesUnder scopedRules (some name)).map (·.label)) := by
      decide
    rw [hall name (hlisted name labels h)] at h
    exact (Option.some.inj h).symm

/-- A part of a scoped module that no rule provides itself is provided by the module, and a scope
provides nothing. -/
theorem answer_longest_scoped :
    scopedFile.Lists Eq scopedRules ∧
    (scopedFile.answer (.module "@s/w/c/d")).map (·.label) =
      (answer scopedRules (.module "@s/w/c/d")).map (·.label) ∧
    (answer scopedRules (.module "@s/w/c/d")).map (·.label) =
      [⟨none, "w", "w"⟩, ⟨none, "w", "types"⟩] ∧
    answer scopedRules (.module "@s/x") = [] := by
  obtain ⟨-, -, hsame⟩ := answer_longest scopedFile scopedRules "@s/w/c/d"
  exact ⟨lists_scopedFile, hsame Eq rfl lists_scopedFile, by decide, by decide⟩

end Query

end BuildSync
