import BuildSync.Aggregate
import BuildSync.Proofs.Build.Standing
import BuildSync.Proofs.SettledSources

/-!
# Names of rules that are made

* `AddsFree`: a BUILD file gains rules under names of their own. `AddsFree.assign`: settling the
  owners of sources does, whether or not it succeeds; `AddsFree.deriveAll`: so do the rules over
  the whole project.
* `Ownership.takenName_of_assign`: a source that needs a rule whose name is taken is reported.
  `Aggregate.derive_of_mem`: a rule over the whole project is not made then.
* `Descriptor.free_names`: what this says of the calls in the text of a BUILD file. Only calls of
  managed functions that start a statement count (`Descriptor.unfree_names`).
-/

namespace BuildSync

open Build

/-! ## Rules under names of their own -/

/-- The rules of `d'` are those of `d`, as far as names go, and some under names of their own. -/
def AddsFree (d d' : Descriptor) : Prop :=
  ∃ new, d'.rules.map (·.name) = d.rules.map (·.name) ++ new ∧ new.Nodup ∧
    ∀ name ∈ new, name ∉ d.rules.map (·.name)

namespace AddsFree

variable {d d' d'' : Descriptor}

theorem of_names (h : d'.rules.map (·.name) = d.rules.map (·.name)) : AddsFree d d' :=
  ⟨[], by simpa using h, List.nodup_nil, by simp⟩

theorem refl (d : Descriptor) : AddsFree d d :=
  of_names rfl

theorem trans (h : AddsFree d d') (h' : AddsFree d' d'') : AddsFree d d'' := by
  obtain ⟨new, hnames, hn, hfree⟩ := h
  obtain ⟨more, hnames', hn', hfree'⟩ := h'
  rw [hnames] at hnames' hfree'
  refine ⟨new ++ more, by rw [hnames', List.append_assoc], ?_, fun name hm => ?_⟩
  · exact List.nodup_append'.2 ⟨hn, hn', fun name hm hm' =>
      hfree' name hm' (List.mem_append_right _ hm)⟩
  · rcases List.mem_append.1 hm with hm | hm
    · exact hfree name hm
    · exact fun ho => hfree' name hm (List.mem_append_left _ ho)

/-- A rule is added under a name that no rule has. -/
theorem addRule {rule : Build.Rule} (h : d.rule? rule.name = none) (file : String) :
    AddsFree d (d.addRule rule file) := by
  refine ⟨[rule.name], by simp, List.nodup_singleton _, fun name hm ho => ?_⟩
  obtain ⟨r, hr, hname⟩ := List.mem_map.1 ho
  rw [List.mem_singleton.1 hm] at hname
  exact List.find?_eq_none.1 h r hr (decide_eq_true hname)

/-- What is taken stays taken. -/
theorem mem (h : AddsFree d d') {name : String} (hm : name ∈ d.rules.map (·.name)) :
    name ∈ d'.rules.map (·.name) := by
  obtain ⟨new, hnames, -⟩ := h
  exact hnames ▸ List.mem_append_left _ hm

end AddsFree

theorem Build.Descriptor.exists_rule? {d : Descriptor} {name : String}
    (h : name ∈ d.rules.map (·.name)) : ∃ holder, d.rule? name = some holder := by
  obtain ⟨r, hr, hname⟩ := List.mem_map.1 h
  exact Option.isSome_iff_exists.1 (List.find?_isSome.2 ⟨r, hr, decide_eq_true hname⟩)

/-! ## Rules for sources -/

namespace Ownership

variable {s : Surroundings} {d : Descriptor}

theorem addsFree_settle (p : Progress) (source : String × SourceKind) :
    AddsFree p.descriptor (Progress.settle s p source).descriptor := by
  rcases Progress.descriptor_settle s p source with heq | ⟨hfree, heq⟩
  · rw [heq]
    exact .refl _
  · rw [heq]
    exact .addRule hfree _

theorem addsFree_foldl (p : Progress) (sources : List (String × SourceKind)) :
    AddsFree p.descriptor (sources.foldl (Progress.settle s) p).descriptor := by
  induction sources generalizing p with
  | nil => exact .refl _
  | cons source sources ih => exact (addsFree_settle p source).trans (ih _)

/-- **Settling the owners** makes rules under names of their own, also where it fails. -/
theorem addsFree_assign (s : Surroundings) (d : Descriptor)
    (sources : List (String × SourceKind)) : AddsFree d (assign s d sources).1 := by
  have hrun := @addsFree_foldl s (Progress.start d) sources
  cases h : assign s d sources with
  | mk d' result =>
    cases result with
    | error problems =>
      obtain ⟨rfl, -⟩ := assign_eq_error h
      exact hrun
    | ok o =>
      obtain ⟨p, hp, -, -, rfl⟩ := assign_eq_ok h
      rw [← hp] at hrun
      refine hrun.trans (.of_names ?_)
      exact names_eq (@relisted_relistAll (missingOf s d.rules) p.descriptor.rules p.added p.added
        fun _ he => he)

/-- The name that a source needs for a rule is taken by a rule of another kind. -/
structure Collides (s : Surroundings) (source : String × SourceKind) (holder : Build.Rule)
    (d : Descriptor) : Prop where
  owners : d.owners source.1 = []
  kinds : ∀ r ∈ d.rules, r.kind ≠ ruleKind source.2
  taken : d.rule? (ruleName s.baseName source.2) = some holder

/-- A step does not make the rule whose name is taken. -/
theorem Collides.settle {source : String × SourceKind} {holder : Build.Rule} {p : Progress}
    (h : Collides s source holder p.descriptor) (other : String × SourceKind) :
    Collides s source holder (Progress.settle s p other).descriptor := by
  refine ⟨(Progress.owners_settle s p other source.1).trans h.owners, ?_, ?_⟩
  all_goals rcases Progress.descriptor_settle s p other with heq | ⟨hfree, heq⟩
  · rw [heq]
    exact h.kinds
  · rw [heq, Descriptor.rules_addRule]
    intro r hr hk
    rcases List.mem_append.1 hr with hr | hr
    · exact h.kinds r hr hk
    · rw [List.mem_singleton.1 hr] at hk
      have hsame : other.2 = source.2 := by
        cases ho : other.2 <;> cases hs : source.2 <;> simp_all [Rule.ofName, ruleKind]
      rw [hsame, h.taken] at hfree
      cases hfree
  · rw [heq]
    exact h.taken
  · have htaken := h.taken
    unfold Descriptor.rule? at htaken ⊢
    rw [heq, Descriptor.rules_addRule, List.find?_append, htaken]
    rfl

/-- A step reports the source whose rule cannot be made. -/
theorem Collides.mem_problems {source : String × SourceKind} {holder : Build.Rule} {p : Progress}
    (h : Collides s source holder p.descriptor) (he : s.external source.1 = []) :
    .takenName (ruleKind source.2) (ruleName s.baseName source.2) source.1 holder.kind ∈
      (Progress.settle s p source).problems := by
  have hkinds : p.descriptor.rules.filter (·.kind = ruleKind source.2) = [] :=
    List.filter_eq_nil_iff.2 fun r hr hk => h.kinds r hr (of_decide_eq_true hk)
  have hplace : p.place s source.1 source.2 = p.fail (.takenName (ruleKind source.2)
      (ruleName s.baseName source.2) source.1 holder.kind) := by
    unfold Progress.place
    simp only [hkinds, h.taken]
  unfold Progress.settle
  rw [h.owners, he]
  dsimp only
  rw [hplace]
  exact List.mem_append_right _ (List.mem_singleton_self _)

/-- **A source that needs a rule whose name is taken is reported.** -/
theorem takenName_of_assign {source : String × SourceKind} {holder : Build.Rule}
    (h : Collides s source holder d) (he : s.external source.1 = [])
    {sources : List (String × SourceKind)} (hs : source ∈ sources) :
    ∃ problems, (assign s d sources).2 = .error problems ∧
      .takenName (ruleKind source.2) (ruleName s.baseName source.2) source.1 holder.kind ∈
        problems := by
  have hfold : ∀ p : Progress, Collides s source holder p.descriptor →
      .takenName (ruleKind source.2) (ruleName s.baseName source.2) source.1 holder.kind ∈
        (sources.foldl (Progress.settle s) p).problems := by
    induction sources with
    | nil => cases hs
    | cons other sources ih =>
      intro p hp
      rcases List.mem_cons.1 hs with rfl | hs
      · exact Progress.mem_problems_foldl (hp.mem_problems he) sources
      · exact ih hs _ (hp.settle other)
  have hmem := hfold (Progress.start d) h
  cases hrun : assign s d sources with
  | mk d' result =>
    cases result with
    | error problems =>
      obtain ⟨-, rfl⟩ := assign_eq_error hrun
      exact ⟨_, rfl, hmem⟩
    | ok o =>
      obtain ⟨p, rfl, hnil, -⟩ := assign_eq_ok hrun
      rw [hnil] at hmem
      cases hmem

end Ownership

/-! ## Rules over the whole project -/

namespace Aggregate

theorem names_modifyFirst {name : String} {f : Build.Rule → Build.Rule}
    (hf : ∀ r, (f r).name = r.name) (rules : List Build.Rule) :
    (Descriptor.modifyFirst name f rules).map (·.name) = rules.map (·.name) := by
  induction rules with
  | nil => rfl
  | cons r rules ih =>
    rw [Descriptor.modifyFirst]
    split
    · rw [List.map_cons, List.map_cons, hf]
    · rw [List.map_cons, List.map_cons, ih]

theorem addsFree_derive {d : Descriptor} {fill : Build.Rule → Build.Rule}
    (hf : ∀ r, (fill r).name = r.name) (kind : RuleKind) (name file : String) (isNeeded : Bool) :
    AddsFree d (derive d kind name file isNeeded fill) := by
  unfold derive
  split
  · exact .of_names (names_modifyFirst hf d.rules)
  · split
    · rename_i hneed
      have hfree : d.rule? name = none := by simpa using (Bool.and_eq_true_iff.1 hneed).2
      exact .addRule ((hf _).symm ▸ hfree) file
    · exact .refl d

/-- **A rule whose name is taken** is not made. -/
theorem derive_of_mem {d : Descriptor} {kind : RuleKind} (hk : ∀ r ∈ d.rules, r.kind ≠ kind)
    {name : String} (hn : name ∈ d.rules.map (·.name)) (file : String) (isNeeded : Bool)
    (fill : Build.Rule → Build.Rule) : derive d kind name file isNeeded fill = d := by
  have hnone : d.rules.find? (·.kind = kind) = none :=
    List.find?_eq_none.2 fun r hr he => hk r hr (of_decide_eq_true he)
  obtain ⟨holder, hholder⟩ := Descriptor.exists_rule? hn
  unfold derive
  rw [hnone]
  simp [hholder]

/-- **The rules over the whole project** are made under names of their own. -/
theorem addsFree_deriveAll {w : Workspace} {t : Tree} {dir : Location} {rulesFile : String}
    {d d' : Descriptor} (h : deriveAll w t dir rulesFile d = .ok d') : AddsFree d d' := by
  unfold deriveAll at h
  obtain ⟨configs, -, h⟩ := bind_eq_ok.1 h
  obtain ⟨below, -, h⟩ := bind_eq_ok.1 h
  cases h
  exact (addsFree_derive (fun r => Rule.name_setSrcs r configs) _ _ _ _).trans
    (addsFree_derive (fun r => Rule.name_setDeps r _ _) _ _ _ _)

end Aggregate

/-! ## Names in the text of a BUILD file -/

/-- Rules are added under names of their own that no managed call in the text gives. -/
def AddsUntaken (text : List Char) (d d' : Descriptor) : Prop :=
  ∃ new, d'.rules.map (·.name) = d.rules.map (·.name) ++ new ∧ new.Nodup ∧
    ∀ name ∈ new, name ∉ d.rules.map (·.name) ∧ ¬IsTaken text name

theorem AddsFree.untaken {text : List Char} {d d' : Descriptor} (h : AddsFree d d')
    (ht : ∀ name, IsTaken text name → name ∈ d.rules.map (·.name)) : AddsUntaken text d d' := by
  obtain ⟨new, hnames, hn, hfree⟩ := h
  refine ⟨new, hnames, hn, fun name hm => ⟨hfree name hm, fun htaken => ?_⟩⟩
  exact hfree name hm (ht name htaken)

namespace Build.Descriptor

/-- **A rule is made under a free name**: no managed call that starts a statement of the text gives
it. A source that needs a rule whose name is taken is reported, and a rule over the whole project
is not made then. -/
theorem free_names {path package text : String} {d : Descriptor}
    (h : parse path package text = .ok d) :
    (∀ s sources, AddsUntaken text.toList d (Ownership.assign s d sources).1) ∧
    (∀ (s : Surroundings) (sources : List (String × SourceKind)), ∀ source ∈ sources,
      d.owners source.1 = [] → s.external source.1 = [] →
      (∀ r ∈ d.rules, r.kind ≠ Ownership.ruleKind source.2) →
      IsTaken text.toList (Ownership.ruleName s.baseName source.2) →
      ∃ problems holder, (Ownership.assign s d sources).2 = .error problems ∧
        .takenName (Ownership.ruleKind source.2) (Ownership.ruleName s.baseName source.2) source.1
          holder ∈ problems) ∧
    ∀ d₁, AddsFree d d₁ →
      (∀ w t dir rulesFile d₂, Aggregate.deriveAll w t dir rulesFile d₁ = .ok d₂ →
        AddsUntaken text.toList d₁ d₂) ∧
      ∀ kind name, (∀ r ∈ d₁.rules, r.kind ≠ kind) → IsTaken text.toList name →
        ∀ file isNeeded fill, Aggregate.derive d₁ kind name file isNeeded fill = d₁ := by
  have htaken : ∀ name, IsTaken text.toList name → name ∈ d.rules.map (·.name) :=
    fun name => mem_names_of_isTaken h
  refine ⟨fun s sources => (Ownership.addsFree_assign s d sources).untaken htaken,
    fun s sources source hs ho he hk ht => ?_, fun d₁ hd => ⟨fun w t dir rulesFile d₂ h₂ => ?_,
      fun kind name hk ht file isNeeded fill => ?_⟩⟩
  · obtain ⟨holder, hholder⟩ := exists_rule? (htaken _ ht)
    obtain ⟨problems, hp, hmem⟩ :=
      Ownership.takenName_of_assign ⟨ho, hk, hholder⟩ he hs
    exact ⟨problems, holder.kind, hp, hmem⟩
  · exact (Aggregate.addsFree_deriveAll h₂).untaken fun name hn => hd.mem (htaken name hn)
  · exact Aggregate.derive_of_mem hk (hd.mem (htaken name ht)) file isNeeded fill

end Build.Descriptor

/-! ## Names of other targets -/

/-- The tokens of an argument `name`, which is written without blanks. -/
def nameTokens (start : Nat) (name : String) : List Token :=
  [⟨.word, start, "name".toList⟩, ⟨.equals, start + 4, ['=']⟩,
    ⟨.string, start + 5, '\x22' :: name.toList ++ ['\x22']⟩]

/-- Sources that only their own BUILD file knows of, in a package `p`. -/
def namedAround : Surroundings :=
  ⟨fun _ => true, "p", "//:rules.bzl", fun _ => []⟩

def declaredText : String :=
  "ts_declaration(name=\"p\")"

theorem tokens_declaredText : tokens 0 declaredText.toList =
    .ok (⟨.word, 0, "ts_declaration".toList⟩ :: ⟨.opening .round, 14, ['(']⟩ ::
      (nameTokens 15 "p" ++ [⟨.closing .round, 23, [')']⟩])) :=
  toOption_eq_some.1 (by decide +kernel)

theorem isTaken_declaredText : IsTaken declaredText.toList "p" :=
  ⟨_, [], _, _, tokens_declaredText, ⟨rfl, rfl, _, _, [], rfl, rfl, rfl, rfl⟩, .inl rfl, rfl, rfl⟩

/-- A declaration under the base name of its package. -/
def declaredFile : Descriptor :=
  ⟨"p/BUILD", "p", declaredText, [⟨.declaration, "p", .absent, .absent, none,
    some ⟨⟨0, 24⟩, 23, 23, false, false, "    ", none, none⟩, false, false⟩], [],
    ["ts_declaration"], []⟩

theorem Build.Descriptor.free_names_declared :
    parse "p/BUILD" "p" declaredText = .ok declaredFile ∧ IsTaken declaredText.toList "p" ∧
      AddsUntaken declaredText.toList declaredFile
        (Ownership.assign namedAround declaredFile [("a.ts", .library)]).1 ∧
      ∃ problems holder,
        (Ownership.assign namedAround declaredFile [("a.ts", .library)]).2 = .error problems ∧
        .takenName (.library false) "p" "a.ts" holder ∈ problems := by
  have hparse : parse "p/BUILD" "p" declaredText = .ok declaredFile :=
    toOption_eq_some.1 (by decide +kernel)
  obtain ⟨hadds, hreports, -⟩ := free_names hparse
  exact ⟨hparse, isTaken_declaredText, hadds namedAround _,
    hreports namedAround [("a.ts", .library)] ("a.ts", .library) (by simp) (by decide) rfl
      (by decide) isTaken_declaredText⟩

def unmanagedText : String :=
  "genrule(name=\"p\")\nfilegroup(name=\"tsconfig\")"

def unmanagedFile : Descriptor :=
  ⟨"p/BUILD", "p", unmanagedText, [], [], ["genrule", "filegroup"], []⟩

theorem tokens_unmanagedText : tokens 0 unmanagedText.toList =
    .ok (⟨.word, 0, "genrule".toList⟩ :: ⟨.opening .round, 7, ['(']⟩ ::
      (nameTokens 8 "p" ++ [⟨.closing .round, 16, [')']⟩, ⟨.newline, 17, ['\n']⟩,
        ⟨.word, 18, "filegroup".toList⟩, ⟨.opening .round, 27, ['(']⟩] ++
      nameTokens 28 "tsconfig" ++ [⟨.closing .round, 43, [')']⟩])) :=
  toOption_eq_some.1 (by decide +kernel)

theorem isCalled_unmanagedText :
    IsCalled unmanagedText.toList "p" ∧ IsCalled unmanagedText.toList "tsconfig" := by
  constructor
  · exact ⟨_, [], _, nameTokens 8 "p", tokens_unmanagedText,
      ⟨rfl, rfl, _, _, _, rfl, rfl, rfl, rfl⟩, rfl⟩
  · exact ⟨_, ⟨.word, 0, "genrule".toList⟩ :: ⟨.opening .round, 7, ['(']⟩ ::
      (nameTokens 8 "p" ++ [⟨.closing .round, 16, [')']⟩, ⟨.newline, 17, ['\n']⟩]),
      ⟨.word, 18, "filegroup".toList⟩, nameTokens 28 "tsconfig", tokens_unmanagedText,
      ⟨rfl, rfl, ⟨.opening .round, 27, ['(']⟩, _, [], rfl, rfl, rfl, rfl⟩, rfl⟩

/-- **A name that another target has is not free of it**: where the call is of a function that is
not managed, a rule for sources is made under its name, and so is one over the whole project. -/
theorem Build.Descriptor.unfree_names :
    parse "p/BUILD" "p" unmanagedText = .ok unmanagedFile ∧
      (IsCalled unmanagedText.toList "p" ∧ IsCalled unmanagedText.toList "tsconfig") ∧
      (∃ d o, Ownership.assign namedAround unmanagedFile [("a.ts", .library)] = (d, .ok o) ∧
        d.rules.map (·.name) = ["p"]) ∧
      ((Aggregate.derive unmanagedFile .config Aggregate.configName "//:rules.bzl" true
        (·.setSrcs ["tsconfig.json"])).rules.map (·.name)) = ["tsconfig"] := by
  refine ⟨toOption_eq_some.1 (by decide +kernel), isCalled_unmanagedText, ?_, by decide +kernel⟩
  exact ⟨_, ⟨[("a.ts", .rule "p")]⟩, Prod.ext rfl (toOption_eq_some.1 (by decide +kernel)),
    by decide +kernel⟩

end BuildSync
