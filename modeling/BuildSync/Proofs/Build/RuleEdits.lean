import BuildSync.Proofs.Build.Insertion

/-!
# Editing a rule in its text

* `ListAttr.IsEdit`, `Rule.IsEdit`: a rule as it was read, and after its lists were set.
* `Rule.rewrites`: the edits of a rule turn its tokens into tokens that say the edited rule.
-/

namespace BuildSync.Build

open Text

/-! ## Edited lists -/

/-- A list attribute before and after it was set. A list that was missing has no comments. -/
structure ListAttr.IsEdit {α : Type} (old : ListAttr α) (changed : Bool) (new : ListAttr α) :
    Prop where
  kept : changed = false → new = old
  list : changed = true → ∃ list, new = .literal list ∧ list.IsClean ∧ old ≠ .computed ∧
    (old = .absent → list = ⟨list.values.map .plain, []⟩)

theorem layout_head? {α : Type} (list : ListValue α) (indent : List Char) (write : α → List Char) :
    (list.layout indent write).head? = some '[' := by
  unfold ListValue.layout
  split <;> rfl

theorem isGap_lineIndent (text : List Char) (n : Nat) : ∀ c ∈ lineIndent text n, isGap c = true :=
  fun _ hc => isGap_of_isIndent (List.mem_takeWhile_imp hc)

/-- The new list of an attribute. -/
def NewList.ofList {α : Type} (text : List Char) (f : α → String) (list : ListValue α)
    (h : list.IsClean) : NewList where
  text n := list.layout (lineIndent text n) fun a => quote (f a).toList
  body := list.layoutTokens f
  list := list.mapValues f
  written n := isWritten_layout h f (isGap_lineIndent text n)
  head _ := layout_head? _ _ _
  reads := listOf?_layoutTokens h f

/-- The attribute that holds a new list. -/
def NewAttribute.ofList {α : Type} (name : String) (h : IsName name) (f : α → String)
    (list : ListValue α) : NewAttribute where
  name := name
  value := list.inline fun a => quote (f a).toList
  body := ListValue.inlineTokens (list.values.map f)
  list := ⟨(list.values.map f).map .plain, []⟩
  isName := h
  written := isWritten_inline list f
  reads := listOf?_inlineTokens _

/-- How a list attribute of a call is edited: the new list that replaces its value, or else the
attribute that is put behind the others. -/
structure ListChange {α : Type} (f : α → String) (name : String) (inside : List Token)
    (changed : Bool) (new : ListAttr α) where
  value : Option NewList
  added : List NewAttribute
  isList : value ≠ none → ∀ a, lastAttribute name (attributes inside) = some a → a.list? ≠ none
  isNamed : ∀ b ∈ added, b.name = name
  kept : changed = false → value = none ∧ added = []
  changed : ∀ list, changed = true → new = .literal list →
    ∃ n, value = some n ∧ n.list = list.mapValues f ∧
      (lastAttribute name (attributes inside) = none → ∃ b, added = [b] ∧ b.list = list.mapValues f)
  inserted : lastAttribute name (attributes inside) ≠ none → added = []

theorem spanOf_eq_none {name : String} {ts : List Token}
    (h : ∀ a, lastAttribute name (attributes ts) = some a → a.list? ≠ none) :
    spanOf name ts = none ↔ lastAttribute name (attributes ts) = none := by
  unfold spanOf attributes at *
  rw [lastAttribute_map] at *
  cases hl : lastArgument name (arguments ts) with
  | none => simp
  | some arg =>
    have hlist : arg.list? ≠ none := h arg.attribute (by rw [hl]; rfl)
    have hbracketed : arg.bracketed? ≠ none := fun h => hlist (by rw [list?_eq, h]; rfl)
    obtain ⟨body, hbody⟩ := Option.ne_none_iff_exists'.1 hbracketed
    obtain ⟨lead, first, last, trail, hval, hlead, htrail, hfirst, hlast⟩ :=
      bracketed?_eq_some.1 hbody
    simp [span?_of_value hval hlead htrail hfirst hlast]

/-- **The edits of a list attribute.** -/
theorem exists_change {α : Type} (f : α → String) {name : String} (hname : IsName name)
    (text : List Char) {inside : List Token} {old new : ListAttr α} {changed : Bool}
    (h : old.IsEdit changed new)
    (hold : old = .absent ↔ lastAttribute name (attributes inside) = none)
    (hlist : old ≠ .computed →
      ∀ a, lastAttribute name (attributes inside) = some a → a.list? ≠ none) :
    ∃ change : ListChange f name inside changed new,
      Descriptor.listEdit text name changed (spanOf name inside) new
          (fun a => quote (f a).toList) =
        (valueEdits change.value (spanOf name inside), change.added.map NewAttribute.text) := by
  cases changed with
  | false =>
    refine ⟨⟨none, [], by simp, by simp, by simp, by simp, by simp⟩, ?_⟩
    rfl
  | true =>
    obtain ⟨list, rfl, hclean, hcomputed, hplain⟩ := h.list rfl
    have hlist := hlist hcomputed
    let n := NewList.ofList text f list hclean
    cases hspan : spanOf name inside with
    | none =>
      have hnone := (spanOf_eq_none hlist).1 hspan
      have hlist' : list.mapValues f = ⟨(list.values.map f).map .plain, []⟩ := by
        conv_lhs => rw [hplain (hold.2 hnone)]
        simp [ListValue.mapValues, RuleReader.withValue, ListItem.plain, Function.comp_def]
      refine ⟨⟨some n, [.ofList name hname f list], fun _ => hlist, ?_, by simp, ?_, ?_⟩, ?_⟩
      · intro b hb
        rw [List.mem_singleton.1 hb]
        rfl
      · rintro list' - hl
        cases hl
        exact ⟨n, rfl, rfl, fun _ => ⟨_, rfl, hlist'.symm⟩⟩
      · exact fun h => absurd hnone h
      · rfl
    | some span =>
      have hsome : lastAttribute name (attributes inside) ≠ none := by
        intro h
        rw [(spanOf_eq_none hlist).2 h] at hspan
        cases hspan
      refine ⟨⟨some n, [], fun _ => hlist, by simp, by simp, ?_, fun _ => rfl⟩, rfl⟩
      rintro list' - hl
      cases hl
      exact ⟨n, rfl, rfl, fun h => absurd h hsome⟩

theorem lastAttribute_said {name : String} {bs : List NewAttribute}
    (h : ∀ b ∈ bs, b.name ≠ name) : lastAttribute name (bs.map NewAttribute.said) = none := by
  unfold lastAttribute lastNamed
  rw [List.find?_eq_none]
  intro a ha hk
  obtain ⟨b, hb, rfl⟩ := List.mem_map.1 (List.mem_reverse.1 ha)
  have hkey : b.said.key = some b.name := rfl
  rw [hkey, decide_eq_true_eq, Option.some.injEq] at hk
  exact h b hb hk

namespace ListChange

variable {α : Type} {f : α → String} {name : String} {inside : List Token} {changed : Bool}
  {new : ListAttr α} {news : String → Option NewList} {as' : List Attribute}

/-- The last attribute of the name among those of the edited call. -/
def lastOf (change : ListChange f name inside changed new) (as' : List Attribute) :
    Option Attribute :=
  (lastAttribute name (change.added.map NewAttribute.said)).or (lastAttribute name as')

theorem lastOf_kept (change : ListChange f name inside changed new)
    (hr : Retouches news (attributes inside) as') (hn : news name = change.value)
    (hc : changed = false) : change.lastOf as' = lastAttribute name (attributes inside) := by
  obtain ⟨hvalue, hadded⟩ := change.kept hc
  unfold lastOf
  rw [hadded, List.map_nil, hr.kept name (.inl (hn.trans hvalue))]
  rfl

/-- **The last attribute says the new list.** -/
theorem lastOf_changed (change : ListChange f name inside changed new)
    (hr : Retouches news (attributes inside) as') (hn : news name = change.value)
    (hc : changed = true) {list : ListValue α} (hl : new = .literal list) :
    ∃ a, change.lastOf as' = some a ∧ a.list? = some (list.mapValues f) := by
  obtain ⟨n, hvalue, hlist, hadded⟩ := change.changed list hc hl
  unfold lastOf
  by_cases hnone : lastAttribute name (attributes inside) = none
  · obtain ⟨b, hb, hblist⟩ := hadded hnone
    have hkey : b.said.key = some name := by
      rw [← change.isNamed b (by simp [hb])]
      rfl
    refine ⟨b.said, ?_, by rw [b.list?_said, hblist]⟩
    rw [hb, List.map_singleton, lastAttribute, lastNamed_singleton, if_pos hkey, Option.some_or]
  · obtain ⟨a, ha, halist⟩ := hr.changed name n (hn.trans hvalue) hnone
    refine ⟨a, ?_, by rw [halist, hlist]⟩
    rw [change.inserted hnone, List.map_nil, ha]
    rfl

/-- What replaces a value says the new list. -/
theorem exists_of_value (change : ListChange f name inside changed new) {old : ListAttr α}
    (h : old.IsEdit changed new) {n : NewList} (hn : change.value = some n) :
    ∃ list, changed = true ∧ new = .literal list ∧ n.list = list.mapValues f := by
  have hc : changed = true := by
    refine Classical.byContradiction fun hc => ?_
    rw [(change.kept (Bool.not_eq_true _ ▸ hc)).1] at hn
    cases hn
  obtain ⟨list, hl, -⟩ := h.list hc
  obtain ⟨n', hvalue, hlist, -⟩ := change.changed list hc hl
  cases hn.symm.trans hvalue
  exact ⟨list, hc, hl, hlist⟩

/-- What is put behind the others says the new list. -/
theorem exists_of_added (change : ListChange f name inside changed new) {old : ListAttr α}
    (h : old.IsEdit changed new) {b : NewAttribute} (hb : b ∈ change.added) :
    ∃ list, changed = true ∧ new = .literal list ∧ b.list = list.mapValues f := by
  have hc : changed = true := by
    refine Classical.byContradiction fun hc => ?_
    rw [(change.kept (Bool.not_eq_true _ ▸ hc)).2] at hb
    cases hb
  have hnone : lastAttribute name (attributes inside) = none := by
    refine Classical.byContradiction fun h => ?_
    rw [change.inserted h] at hb
    cases hb
  obtain ⟨list, hl, -⟩ := h.list hc
  obtain ⟨n, -, -, hadded⟩ := change.changed list hc hl
  obtain ⟨b', hb', hlist⟩ := hadded hnone
  rw [hb', List.mem_singleton] at hb
  exact ⟨list, hc, hl, hb ▸ hlist⟩

end ListChange

/-! ## Edited rules -/

/-- A rule as it was read, and with its lists set. -/
structure Rule.IsEdit (r r' : Rule) : Prop where
  kind : r'.kind = r.kind
  name : r'.name = r.name
  moduleName : r'.moduleName = r.moduleName
  origin : r'.origin = r.origin
  srcs : r.srcs.IsEdit r'.srcsChanged r'.srcs
  deps : r.deps.IsEdit r'.depsChanged r'.deps

/-- The labels that are to be written are read back from what is written. -/
def Rule.HasLabels (r : Rule) (package : String) : Prop :=
  r.depsChanged = true ∨ r.origin = none → ∀ list, r.deps = .literal list →
    ∀ label ∈ list.values, Label.parse? (label.renderIn package) package = some label

theorem isName_srcs : IsName "srcs" :=
  isName_of_all rfl (by decide) (by decide) (by decide)

theorem isName_deps : IsName "deps" :=
  isName_of_all rfl (by decide) (by decide) (by decide)

/-- **An edited rule** is what the edited attributes say. -/
theorem Rule.IsEdit.isReadFrom {package : String} {kind : RuleKind} {inside : List Token}
    {r r' : Rule} (hr : r.IsEdit r') (hread : r.IsReadFrom package kind (attributes inside))
    {news : String → Option NewList} {as' : List Attribute}
    (hretouch : Retouches news (attributes inside) as')
    {c₁ : ListChange id "srcs" inside r'.srcsChanged r'.srcs}
    {c₂ : ListChange (fun label => label.renderIn package) "deps" inside r'.depsChanged r'.deps}
    (hnews₁ : news "srcs" = c₁.value) (hnews₂ : news "deps" = c₂.value)
    (hnews : ∀ name, name ≠ "srcs" → name ≠ "deps" → news name = none)
    (hlabels : r'.HasLabels package) :
    r'.IsReadFrom package kind (as' ++ (c₁.added.map NewAttribute.said ++
      c₂.added.map NewAttribute.said)) := by
  have hnone₁ : ∀ name, name ≠ "srcs" →
      lastAttribute name (c₁.added.map NewAttribute.said) = none :=
    fun name hn => lastAttribute_said fun b hb => c₁.isNamed b hb ▸ hn.symm
  have hnone₂ : ∀ name, name ≠ "deps" →
      lastAttribute name (c₂.added.map NewAttribute.said) = none :=
    fun name hn => lastAttribute_said fun b hb => c₂.isNamed b hb ▸ hn.symm
  have hother : ∀ name, name ≠ "srcs" → name ≠ "deps" → lastAttribute name
      (as' ++ (c₁.added.map NewAttribute.said ++ c₂.added.map NewAttribute.said)) =
        lastAttribute name (attributes inside) := by
    intro name h₁ h₂
    rw [lastAttribute_append, lastAttribute_append, hnone₁ name h₁, hnone₂ name h₂]
    exact hretouch.kept name (.inl (hnews name h₁ h₂))
  have hsrcs : lastAttribute "srcs"
      (as' ++ (c₁.added.map NewAttribute.said ++ c₂.added.map NewAttribute.said)) =
        c₁.lastOf as' := by
    rw [lastAttribute_append, lastAttribute_append, hnone₂ "srcs" (by decide)]
    rfl
  have hdeps : lastAttribute "deps"
      (as' ++ (c₁.added.map NewAttribute.said ++ c₂.added.map NewAttribute.said)) =
        c₂.lastOf as' := by
    rw [lastAttribute_append, lastAttribute_append, hnone₁ "deps" (by decide), Option.or_none]
    rfl
  have hreadable : ∀ list, r'.depsChanged = true → r'.deps = .literal list →
      (labels? package (list.mapValues fun label => label.renderIn package)).isSome = true := by
    intro list hc hl
    rw [labels?_mapValues (hlabels (.inl hc) list hl)]
    rfl
  refine ⟨fun a ha => ?_, ?_, ?_, ?_, ?_, ?_⟩
  · rcases List.mem_append.1 ha with ha | ha
    · rcases hretouch.each a ha with ha | ⟨name, new, hn, hk, hl⟩
      · exact hread.readable a ha
      · refine ⟨fun h => ?_, fun h list hlist => ?_⟩
        · cases hk.symm.trans h
          rw [hnews "name" (by decide) (by decide)] at hn
          cases hn
        · cases hk.symm.trans h
          obtain ⟨labels, hc, hdeps', hnlist⟩ := c₂.exists_of_value hr.deps (hnews₂.symm.trans hn)
          cases hl.symm.trans hlist
          rw [hnlist]
          exact hreadable labels hc hdeps'
    · rcases List.mem_append.1 ha with ha | ha
      · obtain ⟨b, hb, rfl⟩ := List.mem_map.1 ha
        have hk : b.said.key = some "srcs" := congrArg some (c₁.isNamed b hb)
        exact ⟨fun h => absurd (hk.symm.trans h) (by decide),
          fun h => absurd (hk.symm.trans h) (by decide)⟩
      · obtain ⟨b, hb, rfl⟩ := List.mem_map.1 ha
        have hk : b.said.key = some "deps" := congrArg some (c₂.isNamed b hb)
        refine ⟨fun h => absurd (hk.symm.trans h) (by decide), fun _ list hlist => ?_⟩
        obtain ⟨labels, hc, hdeps', hblist⟩ := c₂.exists_of_added hr.deps hb
        rw [b.list?_said, Option.some.injEq, hblist] at hlist
        rw [← hlist]
        exact hreadable labels hc hdeps'
  · rw [hother _ (by decide) (by decide), hr.kind, hread.kind]
  · rw [hother _ (by decide) (by decide), hr.name, hread.name]
  · rw [hsrcs]
    rcases Bool.eq_false_or_eq_true r'.srcsChanged with hc | hc
    · obtain ⟨list, hl, -⟩ := hr.srcs.list hc
      obtain ⟨a, ha, halist⟩ := c₁.lastOf_changed hretouch hnews₁ hc hl
      rw [ha, hl]
      simp [srcsFrom, halist, mapValues_id]
    · rw [c₁.lastOf_kept hretouch hnews₁ hc, hr.srcs.kept hc, hread.srcs]
  · rw [hdeps]
    rcases Bool.eq_false_or_eq_true r'.depsChanged with hc | hc
    · obtain ⟨list, hl, -⟩ := hr.deps.list hc
      obtain ⟨a, ha, halist⟩ := c₂.lastOf_changed hretouch hnews₂ hc hl
      rw [ha, hl]
      simp [depsFrom, halist, labels?_mapValues (hlabels (.inl hc) list hl)]
    · rw [c₂.lastOf_kept hretouch hnews₂ hc, hr.deps.kept hc, hread.deps]
  · rw [hother _ (by decide) (by decide), hr.moduleName, hread.moduleName]

/-- **The edits of a rule** turn its tokens into tokens that say the edited rule. -/
theorem Rule.rewrites (w : Prop) {text : List Char} {package : String} {kind : RuleKind}
    {callee opening close : Token} {inside : List Token} {r r' : Rule}
    (h : Rule.parse text package kind callee opening inside close = .ok r) (hr : r.IsEdit r')
    (ht : AreTokens (inside ++ [close])) (hnest : nest [] inside = some [])
    (hclose : close.kind ≠ .newline) :
    ∃ es inside', Rewrites w (inside ++ [close]) es (inside' ++ [close.bare]) ∧
      es.Perm (Descriptor.ruleEdits text package r') ∧ nest [] inside' = some [] ∧
      (r'.HasLabels package → r'.IsReadFrom package kind (attributes inside')) := by
  obtain ⟨hread, -, -, origin, horigin, ho⟩ := Rule.parse_eq_ok h
  have hsrcs : (srcsFrom (lastAttribute "srcs" (attributes inside)) = .absent ↔
      lastAttribute "srcs" (attributes inside) = none) ∧
      (srcsFrom (lastAttribute "srcs" (attributes inside)) ≠ .computed →
        ∀ a, lastAttribute "srcs" (attributes inside) = some a → a.list? ≠ none) := by
    cases lastAttribute "srcs" (attributes inside) with
    | none => simp [srcsFrom]
    | some a => cases hl : a.list? <;> simp [srcsFrom, hl]
  have hdeps : (depsFrom package (lastAttribute "deps" (attributes inside)) = .absent ↔
      lastAttribute "deps" (attributes inside) = none) ∧
      (depsFrom package (lastAttribute "deps" (attributes inside)) ≠ .computed →
        ∀ a, lastAttribute "deps" (attributes inside) = some a → a.list? ≠ none) := by
    cases lastAttribute "deps" (attributes inside) with
    | none => simp [depsFrom]
    | some a =>
      cases hl : a.list? with
      | none => simp [depsFrom, hl]
      | some list => cases hlabels : labels? package list <;> simp [depsFrom, hl, hlabels]
  rw [← hread.srcs] at hsrcs
  rw [← hread.deps] at hdeps
  obtain ⟨c₁, hc₁⟩ := exists_change id isName_srcs text hr.srcs hsrcs.1 hsrcs.2
  obtain ⟨c₂, hc₂⟩ :=
    exists_change (fun label => label.renderIn package) isName_deps text hr.deps hdeps.1 hdeps.2
  let news : String → Option NewList := fun name =>
    if name = "srcs" then c₁.value else if name = "deps" then c₂.value else none
  have hnews₁ : news "srcs" = c₁.value := rfl
  have hnews₂ : news "deps" = c₂.value := rfl
  have hnews : AreNews news inside := by
    refine ⟨fun name hn => ?_, fun name a hn ha => ?_⟩
    · by_cases h₁ : name = "srcs"
      · exact .inl h₁
      · by_cases h₂ : name = "deps"
        · exact .inr h₂
        · simp [news, h₁, h₂] at hn
    · by_cases h₁ : name = "srcs"
      · subst h₁
        exact c₁.isList hn a ha
      · by_cases h₂ : name = "deps"
        · subst h₂
          exact c₂.isList hn a ha
        · simp [news, h₁, h₂] at hn
  have hattr : attributes inside ≠ [] := by
    intro h
    have hname := hread.name
    rw [h] at hname
    cases hname
  obtain ⟨es, inside', as', hrewrites, hperm, hnest', hretouch, hattrs⟩ :=
    rewrites_call w ht hnest hclose ho hattr hnews (c₁.added ++ c₂.added)
  refine ⟨es, inside', hrewrites, ?_, hnest', fun hlabels => ?_⟩
  · unfold Descriptor.ruleEdits
    rw [hr.origin, horigin]
    dsimp only
    have hwrite₁ : writeSource = fun name => quote (id name).toList := rfl
    have hwrite₂ : writeDep package = fun label => quote (label.renderIn package).toList := rfl
    rw [ho.srcs, ho.deps, hwrite₁, hwrite₂, hc₁, hc₂, ← List.map_append]
    exact hperm
  · rw [hattrs, List.map_append]
    exact hr.isReadFrom hread hretouch hnews₁ hnews₂ (fun _ h₁ h₂ => by simp [news, h₁, h₂]) hlabels

end BuildSync.Build
