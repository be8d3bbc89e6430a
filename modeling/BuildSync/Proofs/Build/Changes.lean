import BuildSync.Build.Descriptor
import BuildSync.Proofs.Build.FileEdits
import BuildSync.Proofs.Build.NewRules
import BuildSync.Proofs.Build.Setters

/-!
# Changing a file in memory

* `Descriptor.Change`: the ways a file is changed; `Descriptor.changeAll`: one after the other.
* `Rule.IsRead`: a rule as it is read (`Contents.isRead_of_ofTokens`).
* `Descriptor.IsChange`: what changes leave of a file, by step (`IsChange.change`) and by run
  (`isChange_changeAll`).
-/

namespace BuildSync.Build

namespace Descriptor

/-- A change of a file. Rules are meant by their position in the file. -/
inductive Change
  | setSrcs (index : Nat) (names : List String)
  | setDeps (index : Nat) (package : String) (labels : List Label)
  /-- A rule is added, whose function comes from `file`. -/
  | add (rule : Rule) (file : String)

/-- The descriptor after one change. -/
def change (d : Descriptor) : Change → Descriptor
  | .setSrcs i names => { d with rules := d.rules.modify i fun rule => rule.setSrcs names }
  | .setDeps i package labels =>
    { d with rules := d.rules.modify i fun rule => rule.setDeps package labels }
  | .add rule file => d.addRule rule file

/-- The descriptor after some changes. -/
def changeAll (d : Descriptor) (changes : List Change) : Descriptor :=
  changes.foldl change d

/-- Changing the first rule of a name is changing the rule at some position. -/
theorem exists_modify_eq (name : String) (f : Rule → Rule) (rules : List Rule) :
    ∃ i, modifyFirst name f rules = rules.modify i f := by
  induction rules with
  | nil => exact ⟨0, rfl⟩
  | cons rule rules ih =>
    by_cases h : rule.name = name
    · exact ⟨0, by simp [modifyFirst, h]⟩
    · obtain ⟨i, hi⟩ := ih
      exact ⟨i + 1, by simp [modifyFirst, h, hi]⟩

end Descriptor

/-! ## Rules as they are read -/

theorem mem_of_mem_splitArguments {depth : Nat} {ts part : List Token}
    (h : part ∈ splitArguments depth ts) : ∀ t ∈ part, t ∈ ts := by
  induction ts generalizing depth part with
  | nil =>
    rw [List.mem_singleton.1 h]
    simp
  | cons u us ih =>
    intro t ht
    rw [splitArguments_cons] at h
    split at h
    · rcases List.mem_cons.1 h with rfl | h
      · cases ht
      · exact List.mem_cons_of_mem u (ih h t ht)
    · split at h
      · rw [List.mem_singleton.1 h, List.mem_singleton] at ht
        exact ht ▸ List.mem_cons_self
      · rename_i first parts hparts
        rcases List.mem_cons.1 h with rfl | h
        · rcases List.mem_cons.1 ht with rfl | ht
          · exact List.mem_cons_self
          · exact List.mem_cons_of_mem u (ih (hparts ▸ List.mem_cons_self) t ht)
        · exact List.mem_cons_of_mem u (ih (hparts ▸ List.mem_cons_of_mem _ h) t ht)

theorem value_subset {ts : List Token} {arg : Argument} (h : Argument.ofTokens? ts = some arg) :
    ∀ t ∈ arg.value, t ∈ ts := by
  intro t ht
  have hts : ∀ u ∈ ts.dropWhile Token.isTrivia, u ∈ ts :=
    fun u hu => (List.dropWhile_sublist _).subset hu
  unfold Argument.ofTokens? at h
  split at h
  · cases h
  · rename_i first rest hfirst
    rw [hfirst] at hts
    split at h
    · split at h
      · cases h
        exact hts t (by simp [ht])
      · cases h
        exact hts t ht
    · cases h
      exact hts t ht

/-- The value of an argument is made of the tokens between the parentheses. -/
theorem mem_of_mem_arguments {inside : List Token} {arg : Argument} (h : arg ∈ arguments inside) :
    ∀ t ∈ arg.value, t ∈ inside := by
  obtain ⟨part, hpart, harg⟩ := List.mem_filterMap.1 h
  exact fun t ht => mem_of_mem_splitArguments hpart t (value_subset harg t ht)

/-- **Lists that are read in a call are clean.** -/
theorem isClean_of_lastAttribute {inside : List Token} (ht : ∀ t ∈ inside, t.IsProper)
    {name : String} {a : Attribute} (ha : lastAttribute name (attributes inside) = some a)
    {list : ListValue String} (hl : a.list? = some list) : list.IsClean := by
  unfold attributes at ha
  rw [lastAttribute_map] at ha
  obtain ⟨arg, harg, rfl⟩ := Option.map_eq_some_iff.1 ha
  have hmem : arg ∈ arguments inside := (lastNamed_some harg).1
  have hlist : arg.list? = some list := hl
  rw [list?_eq] at hlist
  obtain ⟨body, hbody, hread⟩ := Option.bind_eq_some_iff.1 hlist
  obtain ⟨lead, first, last, trail, hvalue, -⟩ := bracketed?_eq_some.1 hbody
  refine isClean_of_listOf? (fun t h => ht t ?_) hread
  exact mem_of_mem_arguments hmem t (by simp [hvalue, h])

/-- A rule as it was read from a file. -/
structure Rule.IsRead (rule : Rule) : Prop where
  isNew : rule.isNew = false
  srcsChanged : rule.srcsChanged = false
  depsChanged : rule.depsChanged = false
  srcs : ∀ list, rule.srcs = .literal list → list.IsClean
  deps : ∀ list, rule.deps = .literal list → list.IsClean

theorem Rule.isRead_of_parse {text : List Char} {package : String} {kind : RuleKind}
    {callee opening close : Token} {inside : List Token} {rule : Rule}
    (h : Rule.parse text package kind callee opening inside close = .ok rule)
    (ht : ∀ t ∈ inside, t.IsProper) : rule.IsRead := by
  obtain ⟨hread, hsrcs, hdeps, origin, horigin, -⟩ := Rule.parse_eq_ok h
  refine ⟨by simp [Rule.isNew, horigin], hsrcs, hdeps, fun list hl => ?_, fun list hl => ?_⟩
  · rw [hread.srcs] at hl
    cases ha : lastAttribute "srcs" (attributes inside) with
    | none => simp [ha, srcsFrom] at hl
    | some a =>
      cases hal : a.list? with
      | none => simp [ha, srcsFrom, hal] at hl
      | some list' =>
        simp only [ha, srcsFrom, hal, Option.map_some, Option.getD_some,
          ListAttr.literal.injEq] at hl
        exact hl ▸ isClean_of_lastAttribute ht ha hal
  · rw [hread.deps] at hl
    cases ha : lastAttribute "deps" (attributes inside) with
    | none => simp [ha, depsFrom] at hl
    | some a =>
      cases hal : a.list? with
      | none => simp [ha, depsFrom, hal] at hl
      | some list' =>
        cases hlabels : labels? package list' with
        | none => simp [ha, depsFrom, hal, hlabels] at hl
        | some labels =>
          simp only [ha, depsFrom, hal, hlabels, Option.map_some, Option.getD_some,
            ListAttr.literal.injEq] at hl
          exact hl ▸ isClean_of_labels? (isClean_of_lastAttribute ht ha hal) hlabels

/-- **What is read from a file**: its rules are as read, and no load has symbols added. -/
theorem Contents.isRead_of_ofTokens {text : List Char} {package : String} {ts : List Token}
    {c : Contents} (h : Contents.ofTokens text package ts = .ok c) (ht : ∀ t ∈ ts, t.IsProper) :
    (∀ rule ∈ c.rules, rule.IsRead) ∧ ∀ load ∈ c.loads, load.added = [] := by
  revert ht
  refine Contents.ofTokens_induction ?nil ?trivia ?plain ?call h
  case nil => exact fun _ => ⟨by simp [empty], by simp [empty]⟩
  case trivia =>
    intro t ts c _ _ ih ht
    exact ih fun u hu => ht u (List.mem_cons_of_mem t hu)
  case plain =>
    intro t tail rest c _ _ _ _ ih ht
    exact ih fun u hu => ht u (by simp [hu])
  case call =>
    intro t opening inside close tail rest first c _ _ _ _ hfirst _ _ ih ht
    obtain ⟨hrules, hloads⟩ := ih fun u hu => ht u (by simp [hu])
    have hinside : ∀ u ∈ inside, u.IsProper := fun u hu => ht u (by simp [hu])
    have happend : (first ++ c).rules = first.rules ++ c.rules ∧
        (first ++ c).loads = first.loads ++ c.loads := ⟨rfl, rfl⟩
    rw [happend.1, happend.2, List.forall_mem_append, List.forall_mem_append]
    rcases ofCall_eq_ok hfirst with ⟨-, load, hload, hr, hl⟩ | ⟨kind, rule, -, hrule, hr, hl⟩ |
      ⟨-, -, hr, hl⟩
    · obtain ⟨-, -, hadded, -⟩ := Load.parse_eq_ok hload
      rw [hr, hl]
      exact ⟨⟨by simp, hrules⟩, by simpa using hadded, hloads⟩
    · rw [hr, hl]
      exact ⟨⟨by simpa using Rule.isRead_of_parse hrule hinside, hrules⟩, by simp, hloads⟩
    · rw [hr, hl]
      exact ⟨⟨by simp, hrules⟩, by simp, hloads⟩

/-! ## Changed lists -/

section Lists

variable {α : Type} [DecidableEq α]

theorem withValues_plain (old values : List α) :
    (⟨old.map .plain, []⟩ : ListValue α).withValues values = ⟨values.map .plain, []⟩ := by
  have hitem : ∀ v, (⟨old.map .plain, []⟩ : ListValue α).itemFor v = .plain v := by
    intro v
    unfold ListValue.itemFor
    cases hf : (old.map ListItem.plain).find? (fun item => item.value = v) with
    | none => rfl
    | some item =>
      obtain ⟨w, -, rfl⟩ := List.mem_map.1 (List.mem_of_find?_eq_some hf)
      have hv : w = v := by
        have hvalue := List.find?_some hf
        exact of_decide_eq_true hvalue
      rw [hv, Option.getD_some]
  simp [ListValue.withValues, hitem]

/-- **A list is set once more.** -/
theorem ListAttr.IsEdit.replaced {old new : ListAttr α} {changed : Bool}
    (h : old.IsEdit changed new) (hc : ∀ list, old = .literal list → list.IsClean)
    (values : List α) :
    old.IsEdit (changed || (new.replace? values).isSome) (new.replaced values) := by
  have hclean : ∀ list, new = .literal list → list.IsClean := by
    intro list hl
    cases changed with
    | false => exact hc list ((h.kept rfl).symm.trans hl)
    | true =>
      obtain ⟨list', hl', hclean, -⟩ := h.list rfl
      cases hl.symm.trans hl'
      exact hclean
  unfold ListAttr.replaced
  cases hv : new.replace? values with
  | none => simpa using h
  | some list =>
    rw [Option.isSome_some, Bool.or_true, Option.map_some, Option.getD_some]
    refine ⟨by simp, fun _ => ⟨list, rfl, ?_⟩⟩
    cases new with
    | computed => cases hv
    | absent =>
      have hold : old = .absent := by
        cases changed with
        | false => exact (h.kept rfl).symm
        | true =>
          obtain ⟨list', hl', -⟩ := h.list rfl
          cases hl'
      simp only [replace?, Option.ite_none_left_eq_some, Option.some.injEq] at hv
      rw [← hv.2]
      refine ⟨ListValue.IsClean.withValues ⟨by simp [ListValue.empty], by simp [ListValue.empty]⟩ _,
        by simp [hold], fun _ => ?_⟩
      rw [ListValue.values_withValues]
      exact withValues_plain [] values
    | literal list' =>
      simp only [replace?, Option.ite_none_left_eq_some, Option.some.injEq] at hv
      rw [← hv.2]
      refine ⟨(hclean list' rfl).withValues values, ?_⟩
      rw [ListValue.values_withValues]
      cases changed with
      | false =>
        rw [← h.kept rfl]
        simp
      | true =>
        obtain ⟨list'', hl, -, hcomputed, hplain⟩ := h.list rfl
        cases hl
        refine ⟨hcomputed, fun hold => ?_⟩
        rw [hplain hold]
        exact withValues_plain _ values

/-- A list without comments is set. -/
theorem exists_replaced_plain (old values : List α) :
    ∃ new : List α, (ListAttr.literal ⟨old.map .plain, []⟩).replaced values =
      .literal ⟨new.map .plain, []⟩ := by
  unfold ListAttr.replaced ListAttr.replace?
  dsimp only
  by_cases h : (⟨old.map .plain, []⟩ : ListValue α).values = values
  · exact ⟨old, by rw [if_pos h]; rfl⟩
  · exact ⟨values, by rw [if_neg h, withValues_plain]; rfl⟩

end Lists

/-! ## Changed rules -/

namespace Rule

variable {r r' : Rule}

theorem IsEdit.refl (h : r.IsRead) : r.IsEdit r := by
  refine ⟨rfl, rfl, rfl, rfl, ⟨fun _ => rfl, fun hc => ?_⟩, ⟨fun _ => rfl, fun hc => ?_⟩⟩
  · rw [h.srcsChanged] at hc
    cases hc
  · rw [h.depsChanged] at hc
    cases hc

/-- A rule none of whose lists was set is as it was. -/
theorem IsEdit.eq_of_unset (h : r.IsEdit r') (hr : r.IsRead) (hsrcs : r'.srcsChanged = false)
    (hdeps : r'.depsChanged = false) : r' = r := by
  obtain ⟨hkind, hname, hmodule, horigin, hs, hd⟩ := h
  have hs' := hs.kept hsrcs
  have hd' := hd.kept hdeps
  obtain ⟨-, hrsrcs, hrdeps, -, -⟩ := hr
  cases r
  cases r'
  simp_all

theorem IsEdit.setSrcs (h : r.IsEdit r') (hr : r.IsRead) (names : List String) :
    r.IsEdit (r'.setSrcs names) := by
  rw [setSrcs_eq]
  exact ⟨h.kind, h.name, h.moduleName, h.origin, h.srcs.replaced hr.srcs _, h.deps⟩

theorem IsEdit.setDeps (h : r.IsEdit r') (hr : r.IsRead) (package : String)
    (labels : List Label) : r.IsEdit (r'.setDeps package labels) := by
  rw [setDeps_eq]
  exact ⟨h.kind, h.name, h.moduleName, h.origin, h.srcs, h.deps.replaced hr.deps _⟩

theorem IsFresh.isNew (h : r.IsFresh) : r.isNew = true := by
  rw [Rule.isNew, h.origin]
  rfl

theorem isFresh_ofName (kind : RuleKind) (name : String) : (ofName kind name).IsFresh :=
  ⟨rfl, rfl, ⟨[], rfl⟩, ⟨[], rfl⟩⟩

theorem IsFresh.setSrcs (h : r.IsFresh) (names : List String) : (r.setSrcs names).IsFresh := by
  rw [setSrcs_eq]
  obtain ⟨old, hold⟩ := h.srcs
  refine ⟨h.origin, h.moduleName, ?_, h.deps⟩
  rw [hold]
  exact exists_replaced_plain old _

theorem IsFresh.setDeps (h : r.IsFresh) (package : String) (labels : List Label) :
    (r.setDeps package labels).IsFresh := by
  rw [setDeps_eq]
  obtain ⟨old, hold⟩ := h.deps
  refine ⟨h.origin, h.moduleName, h.srcs, ?_⟩
  rw [hold]
  exact exists_replaced_plain old _

theorem HasLabels.setSrcs {package : String} (h : r.HasLabels package) (names : List String) :
    (r.setSrcs names).HasLabels package := by
  rw [setSrcs_eq]
  exact h

/-- Labels that can be read back are set. -/
theorem HasLabels.setDeps {package : String} (h : r.HasLabels package) (package' : String)
    {labels : List Label}
    (hl : ∀ label ∈ labels, Label.parse? (label.renderIn package) package = some label) :
    (r.setDeps package' labels).HasLabels package := by
  unfold Rule.setDeps
  cases hv : r.deps.replace? (r.arrangeDeps package' labels) with
  | none => exact h
  | some list =>
    have hvalues : list.values = r.arrangeDeps package' labels := by
      cases hd : r.deps with
      | computed => simp [hd, ListAttr.replace?] at hv
      | absent =>
        simp only [hd, ListAttr.replace?, Option.ite_none_left_eq_some, Option.some.injEq] at hv
        rw [← hv.2, ListValue.values_withValues]
      | literal list' =>
        simp only [hd, ListAttr.replace?, Option.ite_none_left_eq_some, Option.some.injEq] at hv
        rw [← hv.2, ListValue.values_withValues]
    rintro - list' hlist label hmem
    cases hlist
    rw [hvalues] at hmem
    exact hl label (mem_arrangeDeps.1 hmem).1

end Rule

/-! ## Changed files -/

theorem forall_mem_modify {α : Type} {p : α → Prop} {f : α → α} (hf : ∀ x, p x → p (f x))
    {xs : List α} (h : ∀ x ∈ xs, p x) (i : Nat) : ∀ x ∈ xs.modify i f, p x := by
  induction xs generalizing i with
  | nil => simp
  | cons x xs ih =>
    rw [List.forall_mem_cons] at h
    cases i with
    | zero =>
      rw [List.modify_zero_cons, List.forall_mem_cons]
      exact ⟨hf x h.1, h.2⟩
    | succ i =>
      rw [List.modify_succ_cons, List.forall_mem_cons]
      exact ⟨h.1, ih h.2 i⟩

/-- One of the entries is changed: one that stands for an old entry, or one behind those. -/
theorem exists_of_modify_append {α β : Type} {R : α → β → Prop} {p : β → Prop} {f : β → β}
    {xs : List α} {ys zs : List β} (h : List.Forall₂ R xs ys)
    (hR : ∀ x ∈ xs, ∀ y, R x y → R x (f y)) (hp : ∀ z, p z → p (f z)) (hz : ∀ z ∈ zs, p z)
    (i : Nat) : ∃ ys' zs', (ys ++ zs).modify i f = ys' ++ zs' ∧ List.Forall₂ R xs ys' ∧
      ∀ z ∈ zs', p z := by
  induction h generalizing i with
  | nil => exact ⟨[], zs.modify i f, rfl, .nil, forall_mem_modify hp hz i⟩
  | @cons x y xs ys hxy h ih =>
    rw [List.forall_mem_cons] at hR
    cases i with
    | zero => exact ⟨f y :: ys, zs, rfl, .cons (hR.1 y hxy) h, hz⟩
    | succ i =>
      obtain ⟨ys', zs', heq, hys, hzs⟩ := ih hR.2 i
      refine ⟨y :: ys', zs', ?_, .cons hxy hys, hzs⟩
      rw [List.cons_append, List.modify_succ_cons, heq, List.cons_append]

namespace Descriptor

/-- A rule that is added is a new one. -/
def Change.IsFresh : Change → Prop
  | .setSrcs .. | .setDeps .. => True
  | .add rule _ => rule.IsFresh

/-- **What changes leave of a file**: its text, its rules with their lists set, with new rules
behind them, and its loads with symbols added. -/
structure IsChange (d d' : Descriptor) : Prop where
  text : d'.text = d.text
  package : d'.package = d.package
  called : d'.called = d.called
  rules : ∃ read news, d'.rules = read ++ news ∧ List.Forall₂ Rule.IsEdit d.rules read ∧
    ∀ rule ∈ news, rule.IsFresh
  loads : List.Forall₂ (fun old new => new = { old with added := new.added }) d.loads d'.loads

theorem forall₂_addSymbol (file symbol : String) {olds news : List Load}
    (h : List.Forall₂ (fun old new => new = { old with added := new.added }) olds news) :
    List.Forall₂ (fun old new => new = { old with added := new.added }) olds
      (addSymbol file symbol news) := by
  induction h with
  | nil => exact .nil
  | @cons old new olds news hl h ih =>
    unfold addSymbol
    split
    · refine .cons ?_ h
      rw [hl]
    · exact .cons hl ih

variable {d d' : Descriptor}

theorem IsChange.refl (h : ∀ rule ∈ d.rules, rule.IsRead) : d.IsChange d := by
  refine ⟨rfl, rfl, rfl, ⟨d.rules, [], by simp, ?_, by simp⟩, List.forall₂_same.2 fun _ _ => rfl⟩
  exact List.forall₂_same.2 fun rule hr => .refl (h rule hr)

/-- **One more change.** -/
theorem IsChange.change (h : d.IsChange d') (hr : ∀ rule ∈ d.rules, rule.IsRead) {c : Change}
    (hc : c.IsFresh) : d.IsChange (d'.change c) := by
  obtain ⟨htext, hpackage, hcalled, ⟨read, news, hrules, hread, hnews⟩, hloads⟩ := h
  cases c with
  | setSrcs i names =>
    refine ⟨htext, hpackage, hcalled, ?_, hloads⟩
    simp only [Descriptor.change, hrules]
    exact exists_of_modify_append hread (fun rule hmem _ he => he.setSrcs (hr rule hmem) names)
      (fun _ hf => hf.setSrcs names) hnews i
  | setDeps i package labels =>
    refine ⟨htext, hpackage, hcalled, ?_, hloads⟩
    simp only [Descriptor.change, hrules]
    exact exists_of_modify_append hread
      (fun rule hmem _ he => he.setDeps (hr rule hmem) package labels)
      (fun _ hf => hf.setDeps package labels) hnews i
  | add rule file =>
    have heq : d'.change (.add rule file) = { d' with
        rules := d'.rules ++ [rule]
        loads := (d'.ensureSymbol file rule.kind.function).loads
        pendingLoads := (d'.ensureSymbol file rule.kind.function).pendingLoads } := by
      simp only [Descriptor.change, addRule]
      rw [ensureSymbol_eq]
    rw [heq]
    refine ⟨htext, hpackage, hcalled, ⟨read, news ++ [rule], ?_, hread, ?_⟩, ?_⟩
    · rw [hrules, List.append_assoc]
    · rw [List.forall_mem_append]
      exact ⟨hnews, fun r hmem => List.mem_singleton.1 hmem ▸ hc⟩
    · unfold ensureSymbol
      split
      · exact hloads
      · split
        · exact forall₂_addSymbol file _ hloads
        · exact hloads

/-- **Any changes**, if only new rules are added. -/
theorem isChange_changeAll (hr : ∀ rule ∈ d.rules, rule.IsRead) {changes : List Change}
    (hc : ∀ c ∈ changes, c.IsFresh) : d.IsChange (d.changeAll changes) := by
  suffices h : ∀ d', d.IsChange d' → d.IsChange (d'.changeAll changes) from h d (.refl hr)
  induction changes with
  | nil => exact fun d' h => h
  | cons c changes ih =>
    rw [List.forall_mem_cons] at hc
    exact fun d' h => ih hc.2 (d'.change c) (h.change hr hc.1)

/-! ## Files that were read -/

variable {path package text : String}

/-- A descriptor that was parsed. -/
theorem parse_eq_ok (h : parse path package text = .ok d) :
    ∃ ts, tokens 0 text.toList = .ok ts ∧
      Contents.ofTokens text.toList package ts = .ok ⟨d.rules, d.loads, d.called⟩ ∧
      d = ⟨path, package, text, d.rules, d.loads, d.called, []⟩ := by
  obtain ⟨c, hc, rfl⟩ := map_eq_ok h
  unfold Contents.parse at hc
  split at hc
  · cases hc
  · rename_i ts hts
    exact ⟨ts, hts, hc, rfl⟩

theorem isRead_of_parse (h : parse path package text = .ok d) :
    (∀ rule ∈ d.rules, rule.IsRead) ∧ ∀ load ∈ d.loads, load.added = [] := by
  obtain ⟨ts, hts, hc, -⟩ := parse_eq_ok h
  exact Contents.isRead_of_ofTokens hc (areTokens_of_tokens hts).1.proper

/-- A rule that was read is not new, whatever its lists were set to. -/
theorem isNew_of_isEdit {olds read : List Rule} (ho : ∀ rule ∈ olds, rule.IsRead)
    (hr : List.Forall₂ Rule.IsEdit olds read) : ∀ rule ∈ read, rule.isNew = false := by
  induction hr with
  | nil => simp
  | cons he hr ih =>
    rw [List.forall_mem_cons] at ho ⊢
    refine ⟨?_, ih ho.2⟩
    rw [Rule.isNew, he.origin]
    exact ho.1.isNew

theorem filter_isNew {read news : List Rule} {olds : List Rule} (ho : ∀ rule ∈ olds, rule.IsRead)
    (hr : List.Forall₂ Rule.IsEdit olds read) (hn : ∀ rule ∈ news, rule.IsFresh) :
    (read ++ news).filter Rule.isNew = news := by
  rw [List.filter_append, List.filter_eq_nil_iff.2 (by simpa using isNew_of_isEdit ho hr),
    List.nil_append, List.filter_eq_self]
  exact fun rule hmem => (hn rule hmem).isNew

/-- The edits within the text are those of the rules that were read from it, and of loads. -/
theorem flatMap_ruleEdits_new {text : List Char} {package : String} {news : List Rule}
    (hn : ∀ rule ∈ news, rule.IsFresh) : news.flatMap (ruleEdits text package) = [] := by
  rw [List.flatMap_eq_nil_iff]
  intro rule hmem
  rw [ruleEdits, (hn rule hmem).origin]

end Descriptor

end BuildSync.Build
