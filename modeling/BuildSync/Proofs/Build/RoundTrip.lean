import BuildSync.Proofs.Build.NewLoads

/-!
# Reading an edited file back

* `Descriptor.IsChange.exists_outline`: a file that was read, changed and written is read as the
  changed rules, its loads and the new loads.
* `Descriptor.parse_render`: so it is read as the changed rules.
-/

namespace BuildSync.Build

open Text

/-- What a reader sees of two rules is the same. -/
structure Rule.Agrees (r r' : Rule) : Prop where
  kind : r'.kind = r.kind
  name : r'.name = r.name
  srcs : r'.srcs.values? = r.srcs.values?
  deps : r'.deps.values? = r.deps.values?
  isKept : ∀ dep, r'.isKept dep = r.isKept dep
  moduleName : r'.moduleName = r.moduleName

theorem Rule.agrees_of_plain {r r' : Rule} (h : r'.plain = r.plain) : r.Agrees r' := by
  obtain ⟨kind, name, srcs, deps, moduleName, origin, srcsChanged, depsChanged⟩ := r
  obtain ⟨kind', name', srcs', deps', moduleName', origin', srcsChanged', depsChanged'⟩ := r'
  simp only [plain, mk.injEq, and_self, and_true] at h
  obtain ⟨rfl, rfl, rfl, rfl, rfl⟩ := h
  exact ⟨rfl, rfl, rfl, rfl, fun _ => rfl, rfl⟩

/-- A new rule is read back, but for sources of one that gathers all libraries. -/
theorem Rule.IsFresh.agrees_of_plain {r r' : Rule} (hf : r.IsFresh)
    (hd : r.kind = .devSources → r.srcs.values? = some []) (h : r'.plain = r.readBack) :
    r.Agrees r' := by
  have hr : r'.kind = r.readBack.kind ∧ r'.name = r.readBack.name ∧ r'.srcs = r.readBack.srcs ∧
      r'.deps = r.readBack.deps ∧ r'.moduleName = none := by
    rw [← h]
    exact ⟨rfl, rfl, rfl, rfl, congrArg Rule.moduleName h⟩
  obtain ⟨hkind, hname, hsrcs, hdeps, hmodule⟩ := hr
  have hempty : r.deps = .literal .empty ∨ r.readBack.deps = r.deps := by
    by_cases he : r.deps = .literal .empty
    · exact .inl he
    · exact .inr (by simp [readBack, he])
  refine ⟨hkind, hname, ?_, ?_, fun dep => ?_, hmodule.trans hf.moduleName.symm⟩
  · rw [hsrcs]
    by_cases hk : r.kind = .devSources
    · rw [hd hk]
      simp [readBack, hk, ListAttr.values?]
    · simp [readBack, hk]
  · rw [hdeps]
    rcases hempty with he | he
    · rw [he]
      simp [readBack, he, ListAttr.values?, ListValue.values, ListValue.empty]
    · rw [he]
  · unfold isKept
    rw [hdeps]
    rcases hempty with he | he
    · rw [he]
      simp [readBack, he, ListValue.empty]
    · rw [he]

/-- What a rule of a file is read as once the file is written. -/
def Rule.reread (r : Rule) : Rule :=
  if r.isNew then r.readBack else r.plain

theorem Rule.reread_of_new {r : Rule} (h : r.isNew = true) : r.reread = r.readBack :=
  if_pos h

theorem Rule.reread_of_old {r : Rule} (h : r.isNew = false) : r.reread = r.plain := by
  rw [reread, h]
  rfl

theorem forall₂_of_map_eq {α β γ : Type} {f : α → γ} {g : β → γ} {R : α → β → Prop} {xs : List α}
    {ys : List β} (hR : ∀ x ∈ xs, ∀ y, g y = f x → R x y) (h : ys.map g = xs.map f) :
    List.Forall₂ R xs ys := by
  induction xs generalizing ys with
  | nil =>
    rw [List.map_nil, List.map_eq_nil_iff] at h
    exact h ▸ .nil
  | cons x xs ih =>
    obtain ⟨y, ys, rfl, hy, hys⟩ := List.map_eq_cons_iff.1 h
    rw [List.forall_mem_cons] at hR
    exact .cons (hR.1 y hy) (ih hR.2 hys)

/-- A rule as it was read writes no labels. -/
theorem Rule.IsRead.hasLabels {rule : Rule} (h : rule.IsRead) (package : String) :
    rule.HasLabels package := by
  rintro (hc | hc)
  · rw [h.depsChanged] at hc
    cases hc
  · have hnew := h.isNew
    rw [Rule.isNew, hc] at hnew
    cases hnew

namespace Descriptor

variable {path package text : String} {d d' : Descriptor}

/-! ## Changes whose labels are read back -/

/-- The labels that a change writes in a file of `package` are read back. -/
def Change.HasLabels (package : String) : Change → Prop
  | .setSrcs .. => True
  | .setDeps _ _ labels =>
    ∀ label ∈ labels, Label.parse? (label.renderIn package) package = some label
  | .add rule _ => rule.HasLabels package

/-- The function of a rule that is added has a meaning in the file `d` already. -/
def Change.IsKnown (d : Descriptor) : Change → Prop
  | .setSrcs .. | .setDeps .. => True
  | .add rule _ => d.hasSymbol rule.kind.function = true

theorem rules_hasLabels_change (h : ∀ rule ∈ d.rules, rule.HasLabels package) {c : Change}
    (hc : c.HasLabels package) : ∀ rule ∈ (d.change c).rules, rule.HasLabels package := by
  cases c with
  | setSrcs i names => exact forall_mem_modify (fun _ hr => hr.setSrcs names) h i
  | setDeps i package' labels => exact forall_mem_modify (fun _ hr => hr.setDeps package' hc) h i
  | add rule file =>
    simp only [change, rules_addRule, List.forall_mem_append]
    exact ⟨h, fun r hr => List.mem_singleton.1 hr ▸ hc⟩

/-- Nothing has to be loaded for a rule whose function is known. -/
theorem loads_change {c : Change} (hc : c.IsKnown d) (hcalled : d'.called = d.called)
    (hloads : d'.loads = d.loads) (hpending : d'.pendingLoads = d.pendingLoads) :
    (d'.change c).loads = d.loads ∧ (d'.change c).pendingLoads = d.pendingLoads := by
  cases c with
  | setSrcs i names => exact ⟨hloads, hpending⟩
  | setDeps i package' labels => exact ⟨hloads, hpending⟩
  | add rule file =>
    have hsymbol : d'.hasSymbol rule.kind.function = true := by
      unfold hasSymbol
      rw [hcalled, hloads, hpending]
      exact hc
    simp only [change, addRule, ensureSymbol, hsymbol, if_true]
    exact ⟨hloads, hpending⟩

/-- **What some changes leave** whose labels are read back and which need nothing loaded. -/
theorem changeAll_known (hr : ∀ rule ∈ d.rules, rule.IsRead) {changes : List Change}
    (hf : ∀ c ∈ changes, c.IsFresh) (hl : ∀ c ∈ changes, c.HasLabels package)
    (hk : ∀ c ∈ changes, c.IsKnown d) :
    (∀ rule ∈ (d.changeAll changes).rules, rule.HasLabels package) ∧
      (d.changeAll changes).loads = d.loads ∧
      (d.changeAll changes).pendingLoads = d.pendingLoads := by
  suffices h : ∀ d', d.IsChange d' → (∀ rule ∈ d'.rules, rule.HasLabels package) →
      d'.loads = d.loads → d'.pendingLoads = d.pendingLoads →
      (∀ rule ∈ (d'.changeAll changes).rules, rule.HasLabels package) ∧
        (d'.changeAll changes).loads = d.loads ∧
        (d'.changeAll changes).pendingLoads = d.pendingLoads by
    exact h d (.refl hr) (fun rule hmem => (hr rule hmem).hasLabels package) rfl rfl
  induction changes with
  | nil => exact fun d' _ hlabels hloads hpending => ⟨hlabels, hloads, hpending⟩
  | cons c changes ih =>
    rw [List.forall_mem_cons] at hf hl hk
    intro d' hchange hlabels hloads hpending
    obtain ⟨hloads', hpending'⟩ := loads_change hk.1 hchange.called hloads hpending
    exact ih hf.2 hl.2 hk.2 (d'.change c) (hchange.change hr hf.1)
      (rules_hasLabels_change hlabels hl.1) hloads' hpending'

/-! ## The round trip -/

theorem IsChange.hasClosedLoads {e : Descriptor} (h : d.IsChange e) :
    e.hasClosedLoads = d.hasClosedLoads := by
  have hstops : e.loads.map (·.span.stop) = d.loads.map (·.span.stop) :=
    map_eq_of_forall₂ h.loads fun old new hl => by rw [hl]
  unfold Descriptor.hasClosedLoads
  rw [hstops, h.text]

/-- Only rules that were added are new. -/
theorem IsChange.isFresh {e : Descriptor} (h : d.IsChange e) (hr : ∀ rule ∈ d.rules, rule.IsRead) :
    ∀ rule ∈ e.rules, rule.isNew = true → rule.IsFresh := by
  obtain ⟨read, news, hrules, hread, hnews⟩ := h.rules
  rw [hrules, List.forall_mem_append]
  refine ⟨fun rule hmem hnew => ?_, fun rule hmem _ => hnews rule hmem⟩
  rw [isNew_of_isEdit hr hread rule hmem] at hnew
  cases hnew

/-- **What changes leave of a file is read again** once it is written: its rules, and its loads with
the new ones among them, if a statement ends with the line of the last load where new loads are
added. -/
theorem IsChange.exists_outline {e : Descriptor} (h : parse path package text = .ok d)
    (hchange : d.IsChange e) (hlabels : ∀ rule ∈ e.rules, rule.HasLabels package)
    (hclosed : e.pendingLoads ≠ [] → d.hasClosedLoads = true) :
    ∃ d' before after, parse path package e.render = .ok d' ∧
      d'.rules.map Rule.plain = e.rules.map Rule.reread ∧
      e.loads.map Load.binds = before ++ after ∧
      d'.loads.map Load.binds = before ++ (pendingOutline e.pendingLoads).loads ++ after := by
  obtain ⟨ts, sites, read, news, hedit⟩ := exists_isEditOf h hchange
  have hrules := hedit.rules
  rw [hrules, List.forall_mem_append] at hlabels
  obtain ⟨edited, o₁, o₂, hresult, hreads, houtline⟩ := hedit.exists_reads hlabels.1
    fun hpending => hchange.hasClosedLoads.trans (hclosed hpending)
  -- The new rules follow the edited text.
  have hrender : e.render = String.ofList (news.foldl (appendRule package) edited) := by
    unfold render
    dsimp only
    rw [hedit.text, hresult, hedit.package, hrules,
      filter_isNew hedit.isRead hedit.edited hedit.fresh]
    rfl
  obtain ⟨c, hparse, hread⟩ :=
    (TextReads.foldl_appendRule news hreads hedit.fresh hlabels.2).exists_parse
  have hloads : e.loads.map Load.binds = o₁.loads ++ o₂.loads := congrArg Outline.loads houtline
  have hold : read.map Rule.plain = o₁.rules ++ o₂.rules := congrArg Outline.rules houtline
  refine ⟨⟨path, package, e.render, c.rules, c.loads, c.called, []⟩, o₁.loads, o₂.loads, ?_, ?_,
    hloads, ?_⟩
  · unfold parse
    rw [hrender, String.toList_ofList, hparse]
    rfl
  · have hreadOld : read.map Rule.reread = read.map Rule.plain :=
      List.map_congr_left fun rule hmem =>
        Rule.reread_of_old (isNew_of_isEdit hedit.isRead hedit.edited rule hmem)
    have hreadNew : news.map Rule.reread = news.map Rule.readBack :=
      List.map_congr_left fun rule hmem => Rule.reread_of_new (hedit.fresh rule hmem).isNew
    have hplain := congrArg Outline.rules hread
    rw [hrules, List.map_append, hreadOld, hreadNew, hold]
    simpa [Contents.outline, Outline.of, pendingOutline] using hplain
  · have hbinds := congrArg Outline.loads hread
    simpa [Contents.outline, Outline.of] using hbinds

/-- **What changes leave of a file is read again** once it is written, if a statement ends with the
line of the last load where new loads are added. -/
theorem IsChange.exists_agrees {e : Descriptor} (h : parse path package text = .ok d)
    (hchange : d.IsChange e) (hlabels : ∀ rule ∈ e.rules, rule.HasLabels package)
    (hclosed : e.pendingLoads ≠ [] → d.hasClosedLoads = true)
    (hd : ∀ rule ∈ e.rules, rule.isNew = true → rule.kind = .devSources →
      rule.srcs.values? = some []) :
    ∃ d', parse path package e.render = .ok d' ∧ List.Forall₂ Rule.Agrees e.rules d'.rules := by
  obtain ⟨hread, -⟩ := isRead_of_parse h
  obtain ⟨d', -, -, hparse, hrules, -⟩ := hchange.exists_outline h hlabels hclosed
  refine ⟨d', hparse, forall₂_of_map_eq (fun rule hmem rule' heq => ?_) hrules⟩
  cases hnew : rule.isNew with
  | true =>
    rw [Rule.reread_of_new hnew] at heq
    exact (hchange.isFresh hread rule hmem hnew).agrees_of_plain (hd rule hmem hnew) heq
  | false =>
    rw [Rule.reread_of_old hnew] at heq
    exact Rule.agrees_of_plain heq

/-- **A file is read, changed, written and read again**: what is read are the changed rules. Only
new rules are added, whose function has a meaning in the file, and the labels that are set can be
read back. -/
theorem parse_render (h : parse path package text = .ok d) {changes : List Change}
    (hf : ∀ c ∈ changes, c.IsFresh) (hl : ∀ c ∈ changes, c.HasLabels package)
    (hk : ∀ c ∈ changes, c.IsKnown d)
    (hd : ∀ rule ∈ (d.changeAll changes).rules, rule.isNew = true → rule.kind = .devSources →
      rule.srcs.values? = some []) :
    ∃ d', parse path package (d.changeAll changes).render = .ok d' ∧
      List.Forall₂ Rule.Agrees (d.changeAll changes).rules d'.rules := by
  obtain ⟨hread, -⟩ := isRead_of_parse h
  obtain ⟨hlabels, -, hpending⟩ := changeAll_known hread hf hl hk
  obtain ⟨ts, -, -, hd'⟩ := parse_eq_ok h
  have hnone : d.pendingLoads = [] := congrArg Descriptor.pendingLoads hd'
  exact (isChange_changeAll hread hf).exists_agrees h hlabels
    (fun hne => absurd (hpending.trans hnone) hne) hd

/-! ## A file with a comment after its last argument -/

def sampleText : String :=
  "ts_library(\n    name = \"a\",\n    deps = [\"//c\"]  # all\n)"

def sampleRule : Rule :=
  ⟨.library false, "a", .absent, .literal ⟨[.plain ⟨none, "c", "c"⟩], []⟩, none,
    some ⟨⟨0, 55⟩, 53, 46, false, true, "    ", none, some ⟨39, 46⟩⟩, false, false⟩

def sampleFile : Descriptor :=
  ⟨"p/BUILD", "p", sampleText, [sampleRule], [], ["ts_library"], []⟩

/-- The rule gets a list that it lacks and a longer one, and another rule is added. -/
def sampleChanges : List Change :=
  [.setSrcs 0 ["d.ts", "b.ts"], .setDeps 0 "p" [⟨none, "q", "q"⟩, ⟨none, "c", "c"⟩],
    .add (.ofName (.library true) "t") "x.bzl", .setSrcs 1 ["b.test.ts"]]

theorem parse_sampleText : parse "p/BUILD" "p" sampleText = .ok sampleFile :=
  toOption_eq_some.1 (by decide +kernel)

theorem parse_render_sample :
    parse "p/BUILD" "p" sampleText = .ok sampleFile ∧ (∀ c ∈ sampleChanges, c.IsFresh) ∧
      (∀ c ∈ sampleChanges, c.HasLabels "p") ∧ (∀ c ∈ sampleChanges, c.IsKnown sampleFile) ∧
      (∀ rule ∈ (sampleFile.changeAll sampleChanges).rules, rule.isNew = true →
        rule.kind = .devSources → rule.srcs.values? = some []) ∧
      ∃ d', parse "p/BUILD" "p" (sampleFile.changeAll sampleChanges).render = .ok d' ∧
        List.Forall₂ Rule.Agrees (sampleFile.changeAll sampleChanges).rules d'.rules := by
  have hfresh : ∀ c ∈ sampleChanges, c.IsFresh := by
    simp [sampleChanges, Change.IsFresh, Rule.isFresh_ofName]
  have hlabels : ∀ c ∈ sampleChanges, c.HasLabels "p" := by
    have hempty : (Rule.ofName (.library true) "t").HasLabels "p" := by
      rintro - list hl
      cases hl
      simp [ListValue.values, ListValue.empty]
    have hread : ∀ label ∈ [(⟨none, "q", "q"⟩ : Label), ⟨none, "c", "c"⟩],
        Label.parse? (label.renderIn "p") "p" = some label := by
      decide
    simpa [sampleChanges, Change.HasLabels, hempty] using hread
  have hknown : ∀ c ∈ sampleChanges, c.IsKnown sampleFile := by
    have hsymbol : sampleFile.hasSymbol "ts_library" = true := by decide
    simp [sampleChanges, Change.IsKnown, Rule.ofName, RuleKind.function, hsymbol]
  have hsrcs : ∀ rule ∈ (sampleFile.changeAll sampleChanges).rules, rule.isNew = true →
      rule.kind = .devSources → rule.srcs.values? = some [] := by
    have hkinds : (sampleFile.changeAll sampleChanges).rules.map Rule.kind =
        [.library false, .library true] := by
      simp [changeAll, sampleChanges, change, sampleFile, sampleRule, Rule.ofName]
    intro rule hmem _ hk
    have hkind := List.mem_map_of_mem (f := Rule.kind) hmem
    rw [hkinds, hk] at hkind
    simp at hkind
  exact ⟨parse_sampleText, hfresh, hlabels, hknown, hsrcs,
    parse_render parse_sampleText hfresh hlabels hknown hsrcs⟩

end Descriptor

end BuildSync.Build
