import BuildSync.Proofs.Build.RoundTrip

/-!
# Rules with their loads

A rule is added to a file, and its function is loaded if it has no meaning there.

* `Descriptor.LoadsFor`: the loads of a file bind what they did, and one symbol if it had no
  meaning.
* `Descriptor.parse_addRule`: a file with a rule added is read as its rules and the new one, and its
  loads bind what they did, and the function of the rule. A statement has to end with the line of
  the last load where a new one goes behind it.
-/

namespace BuildSync.Build

/-! ## Loads that gain a symbol -/

/-- A load binds a symbol that is added to it. -/
theorem Load.binds_added (load : Load) (symbol : String) :
    Load.binds { load with added := load.added ++ [symbol] } =
      fun name => load.binds name || decide (name = symbol) := by
  funext name
  simp [Load.binds, Bool.or_assoc]

/-- The line for one pending symbol binds just that. -/
theorem loads_pendingOutline_singleton (file symbol : String) :
    (pendingOutline [(file, symbol)]).loads = [fun name => decide (name = symbol)] := by
  simp [pendingOutline, sortedTexts, sortedSet, dropRepeats]

namespace Descriptor

variable {path package text : String} {d d' : Descriptor}

/-- A symbol is added to one load. -/
theorem exists_addSymbol {file : String} (symbol : String) {loads : List Load}
    (h : loads.any (·.file = file) = true) : ∃ front load back, loads = front ++ load :: back ∧
      addSymbol file symbol loads =
        front ++ { load with added := load.added ++ [symbol] } :: back := by
  induction loads with
  | nil => cases h
  | cons load loads ih =>
    unfold addSymbol
    by_cases hfile : load.file = file
    · exact ⟨[], load, loads, rfl, by rw [if_pos hfile]; rfl⟩
    · have hrest : loads.any (·.file = file) = true := by simpa [hfile] using h
      obtain ⟨front, load', back, rfl, hadd⟩ := ih hrest
      exact ⟨load :: front, load', back, rfl, by rw [if_neg hfile, hadd]; rfl⟩

/-- Some load of the file gives `name` a meaning. -/
def binds (d : Descriptor) (name : String) : Bool :=
  d.loads.any (·.binds name)

/-- **What is loaded for `symbol`**: the loads bind what they did, and `symbol` if it had no
meaning. -/
structure LoadsFor (symbol : String) (d d' : Descriptor) : Prop where
  kept : ∀ name, d.binds name = true → d'.binds name = true
  bound : symbol ∈ d.called ∨ d'.binds symbol = true
  /-- Nothing is loaded for a symbol that has a meaning. -/
  known : d.hasSymbol symbol = true → d'.loads.map Load.binds = d.loads.map Load.binds
  /-- Nothing is loaded for another name. -/
  others : ∀ name, name ≠ symbol →
    d'.loads.countP (·.binds name) = d.loads.countP (·.binds name)

theorem binds_eq (d : Descriptor) (name : String) :
    d.binds name = (d.loads.map Load.binds).any (· name) := by
  rw [List.any_map]
  rfl

theorem countP_binds (loads : List Load) (name : String) :
    loads.countP (·.binds name) = (loads.map Load.binds).countP (· name) := by
  rw [List.countP_map]
  rfl

theorem LoadsFor.of_known {symbol : String} (hsymbol : symbol ∈ d.called ∨ d.binds symbol = true)
    (h : d'.loads.map Load.binds = d.loads.map Load.binds) : LoadsFor symbol d d' := by
  have hbinds : ∀ name, d'.binds name = d.binds name := fun name => by
    rw [binds_eq, binds_eq, h]
  refine ⟨fun name hname => (hbinds name).trans hname, ?_, fun _ => h, fun name _ => ?_⟩
  · rwa [hbinds]
  · rw [countP_binds, countP_binds, h]

/-- One load gains the symbol, or there is a new one for it. -/
theorem LoadsFor.of_gain {symbol : String} {before gained after : List (String → Bool)}
    (hnew : d.hasSymbol symbol = false) (hgained : gained.length ≤ 1)
    (h : d.loads.map Load.binds = before ++ gained ++ after)
    (h' : d'.loads.map Load.binds =
      before ++ (fun name => gained.any (· name) || decide (name = symbol)) :: after) :
    LoadsFor symbol d d' := by
  refine ⟨fun name hname => ?_, .inr ?_, fun hknown => ?_, fun name hne => ?_⟩
  · rw [binds_eq, h, List.any_append, List.any_append] at hname
    rw [binds_eq, h', List.any_append, List.any_cons]
    simp only [Bool.or_eq_true] at hname ⊢
    rcases hname with (hname | hname) | hname
    · exact .inl hname
    · exact .inr (.inl (.inl hname))
    · exact .inr (.inr hname)
  · rw [binds_eq, h']
    simp
  · rw [hnew] at hknown
    cases hknown
  · rw [countP_binds, countP_binds, h, h', List.countP_append, List.countP_append,
      List.countP_append, List.countP_cons]
    match gained, hgained with
    | [], _ => simp [hne]
    | [scope], _ =>
      simp [hne]
      omega

/-! ## A rule that is added -/

theorem addRule_of_hasSymbol {rule : Rule} (h : d.hasSymbol rule.kind.function = true)
    (file : String) : d.addRule rule file = { d with rules := d.rules ++ [rule] } := by
  unfold addRule ensureSymbol
  rw [if_pos h]

/-- **The text stays as it is** where the function of the rule has a meaning. -/
theorem isPrefix_render_addRule (h : parse path package text = .ok d) {rule : Rule}
    (hf : rule.IsFresh) (hk : d.hasSymbol rule.kind.function = true) (file : String) :
    text.toList <+: (d.addRule rule file).render.toList := by
  obtain ⟨contents, -, hd⟩ := map_eq_ok h
  have htext : d.text = text := by rw [← hd]
  have hedits : (d.addRule rule file).edits = [] := by
    have hrule : [rule].flatMap (ruleEdits d.text.toList d.package) = [] :=
      flatMap_ruleEdits_new (by simpa using hf)
    have hsame : (d.addRule rule file).edits = d.edits := by
      rw [addRule_of_hasSymbol hk]
      unfold edits pendingEdits loadEdits
      rw [List.flatMap_append, hrule, List.append_nil]
    exact hsame.trans (edits_of_parse h)
  have hnews : (d.addRule rule file).rules.filter Rule.isNew = [rule] := by
    rw [rules_addRule]
    refine filter_isNew (isRead_of_parse h).1 ?_ (by simpa using hf)
    exact List.forall₂_same.2 fun r hr => .refl ((isRead_of_parse h).1 r hr)
  have hsame : (d.addRule rule file).text = text := by
    rw [addRule_of_hasSymbol hk]
    exact htext
  unfold render
  dsimp only
  rw [hedits, hnews, hsame, String.toList_ofList, List.foldl_cons, List.foldl_nil, appendRule,
    Text.splice?, Option.getD_some, List.append_assoc]
  exact List.prefix_append _ _

/-- **The loads of a file with a rule added**, with the new ones among them. -/
theorem loadsFor_addRule (hnone : d.pendingLoads = []) {rule : Rule} {file : String}
    {before after : List (String → Bool)}
    (hsplit : (d.addRule rule file).loads.map Load.binds = before ++ after)
    (hloads : d'.loads.map Load.binds =
      before ++ (pendingOutline (d.addRule rule file).pendingLoads).loads ++ after) :
    LoadsFor rule.kind.function d d' := by
  cases hk : d.hasSymbol rule.kind.function with
  | true =>
    -- Nothing is loaded.
    rw [addRule_of_hasSymbol hk] at hsplit hloads
    dsimp only at hsplit hloads
    rw [hnone, pendingOutline_nil] at hloads
    refine .of_known ?_ (by rw [hloads, hsplit]; simp [Outline.empty])
    unfold hasSymbol at hk
    rw [hnone] at hk
    simpa [binds] using hk
  | false =>
    cases hfile : d.loads.any (·.file = file) with
    | true =>
      -- A load of the file gains the function.
      obtain ⟨front, load, back, hfront, hadd⟩ := exists_addSymbol rule.kind.function hfile
      have he : (d.addRule rule file).loads = addSymbol file rule.kind.function d.loads ∧
          (d.addRule rule file).pendingLoads = [] := by
        simp [addRule, ensureSymbol, hk, hfile, hnone]
      rw [he.1, hadd, List.map_append, List.map_cons, Load.binds_added] at hsplit
      rw [he.2, pendingOutline_nil] at hloads
      refine @LoadsFor.of_gain d d' _ (front.map Load.binds) [load.binds] (back.map Load.binds) hk
        (by simp) (by simp [hfront]) ?_
      rw [hloads]
      simpa [Outline.empty] using hsplit.symm
    | false =>
      -- A new load has the function.
      have he : (d.addRule rule file).loads = d.loads ∧
          (d.addRule rule file).pendingLoads = [(file, rule.kind.function)] := by
        simp [addRule, ensureSymbol, hk, hfile, hnone]
      rw [he.1] at hsplit
      rw [he.2, loads_pendingOutline_singleton] at hloads
      exact @LoadsFor.of_gain d d' _ before [] after hk (by simp) (by simpa using hsplit)
        (by simpa using hloads)

/-- **A file with a rule added is read again**: as its rules and the new one, and its loads bind
what they did, and the function of the rule. A statement has to end with the line of the last load
where a new one goes behind it. -/
theorem parse_addRule (h : parse path package text = .ok d) {rule : Rule} (hf : rule.IsFresh)
    (hl : rule.HasLabels package) (hd : rule.kind = .devSources → rule.srcs.values? = some [])
    (file : String)
    (hclosed : (d.addRule rule file).pendingLoads ≠ [] → d.hasClosedLoads = true) :
    ∃ d' olds new, parse path package (d.addRule rule file).render = .ok d' ∧
      d'.rules = olds ++ [new] ∧ olds.map Rule.plain = d.rules.map Rule.plain ∧
      rule.Agrees new ∧ LoadsFor rule.kind.function d d' ∧
      (d.hasSymbol rule.kind.function = true →
        text.toList <+: (d.addRule rule file).render.toList) := by
  obtain ⟨hread, -⟩ := isRead_of_parse h
  obtain ⟨contents, -, hparsed⟩ := map_eq_ok h
  have hnone : d.pendingLoads = [] := by rw [← hparsed]
  have hchange : d.IsChange (d.addRule rule file) :=
    (IsChange.refl hread).change hread (c := .add rule file) hf
  have hlabels : ∀ r ∈ (d.addRule rule file).rules, r.HasLabels package :=
    rules_hasLabels_change (fun r hr => (hread r hr).hasLabels package) (c := .add rule file) hl
  obtain ⟨d', before, after, hparse, hrules, hsplit, hloads⟩ :=
    hchange.exists_outline h hlabels hclosed
  -- The rules that were read stay as they are.
  have holds : d.rules.map Rule.reread = d.rules.map Rule.plain :=
    List.map_congr_left fun r hr => Rule.reread_of_old (hread r hr).isNew
  rw [rules_addRule, List.map_append, holds] at hrules
  obtain ⟨olds, news, hd', holds', hnews⟩ := List.map_eq_append_iff.1 hrules
  obtain ⟨new, rfl, hnew⟩ := List.map_eq_singleton_iff.1 hnews
  rw [Rule.reread_of_new hf.isNew] at hnew
  exact ⟨d', olds, new, hparse, hd', holds', hf.agrees_of_plain hd hnew,
    loadsFor_addRule hnone hsplit hloads, fun hk => isPrefix_render_addRule h hf hk file⟩

/-! ## A call behind the last load -/

def lineText : String :=
  "load(\"l\", \"x\"); f(1)\nts_config(name = \"c\")"

def lineFile : Descriptor :=
  ⟨"p/BUILD", "p", lineText,
    [⟨.config, "c", .absent, .absent, none,
      some ⟨⟨21, 42⟩, 41, 41, false, false, "    ", none, none⟩, false, false⟩],
    [⟨⟨0, 14⟩, "l", [("x", "\"x\"")], [], []⟩], ["load", "ts_config"], []⟩

theorem parse_lineText : parse "p/BUILD" "p" lineText = .ok lineFile :=
  toOption_eq_some.1 (by decide +kernel)

/-- The rule to be added has a dependency. -/
def lineRule : Rule :=
  (Rule.ofName (.library false) "p").setDeps "p" [⟨none, "q", "q"⟩]

theorem isFresh_lineRule : lineRule.IsFresh :=
  (Rule.isFresh_ofName _ _).setDeps _ _

theorem hasLabels_lineRule : lineRule.HasLabels "p" := by
  refine Rule.HasLabels.setDeps ?_ _ ?_
  · rintro - list hl
    cases hl
    simp [ListValue.values, ListValue.empty]
  · have hread : ∀ label ∈ [(⟨none, "q", "q"⟩ : Label)],
        Label.parse? (label.renderIn "p") "p" = some label := by
      decide
    exact hread

theorem parse_addRule_line :
    parse "p/BUILD" "p" lineText = .ok lineFile ∧ lineRule.IsFresh ∧ lineRule.HasLabels "p" ∧
      (lineRule.kind = .devSources → lineRule.srcs.values? = some []) ∧
      ((lineFile.addRule lineRule "m").pendingLoads ≠ [] → lineFile.hasClosedLoads = true) ∧
      ∃ d' olds new, parse "p/BUILD" "p" (lineFile.addRule lineRule "m").render = .ok d' ∧
        d'.rules = olds ++ [new] ∧ olds.map Rule.plain = lineFile.rules.map Rule.plain ∧
        lineRule.Agrees new ∧ LoadsFor lineRule.kind.function lineFile d' ∧
        (lineFile.hasSymbol lineRule.kind.function = true →
          lineText.toList <+: (lineFile.addRule lineRule "m").render.toList) := by
  have hkind : lineRule.kind = .devSources → lineRule.srcs.values? = some [] := by
    intro hk
    rw [lineRule, Rule.setDeps_eq] at hk
    cases hk
  have hclosed : lineFile.hasClosedLoads = true := by decide +kernel
  exact ⟨parse_lineText, isFresh_lineRule, hasLabels_lineRule, hkind, fun _ => hclosed,
    parse_addRule parse_lineText isFresh_lineRule hasLabels_lineRule hkind "m" fun _ => hclosed⟩

/-! ## A call that goes on behind the line of the last load -/

def openText : String :=
  "load(\"@x//:a.bzl\", \"a\"); a(\n    name = \"z\",\n)\n"

def openFile : Descriptor :=
  ⟨"p/BUILD", "p", openText, [], [⟨⟨0, 23⟩, "@x//:a.bzl", [("a", "\"a\"")], [], []⟩], ["load"], []⟩

def openRule : Rule :=
  .ofName (.library false) "p"

/-- **The new load is lost in the call**: no load of the file binds the function of the rule, and
the file did not call it. -/
theorem parse_addRule_open :
    parse "p/BUILD" "p" openText = .ok openFile ∧ openRule.IsFresh ∧ openRule.HasLabels "p" ∧
      openRule.kind ≠ .devSources ∧ ∃ d', parse "p/BUILD" "p" (openFile.addRule openRule
        "@npm_bazel_typescript//:index.bzl").render = .ok d' ∧
          openRule.kind.function ∉ openFile.called ∧ d'.binds openRule.kind.function = false := by
  have hparse : parse "p/BUILD" "p" openText = .ok openFile :=
    toOption_eq_some.1 (by decide +kernel)
  have hlabels : openRule.HasLabels "p" := by
    rintro - list hl
    cases hl
    simp [ListValue.values, ListValue.empty]
  have hlost : (parse "p/BUILD" "p" (openFile.addRule openRule
      "@npm_bazel_typescript//:index.bzl").render).toOption.map (·.binds openRule.kind.function) =
        some false := by
    decide +kernel
  obtain ⟨d', hd', hbinds⟩ := Option.map_eq_some_iff.1 hlost
  exact ⟨hparse, Rule.isFresh_ofName _ _, hlabels, by decide, d', toOption_eq_some.1 hd',
    by decide, hbinds⟩

end Descriptor

end BuildSync.Build
