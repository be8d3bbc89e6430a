import BuildSync.Proofs.Build.RuleEdits
import BuildSync.Proofs.Build.Statements

/-!
# New rules

* `Rule.IsFresh`: a rule that was made and not read. `Rule.readBack`: what it is read as.
* `Rule.IsFresh.exists_reads`: a written rule is read back so.
* `TextReads.foldl_appendRule`: so are new rules when they are appended to a text.
-/

namespace BuildSync.Build

open Text

/-! ## Lines of arguments -/

/-- A keyword argument on a line of its own. -/
structure ArgumentLine where
  name : String
  value : List Char
  tokens : List Token
  isName : IsName name
  lexes : Lexes value tokens (some ',')
  isPart : IsPart 0 tokens
  nest : nest [] tokens = some []

namespace ArgumentLine

def text (line : ArgumentLine) : List Char :=
  argumentLine line.name line.value

def lineTokens (line : ArgumentLine) : List Token :=
  namedTokens line.name line.tokens ++ [commaToken, newlineToken]

def said (line : ArgumentLine) : Attribute :=
  namedAttribute line.name line.tokens

/-- The argument with its comma, indented. -/
def written (line : ArgumentLine) (indent : List Char) : List Char :=
  indent ++ (namedText line.name line.value ++ [','])

/-- However far it is indented, a line has the same tokens. -/
theorem isWritten_line (line : ArgumentLine) {indent : List Char}
    (hi : ∀ c ∈ indent, isGap c = true) :
    IsWritten (line.written indent ++ ['\n']) line.lineTokens := by
  have hnewline : IsWritten ['\n'] [newlineToken] := fun next => (IsToken.newline next).lexes
  have hend := isWritten_comma.append hnewline
  intro next
  unfold written
  rw [List.append_assoc, List.append_assoc]
  exact (isWritten_gaps hi _).append
    ((lexes_namedText line.isName.lexes line.lexes).append (hend next))

theorem text_eq (line : ArgumentLine) : line.text = line.written "    ".toList ++ ['\n'] := by
  have hcomma : ",\n".toList = [','] ++ ['\n'] := rfl
  unfold text argumentLine written namedText
  rw [hcomma]
  simp only [List.append_assoc]

/-- What the lines between two parentheses say. -/
theorem attributes_lines (lines : List ArgumentLine) {lead : List Token}
    (hl : ∀ t ∈ lead, t.isTrivia = true) :
    attributes (lead ++ lines.flatMap lineTokens) = lines.map said := by
  induction lines generalizing lead with
  | nil => simpa using attributes_trivia hl
  | cons line lines ih =>
    have hnewline : ∀ t ∈ [newlineToken], t.isTrivia = true := by
      intro t ht
      rw [List.mem_singleton.1 ht]
      rfl
    have h := attributes_namedTokens_comma line.name line.isPart line.nest hl
      ([newlineToken] ++ lines.flatMap lineTokens)
    rw [ih hnewline] at h
    simpa [lineTokens, said] using h

theorem nest_lines (lines : List ArgumentLine) :
    Build.nest [] (lines.flatMap lineTokens) = some [] := by
  induction lines with
  | nil => rfl
  | cons line lines ih =>
    have hline : Build.nest [] line.lineTokens = some [] := by
      have hnamed : Build.nest [] (namedTokens line.name line.tokens) = some [] := line.nest
      rw [lineTokens, nest_append, hnamed]
      rfl
    rw [List.flatMap_cons, nest_append, hline, Option.bind_some, ih]

end ArgumentLine

/-! ## The lines of a rule -/

theorem isName_name : IsName "name" :=
  isName_of_all rfl (by decide) (by decide) (by decide)

theorem isName_testonly : IsName "testonly" :=
  isName_of_all rfl (by decide) (by decide) (by decide)

namespace ArgumentLine

/-- The line with a text. -/
def ofText {name : String} (hname : IsName name) (text : String) : ArgumentLine where
  name := name
  value := quote text.toList
  tokens := [literalToken text]
  isName := hname
  lexes := (IsToken.quote text.toList (by simp)).lexes
  isPart := ⟨by simp [literalToken], trivial⟩
  nest := nest_literalToken text

/-- The line of a test rule. -/
def ofTest : ArgumentLine where
  name := "testonly"
  value := "True".toList
  tokens := [⟨.word, 0, "True".toList⟩]
  isName := isName_testonly
  lexes := by
    have hcs : ∀ d ∈ ['r', 'u', 'e'], isWordChar d = true := List.all_eq_true.1 (by decide)
    exact (@IsToken.word 'T' ['r', 'u', 'e'] (by decide) (by decide) hcs ',' (by decide)
      (by decide)).lexes
  isPart := ⟨by simp, trivial⟩
  nest := rfl

/-- The line with a list. -/
def ofList {α : Type} {name : String} (hname : IsName name) (f : α → String) (list : ListValue α)
    (h : list.IsClean) : ArgumentLine where
  name := name
  value := list.layout "    ".toList fun a => quote (f a).toList
  tokens := bracketTokens (list.layoutTokens f)
  isName := hname
  lexes := isWritten_layout h f (List.all_eq_true.1 (by decide)) _
  isPart := isPart_bracketTokens (kinds_of_listOf? (listOf?_layoutTokens h f)) 0
  nest := nest_bracketTokens (kinds_of_listOf? (listOf?_layoutTokens h f)) []

theorem text?_said_ofText {name : String} (hname : IsName name) (text : String) :
    (ofText hname text).said.text? = some text := by
  have hwords : (ofText hname text).said.words = [literalToken text] := rfl
  unfold Attribute.text?
  rw [hwords]
  simp [literalToken, literalValue_quote]

theorem list?_said_ofList {α : Type} {name : String} (hname : IsName name) (f : α → String)
    (list : ListValue α) (h : list.IsClean) :
    (ofList hname f list h).said.list? = some (list.mapValues f) :=
  list?_namedAttribute name (listOf?_layoutTokens h f)

end ArgumentLine

theorem isClean_plain {α : Type} (values : List α) :
    (⟨values.map .plain, []⟩ : ListValue α).IsClean := by
  refine ⟨fun item hi => ?_, by simp⟩
  obtain ⟨value, -, rfl⟩ := List.mem_map.1 hi
  exact ⟨by simp [ListItem.plain], by simp [ListItem.plain]⟩

/-! ## New rules -/

/-- A rule that was made and not read: its lists have no comments. -/
structure Rule.IsFresh (rule : Rule) : Prop where
  origin : rule.origin = none
  moduleName : rule.moduleName = none
  srcs : ∃ names : List String, rule.srcs = .literal ⟨names.map .plain, []⟩
  deps : ∃ labels : List Label, rule.deps = .literal ⟨labels.map .plain, []⟩

/-- What a new rule is read back as: one that gathers all libraries has no sources, and without
dependencies there is no list of them. -/
def Rule.readBack (rule : Rule) : Rule where
  kind := rule.kind
  name := rule.name
  srcs := if rule.kind = .devSources then .absent else rule.srcs
  deps := if rule.deps = .literal .empty then .absent else rule.deps
  moduleName := none
  origin := none
  srcsChanged := false
  depsChanged := false

theorem lastAttribute_eq_none {name : String} {as : List Attribute}
    (h : ∀ a ∈ as, a.key ≠ some name) : lastAttribute name as = none := by
  unfold lastAttribute lastNamed
  rw [List.find?_eq_none]
  intro a ha hk
  exact h a (List.mem_reverse.1 ha) (by simpa using hk)

/-- Some lines for arguments of one name, and what they say of it. -/
structure AreLinesOf (name : String) (text : List Char) (lines : List ArgumentLine)
    (last : Option Attribute) : Prop where
  text : text = lines.flatMap ArgumentLine.text
  names : ∀ a ∈ lines.map ArgumentLine.said, a.key = some name
  last : lastAttribute name (lines.map ArgumentLine.said) = last

theorem areLinesOf_nil (name : String) : AreLinesOf name [] [] none :=
  ⟨rfl, by simp, rfl⟩

theorem areLinesOf_singleton (line : ArgumentLine) :
    AreLinesOf line.name line.text [line] (some line.said) := by
  refine ⟨by simp, ?_, ?_⟩
  · intro a ha
    rw [List.map_singleton, List.mem_singleton] at ha
    rw [ha]
    rfl
  · have hkey : line.said.key = some line.name := rfl
    rw [List.map_singleton, lastAttribute, lastNamed_singleton, if_pos hkey]

theorem AreLinesOf.other {name other : String} {text : List Char} {lines : List ArgumentLine}
    {last : Option Attribute} (h : AreLinesOf name text lines last) (hne : name ≠ other) :
    lastAttribute other (lines.map ArgumentLine.said) = none := by
  refine lastAttribute_eq_none fun a ha hk => hne ?_
  exact Option.some.inj ((h.names a ha).symm.trans hk)

/-- The lines of the sources. -/
theorem exists_srcsLines {rule : Rule} (h : rule.IsFresh) :
    ∃ lines last, AreLinesOf "srcs" rule.srcsLayout lines last ∧
      srcsFrom last = rule.readBack.srcs := by
  obtain ⟨names, hnames⟩ := h.srcs
  unfold Rule.srcsLayout Rule.readBack
  by_cases hk : rule.kind = .devSources
  · rw [if_pos hk, hk]
    exact ⟨[], none, areLinesOf_nil "srcs", rfl⟩
  · let line := ArgumentLine.ofList isName_srcs id ⟨names.map .plain, []⟩ (isClean_plain names)
    have hlist := ArgumentLine.list?_said_ofList isName_srcs id ⟨names.map .plain, []⟩
      (isClean_plain names)
    rw [mapValues_id] at hlist
    refine ⟨[line], some line.said, ?_, ?_⟩
    · rw [hnames]
      have hline := areLinesOf_singleton line
      cases hkind : rule.kind with
      | devSources => exact absurd hkind hk
      | _ => exact hline
    · rw [if_neg hk, hnames, srcsFrom, hlist]
      rfl

/-- The line of a test rule. -/
theorem exists_testLines (rule : Rule) :
    ∃ lines last, AreLinesOf "testonly"
        (if rule.kind = .library true then argumentLine "testonly" "True".toList else []) lines
        last ∧
      ∃ kind, RuleKind.ofFunction? rule.kind.function = some kind ∧
        rule.kind = kind.withTestonly last := by
  by_cases hk : rule.kind = .library true
  · rw [if_pos hk, hk]
    exact ⟨[.ofTest], _, areLinesOf_singleton .ofTest, .library false, rfl, rfl⟩
  · rw [if_neg hk]
    refine ⟨[], none, areLinesOf_nil "testonly", rule.kind, ?_, rfl⟩
    rw [RuleKind.ofFunction?_function]
    cases hkind : rule.kind with
    | library testonly =>
      cases testonly with
      | false => rfl
      | true => exact absurd hkind hk
    | _ => rfl

/-- The lines of the dependencies. -/
theorem exists_depsLines {rule : Rule} (h : rule.IsFresh) {package : String}
    (hl : rule.HasLabels package) :
    ∃ lines last, AreLinesOf "deps" (rule.depsLayout package) lines last ∧
      depsFrom package last = rule.readBack.deps ∧
      ∀ a ∈ lines.map ArgumentLine.said, ∀ list, a.list? = some list →
        (labels? package list).isSome = true := by
  obtain ⟨labels, hlabels⟩ := h.deps
  have hread := hl (.inr h.origin) _ hlabels
  unfold Rule.depsLayout Rule.readBack
  rw [hlabels]
  by_cases hk : labels = []
  · subst hk
    exact ⟨[], none, areLinesOf_nil "deps", rfl, by simp⟩
  · let f := fun label : Label => label.renderIn package
    let line := ArgumentLine.ofList isName_deps f ⟨labels.map .plain, []⟩ (isClean_plain labels)
    have hlist := ArgumentLine.list?_said_ofList isName_deps f ⟨labels.map .plain, []⟩
      (isClean_plain labels)
    have hlabels' := labels?_mapValues hread
    refine ⟨[line], some line.said, ?_, ?_, ?_⟩
    · dsimp only
      rw [if_neg (by simpa using hk)]
      exact areLinesOf_singleton line
    · have hne : (⟨labels.map .plain, []⟩ : ListValue Label) ≠ .empty := by
        simp [ListValue.empty, hk]
      dsimp only
      rw [if_neg (by simpa using hne)]
      simp [depsFrom, line, hlist, f, hlabels']
    · intro a ha list hal
      rw [List.map_singleton, List.mem_singleton] at ha
      rw [ha, hlist, Option.some.injEq] at hal
      rw [← hal, hlabels']
      rfl

/-- **What is written of a new rule** says what it is read back as. -/
theorem Rule.IsFresh.exists_lines {rule : Rule} (h : rule.IsFresh) {package : String}
    (hl : rule.HasLabels package) :
    ∃ (lines : List ArgumentLine) (kind : RuleKind),
      rule.layout package = rule.kind.function.toList ++ "(\n".toList ++
        lines.flatMap ArgumentLine.text ++ ")\n".toList ∧
      RuleKind.ofFunction? rule.kind.function = some kind ∧
      rule.readBack.IsReadFrom package kind (lines.map ArgumentLine.said) := by
  obtain ⟨srcsLines, srcsLast, hsrcs, hsrcsFrom⟩ := exists_srcsLines h
  obtain ⟨depsLines, depsLast, hdeps, hdepsFrom, hread⟩ := exists_depsLines h hl
  obtain ⟨testLines, testLast, htest, kind, hkind, hwith⟩ := exists_testLines rule
  let nameLine := ArgumentLine.ofText isName_name rule.name
  have hname : AreLinesOf "name" (argumentLine "name" (quote rule.name.toList)) [nameLine]
      (some nameLine.said) := areLinesOf_singleton nameLine
  have hnameText : nameLine.said.text? = some rule.name :=
    ArgumentLine.text?_said_ofText isName_name rule.name
  have hlast : ∀ key, lastAttribute key
      ((nameLine :: srcsLines ++ testLines ++ depsLines).map ArgumentLine.said) =
        (lastAttribute key (depsLines.map ArgumentLine.said)).or
          ((lastAttribute key (testLines.map ArgumentLine.said)).or
            ((lastAttribute key (srcsLines.map ArgumentLine.said)).or
              (lastAttribute key ([nameLine].map ArgumentLine.said)))) := by
    intro key
    rw [← List.singleton_append]
    simp only [List.map_append, lastAttribute_append]
  refine ⟨nameLine :: srcsLines ++ testLines ++ depsLines, kind, ?_, hkind, ?_⟩
  · unfold Rule.layout
    rw [hsrcs.text, hdeps.text, htest.text, hname.text]
    simp
  · refine ⟨fun a ha => ?_, ?_, ?_, ?_, ?_, ?_⟩
    · rw [← List.singleton_append] at ha
      simp only [List.map_append, List.mem_append] at ha
      have hother : ∀ {key : String}, a.key = some key → key ≠ "name" → key ≠ "deps" →
          a.IsReadable package := by
        intro key hk hn hd
        exact ⟨fun h => absurd (Option.some.inj (hk.symm.trans h)) hn,
          fun h => absurd (Option.some.inj (hk.symm.trans h)) hd⟩
      rcases ha with ((ha | ha) | ha) | ha
      · have hk := hname.names a ha
        refine ⟨fun _ => ?_, fun h => absurd (hk.symm.trans h) (by decide)⟩
        rw [List.map_singleton, List.mem_singleton] at ha
        rw [ha, hnameText]
        rfl
      · exact hother (hsrcs.names a ha) (by decide) (by decide)
      · exact hother (htest.names a ha) (by decide) (by decide)
      · have hk := hdeps.names a ha
        exact ⟨fun h => absurd (hk.symm.trans h) (by decide), fun _ => hread a ha⟩
    · rw [hlast, hdeps.other (by decide), htest.last, hsrcs.other (by decide),
        hname.other (by decide), Option.or_none, Option.or_none, Option.none_or, ← hwith]
      rfl
    · rw [hlast, hdeps.other (by decide), htest.other (by decide), hsrcs.other (by decide),
        hname.last]
      exact hnameText
    · rw [hlast, hdeps.other (by decide), htest.other (by decide), hsrcs.last,
        hname.other (by decide), Option.or_none, Option.none_or, Option.none_or, hsrcsFrom]
    · rw [hlast, hdeps.last, htest.other (by decide), hsrcs.other (by decide),
        hname.other (by decide), Option.or_none, Option.or_none, Option.or_none, hdepsFrom]
    · rw [hlast, hdeps.other (by decide), htest.other (by decide), hsrcs.other (by decide),
        hname.other (by decide)]
      rfl

/-! ## The tokens of a new rule -/

theorem isName_function (kind : RuleKind) : IsName kind.function := by
  cases kind with
  | library => exact @isName_of_all "ts_library" _ _ rfl (by decide) (by decide) (by decide)
  | declaration => exact isName_of_all rfl (by decide) (by decide) (by decide)
  | config => exact isName_of_all rfl (by decide) (by decide) (by decide)
  | devSources => exact isName_of_all rfl (by decide) (by decide) (by decide)

theorem isStatement_newline (rest : List Token) : IsStatement [newlineToken] rest := by
  refine ⟨.inr ⟨[], newlineToken, rfl, rfl⟩, fun start tail' rest' htail _ => ?_⟩
  obtain ⟨t, ts, rfl, ht, hts⟩ := List.map_eq_cons_iff.1 htail
  rw [List.map_nil, List.map_eq_nil_iff] at hts
  have hk : t.kind = .newline := congrArg Token.kind ht
  simp [hts, skipStatement, hk]

/-- The parentheses of a new rule. -/
def openingToken : Token :=
  ⟨.opening .round, 0, ['(']⟩

def closingToken : Token :=
  ⟨.closing .round, 0, [')']⟩

/-- The tokens of a rule that is written on some lines. -/
def ruleTokens (kind : RuleKind) (lines : List ArgumentLine) : List Token :=
  ⟨.word, 0, kind.function.toList⟩ :: openingToken ::
    ([newlineToken] ++ lines.flatMap ArgumentLine.lineTokens ++ [closingToken, newlineToken])

theorem isWritten_ruleTokens (kind : RuleKind) (lines : List ArgumentLine) {indent : List Char}
    (hi : ∀ c ∈ indent, isGap c = true) :
    IsWritten (kind.function.toList ++ "(\n".toList ++
      lines.flatMap (fun line => line.written indent ++ ['\n']) ++ ")\n".toList)
      (ruleTokens kind lines) := by
  intro next
  obtain ⟨c, cs, hname, hc, hd, hcs⟩ := isName_function kind
  have hword : Lexes kind.function.toList [⟨.word, 0, kind.function.toList⟩] (some '(') := by
    rw [hname]
    exact (IsToken.word hc hd hcs (by decide) (by decide)).lexes
  have hopening : IsWritten ['('] [openingToken] := fun next =>
    (IsToken.mark (fun _ => rfl) (by decide) (by decide) next).lexes
  have hclosing : IsWritten [')'] [closingToken] := fun next =>
    (IsToken.mark (fun _ => rfl) (by decide) (by decide) next).lexes
  have hnewline : IsWritten ['\n'] [newlineToken] := fun next => (IsToken.newline next).lexes
  have hlines : IsWritten (lines.flatMap fun line => line.written indent ++ ['\n'])
      (lines.flatMap ArgumentLine.lineTokens) :=
    .flatMap fun line _ => line.isWritten_line hi
  have hbody := (hopening.append hnewline).append (hlines.append (hclosing.append hnewline))
  have h := hword.append (hbody next)
  simpa [ruleTokens] using h

/-- **A rule on some lines** is read as what the lines say, in front of whatever follows. -/
theorem reads_ruleTokens {package : String} {kind base : RuleKind} {lines : List ArgumentLine}
    {rule : Rule} (hkind : RuleKind.ofFunction? kind.function = some base)
    (hread : rule.IsReadFrom package base (lines.map ArgumentLine.said)) {ls : List Token}
    {o : Outline} (h : Reads package ls o) :
    Reads package (ruleTokens kind lines ++ ls) (⟨[rule.plain], []⟩ ++ o) := by
  have htrivia : ∀ t ∈ [newlineToken], t.isTrivia = true := by
    intro t ht
    rw [List.mem_singleton.1 ht]
    rfl
  have hcall : CallReads package ⟨.word, 0, kind.function.toList⟩
      ([newlineToken] ++ lines.flatMap ArgumentLine.lineTokens) ⟨[rule.plain], []⟩ := by
    apply callReads_rule
    · rw [String.ofList_toList, hkind]
    · rw [ArgumentLine.attributes_lines lines htrivia]
      exact hread
  have hnest : nest [] ([newlineToken] ++ lines.flatMap ArgumentLine.lineTokens) = some [] := by
    rw [nest_append]
    exact ArgumentLine.nest_lines lines
  have hreads := @Reads.call package _ _ _ openingToken closingToken _ _ _ _ rfl rfl hnest rfl hcall
    (isStatement_newline ls) (fun hnil => hnil) h
  have hbare : (ruleTokens kind lines).map Token.bare = ruleTokens kind lines :=
    lexemes_bare ((@isWritten_ruleTokens kind lines [] (by simp) none).lexemes)
  rw [← hbare]
  simpa [ruleTokens] using hreads

/-- **A new rule is read back** from what is written of it. -/
theorem Rule.IsFresh.exists_reads {rule : Rule} (h : rule.IsFresh) {package : String}
    (hl : rule.HasLabels package) :
    ∃ ls, IsWritten (rule.layout package) ls ∧ Reads package ls ⟨[rule.readBack], []⟩ := by
  obtain ⟨lines, kind, hlayout, hkind, hread⟩ := h.exists_lines hl
  have hindent : ∀ c ∈ "    ".toList, isGap c = true := List.all_eq_true.1 (by decide)
  have hwritten := isWritten_ruleTokens rule.kind lines hindent
  refine ⟨ruleTokens rule.kind lines, ?_, ?_⟩
  · rw [hlayout, List.flatMap_congr fun line _ => line.text_eq]
    exact hwritten
  · have hreads := reads_ruleTokens hkind hread (Reads.nil package)
    rwa [List.append_nil] at hreads

/-! ## New rules behind a text -/

/-- **A lexed text with a newline behind it.** A backslash at its end makes that newline no token,
and is then none itself. -/
theorem isWritten_append_newline {pos : Nat} {cs : List Char} {ts : List Token}
    (h : tokens pos cs = .ok ts) :
    IsWritten (cs ++ ['\n']) (ts.map Token.bare ++ [newlineToken]) ∨
      ∃ ts' op, ts = ts' ++ [op] ∧ op.kind = .operator ∧ cs.getLast? = some '\\' ∧
        IsWritten (cs ++ ['\n']) (ts'.map Token.bare) := by
  induction ts generalizing pos cs with
  | nil =>
    refine .inl fun next => ?_
    exact (lexes_of_tokens_nil h _).append (IsToken.newline next).lexes
  | cons t ts ih =>
    obtain ⟨gap, ys, rfl, -, hgap, htoken, hrest⟩ := tokens_cons h
    by_cases hys : ys = []
    · subst hys
      rw [tokens] at hrest
      cases hrest
      by_cases hb : t.text = ['\\']
      · have hk : t.kind = .operator := by
          obtain ⟨c, cs, htext, hlex⟩ := htoken.lexeme
          rw [hb] at htext
          cases htext
          simpa [lexeme?, isQuote, takesEquals, isWordChar] using (hlex [] rfl).symm
        refine .inr ⟨[], t, rfl, hk, by simp [hb], fun next => ?_⟩
        have hjoined := (hgap _).append (Lexes.joined next)
        simpa [hb] using hjoined
      · refine .inl fun next => ?_
        have hbefore := htoken.before (.inr (.inl rfl)) fun h => absurd h hb
        have h := (hgap _).append (hbefore.lexes.append (IsToken.newline next).lexes)
        simpa [Token.bare, newlineToken] using h
    · have hhead : ∀ next, ((ys ++ ['\n']).head?.or next) = ys.head? := by
        intro next
        cases ys with
        | nil => exact absurd rfl hys
        | cons y ys => rfl
      have hcons : ∀ {us : List Token}, IsWritten (ys ++ ['\n']) us →
          IsWritten (gap ++ (t.text ++ ys) ++ ['\n']) (t.bare :: us) := by
        intro us hus next
        have h := (hgap _).append (Lexes.append (hhead next ▸ htoken.lexes) (hus next))
        simpa [Token.bare] using h
      rcases ih hrest with hleft | ⟨ts', op, rfl, hop, hlast, hright⟩
      · exact .inl (hcons hleft)
      · refine .inr ⟨t :: ts', op, rfl, hop, ?_, hcons hright⟩
        rw [List.getLast?_append_of_ne_nil _ (by simp [hys]), List.getLast?_append_of_ne_nil _ hys,
          hlast]

section AppendRule

variable {package : String} {text : List Char} {o : Outline} {rule : Rule}

theorem reads_newlineToken {ls : List Token} (h : Reads package ls o) :
    Reads package (newlineToken :: ls) o :=
  Reads.trivia (t := newlineToken) rfl h

/-- **A new rule is appended** to what is read. -/
theorem TextReads.appendRule (h : TextReads package text o) (hf : rule.IsFresh)
    (hl : rule.HasLabels package) :
    TextReads package (Descriptor.appendRule package text rule) (o ++ ⟨[rule.readBack], []⟩) := by
  obtain ⟨ls, hlex, hreads⟩ := h
  obtain ⟨written, hwritten, hrule⟩ := hf.exists_reads hl
  have hlayout := (hwritten none).lexemes
  unfold Descriptor.appendRule
  dsimp only
  by_cases hnil : text = []
  · subst hnil
    rw [lexemes_nil] at hlex
    cases hlex
    obtain ⟨c, hc, rfl⟩ := hreads [] [] rfl
    rw [Contents.ofTokens_nil] at hc
    cases hc
    exact ⟨written, by simpa using hlayout, hrule⟩
  · rw [if_neg hnil]
    obtain ⟨ts, hts, rfl⟩ := exists_tokens hlex 0
    -- A newline and more, which starts with a newline too if the first one may be joined.
    have hmore : ∀ {more : List Char} {us : List Token}, lexemes more = some us →
        Reads package us ⟨[rule.readBack], []⟩ →
        (text.getLast? = some '\\' →
          ∃ us', us = newlineToken :: us' ∧ Reads package us' ⟨[rule.readBack], []⟩) →
        TextReads package (text ++ ['\n'] ++ more) (o ++ ⟨[rule.readBack], []⟩) := by
      intro more us hus hread hjoined
      rcases isWritten_append_newline hts with hwritten | ⟨ts', op, rfl, hop, hb, hwritten⟩
      · refine ⟨ts.map Token.bare ++ newlineToken :: us, ?_, hreads.newline hread⟩
        rw [hwritten _ more rfl, hus]
        simp
      · obtain ⟨us', rfl, hread'⟩ := hjoined hb
        rw [List.map_append, List.map_singleton] at hreads
        refine ⟨ts'.map Token.bare ++ newlineToken :: us', ?_,
          (hreads.dropOperator hop).newline hread'⟩
        rw [hwritten _ more rfl, hus]
        rfl
    by_cases hlast : text.getLast? = some '\n'
    · rw [if_pos hlast]
      refine hmore hlayout hrule fun hb => ?_
      rw [hlast] at hb
      cases hb
    · rw [if_neg hlast]
      have hnewline : lexemes (['\n'] ++ rule.layout package) = some (newlineToken :: written) := by
        rw [(IsToken.newline _).lexemes_append rfl, hlayout]
        rfl
      have h := hmore hnewline (reads_newlineToken hrule) fun _ => ⟨written, rfl, hrule⟩
      simpa using h

/-- **New rules are appended** one after the other. -/
theorem TextReads.foldl_appendRule (news : List Rule) (h : TextReads package text o)
    (hf : ∀ rule ∈ news, rule.IsFresh) (hl : ∀ rule ∈ news, rule.HasLabels package) :
    TextReads package (news.foldl (Descriptor.appendRule package) text)
      (o ++ ⟨news.map Rule.readBack, []⟩) := by
  induction news generalizing text o with
  | nil =>
    rw [← Outline.append_empty o] at h
    exact h
  | cons rule news ih =>
    rw [List.forall_mem_cons] at hf hl
    have hnext := ih (h.appendRule hf.1 hl.1) hf.2 hl.2
    rw [Outline.append_assoc] at hnext
    exact hnext

end AppendRule

end BuildSync.Build
