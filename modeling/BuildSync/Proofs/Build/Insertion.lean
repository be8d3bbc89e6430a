import BuildSync.Build.Descriptor
import BuildSync.Proofs.Build.Retouching

/-!
# Inserting attributes

Attributes that a call does not have are put behind its last argument: on its line, or on lines of
their own behind the comment on that line.

* `NewAttribute`: an attribute to be inserted. `attributes_lineTokens`, `attributes_rowTokens`:
  what the inserted tokens say.
* `rewrites_call`: the edits of a call turn its tokens into tokens that say the new lists and the
  new attributes.
-/

namespace BuildSync.Build

open Text

/-! ## Words -/

theorem IsToken.word {c : Char} {cs : List Char} (hc : isWordChar c = true)
    (hd : c.isDigit = false) (hcs : ∀ d ∈ cs, isWordChar d = true) {next : Char}
    (hn : isWordChar next = false) (hq : isQuote next = false) :
    IsToken .word (c :: cs) (some next) := by
  have hno : ∀ {p : Char → Bool}, (∀ d, p d = true → isWordChar d = false) → p c = false := by
    intro p hp
    refine Bool.eq_false_iff.2 fun h => ?_
    rw [hp c h] at hc
    cases hc
  have hmark : isMark c = false := hno fun d hd => by
    simp only [isMark, List.mem_cons, List.not_mem_nil, or_false, decide_eq_true_eq] at hd
    rcases hd with rfl | rfl | rfl | rfl | rfl | rfl | rfl | rfl | rfl <;> decide
  have hquote : isQuote c = false := hno fun d hd => by
    simp only [isQuote, Bool.or_eq_true, decide_eq_true_eq] at hd
    rcases hd with rfl | rfl <;> decide
  have hequals : takesEquals c = false := hno fun d hd => by
    simp only [takesEquals, List.mem_cons, List.not_mem_nil, or_false, decide_eq_true_eq] at hd
    rcases hd with rfl | rfl | rfl | rfl | rfl | rfl | rfl | rfl | rfl | rfl | rfl | rfl <;> decide
  have hgap : isGap c = false := hno fun d hd => by
    simp only [isGap, Bool.or_eq_true, decide_eq_true_eq] at hd
    rcases hd with ((rfl | rfl) | rfl) | rfl <;> decide
  have heq : c ≠ '=' := by
    rintro rfl
    cases hc
  refine ⟨by simpa using hgap, ?_, c, cs, rfl, fun ys hys => ?_⟩
  · intro h
    obtain rfl : c = '\\' := by simpa using h
    cases hc
  · obtain ⟨ys, rfl⟩ := List.head?_eq_some_iff.1 hys
    rw [lexeme?_of_not_mark hmark, if_neg (by simp [hquote]), if_neg (by simp [hequals]),
      plainLexeme?, if_neg heq, if_neg (by simp [hd]), if_pos hc, wordLexeme?_append hcs hn,
      if_neg (by simp [hq])]

theorem IsToken.equals {next : Option Char} (h : next ≠ some '=') :
    IsToken .equals ['='] next := by
  refine ⟨by decide, by simp, '=', [], rfl, fun ys hys => ?_⟩
  rw [List.nil_append, lexeme?_of_not_mark (by decide), if_neg (by decide),
    if_neg (by simp [hys, h]), plainLexeme?, if_pos rfl]
  rfl

/-! ## Named values -/

/-- A name that is one word. -/
def IsName (name : String) : Prop :=
  ∃ c cs, name.toList = c :: cs ∧ isWordChar c = true ∧ c.isDigit = false ∧
    ∀ d ∈ cs, isWordChar d = true

theorem isName_of_all {name : String} {c : Char} {cs : List Char} (h : name.toList = c :: cs)
    (hc : isWordChar c = true) (hd : c.isDigit = false) (hcs : cs.all isWordChar = true) :
    IsName name :=
  ⟨c, cs, h, hc, hd, List.all_eq_true.1 hcs⟩

/-- A keyword argument as it is written. -/
def namedText (name : String) (value : List Char) : List Char :=
  name.toList ++ " = ".toList ++ value

def namedTokens (name : String) (value : List Token) : List Token :=
  ⟨.word, 0, name.toList⟩ :: ⟨.equals, 0, ['=']⟩ :: value

/-- What a keyword argument says. -/
def namedAttribute (name : String) (value : List Token) : Attribute :=
  Argument.attribute ⟨some name, 0, value⟩

/-- A name before a blank. -/
theorem IsName.lexes {name : String} (h : IsName name) :
    Lexes name.toList [⟨.word, 0, name.toList⟩] (some ' ') := by
  obtain ⟨c, cs, hname, hc, hd, hcs⟩ := h
  rw [hname]
  exact (IsToken.word hc hd hcs (by decide) (by decide)).lexes

theorem lexes_namedText {name : String}
    (h : Lexes name.toList [⟨.word, 0, name.toList⟩] (some ' ')) {value : List Char}
    {ts : List Token} {next : Option Char} (hv : Lexes value ts next) :
    Lexes (namedText name value) (namedTokens name ts) next := by
  have hgap : IsWritten [' '] [] := isWritten_gaps (by simp [isGap])
  have hequals := (@IsToken.equals (some ' ') (by decide)).lexes
  have h := h.append ((hgap _).append (hequals.append ((hgap _).append hv)))
  simpa [namedText, namedTokens] using h

/-- **What a keyword argument says** between newlines and comments. -/
theorem attributes_namedTokens (name : String) {value lead : List Token} (hv : IsPart 0 value)
    (hl : ∀ t ∈ lead, t.isTrivia = true) :
    attributes (lead ++ namedTokens name value) = [namedAttribute name value] := by
  have hlead := isFlat_trivia hl
  have hpart : IsPart 0 (lead ++ namedTokens name value) := by
    refine isPart_append.2
      ⟨isPart_flat (fun t ht => (hlead t ht).1) fun _ t ht => (hlead t ht).2, ?_⟩
    rw [depthAfter_flat fun t ht => (hlead t ht).1]
    exact ⟨by simp, by simp, hv⟩
  have hname : String.ofList name.toList = name := String.ofList_toList
  rw [attributes_part hpart, ofTokens?_trivia_append hl]
  simp [Argument.ofTokens?, namedTokens, namedAttribute, Token.isTrivia, hname, Argument.attribute,
    Argument.significant, Argument.list?, Argument.strings?, Argument.bracketed?]

/-- A keyword argument with a comma behind it. -/
theorem attributes_namedTokens_comma (name : String) {value lead : List Token}
    (hv : IsPart 0 value) (hn : nest [] value = some []) (hl : ∀ t ∈ lead, t.isTrivia = true)
    (rest : List Token) :
    attributes (lead ++ (namedTokens name value ++ commaToken :: rest)) =
      namedAttribute name value :: attributes rest := by
  have hdepth : depthAfter 0 (lead ++ namedTokens name value) = 0 := by
    rw [depthAfter_append, depthAfter_flat fun t ht => (isFlat_trivia hl t ht).1]
    exact depthAfter_of_nest hn
  rw [← List.append_assoc, attributes_comma hdepth rfl, attributes_namedTokens name hv hl]
  rfl

/-- A keyword argument whose value stands in brackets. -/
theorem list?_namedAttribute (name : String) {body : List Token} {list : ListValue String}
    (h : listOf? body = some list) :
    (namedAttribute name (bracketTokens body)).list? = some list := by
  have hbody : Argument.bracketed? ⟨some name, 0, bracketTokens body⟩ = some body :=
    bracketed?_eq_some.2 ⟨[], ⟨.opening .square, 0, ['[']⟩, ⟨.closing .square, 0, [']']⟩, [],
      rfl, by simp, by simp, rfl, rfl⟩
  unfold namedAttribute Argument.attribute
  rw [list?_eq, hbody]
  exact h

/-! ## New attributes -/

/-- A list attribute that a call is to get. -/
structure NewAttribute where
  name : String
  value : List Char
  body : List Token
  list : ListValue String
  isName : IsName name
  written : IsWritten value (bracketTokens body)
  reads : listOf? body = some list

namespace NewAttribute

def text (a : NewAttribute) : List Char :=
  namedText a.name a.value

def tokens (a : NewAttribute) : List Token :=
  namedTokens a.name (bracketTokens a.body)

/-- What the attribute says when it is read. -/
def said (a : NewAttribute) : Attribute :=
  namedAttribute a.name (bracketTokens a.body)

theorem list?_said (a : NewAttribute) : a.said.list? = some a.list :=
  list?_namedAttribute a.name a.reads

theorem isWritten_text (a : NewAttribute) : IsWritten a.text a.tokens :=
  fun next => lexes_namedText a.isName.lexes (a.written next)

theorem nest_tokens (a : NewAttribute) (stack : List Bracket) :
    nest stack a.tokens = some stack :=
  nest_bracketTokens (kinds_of_listOf? a.reads) stack

theorem isPart_value (a : NewAttribute) : IsPart 0 (bracketTokens a.body) :=
  isPart_bracketTokens (kinds_of_listOf? a.reads) 0

end NewAttribute

/-! ## Rows and lines -/

/-- Attributes on lines of their own, each with a comma. -/
def lineText (indent : List Char) (as : List NewAttribute) : List Char :=
  (as.map NewAttribute.text).flatMap fun a => '\n' :: indent ++ a ++ [',']

def lineTokens (as : List NewAttribute) : List Token :=
  as.flatMap fun a => newlineToken :: (a.tokens ++ [commaToken])

/-- Attributes on one line, with commas between them. -/
def rowText (as : List NewAttribute) : List Char :=
  joined [','] ((as.map NewAttribute.text).map (' ' :: ·))

def rowTokens : List NewAttribute → List Token
  | [] => []
  | [a] => a.tokens
  | a :: as => a.tokens ++ commaToken :: rowTokens as

theorem isWritten_comma : IsWritten [','] [commaToken] :=
  fun next => (IsToken.comma next).lexes

theorem isWritten_lineText {indent : List Char} (hi : ∀ c ∈ indent, isGap c = true)
    (as : List NewAttribute) : IsWritten (lineText indent as) (lineTokens as) := by
  unfold lineText lineTokens
  rw [List.flatMap_map]
  refine .flatMap fun a _ => ?_
  have hnewline : IsWritten ['\n'] [newlineToken] := fun next => (IsToken.newline next).lexes
  have h := (hnewline.append (isWritten_gaps hi)).append (a.isWritten_text.append isWritten_comma)
  simpa using h

theorem isWritten_rowText (as : List NewAttribute) : IsWritten (rowText as) (rowTokens as) := by
  have hgap : IsWritten [' '] [] := isWritten_gaps (by simp [isGap])
  unfold rowText
  induction as with
  | nil => exact .nil
  | cons a as ih =>
    have ha := hgap.append a.isWritten_text
    cases as with
    | nil => exact ha
    | cons b as =>
      have h := ha.append (isWritten_comma.append ih)
      simpa [joined, rowTokens] using h

theorem nest_lineTokens (as : List NewAttribute) : nest [] (lineTokens as) = some [] := by
  induction as with
  | nil => rfl
  | cons a as ih =>
    have hcons : lineTokens (a :: as) =
        [newlineToken] ++ (a.tokens ++ ([commaToken] ++ lineTokens as)) := by
      simp [lineTokens]
    have hnewline : nest [] [newlineToken] = some [] := rfl
    have hcomma : nest [] [commaToken] = some [] := rfl
    rw [hcons, nest_append, hnewline, Option.bind_some, nest_append, a.nest_tokens,
      Option.bind_some, nest_append, hcomma, Option.bind_some, ih]

theorem nest_rowTokens (as : List NewAttribute) : nest [] (rowTokens as) = some [] := by
  induction as with
  | nil => rfl
  | cons a as ih =>
    cases as with
    | nil => exact a.nest_tokens []
    | cons b as =>
      rw [rowTokens, nest_append, a.nest_tokens]
      · exact ih
      · simp

theorem attributes_trivia {ts : List Token} (h : ∀ t ∈ ts, t.isTrivia = true) :
    attributes ts = [] :=
  attributes_append_trivia h []

/-- A new attribute with a comma behind it. -/
theorem attributes_entry (a : NewAttribute) {lead : List Token}
    (hl : ∀ t ∈ lead, t.isTrivia = true) (rest : List Token) :
    attributes (lead ++ (a.tokens ++ commaToken :: rest)) = a.said :: attributes rest :=
  attributes_namedTokens_comma a.name a.isPart_value (a.nest_tokens []) hl rest

/-- **What attributes on lines of their own say.** -/
theorem attributes_lineTokens (as : List NewAttribute) {lead trail : List Token}
    (hl : ∀ t ∈ lead, t.isTrivia = true) (ht : ∀ t ∈ trail, t.isTrivia = true) :
    attributes (lead ++ (lineTokens as ++ trail)) = as.map NewAttribute.said := by
  induction as generalizing lead with
  | nil =>
    refine attributes_trivia fun t h => ?_
    rcases List.mem_append.1 h with h | h
    · exact hl t h
    · exact ht t h
  | cons a as ih =>
    have hlead : ∀ t ∈ lead ++ [newlineToken], t.isTrivia = true := by
      intro t h
      rcases List.mem_append.1 h with h | h
      · exact hl t h
      · rw [List.mem_singleton.1 h]
        rfl
    have h := attributes_entry a hlead (lineTokens as ++ trail)
    have hnil : attributes (lineTokens as ++ trail) = as.map NewAttribute.said := by
      simpa using @ih [] (by simp)
    rw [hnil] at h
    rw [List.map_cons, ← h]
    simp [lineTokens]

/-- **What attributes on one line say.** -/
theorem attributes_rowTokens (as : List NewAttribute) :
    attributes (rowTokens as) = as.map NewAttribute.said := by
  induction as with
  | nil => rfl
  | cons a as ih =>
    cases as with
    | nil => exact @attributes_namedTokens a.name _ [] a.isPart_value (by simp)
    | cons b as =>
      have h := @attributes_entry a [] (by simp) (rowTokens (b :: as))
      rw [ih] at h
      exact h

/-! ## Calls -/

/-- The last token that is no newline and no comment. -/
theorem exists_last_of_mem {ts : List Token} (h : ∃ t ∈ ts, t.isTrivia = false) :
    ∃ front last trail, ts = front ++ last :: trail ∧ last.isTrivia = false ∧
      ∀ t ∈ trail, t.isTrivia = true := by
  have hsplit := List.takeWhile_append_dropWhile (p := Token.isTrivia) (l := ts.reverse)
  cases hd : ts.reverse.dropWhile Token.isTrivia with
  | nil =>
    obtain ⟨t, ht, htrivia⟩ := h
    rw [List.dropWhile_eq_nil_iff.1 hd t (List.mem_reverse.2 ht)] at htrivia
    cases htrivia
  | cons last front =>
    rw [hd] at hsplit
    refine ⟨front.reverse, last, (ts.reverse.takeWhile Token.isTrivia).reverse, ?_, ?_,
      fun t ht => List.mem_takeWhile_imp (List.mem_reverse.1 ht)⟩
    · have hts := congrArg List.reverse hsplit
      rw [List.reverse_reverse, List.reverse_append, List.reverse_cons, List.append_assoc] at hts
      exact hts.symm
    · have hlast := List.head?_dropWhile_not Token.isTrivia ts.reverse
      rw [hd] at hlast
      simpa using hlast

theorem exists_last {ts : List Token} (h : attributes ts ≠ []) :
    ∃ front last trail, ts = front ++ last :: trail ∧ last.isTrivia = false ∧
      ∀ t ∈ trail, t.isTrivia = true := by
  refine exists_last_of_mem (Classical.byContradiction fun hnone => h (attributes_trivia ?_))
  exact fun t ht => Bool.of_not_eq_false fun hf => hnone ⟨t, ht, hf⟩

/-- A comma behind the last argument separates nothing. -/
theorem attributes_comma_nil {front : List Token} (h : depthAfter 0 front = 0) {comma : Token}
    (hc : comma.kind = .comma) :
    attributes (front ++ [comma]) = attributes front ∧
      ∀ name, spanOf name (front ++ [comma]) = spanOf name front := by
  have hargs : arguments (front ++ [comma]) = arguments front := by
    rw [arguments_comma h hc]
    exact List.append_nil _
  refine ⟨?_, fun name => ?_⟩
  · unfold attributes
    rw [hargs]
  · unfold spanOf
    rw [hargs]

/-- **The tokens that hold the arguments**, without a comma behind the last one, and the last
token. -/
structure HasCore (inside core front : List Token) (last : Token) (trail : List Token) : Prop where
  inside_eq : inside = front ++ last :: trail
  core_eq : last.kind = .comma ∧ core = front ∨ last.kind ≠ .comma ∧ core = front ++ [last]
  last_eq : last.isTrivia = false
  trail_eq : ∀ t ∈ trail, t.isTrivia = true
  nest_eq : nest [] core = some []
  attributes_eq : attributes core = attributes inside
  span_eq : ∀ name, spanOf name core = spanOf name inside

theorem exists_core {inside : List Token} (hnest : nest [] inside = some [])
    (h : attributes inside ≠ []) :
    ∃ core front last trail, HasCore inside core front last trail := by
  obtain ⟨front, last, trail, rfl, hlast, htrail⟩ := exists_last h
  have hsplit : front ++ last :: trail = front ++ [last] ++ trail := by simp
  have hnest' : nest [] (front ++ [last]) = some [] := by
    rw [hsplit, nest_append] at hnest
    obtain ⟨stack, hstack, hrest⟩ := Option.bind_eq_some_iff.1 hnest
    rw [nest_flat fun t ht => isFlat_of_isTrivia (htrail t ht)] at hrest
    cases hrest
    exact hstack
  by_cases hc : last.kind = .comma
  · have hfront : nest [] front = some [] := by
      rw [nest_append] at hnest'
      obtain ⟨stack, hstack, hrest⟩ := Option.bind_eq_some_iff.1 hnest'
      simp only [nest, hc] at hrest
      cases hrest
      exact hstack
    obtain ⟨hattr, hspan⟩ := attributes_comma_nil (depthAfter_of_nest hfront) hc
    refine ⟨front, front, last, trail, rfl, .inl ⟨hc, rfl⟩, hlast, htrail, hfront, ?_,
      fun name => ?_⟩
    · rw [hsplit, attributes_append_trivia htrail, hattr]
    · rw [hsplit, spanOf_append_trivia htrail, hspan]
  · refine ⟨front ++ [last], front, last, trail, rfl, .inr ⟨hc, rfl⟩, hlast, htrail, hnest', ?_,
      fun name => ?_⟩
    · rw [hsplit, attributes_append_trivia htrail]
    · rw [hsplit, spanOf_append_trivia htrail]

section Call

variable {w : Prop} {inside core front trail us written : List Token} {last close : Token}
  {es : List Edit} {text : List Char}

/-- A token that is no newline and no comment may be followed by a comma. -/
theorem mayPrecede_comma (h : last.isTrivia = false) : last.MayPrecede (some ',') := by
  refine .inr ⟨fun old => .inr (.inr ⟨⟨',', by decide, rfl⟩, fun hk => ?_⟩), by simp⟩
  simp [Token.isTrivia, hk] at h

/-- A text is put behind the last argument and its comma. -/
theorem rewrites_behind (hc : HasCore inside core front last trail) (hus : Rewrites w core es us)
    (hw : IsWritten text written) (hne : text ≠ []) (close : Token) :
    ∃ comma : Token, comma.kind = .comma ∧ Rewrites w (inside ++ [close])
      (es ++ [⟨last.stop, last.stop, (if last.kind = .comma then [] else [',']) ++ text⟩])
      (us ++ comma :: (written ++ (trail.map Token.bare ++ [close.bare]))) := by
  obtain ⟨t, more, hmore⟩ : ∃ t more, trail ++ [close] = t :: more :=
    List.exists_cons_of_ne_nil (by simp)
  have hbare : t.bare :: more.map Token.bare = trail.map Token.bare ++ [close.bare] := by
    rw [← List.map_cons, ← hmore]
    simp
  have hinside : inside ++ [close] = front ++ [last] ++ [t] ++ more := by
    rw [hc.inside_eq]
    simp [hmore]
  rw [hinside, ← hbare]
  obtain ⟨hk, hcore⟩ | ⟨hk, hcore⟩ := hc.core_eq
  · refine ⟨last.bare, hk, ?_⟩
    have hlast := (hcore ▸ hus).append (.keep w [last])
    have hput := (hlast.put (t := t) rfl fun _ => ⟨hw, hne, .inl hk⟩).append (.keep w more)
    simpa [hk] using hput
  · refine ⟨commaToken, rfl, ?_⟩
    have hput := ((hcore ▸ hus).put (t := t) rfl fun _ =>
      ⟨isWritten_comma.append hw, by simp, mayPrecede_comma hc.last_eq⟩).append (.keep w more)
    simpa [hk] using hput

/-- A text that starts a line is put behind the comment on the line of the last argument, and a
comma before that comment. -/
theorem rewrites_apart (hc : HasCore inside core front last trail) (hus : Rewrites w core es us)
    {remark newline : Token} {trail' : List Token} (htrail : trail = remark :: newline :: trail')
    (hremark : remark.kind = .comment) (hproper : remark.IsProper)
    (hw : IsWritten text written) (hhead : text.head? = some '\n') (close : Token) :
    ∃ comma : Token, comma.kind = .comma ∧ Rewrites w (inside ++ [close])
      (es ++ ((if last.kind = .comma then [] else [⟨last.stop, last.stop, [',']⟩]) ++
        [⟨remark.stop, remark.stop, text⟩]))
      (us ++ comma :: remark.bare :: (written ++
        ((newline :: trail').map Token.bare ++ [close.bare]))) := by
  have hinside : inside ++ [close] =
      front ++ [last] ++ [remark] ++ [newline] ++ (trail' ++ [close]) := by
    rw [hc.inside_eq, htrail]
    simp
  have hput : w → IsWritten text written ∧ text ≠ [] ∧ remark.MayPrecede text.head? := by
    refine fun _ => ⟨hw, fun h => by simp [h] at hhead, .inr ⟨fun _ => .inr (.inl hhead), ?_⟩⟩
    obtain ⟨cs, hcs, -⟩ := hproper.comment hremark
    simp [hcs]
  rw [hinside]
  obtain ⟨hk, hcore⟩ | ⟨hk, hcore⟩ := hc.core_eq
  · refine ⟨last.bare, hk, ?_⟩
    have hremarks := (hcore ▸ hus).append (.keep w ([last] ++ [remark]))
    have hlast : front ++ ([last] ++ [remark]) = front ++ [last] ++ [remark] := by simp
    have h := (hremarks.put (t := newline) hlast hput).append (.keep w (trail' ++ [close]))
    simpa [hk] using h
  · refine ⟨commaToken, rfl, ?_⟩
    have hcomma := (hcore ▸ hus).put (t := remark) rfl fun _ =>
      ⟨isWritten_comma, by simp, mayPrecede_comma hc.last_eq⟩
    have h := (hcomma.put (t := newline) rfl hput).append (.keep w (trail' ++ [close]))
    simpa [hk] using h

theorem nest_comma {rest : List Token} {comma : Token} (hu : nest [] us = some [])
    (hc : comma.kind = .comma) (hr : nest [] rest = some []) :
    nest [] (us ++ comma :: rest) = some [] := by
  rw [nest_append, hu, Option.bind_some]
  simpa [nest, hc] using hr

theorem nest_between {lead trail : List Token} (hl : ∀ t ∈ lead, t.isTrivia = true)
    (ht : ∀ t ∈ trail, t.isTrivia = true) (hw : nest [] written = some []) :
    nest [] (lead ++ (written ++ trail)) = some [] := by
  rw [nest_append, nest_flat fun t h => isFlat_of_isTrivia (hl t h), Option.bind_some, nest_append,
    hw, Option.bind_some, nest_flat fun t h => isFlat_of_isTrivia (ht t h)]

theorem isTrivia_map_bare (h : ∀ t ∈ trail, t.isTrivia = true) :
    ∀ t ∈ trail.map Token.bare, t.isTrivia = true := by
  intro t ht
  obtain ⟨u, hu, rfl⟩ := List.mem_map.1 ht
  exact h u hu

variable {news : String → Option NewList} {callee : Token} {origin : Origin}

theorem HasCore.areNews (hc : HasCore inside core front last trail) (h : AreNews news inside) :
    AreNews news core :=
  ⟨h.names, fun name a hn ha => h.lists name a hn (hc.attributes_eq ▸ ha)⟩

theorem HasCore.allEdits (hc : HasCore inside core front last trail) :
    allEdits news core = allEdits news inside := by
  unfold Build.allEdits
  rw [hc.span_eq, hc.span_eq]

/-- Attributes go behind the comment on the line of the last argument. -/
theorem insertions_apart (hc : HasCore inside core front last trail)
    (ho : origin.IsOf callee inside close) (ht : AreTokens inside) {remark newline : Token}
    {trail' : List Token} (htrail : trail = remark :: newline :: trail')
    (hremark : remark.kind = .comment) (hnewline : newline.kind = .newline)
    {as : List NewAttribute} (has : as ≠ []) :
    Descriptor.insertions origin (as.map NewAttribute.text) =
      (if last.kind = .comma then [] else [⟨last.stop, last.stop, [',']⟩]) ++
        [⟨remark.stop, remark.stop, lineText origin.indent.toList as⟩] := by
  obtain ⟨hend, hcomma, hat⟩ := ho.places front last trail hc.inside_eq hc.last_eq hc.trail_eq
  have hinsert : origin.insertAt = remark.stop := by
    rw [hat, htrail]
    simp [hremark]
  have hmulti : origin.multiline = true := by
    rw [ho.multiline, List.any_eq_true]
    exact ⟨newline, by simp [hc.inside_eq, htrail], decide_eq_true hnewline⟩
  have hne : last.stop ≠ remark.stop := by
    have hmem : remark ∈ trail := by simp [htrail]
    have hordered := ht.ordered
    rw [hc.inside_eq] at hordered
    have hle := (List.pairwise_cons.1 (List.pairwise_append.1 hordered).2.1).1 remark hmem
    have hlt := (ht.proper remark (by simp [hc.inside_eq, hmem])).start_lt_stop
    omega
  unfold Descriptor.insertions
  rw [if_neg (by simpa using has), hend, hinsert, hmulti, hcomma]
  by_cases hk : last.kind = .comma <;> simp [hk, hne, lineText]

/-- Attributes go behind the last argument and its comma. -/
theorem insertions_behind (hc : HasCore inside core front last trail)
    (ho : origin.IsOf callee inside close)
    (hremark : ∀ t ∈ trail.head?, t.kind ≠ .comment) {as : List NewAttribute} (has : as ≠ []) :
    Descriptor.insertions origin (as.map NewAttribute.text) =
      [⟨last.stop, last.stop, (if last.kind = .comma then [] else [',']) ++
        if origin.multiline then lineText origin.indent.toList as
        else rowText as ++ if last.kind = .comma then [','] else []⟩] := by
  obtain ⟨hend, hcomma, hat⟩ := ho.places front last trail hc.inside_eq hc.last_eq hc.trail_eq
  have hinsert : origin.insertAt = last.stop := by
    rw [hat]
    cases hh : trail.head? with
    | none => rfl
    | some t => simp [hremark t hh]
  unfold Descriptor.insertions
  rw [if_neg (by simpa using has), hend, hinsert, hcomma]
  by_cases hk : last.kind = .comma <;> cases hm : origin.multiline <;>
    simp [hk, lineText, rowText]

theorem isGap_of_isIndent {c : Char} (h : isIndent c = true) : isGap c = true := by
  simp only [isIndent, Bool.or_eq_true, decide_eq_true_eq] at h
  rcases h with rfl | rfl <;> rfl

theorem lineText_head? (indent : List Char) {as : List NewAttribute} (h : as ≠ []) :
    (lineText indent as).head? = some '\n' := by
  obtain ⟨a, as, rfl⟩ := List.exists_cons_of_ne_nil h
  rfl

theorem rowText_ne_nil {as : List NewAttribute} (h : as ≠ []) : rowText as ≠ [] := by
  obtain ⟨a, as, rfl⟩ := List.exists_cons_of_ne_nil h
  cases as <;> simp [rowText, joined]

/-- **A call is edited**: the last arguments of their names get new lists, and new attributes are
put behind all arguments. -/
theorem rewrites_call (w : Prop) (ht : AreTokens (inside ++ [close]))
    (hnest : nest [] inside = some []) (hclose : close.kind ≠ .newline)
    (ho : origin.IsOf callee inside close) (hattr : attributes inside ≠ [])
    (hnews : AreNews news inside) (as : List NewAttribute) :
    ∃ es inside' as', Rewrites w (inside ++ [close]) es (inside' ++ [close.bare]) ∧
      es.Perm (allEdits news inside ++
        Descriptor.insertions origin (as.map NewAttribute.text)) ∧
      nest [] inside' = some [] ∧ Retouches news (attributes inside) as' ∧
      attributes inside' = as' ++ as.map NewAttribute.said := by
  have htokens : AreTokens inside := by
    have h := @AreTokens.of_append [] inside [close] (by simpa using ht)
    exact h
  by_cases has : as = []
  · subst has
    obtain ⟨es, us, hus, hperm, hnest', hretouch⟩ :=
      rewrites_arguments w htokens.proper hnest hnews
    refine ⟨es, us, _, ?_, ?_, hnest', hretouch, ?_⟩
    · simpa using hus.append (.keep w [close])
    · simpa [Descriptor.insertions] using hperm
    · simp
  · obtain ⟨core, front, last, trail, hc⟩ := exists_core hnest hattr
    have hproper : ∀ t ∈ core, t.IsProper := by
      intro t hmem
      refine htokens.proper t ?_
      rw [hc.inside_eq]
      rcases hc.core_eq with ⟨-, rfl⟩ | ⟨-, rfl⟩
      · simp [hmem]
      · rcases List.mem_append.1 hmem with h | h
        · simp [h]
        · simp [List.mem_singleton.1 h]
    obtain ⟨es, us, hus, hperm, hnestu, hretouch⟩ :=
      rewrites_arguments w hproper hc.nest_eq (hc.areNews hnews)
    rw [hc.attributes_eq] at hretouch
    rw [hc.allEdits] at hperm
    have hdepth : depthAfter 0 us = 0 := depthAfter_of_nest hnestu
    have hindent : ∀ c ∈ origin.indent.toList, isGap c = true :=
      fun c h => isGap_of_isIndent (ho.indent c h)
    have hlines := isWritten_lineText hindent as
    have htrail := isTrivia_map_bare hc.trail_eq
    by_cases hremark : ∃ remark ∈ trail.head?, remark.kind = .comment
    · obtain ⟨remark, hhead, hremark⟩ := hremark
      obtain ⟨rest, rfl⟩ := List.head?_eq_some_iff.1 hhead
      obtain ⟨newline, trail', hnewline, rfl⟩ : ∃ newline trail', newline.kind = .newline ∧
          rest = newline :: trail' := by
        cases rest with
        | nil =>
          refine absurd (ht.remarks (front ++ [last]) remark close [] ?_ hremark) hclose
          simp [hc.inside_eq]
        | cons t rest =>
          refine ⟨t, rest, ht.remarks (front ++ [last]) remark t (rest ++ [close]) ?_ hremark, rfl⟩
          simp [hc.inside_eq]
      have hproper := htokens.proper remark (by simp [hc.inside_eq])
      obtain ⟨comma, hk, h⟩ := rewrites_apart hc hus rfl hremark hproper hlines
        (lineText_head? _ has) close
      have hlead : ∀ t ∈ [remark.bare], t.isTrivia = true := fun t ht => by
        rw [List.mem_singleton.1 ht]
        exact hc.trail_eq remark List.mem_cons_self
      have htrail' : ∀ t ∈ (newline :: trail').map Token.bare, t.isTrivia = true :=
        fun t ht => htrail t (List.mem_cons_of_mem _ ht)
      have hshape : us ++ comma :: remark.bare :: (lineTokens as ++
          ((newline :: trail').map Token.bare ++ [close.bare])) = us ++ comma :: ([remark.bare] ++
            (lineTokens as ++ (newline :: trail').map Token.bare)) ++ [close.bare] := by
        simp
      rw [hshape] at h
      refine ⟨_, _, _, h, ?_, ?_, hretouch, ?_⟩
      · rw [insertions_apart hc ho htokens rfl hremark hnewline has]
        exact hperm.append_right _
      · exact nest_comma hnestu hk (nest_between hlead htrail' (nest_lineTokens as))
      · rw [attributes_comma hdepth hk, attributes_lineTokens as hlead htrail']
    · have hremark' : ∀ t ∈ trail.head?, t.kind ≠ .comment :=
        fun t ht hk => hremark ⟨t, ht, hk⟩
      -- What is written, and what it says behind a comma.
      obtain ⟨text, written, htext, hw, hne, hnestw, hattrw⟩ : ∃ text written,
          text = (if origin.multiline then lineText origin.indent.toList as
            else rowText as ++ if last.kind = .comma then [','] else []) ∧
          IsWritten text written ∧ text ≠ [] ∧ nest [] written = some [] ∧
          attributes (written ++ trail.map Token.bare) = as.map NewAttribute.said := by
        cases origin.multiline with
        | true =>
          refine ⟨_, lineTokens as, rfl, hlines, fun h => ?_, nest_lineTokens as, ?_⟩
          · have := lineText_head? origin.indent.toList has
            simp only [if_true] at h
            rw [h] at this
            cases this
          · simpa using @attributes_lineTokens as [] _ (by simp) htrail
        | false =>
          by_cases hk : last.kind = .comma
          · refine ⟨_, rowTokens as ++ [commaToken], rfl, ?_, ?_, ?_, ?_⟩
            · simpa [hk] using (isWritten_rowText as).append isWritten_comma
            · simp [hk]
            · rw [nest_append, nest_rowTokens]
              rfl
            · have hdepthr : depthAfter 0 (rowTokens as) = 0 :=
                depthAfter_of_nest (nest_rowTokens as)
              rw [attributes_append_trivia htrail, attributes_comma hdepthr rfl,
                attributes_rowTokens]
              exact List.append_nil _
          · refine ⟨_, rowTokens as, rfl, ?_, ?_, nest_rowTokens as, ?_⟩
            · simpa [hk] using isWritten_rowText as
            · simpa [hk] using rowText_ne_nil has
            · rw [attributes_append_trivia htrail, attributes_rowTokens]
      obtain ⟨comma, hk, h⟩ := rewrites_behind hc hus hw hne close
      have hshape : us ++ comma :: (written ++ (trail.map Token.bare ++ [close.bare])) =
          us ++ comma :: (written ++ trail.map Token.bare) ++ [close.bare] := by
        simp
      rw [hshape] at h
      refine ⟨_, _, _, h, ?_, ?_, hretouch, ?_⟩
      · rw [insertions_behind hc ho hremark' has, ← htext]
        exact hperm.append_right _
      · exact nest_comma hnestu hk (@nest_between _ [] _ (by simp) htrail hnestw)
      · rw [attributes_comma hdepth hk, hattrw]

end Call

end BuildSync.Build
