import Mathlib.Data.List.DropRight
import BuildSync.Proofs.Build.Lists

/-!
# Lists that are written

A list is written with its comments and read back as it was.

* `IsComment`: a comment as it is kept; `ListValue.IsClean`: a list with such comments, as all
  lists that are read (`isClean_of_listOf?`).
* `isWritten_layout`: the tokens of a written list. `listOf?_layoutTokens`: what they say.
* `ListValue.strings?_layout`: the text of a list is read back as the list.
-/

namespace BuildSync.Build

open Text

/-! ## Comments -/

/-- A comment without its line's end and without blanks before that. -/
def IsComment (comment : String) : Prop :=
  ∃ cs, comment.toList = '#' :: cs ∧ '\n' ∉ cs ∧ trimEnd comment.toList = comment.toList

/-- A list whose comments can be written. -/
structure ListValue.IsClean {α : Type} (list : ListValue α) : Prop where
  items : ∀ item ∈ list.items, (∀ c ∈ item.trailing, IsComment c) ∧ ∀ c ∈ item.leading, IsComment c
  footer : ∀ c ∈ list.footer, IsComment c

theorem trimEnd_trimEnd (cs : List Char) : trimEnd (trimEnd cs) = trimEnd cs := by
  unfold trimEnd trimEndOf
  rw [List.reverse_reverse, List.dropWhile_idempotent]

/-- The comment that a token makes. -/
theorem isComment_trimEnd {cs : List Char} (h : '\n' ∉ cs) :
    IsComment (String.ofList (trimEnd ('#' :: cs))) := by
  have hhash : trimEnd ('#' :: cs) = '#' :: trimEnd cs := by
    unfold trimEnd trimEndOf
    rw [List.reverse_cons, List.dropWhile_append]
    cases hd : cs.reverse.dropWhile isBlank with
    | nil => simp [show isBlank '#' = false by decide]
    | cons d ds => simp
  refine ⟨trimEnd cs, by rw [String.toList_ofList, hhash], fun hc => h ?_, ?_⟩
  · exact (trimEndOf_isPrefix isBlank cs).subset hc
  · rw [String.toList_ofList, trimEnd_trimEnd]

/-- What is known of a list while it is read. -/
structure ListReader.IsClean (r : ListReader) : Prop where
  items : ∀ item ∈ r.items, (∀ c ∈ item.trailing, IsComment c) ∧ ∀ c ∈ item.leading, IsComment c
  pending : ∀ c ∈ r.pending, IsComment c

theorem ListReader.IsClean.comment {r : ListReader} (h : r.IsClean) {text : String}
    (ht : IsComment text) : (r.comment text).IsClean := by
  have hpending : ∀ c ∈ r.pending ++ [text], IsComment c := by
    intro c hc
    rcases List.mem_append.1 hc with hc | hc
    · exact h.pending c hc
    · rwa [List.mem_singleton.1 hc]
  unfold ListReader.comment
  split
  · rename_i item items hitems
    have hitem := h.items item (by simp [hitems])
    have hrest : ∀ i ∈ items, (∀ c ∈ i.trailing, IsComment c) ∧ ∀ c ∈ i.leading, IsComment c :=
      fun i hi => h.items i (by simp [hitems, hi])
    split
    · exact ⟨h.items, hpending⟩
    · refine ⟨fun i hi => ?_, h.pending⟩
      rcases List.mem_cons.1 hi with rfl | hi
      · exact ⟨fun c hc => by cases hc; exact ht, hitem.2⟩
      · exact hrest i hi
  · exact ⟨h.items, hpending⟩

theorem ListReader.IsClean.token? {r r' : ListReader} (h : r.IsClean) {t : Token}
    (ht : t.IsProper) (hr : r.token? t = some r') : r'.IsClean := by
  unfold ListReader.token? at hr
  split at hr
  · cases hr
    refine ⟨fun item hi => ?_, by simp⟩
    rcases List.mem_cons.1 hi with rfl | hi
    · exact ⟨by simp, h.pending⟩
    · exact h.items item hi
  · cases hr
    exact h
  · cases hr
    exact ⟨h.items, h.pending⟩
  · rename_i hk
    obtain ⟨cs, hcs, hn⟩ := ht.comment hk
    cases hr
    rw [hcs]
    exact h.comment (isComment_trimEnd hn)
  · cases hr

/-- **Lists that are read are clean.** -/
theorem isClean_of_listOf? {ts : List Token} (ht : ∀ t ∈ ts, t.IsProper)
    {list : ListValue String} (h : listOf? ts = some list) : list.IsClean := by
  have hfold : ∀ {r r' : ListReader}, r.IsClean → ts.foldlM ListReader.token? r = some r' →
      r'.IsClean := by
    clear h
    induction ts with
    | nil =>
      intro r r' hr h
      cases h
      exact hr
    | cons t ts ih =>
      intro r r' hr h
      rw [List.foldlM_cons] at h
      obtain ⟨r₁, hr₁, h⟩ := Option.bind_eq_some_iff.1 h
      exact ih (fun u hu => ht u (List.mem_cons_of_mem t hu))
        (hr.token? (ht t List.mem_cons_self) hr₁) h
  unfold listOf? ListReader.ofTokens? at h
  obtain ⟨list', hlist, rfl⟩ := Option.map_eq_some_iff.1 h
  obtain ⟨r, hr, rfl⟩ := Option.map_eq_some_iff.1 hlist
  have hclean := hfold ⟨by simp, by simp⟩ hr
  refine ⟨fun item hi => ?_, hclean.pending⟩
  obtain ⟨i, hmem, rfl⟩ := List.mem_map.1 hi
  exact hclean.items i (List.mem_reverse.1 hmem)

/-! ## Written tokens -/

def newlineToken : Token := ⟨.newline, 0, ['\n']⟩

def commaToken : Token := ⟨.comma, 0, [',']⟩

def literalToken (text : String) : Token := ⟨.string, 0, quote text.toList⟩

theorem nest_literalToken (text : String) : nest [] [literalToken text] = some [] :=
  rfl

def remarkToken (comment : String) : Token := ⟨.comment, 0, comment.toList⟩

/-- A list's tokens, with what is in the brackets. -/
def bracketTokens (body : List Token) : List Token :=
  ⟨.opening .square, 0, ['[']⟩ :: (body ++ [⟨.closing .square, 0, [']']⟩])

theorem nest_bracketTokens {body : List Token} (h : ∀ t ∈ body, t.isFlat = true)
    (stack : List Bracket) : nest stack (bracketTokens body) = some stack := by
  unfold bracketTokens
  rw [← List.singleton_append, nest_append]
  simp [nest, nest_append, nest_flat h]

theorem depthAfter_bracketTokens {body : List Token} (h : ∀ t ∈ body, t.isFlat = true)
    (depth : Nat) : depthAfter depth (bracketTokens body) = depth := by
  unfold bracketTokens
  rw [← List.singleton_append, depthAfter_append, depthAfter_append, depthAfter_flat h]
  rfl

theorem isPart_bracketTokens {body : List Token} (h : ∀ t ∈ body, t.isFlat = true)
    (depth : Nat) : IsPart depth (bracketTokens body) := by
  have hbody : IsPart (depth + 1) body := isPart_flat h fun hd => by simp at hd
  refine ⟨by simp, isPart_append.2 ⟨hbody, by simp, trivial⟩⟩

/-- A character that is a lexeme whatever follows it. -/
theorem IsToken.mark {c : Char} {kind : TokenKind} (h : ∀ cs, lexeme? c cs = some (kind, 0))
    (hg : isGap c = false) (hb : c ≠ '\\') (next : Option Char) : IsToken kind [c] next :=
  ⟨by simpa using hg, fun hc => absurd (Option.some.inj hc) hb, c, [], rfl, fun ys _ => h ys⟩

theorem IsToken.newline : ∀ next, IsToken .newline ['\n'] next :=
  .mark (fun _ => rfl) (by decide) (by decide)

theorem IsToken.opening : ∀ next, IsToken (.opening .square) ['['] next :=
  .mark (fun _ => rfl) (by decide) (by decide)

theorem IsToken.closing : ∀ next, IsToken (.closing .square) [']'] next :=
  .mark (fun _ => rfl) (by decide) (by decide)

/-- An escaped text and a quote are the end of a string. -/
theorem shortString?_escaped (cs ys : List Char) :
    shortString? '\x22' (cs.flatMap escapeChar ++ '\x22' :: ys) =
      some ((cs.flatMap escapeChar).length + 1) := by
  induction cs with
  | nil => simp [shortString?_cons (show '\x22' ≠ '\\' by decide)]
  | cons c cs ih =>
    rw [List.flatMap_cons, List.append_assoc, List.length_append]
    generalize cs.flatMap escapeChar = tail at ih ⊢
    unfold escapeChar
    split
    · simp [shortString?, ih]
      omega
    · split
      · simp [shortString?, ih]
        omega
      · split
        · simp [shortString?, ih]
          omega
        · rename_i hq hb hn
          rw [List.singleton_append, shortString?_cons hb, if_neg hq, if_neg hn, ih]
          simp [Nat.add_comm]

theorem IsToken.quote (text : List Char) {next : Option Char} (h : next ≠ some '\x22') :
    IsToken .string (quote text) next := by
  refine ⟨by simp [Build.quote, isGap], by simp [Build.quote], '\x22',
    text.flatMap escapeChar ++ ['\x22'], rfl, fun ys hys => ?_⟩
  have hshort := shortString?_escaped text ys
  have hlength : stringLength? '\x22' (text.flatMap escapeChar ++ ['\x22'] ++ ys) =
      some ((text.flatMap escapeChar).length + 1) := by
    rw [List.append_assoc, List.singleton_append, ← hshort]
    have hhead := head_flatMap_escapeChar_ne text
    unfold stringLength?
    split
    · rename_i q₁ q₂ rest heq
      refine if_neg ?_
      rintro ⟨h₁, h₂⟩
      cases hcs : text.flatMap escapeChar with
      | nil =>
        rw [hcs] at heq
        simp only [List.nil_append, List.cons.injEq] at heq
        exact h (by rw [← hys, heq.2, h₂]; rfl)
      | cons d ds =>
        rw [hcs] at heq hhead
        simp only [List.cons_append, List.cons.injEq] at heq
        exact hhead (by rw [heq.1, h₁]; rfl)
    · rfl
  rw [lexeme?_of_not_mark (by decide), if_pos (by decide), hlength]
  simp

theorem IsToken.hash {cs : List Char} (h : '\n' ∉ cs) {next : Option Char}
    (hn : next = none ∨ next = some '\n') : IsToken .comment ('#' :: cs) next := by
  refine ⟨by simp [isGap], by simp, '#', cs, rfl, fun ys hys => ?_⟩
  have hrun : (cs ++ ys).takeWhile (· ≠ '\n') = cs := by
    have hcs : ∀ c ∈ cs, decide (c ≠ '\n') = true := by
      rintro c hc
      refine decide_eq_true fun he => h ?_
      rwa [← he]
    rw [List.takeWhile_append_of_pos hcs]
    cases ys with
    | nil => simp
    | cons y ys => rcases hn with rfl | rfl <;> simp_all
  simp only [lexeme?, hrun]

theorem IsToken.remark {comment : String} (h : IsComment comment) {next : Option Char}
    (hn : next = none ∨ next = some '\n') : IsToken .comment comment.toList next := by
  obtain ⟨cs, hcs, hnl, -⟩ := h
  rw [hcs]
  exact .hash hnl hn

/-! ## Written lists -/

/-- A comment on a line of its own. -/
def remarkLine (comment : String) : List Token :=
  [remarkToken comment, newlineToken]

namespace ListValue

/-- What stands in the brackets of a list on one line. -/
def inlineTokens : List String → List Token
  | [] => []
  | [text] => [literalToken text]
  | text :: texts => literalToken text :: commaToken :: inlineTokens texts

/-- The lines of an item. -/
def itemTokens {α : Type} (f : α → String) (item : ListItem α) : List Token :=
  item.leading.flatMap remarkLine ++
    (literalToken (f item.value) :: commaToken :: item.trailing.toList.map remarkToken ++
      [newlineToken])

/-- What stands in the brackets of a list as it is laid out. -/
def layoutTokens {α : Type} (list : ListValue α) (f : α → String) : List Token :=
  if !list.hasComments && list.items.length ≤ 1 then inlineTokens (list.values.map f)
  else newlineToken :: (list.items.flatMap (itemTokens f) ++ list.footer.flatMap remarkLine)

end ListValue

/-- What is written one after the other. -/
theorem IsWritten.append {xs ys : List Char} {ts us : List Token} (hx : IsWritten xs ts)
    (hy : IsWritten ys us) : IsWritten (xs ++ ys) (ts ++ us) :=
  fun next => (hx _).append (hy next)

theorem IsWritten.nil : IsWritten [] [] :=
  Lexes.nil

theorem IsWritten.flatMap {α : Type} {f : α → List Char} {g : α → List Token} {xs : List α}
    (h : ∀ x ∈ xs, IsWritten (f x) (g x)) : IsWritten (xs.flatMap f) (xs.flatMap g) := by
  induction xs with
  | nil => exact .nil
  | cons x xs ih =>
    rw [List.flatMap_cons, List.flatMap_cons]
    exact (h x List.mem_cons_self).append (ih fun y hy => h y (List.mem_cons_of_mem x hy))

theorem isWritten_gaps {xs : List Char} (h : ∀ c ∈ xs, isGap c = true) : IsWritten xs [] :=
  Lexes.gaps h

theorem isWritten_line {indent text : List Char} {ts : List Token}
    (hi : ∀ c ∈ indent, isGap c = true) (ht : Lexes text ts (some '\n')) :
    IsWritten (ListValue.line indent text) (ts ++ [newlineToken]) := by
  intro next
  have hline : Lexes (text ++ ['\n']) (ts ++ [newlineToken]) next :=
    Lexes.append ht (IsToken.newline next).lexes
  unfold ListValue.line
  rw [List.append_assoc]
  exact (isWritten_gaps hi _).append hline

theorem isWritten_remarkLine {indent : List Char} (hi : ∀ c ∈ indent, isGap c = true)
    {comment : String} (hc : IsComment comment) :
    IsWritten (ListValue.line indent comment.toList) (remarkLine comment) :=
  isWritten_line hi (IsToken.remark hc (.inr rfl)).lexes

/-- A string and a comma. -/
theorem isWritten_entry (text : String) :
    IsWritten (quote text.toList ++ [',']) [literalToken text, commaToken] := by
  intro next
  exact (IsToken.quote text.toList (by simp)).lexes.append (IsToken.comma next).lexes

theorem isWritten_itemLines {α : Type} {f : α → String} {indent : List Char}
    (hi : ∀ c ∈ indent, isGap c = true) {item : ListItem α}
    (ht : ∀ c ∈ item.trailing, IsComment c) (hl : ∀ c ∈ item.leading, IsComment c) :
    IsWritten (ListValue.itemLines indent (fun a => quote (f a).toList) item)
      (ListValue.itemTokens f item) := by
  have hleading := IsWritten.flatMap fun c hc => isWritten_remarkLine hi (hl c hc)
  refine hleading.append (isWritten_line hi ?_)
  have hentry := isWritten_entry (f item.value)
  cases htrailing : item.trailing with
  | none => exact (hentry _).append (.nil _)
  | some comment =>
    have hcomment := (IsToken.remark (ht comment htrailing) (.inr rfl)).lexes
    have hgap : ∀ next, Lexes [' ', ' '] [] next := Lexes.gaps (by simp [isGap])
    exact (hentry _).append ((hgap _).append hcomment)

theorem lexes_commaSeparated (texts : List String) :
    Lexes (commaSeparated (texts.map fun text => quote text.toList))
      (ListValue.inlineTokens texts) (some ']') := by
  unfold commaSeparated
  induction texts with
  | nil => exact .nil _
  | cons text texts ih =>
    cases texts with
    | nil => exact (IsToken.quote text.toList (by simp)).lexes
    | cons text' texts =>
      have hgap : ∀ next, Lexes [' '] [] next := Lexes.gaps (by simp [isGap])
      have hentry := (isWritten_entry text _).append ((hgap _).append ih)
      simpa [joined, ListValue.inlineTokens] using hentry

theorem isWritten_brackets {text : List Char} {body : List Token}
    (h : Lexes text body (some ']')) : IsWritten ('[' :: text ++ [']']) (bracketTokens body) := by
  intro next
  exact (IsToken.opening _).lexes.append (Lexes.append h (IsToken.closing next).lexes)

/-- **A list on one line.** -/
theorem isWritten_inline {α : Type} (list : ListValue α) (f : α → String) :
    IsWritten (list.inline fun a => quote (f a).toList)
      (bracketTokens (ListValue.inlineTokens (list.values.map f))) := by
  have h := isWritten_brackets (lexes_commaSeparated (list.values.map f))
  rwa [List.map_map] at h

/-- **A list as it is laid out.** -/
theorem isWritten_layout {α : Type} {list : ListValue α} (hl : list.IsClean) (f : α → String)
    {indent : List Char} (hi : ∀ c ∈ indent, isGap c = true) :
    IsWritten (list.layout indent fun a => quote (f a).toList)
      (bracketTokens (list.layoutTokens f)) := by
  unfold ListValue.layout ListValue.layoutTokens
  split
  · exact isWritten_inline list f
  · have hinner : ∀ c ∈ indent ++ "    ".toList, isGap c = true := by
      intro c hc
      rcases List.mem_append.1 hc with hc | hc
      · exact hi c hc
      · have hall : ∀ d ∈ "    ".toList, isGap d = true := List.all_eq_true.1 (by decide)
        exact hall c hc
    have hitems := IsWritten.flatMap fun item hitem =>
      isWritten_itemLines (f := f) hinner (hl.items item hitem).1 (hl.items item hitem).2
    have hfooter := IsWritten.flatMap fun c hc => isWritten_remarkLine hinner (hl.footer c hc)
    have hbody := hitems.append (hfooter.append (isWritten_gaps hi))
    have h := isWritten_brackets (Lexes.append (IsToken.newline _).lexes (hbody (some ']')))
    simpa [newlineToken] using h

/-! ## Reading written lists back -/

theorem token?_newline (r : ListReader) :
    r.token? newlineToken = some { r with fresh := true } := rfl

theorem token?_comma (r : ListReader) : r.token? commaToken = some r := rfl

theorem token?_literal (r : ListReader) (text : String) :
    r.token? (literalToken text) = some ⟨⟨(text, 0), none, r.pending⟩ :: r.items, [], false⟩ := by
  simp [ListReader.token?, literalToken, literalValue_quote]

theorem token?_remark (r : ListReader) {comment : String} (h : IsComment comment) :
    r.token? (remarkToken comment) = some (r.comment comment) := by
  obtain ⟨cs, -, -, htrim⟩ := h
  simp [ListReader.token?, remarkToken, htrim]

/-- Comments on lines of their own are for what follows. -/
theorem foldlM_remarkLines {comments : List String} (h : ∀ c ∈ comments, IsComment c)
    (items : List (ListItem (String × Nat))) (pending : List String) :
    (comments.flatMap remarkLine).foldlM ListReader.token? ⟨items, pending, true⟩ =
      some ⟨items, pending ++ comments, true⟩ := by
  induction comments generalizing pending with
  | nil => simp
  | cons c comments ih =>
    have hcomment : ListReader.comment ⟨items, pending, true⟩ c =
        ⟨items, pending ++ [c], true⟩ := by
      unfold ListReader.comment
      cases items <;> simp
    have ih := ih (fun d hd => h d (List.mem_cons_of_mem c hd)) (pending ++ [c])
    rw [List.append_assoc, List.singleton_append] at ih
    rw [List.flatMap_cons, remarkLine, List.cons_append, List.cons_append, List.nil_append,
      List.foldlM_cons, token?_remark _ (h c List.mem_cons_self), hcomment]
    exact ih

/-- The lines of an item are read as the item. -/
theorem foldlM_itemTokens {α : Type} (f : α → String) {item : ListItem α}
    (ht : ∀ c ∈ item.trailing, IsComment c) (hl : ∀ c ∈ item.leading, IsComment c)
    (items : List (ListItem (String × Nat))) :
    (ListValue.itemTokens f item).foldlM ListReader.token? ⟨items, [], true⟩ =
      some ⟨RuleReader.withValue item (f item.value, 0) :: items, [], true⟩ := by
  have hleading := foldlM_remarkLines hl items []
  rw [List.nil_append] at hleading
  unfold ListValue.itemTokens
  rw [List.foldlM_append, hleading, List.cons_append, List.cons_append]
  dsimp only [Option.bind_eq_bind, Option.bind_some]
  rw [List.foldlM_cons, token?_literal]
  dsimp only [Option.bind_eq_bind, Option.bind_some]
  rw [List.foldlM_cons, token?_comma]
  dsimp only [Option.bind_eq_bind, Option.bind_some]
  cases htrailing : item.trailing with
  | none => simp [token?_newline, RuleReader.withValue, htrailing]
  | some comment =>
    simp [token?_newline, token?_remark _ (ht comment htrailing), ListReader.comment,
      RuleReader.withValue, htrailing]

theorem foldlM_items {α : Type} (f : α → String) {items : List (ListItem α)}
    (h : ∀ item ∈ items, (∀ c ∈ item.trailing, IsComment c) ∧ ∀ c ∈ item.leading, IsComment c)
    (before : List (ListItem (String × Nat))) :
    (items.flatMap (ListValue.itemTokens f)).foldlM ListReader.token? ⟨before, [], true⟩ =
      some ⟨(items.map fun item => RuleReader.withValue item (f item.value, 0)).reverse ++ before,
        [], true⟩ := by
  induction items generalizing before with
  | nil => rfl
  | cons item items ih =>
    obtain ⟨ht, hl⟩ := h item List.mem_cons_self
    rw [List.flatMap_cons, List.foldlM_append, foldlM_itemTokens f ht hl]
    dsimp only [Option.bind_eq_bind, Option.bind_some]
    rw [ih fun i hi => h i (List.mem_cons_of_mem item hi)]
    simp

theorem foldlM_inlineTokens (texts : List String) (before : List (ListItem (String × Nat)))
    (fresh : Bool) :
    ∃ fresh', (ListValue.inlineTokens texts).foldlM ListReader.token? ⟨before, [], fresh⟩ =
      some ⟨(texts.map fun text => .plain (text, 0)).reverse ++ before, [], fresh'⟩ := by
  induction texts generalizing before fresh with
  | nil => exact ⟨fresh, rfl⟩
  | cons text texts ih =>
    cases texts with
    | nil => exact ⟨false, by simp [ListValue.inlineTokens, token?_literal, ListItem.plain]⟩
    | cons text' texts =>
      obtain ⟨fresh', hfold⟩ := ih (⟨(text, 0), none, []⟩ :: before) false
      refine ⟨fresh', ?_⟩
      have hcons : ListValue.inlineTokens (text :: text' :: texts) =
        literalToken text :: commaToken :: ListValue.inlineTokens (text' :: texts) := rfl
      rw [hcons, List.foldlM_cons, token?_literal]
      dsimp only [Option.bind_eq_bind, Option.bind_some]
      rw [List.foldlM_cons, token?_comma]
      dsimp only [Option.bind_eq_bind, Option.bind_some]
      rw [hfold]
      simp [ListItem.plain]

/-- **A list on one line** is read without comments. -/
theorem listOf?_inlineTokens (texts : List String) :
    listOf? (ListValue.inlineTokens texts) = some ⟨texts.map .plain, []⟩ := by
  obtain ⟨fresh, hfold⟩ := foldlM_inlineTokens texts [] true
  unfold listOf? ListReader.ofTokens?
  rw [hfold]
  simp [ListValue.mapValues, RuleReader.withValue, ListItem.plain, Function.comp_def]

/-- **A list that was laid out** is read as it was. -/
theorem listOf?_layoutTokens {α : Type} {list : ListValue α} (h : list.IsClean) (f : α → String) :
    listOf? (list.layoutTokens f) = some (list.mapValues f) := by
  unfold ListValue.layoutTokens
  split
  · rename_i hinline
    obtain ⟨hcomments, -⟩ := Bool.and_eq_true_iff.1 hinline
    have hplain : list = ⟨list.values.map .plain, []⟩ := by
      obtain ⟨items, footer⟩ := list
      simp only [ListValue.hasComments, Bool.not_or, Bool.and_eq_true, Bool.not_eq_true',
        decide_eq_false_iff_not, not_not, List.any_eq_false, Bool.or_eq_true, not_or] at hcomments
      obtain ⟨rfl, hitems⟩ := hcomments
      simp only [ListValue.values, List.map_map, ListValue.mk.injEq, and_true]
      refine ((List.map_congr_left fun item hitem => ?_).trans (List.map_id items)).symm
      obtain ⟨value, trailing, leading⟩ := item
      have hitem := hitems _ hitem
      simp_all [ListItem.plain]
    rw [listOf?_inlineTokens, Option.some.injEq, hplain]
    simp [ListValue.mapValues, ListValue.values, RuleReader.withValue, ListItem.plain,
      Function.comp_def]
  · have hitems := foldlM_items f h.items []
    have hfooter := foldlM_remarkLines h.footer
      ((list.items.map fun item => RuleReader.withValue item (f item.value, 0)).reverse ++ []) []
    unfold listOf? ListReader.ofTokens?
    rw [List.foldlM_cons, token?_newline]
    dsimp only [Option.bind_eq_bind, Option.bind_some]
    rw [List.foldlM_append, hitems]
    dsimp only [Option.bind_eq_bind, Option.bind_some]
    rw [hfooter]
    simp [ListValue.mapValues, RuleReader.withValue, Function.comp_def]

theorem bracketed?_bracketTokens (key : Option String) (start : Nat) (body : List Token) :
    Argument.bracketed? ⟨key, start, bracketTokens body⟩ = some body :=
  bracketed?_eq_some.2 ⟨[], _, _, [], rfl, by simp, by simp, rfl, rfl⟩

/-- **The text of a list is read back as the list**: its strings, whatever characters they are of,
in their order, and with each of them the comments that it had. -/
theorem ListValue.strings?_layout {list : ListValue String} (hl : list.IsClean)
    {indent : List Char} (hi : ∀ c ∈ indent, isIndent c = true) (pos : Nat)
    (key : Option String) (start : Nat) :
    ∃ ts read, tokens pos (list.layout indent writeSource) = .ok ts ∧
      Argument.strings? ⟨key, start, ts⟩ = some read ∧ read.mapValues Prod.fst = list := by
  have hgap : ∀ c ∈ indent, isGap c = true := fun c hc => by
    have hc := hi c hc
    simp only [isIndent, Bool.or_eq_true, decide_eq_true_eq] at hc
    rcases hc with rfl | rfl <;> decide
  have hlexemes := (isWritten_layout hl id hgap none).lexemes
  obtain ⟨ts, hts, hbare⟩ := exists_tokens hlexemes pos
  -- What is said does not depend on the places of the tokens.
  have hlist : Argument.list? ⟨key, start, ts⟩ = some list := by
    have hread := listOf?_layoutTokens hl id
    rw [mapValues_id] at hread
    rw [← list?_bare, Argument.bare, hbare, list?_eq, bracketed?_bracketTokens]
    exact hread
  obtain ⟨read, hread, hvalues⟩ := Option.map_eq_some_iff.1 hlist
  exact ⟨ts, read, hts, hread, hvalues⟩

/-- A list whose items hold quotes, a backslash and a line's end, with comments in all places. -/
def remarkedList : ListValue String :=
  ⟨[⟨"a\"b.ts", some "# keep", ["# first", "#"]⟩, ⟨"c\\n\n'#", none, []⟩, .plain "é"], ["# last"]⟩

theorem ListValue.strings?_layout_remarked : remarkedList.IsClean ∧
    (∀ c ∈ ['\t', ' '], isIndent c = true) ∧
    ∃ ts read, tokens 7 (remarkedList.layout ['\t', ' '] writeSource) = .ok ts ∧
      Argument.strings? ⟨none, 7, ts⟩ = some read ∧
      read.mapValues Prod.fst = remarkedList := by
  have hkeep : IsComment "# keep" := ⟨_, rfl, by decide, by decide⟩
  have hfirst : IsComment "# first" := ⟨_, rfl, by decide, by decide⟩
  have hempty : IsComment "#" := ⟨_, rfl, by decide, by decide⟩
  have hlast : IsComment "# last" := ⟨_, rfl, by decide, by decide⟩
  have hclean : remarkedList.IsClean := by
    constructor
    · simp [remarkedList, ListItem.plain, hkeep, hfirst, hempty]
    · simp [remarkedList, hlast]
  have hindent : ∀ c ∈ ['\t', ' '], isIndent c = true := by
    simp [isIndent]
  exact ⟨hclean, hindent, ListValue.strings?_layout hclean hindent 7 none 7⟩

/-! ## Labels -/

/-- Labels that are read back from their written form are read back from a list of them. -/
theorem labels?_mapValues {package : String} {list : ListValue Label} {f : Label → String}
    (h : ∀ label ∈ list.values, Label.parse? (f label) package = some label) :
    labels? package (list.mapValues f) = some list := by
  obtain ⟨items, footer⟩ := list
  have hitems : (items.map fun item => RuleReader.withValue item (f item.value)).mapM
      (fun item => (Label.parse? item.value package).map (RuleReader.withValue item)) =
        some items := by
    induction items with
    | nil => rfl
    | cons item items ih =>
      have hlabel : Label.parse? (f item.value) package = some item.value :=
        h item.value (by simp [ListValue.values])
      have ih := ih fun label hl => h label (List.mem_cons_of_mem _ hl)
      rw [List.map_cons, List.mapM_cons, ih]
      simp [RuleReader.withValue, hlabel]
  unfold labels? ListValue.mapValues
  rw [hitems]
  rfl

/-- The labels of a list with its comments. -/
theorem isClean_of_labels? {package : String} {list : ListValue String} {labels : ListValue Label}
    (hl : list.IsClean) (h : labels? package list = some labels) : labels.IsClean := by
  obtain ⟨items, hitems, rfl⟩ := Option.map_eq_some_iff.1 h
  refine ⟨?_, hl.footer⟩
  have hclean := hl.items
  clear h
  generalize list.items = old at hitems hclean
  induction old generalizing items with
  | nil =>
    cases hitems
    simp
  | cons item old ih =>
    rw [List.mapM_cons] at hitems
    obtain ⟨new, hnew, hitems⟩ := Option.bind_eq_some_iff.1 hitems
    obtain ⟨news, hnews, hitems⟩ := Option.bind_eq_some_iff.1 hitems
    cases hitems
    obtain ⟨label, -, rfl⟩ := Option.map_eq_some_iff.1 hnew
    intro i hi
    rcases List.mem_cons.1 hi with rfl | hi
    · exact hclean item List.mem_cons_self
    · exact ih news hnews (fun j hj => hclean j (List.mem_cons_of_mem item hj)) i hi

/-- New values keep the comments that the old ones had. -/
theorem ListValue.IsClean.withValues {α : Type} [DecidableEq α] {list : ListValue α}
    (h : list.IsClean) (values : List α) : (list.withValues values).IsClean := by
  refine ⟨fun item hi => ?_, h.footer⟩
  obtain ⟨value, -, rfl⟩ := List.mem_map.1 hi
  unfold ListValue.itemFor
  cases hf : list.items.find? (fun item => item.value = value) with
  | none => exact ⟨by simp [ListItem.plain], by simp [ListItem.plain]⟩
  | some item => exact h.items item (List.mem_of_find?_eq_some hf)

end BuildSync.Build
