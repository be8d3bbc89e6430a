import BuildSync.Proofs.Build.Bytes
import BuildSync.Proofs.Build.Ranges

/-!
# Tokens as the pieces of a text

* `IsBody`, `IsLiteral`: what a string is made of. Every string that is read is so made
  (`isLiteral_of_lexeme?`), and its value is that of what stands between its delimiters
  (`IsLiteral.quoteLength_eq`, `IsLiteral.literalValue_eq`).
* `exists_slice_gap`: what stands between tokens only separates them.
* `HasNewline`: what a newline is to some tokens (`hasNewline_of_tokens`).
* `IsTiling`: tokens that make up a text with what separates them. `tokens_isTiling`: the tokens of
  every text do.
-/

namespace BuildSync.Build

open Text

/-! ## Strings -/

/-- What stands between two delimiters: the delimiter begins nowhere in it but behind a backslash,
and only between three quotes there are several lines. -/
inductive IsBody (delimiter : List Char) : List Char → Prop
  | nil : IsBody delimiter []
  | escaped (c : Char) {cs : List Char} : IsBody delimiter cs → IsBody delimiter ('\\' :: c :: cs)
  | plain {c : Char} {cs : List Char} : c ≠ '\\' → ¬ delimiter <+: c :: (cs ++ delimiter) →
      (c = '\n' → delimiter.length = 3) → IsBody delimiter cs → IsBody delimiter (c :: cs)

/-- **A string**: perhaps some marks, and what stands between two delimiters. -/
structure IsLiteral (text mark delimiter body : List Char) : Prop where
  text_eq : text = mark ++ (delimiter ++ (body ++ delimiter))
  mark_mem : mark = [] ∨ mark ∈ stringMarks
  quotes : ∃ quote, isQuote quote = true ∧
    (delimiter = [quote] ∨ delimiter = [quote, quote, quote])
  isBody : IsBody delimiter body

theorem exists_body_of_shortString? {quote : Char} {cs : List Char} {n : Nat}
    (h : shortString? quote cs = some n) :
    ∃ body, cs.take n = body ++ [quote] ∧ IsBody [quote] body := by
  fun_induction shortString? quote cs generalizing n with
  | case1 => cases h
  | case2 => cases h
  | case3 c cs ih =>
    obtain ⟨m, hm, rfl⟩ := Option.map_eq_some_iff.1 h
    obtain ⟨body, htake, hbody⟩ := ih hm
    exact ⟨'\\' :: c :: body, by simp [htake], hbody.escaped c⟩
  | case4 =>
    cases h
    exact ⟨[], rfl, .nil⟩
  | case5 => cases h
  | case6 c cs h₁ h₂ hq hn ih =>
    obtain ⟨m, hm, rfl⟩ := Option.map_eq_some_iff.1 h
    obtain ⟨body, htake, hbody⟩ := ih hm
    have hno : ¬ [quote] <+: c :: (body ++ [quote]) := fun hp =>
      hq (List.cons_prefix_cons.1 hp).1.symm
    exact ⟨c :: body, by simp [htake], .plain (ne_backslash h₁ h₂) hno (absurd · hn) hbody⟩

theorem exists_body_of_longString? {quote : Char} {cs : List Char} {n : Nat}
    (h : longString? quote cs = some n) : ∃ body,
      cs.take n = body ++ [quote, quote, quote] ∧ IsBody [quote, quote, quote] body := by
  fun_induction longString? quote cs generalizing n with
  | case1 => cases h
  | case2 => cases h
  | case3 c cs ih =>
    obtain ⟨m, hm, rfl⟩ := Option.map_eq_some_iff.1 h
    obtain ⟨body, htake, hbody⟩ := ih hm
    exact ⟨'\\' :: c :: body, by simp [htake], hbody.escaped c⟩
  | case4 c cs _ _ hq =>
    cases h
    exact ⟨[], hq, .nil⟩
  | case5 c cs h₁ h₂ hq ih =>
    obtain ⟨m, hm, rfl⟩ := Option.map_eq_some_iff.1 h
    obtain ⟨body, htake, hbody⟩ := ih hm
    -- The string that was read is in front of `cs`, so the test above saw its quotes.
    have hno : ¬ [quote, quote, quote] <+: c :: (body ++ [quote, quote, quote]) := by
      intro hp
      rw [← htake, ← List.take_succ_cons] at hp
      exact hq (List.prefix_iff_eq_take.1 (hp.trans (List.take_prefix _ _))).symm
    exact ⟨c :: body, by simp [htake], .plain (ne_backslash h₁ h₂) hno (fun _ => rfl) hbody⟩

theorem isLiteral_of_stringLength? {quote : Char} (hq : isQuote quote = true) {cs : List Char}
    {n : Nat} (h : stringLength? quote cs = some n) :
    ∃ delimiter body, IsLiteral (quote :: cs.take n) [] delimiter body := by
  by_cases hlong : [quote, quote] <+: cs
  · obtain ⟨rest, rfl⟩ := hlong
    rw [List.cons_append, List.singleton_append, stringLength?_long] at h
    obtain ⟨m, hm, rfl⟩ := Option.map_eq_some_iff.1 h
    obtain ⟨body, htake, hbody⟩ := exists_body_of_longString? hm
    exact ⟨_, body, by simp [htake], .inl rfl, ⟨quote, hq, .inr rfl⟩, hbody⟩
  · rw [stringLength?_short hlong] at h
    obtain ⟨body, htake, hbody⟩ := exists_body_of_shortString? h
    exact ⟨_, body, by simp [htake], .inl rfl, ⟨quote, hq, .inl rfl⟩, hbody⟩

/-- A string behind its marks. -/
theorem IsLiteral.marked {text mark delimiter body : List Char}
    (h : IsLiteral text [] delimiter body) (hmark : mark ∈ stringMarks) :
    IsLiteral (mark ++ text) mark delimiter body :=
  ⟨by rw [h.text_eq]; rfl, .inr hmark, h.quotes, h.isBody⟩

theorem isLiteral_of_wordLexeme? {c : Char} {cs : List Char} {n : Nat}
    (h : wordLexeme? c cs = some (.string, n)) :
    ∃ mark delimiter body, IsLiteral (c :: cs.take n) mark delimiter body := by
  unfold wordLexeme? at h
  split at h
  · rename_i quote rest hdrop
    split at h
    · rename_i hmark
      obtain ⟨hq, hmark⟩ := Bool.and_eq_true_iff.1 hmark
      obtain ⟨m, hm, he⟩ := Option.map_eq_some_iff.1 h
      obtain ⟨-, rfl⟩ := Prod.mk.inj he
      obtain ⟨delimiter, body, hliteral⟩ := isLiteral_of_stringLength? hq hm
      have hcs : cs = cs.takeWhile isWordChar ++ quote :: rest := by
        rw [← hdrop, drop_takeWhile, List.takeWhile_append_dropWhile]
      have htake : cs.take ((cs.takeWhile isWordChar).length + 1 + m) =
          cs.takeWhile isWordChar ++ quote :: rest.take m := by
        rw [← take_behind, ← hcs]
      rw [htake, ← List.cons_append]
      exact ⟨_, delimiter, body, hliteral.marked (List.contains_iff_mem.1 hmark)⟩
    · simp at h
  · simp at h

/-- **Every string that is read** is one. -/
theorem isLiteral_of_lexeme? {c : Char} {cs : List Char} {n : Nat}
    (h : lexeme? c cs = some (.string, n)) :
    ∃ mark delimiter body, IsLiteral (c :: cs.take n) mark delimiter body := by
  cases hm : isMark c with
  | true =>
    simp only [isMark, List.mem_cons, List.not_mem_nil, or_false, decide_eq_true_eq] at hm
    rcases hm with rfl | rfl | rfl | rfl | rfl | rfl | rfl | rfl | rfl <;> simp [lexeme?] at h
  | false =>
    rw [lexeme?_of_not_mark hm] at h
    split at h
    · rename_i hq
      obtain ⟨m, hs, he⟩ := Option.map_eq_some_iff.1 h
      obtain ⟨-, rfl⟩ := Prod.mk.inj he
      obtain ⟨delimiter, body, hliteral⟩ := isLiteral_of_stringLength? hq hs
      exact ⟨[], delimiter, body, hliteral⟩
    · split at h
      · simp at h
      · unfold plainLexeme? at h
        split at h
        · simp at h
        · split at h
          · simp at h
          · split at h
            · exact isLiteral_of_wordLexeme? h
            · simp at h

/-! ## Values of strings -/

theorem eq_of_isQuote {q : Char} (h : isQuote q = true) : q = '\x22' ∨ q = '\x27' := by
  simpa [isQuote] using h

/-- No quote stands in front of what one quote delimits. -/
theorem IsBody.head?_ne {quote : Char} {body : List Char} (h : IsBody [quote] body)
    (hq : quote ≠ '\\') : body.head? ≠ some quote := by
  cases h with
  | nil => simp
  | escaped c _ => simpa using hq.symm
  | plain _ hno _ _ =>
    rintro ⟨⟩
    exact hno (List.cons_prefix_cons.2 ⟨rfl, List.nil_prefix⟩)

/-- **The delimiters of a string** are found again in its text. -/
theorem IsLiteral.quoteLength_eq {text mark delimiter body : List Char}
    (h : IsLiteral text mark delimiter body) :
    quoteLength (delimiter ++ (body ++ delimiter)) = delimiter.length := by
  obtain ⟨quote, hq, hdelimiter⟩ := h.quotes
  have hbody := h.isBody
  unfold quoteLength
  rcases hdelimiter with rfl | rfl
  · have hhead : body.head? ≠ some quote := hbody.head?_ne (by rintro rfl; cases hq)
    have htake : ∀ q, ([quote] ++ (body ++ [quote])).take 3 ≠ [q, q, q] := by
      intro q heq
      cases body with
      | nil => simp at heq
      | cons c body =>
        simp only [List.cons_append, List.nil_append, List.take_succ_cons, List.cons.injEq] at heq
        exact hhead (by rw [heq.1, heq.2.1]; rfl)
    simp only [htake, decide_false, Bool.or_self, Bool.false_eq_true, if_false, ite_self]
    rfl
  · have hsize := utf8Size_of_low (isHigh_of_class isQuote_of_high hq)
    rw [if_neg (by simp [hsize]; omega)]
    rcases eq_of_isQuote hq with rfl | rfl <;> rfl

/-- **The value of a string** is that of what stands between its delimiters. -/
theorem IsLiteral.literalValue_eq {text mark delimiter body : List Char}
    (h : IsLiteral text mark delimiter body) :
    literalValue text = if 'r' ∈ mark ∨ 'R' ∈ mark then body else unescape body := by
  have hmark : ∀ c ∈ mark, (!isQuote c) = true := by
    obtain rfl | hmark := h.mark_mem
    · simp
    · have hall : ∀ mark ∈ stringMarks, ∀ c ∈ mark, (!isQuote c) = true := by
        simp [stringMarks, isQuote]
      exact hall mark hmark
  obtain ⟨quote, rest, hquoted, hq⟩ : ∃ quote rest,
      delimiter ++ (body ++ delimiter) = quote :: rest ∧ isQuote quote = true := by
    obtain ⟨quote, hq, rfl | rfl⟩ := h.quotes
    · exact ⟨quote, _, rfl, hq⟩
    · exact ⟨quote, _, rfl, hq⟩
  have htakeWhile : text.takeWhile (fun c => !isQuote c) = mark := by
    rw [h.text_eq, List.takeWhile_append_of_pos hmark, hquoted]
    simp [hq]
  have hdropWhile : text.dropWhile (fun c => !isQuote c) = delimiter ++ (body ++ delimiter) := by
    rw [h.text_eq, List.dropWhile_append_of_pos hmark, hquoted]
    simp [hq]
  have hinner : ((delimiter ++ (body ++ delimiter)).drop delimiter.length).take
      ((delimiter ++ (body ++ delimiter)).length - 2 * delimiter.length) = body := by
    rw [List.drop_left]
    apply List.take_left'
    simp only [List.length_append]
    omega
  unfold literalValue
  simp only [htakeWhile, hdropWhile, h.quoteLength_eq, hinner]

/-! ## What separates tokens -/

/-- The tokens of a text, parted. -/
theorem tokens_parted {pos : Nat} {cs : List Char} {ts us : List Token}
    (h : tokens pos cs = .ok (ts ++ us)) : ∃ xs ys, cs = xs ++ ys ∧
      ts.getLast?.elim pos Token.stop = pos + width xs ∧ tokens (pos + width xs) ys = .ok us := by
  cases ts using List.reverseRecOn with
  | nil => exact ⟨[], cs, rfl, rfl, h⟩
  | append_singleton ts t =>
    rw [List.append_assoc, List.singleton_append] at h
    obtain ⟨xs, ys, rfl, hstart, -, -, hrest⟩ := tokens_cut h
    have hstop : t.stop = pos + width (xs ++ t.text) := by
      rw [Token.stop, hstart, width_append, Nat.add_assoc]
    exact ⟨xs ++ t.text, ys, by simp, by simpa using hstop, hstop ▸ hrest⟩

/-- What stands before the first token, or is all of a text without tokens. -/
theorem exists_gap {pos : Nat} {cs : List Char} {ts : List Token} (h : tokens pos cs = .ok ts) :
    ∃ gap rest, cs = gap ++ rest ∧ IsGapText gap ∧
      ts.head?.elim (pos + width cs) Token.start = pos + width gap := by
  cases ts with
  | nil => exact ⟨cs, [], by simp, isGapText_of_tokens h, rfl⟩
  | cons t ts =>
    obtain ⟨gap, ys, rfl, hstart, hgap, -⟩ := tokens_cons h
    exact ⟨gap, t.text ++ ys, rfl, isGapText_of_lexes (hgap none), hstart⟩

/-- **What stands between tokens** only separates them. -/
theorem exists_slice_gap {text : List Char} {ts us : List Token}
    (h : tokens 0 text = .ok (ts ++ us)) : ∃ gap, IsGapText gap ∧
      slice? text (ts.getLast?.elim 0 Token.stop) (us.head?.elim (width text) Token.start) =
        some gap := by
  obtain ⟨xs, ys, rfl, hstop, hus⟩ := tokens_parted h
  obtain ⟨gap, rest, rfl, hgap, hstart⟩ := exists_gap hus
  rw [Nat.zero_add] at hstop hstart
  rw [← width_append] at hstart
  refine ⟨gap, hgap, ?_⟩
  rw [hstop, hstart, ← List.append_assoc]
  exact slice?_width xs gap rest

/-! ## Newlines -/

/-- The byte `n` belongs to a token. -/
def IsCovered (ts : List Token) (n : Nat) : Prop :=
  ∃ t ∈ ts, t.start ≤ n ∧ n < t.stop

/-- **What a newline is** to some tokens, behind `front` in a text that starts at the byte `pos`. -/
inductive HasNewline (pos : Nat) (ts : List Token) (front : List Char) : Prop
  /-- One of them. -/
  | token : (⟨.newline, pos + width front, ['\n']⟩ : Token) ∈ ts → HasNewline pos ts front
  | inString {t : Token} : t ∈ ts → t.kind = .string → t.start ≤ pos + width front →
      pos + width front < t.stop → HasNewline pos ts front
  /-- Behind a backslash that belongs to no token either. -/
  | joined {before : List Char} : front = before ++ ['\\'] → ¬ IsCovered ts (pos + width before) →
      ¬ IsCovered ts (pos + width front) → HasNewline pos ts front

theorem newline_not_mem_run {p : Char → Bool} (hp : p '\n' = false) (cs : List Char) :
    '\n' ∉ cs.take (cs.takeWhile p).length := by
  rw [← List.prefix_iff_eq_take.1 (List.takeWhile_prefix p)]
  intro hmem
  rw [List.mem_takeWhile_imp hmem] at hp
  cases hp

theorem newline_not_mem_wordLexeme? {c : Char} {cs : List Char} {kind : TokenKind} {n : Nat}
    (h : wordLexeme? c cs = some (kind, n)) (hs : kind ≠ .string) : '\n' ∉ cs.take n := by
  unfold wordLexeme? at h
  split at h
  · split at h
    · obtain ⟨m, -, he⟩ := Option.map_eq_some_iff.1 h
      exact absurd (Prod.mk.inj he).1.symm hs
    · cases h
      exact newline_not_mem_run rfl cs
  · cases h
    exact newline_not_mem_run rfl cs

/-- Only strings and newlines hold a newline. -/
theorem newline_not_mem_lexeme? {c : Char} {cs : List Char} {kind : TokenKind} {n : Nat}
    (h : lexeme? c cs = some (kind, n)) (hs : kind ≠ .string) (hn : kind ≠ .newline) :
    '\n' ∉ c :: cs.take n := by
  cases hm : isMark c with
  | true =>
    simp only [isMark, List.mem_cons, List.not_mem_nil, or_false, decide_eq_true_eq] at hm
    rcases hm with rfl | rfl | rfl | rfl | rfl | rfl | rfl | rfl | rfl <;>
      simp only [lexeme?, Option.some.injEq, Prod.mk.injEq] at h <;> obtain ⟨rfl, rfl⟩ := h
    case inl => exact absurd rfl hn
    case inr.inl =>
      rw [List.mem_cons, not_or]
      exact ⟨by decide, newline_not_mem_run (by decide) cs⟩
    all_goals simp
  | false =>
    have hc : '\n' ≠ c := by
      rintro rfl
      cases hm
    suffices htake : '\n' ∉ cs.take n from List.not_mem_cons_of_ne_of_not_mem hc htake
    rw [lexeme?_of_not_mark hm] at h
    split at h
    · obtain ⟨m, -, he⟩ := Option.map_eq_some_iff.1 h
      exact absurd (Prod.mk.inj he).1.symm hs
    · split at h
      · rename_i he
        obtain ⟨-, he⟩ := Bool.and_eq_true_iff.1 he
        obtain ⟨ds, rfl⟩ := List.head?_eq_some_iff.1 (of_decide_eq_true he)
        cases h
        simp
      · unfold plainLexeme? at h
        split at h
        · cases h
          simp
        · split at h
          · cases h
            exact newline_not_mem_run rfl cs
          · split at h
            · exact newline_not_mem_wordLexeme? h hs
            · cases h
              simp

theorem IsToken.newline_cases {kind : TokenKind} {text : List Char} {next : Option Char}
    (h : IsToken kind text next) (hmem : '\n' ∈ text) :
    kind = .string ∨ kind = .newline ∧ text = ['\n'] := by
  by_cases hs : kind = .string
  · exact .inl hs
  · by_cases hn : kind = .newline
    · subst hn
      exact .inr ⟨rfl, h.eq_newline⟩
    · obtain ⟨c, cs, rfl, hlex⟩ := h.exists_lexeme
      have hnot := newline_not_mem_lexeme? hlex hs hn
      rw [List.take_left] at hnot
      exact absurd hmem hnot

theorem IsGapText.exists_backslash {gap front back : List Char} (h : IsGapText gap)
    (hgap : gap = front ++ '\n' :: back) : ∃ before, front = before ++ ['\\'] := by
  induction h generalizing front with
  | nil => simp at hgap
  | @blank c cs hc _ ih =>
    cases front with
    | nil =>
      obtain ⟨rfl, -⟩ := List.cons.inj hgap
      cases hc
    | cons d front =>
      obtain ⟨before, rfl⟩ := ih (List.cons.inj hgap).2
      exact ⟨d :: before, rfl⟩
  | @joined cs _ ih =>
    match front, hgap with
    | [], hgap => cases (List.cons.inj hgap).1
    | [d], hgap => exact ⟨[], by rw [(List.cons.inj hgap).1]; rfl⟩
    | d :: e :: front, hgap =>
      obtain ⟨before, rfl⟩ := ih (List.cons.inj (List.cons.inj hgap).2).2
      exact ⟨d :: e :: before, rfl⟩

theorem not_isCovered_of_lt {ts : List Token} {pos n : Nat} (h : ∀ t ∈ ts, pos ≤ t.start)
    (hn : n < pos) : ¬ IsCovered ts n := by
  rintro ⟨t, ht, hstart, -⟩
  have := h t ht
  omega

theorem not_isCovered_cons {t : Token} {ts : List Token} {n : Nat} (ht : t.stop ≤ n)
    (hts : ¬ IsCovered ts n) : ¬ IsCovered (t :: ts) n := by
  rintro ⟨u, hu, hstart, hstop⟩
  rcases List.mem_cons.1 hu with rfl | hu
  · omega
  · exact hts ⟨u, hu, hstart, hstop⟩

/-- A newline before the first token. -/
theorem hasNewline_of_gap {pos : Nat} {gap front back : List Char} {ts : List Token}
    (hgap : IsGapText gap) (hts : ∀ t ∈ ts, pos + width gap ≤ t.start)
    (h : gap = front ++ '\n' :: back) : HasNewline pos ts front := by
  obtain ⟨before, rfl⟩ := hgap.exists_backslash h
  have hnewline : ('\n' : Char).utf8Size = 1 := rfl
  have hbackslash : ('\\' : Char).utf8Size = 1 := rfl
  have hwidth : width gap = width before + 1 + (1 + width back) := by
    rw [h]
    simp only [width_append, width_cons, width_nil, hnewline, hbackslash]
  refine .joined rfl (not_isCovered_of_lt hts (by omega)) (not_isCovered_of_lt hts ?_)
  simp only [width_append, width_cons, width_nil, hbackslash]
  omega

/-- A newline in the first token. -/
theorem hasNewline_of_token {pos : Nat} {front middle back : List Char} {t : Token}
    {ts : List Token} {next : Option Char} (htoken : IsToken t.kind t.text next)
    (hstart : t.start = pos + width front) (h : t.text = middle ++ '\n' :: back) :
    HasNewline pos (t :: ts) (front ++ middle) := by
  have hwidth : pos + width (front ++ middle) = t.start + width middle := by
    rw [width_append, hstart, Nat.add_assoc]
  rcases htoken.newline_cases (by simp [h]) with hk | ⟨hk, hone⟩
  · have hpos : 0 < width ('\n' :: back) := width_pos (by simp)
    refine .inString List.mem_cons_self hk (by omega) ?_
    rw [hwidth, Token.stop, h, width_append]
    omega
  · obtain rfl : middle = [] := by
      rw [h] at hone
      cases middle with
      | nil => rfl
      | cons d ds => simp at hone
    have ht : t = ⟨.newline, pos + width front, ['\n']⟩ := by
      rw [← hstart, ← hk, ← hone]
    rw [List.append_nil]
    exact .token (ht ▸ List.mem_cons_self)

/-- A newline behind the first token. -/
theorem HasNewline.behind {pos : Nat} {front back : List Char} {t : Token} {ts : List Token}
    (h : HasNewline t.stop ts back) (hstop : t.stop = pos + width front) :
    HasNewline pos (t :: ts) (front ++ back) := by
  have hwidth : ∀ cs, pos + width (front ++ cs) = t.stop + width cs := fun cs => by
    rw [width_append, hstop, Nat.add_assoc]
  cases h with
  | token hmem =>
    rw [← hwidth] at hmem
    exact .token (List.mem_cons_of_mem t hmem)
  | inString hu hk hle hlt =>
    rw [← hwidth] at hle hlt
    exact .inString (List.mem_cons_of_mem t hu) hk hle hlt
  | @joined before hbefore hback hnewline =>
    have hshape : front ++ back = front ++ before ++ ['\\'] := by
      rw [hbefore, List.append_assoc]
    refine .joined hshape ?_ ?_
    · rw [hwidth]
      exact not_isCovered_cons (Nat.le_add_right _ _) hback
    · rw [hwidth]
      exact not_isCovered_cons (Nat.le_add_right _ _) hnewline

/-- A character of two texts is one of the first, or stands behind that. -/
theorem exists_of_append_eq {xs ys front back : List Char} {c : Char}
    (h : xs ++ ys = front ++ c :: back) : (∃ rest, xs = front ++ c :: rest) ∨
      ∃ middle, front = xs ++ middle ∧ ys = middle ++ c :: back := by
  rcases List.append_eq_append_iff.1 h with ⟨middle, hfront, hys⟩ | ⟨rest, hxs, hrest⟩
  · exact .inr ⟨middle, hfront, hys⟩
  · cases rest with
    | nil => exact .inr ⟨[], by simpa using hxs.symm, hrest.symm⟩
    | cons d rest =>
      obtain ⟨rfl, -⟩ := List.cons.inj hrest
      exact .inl ⟨rest, hxs⟩

/-- **Every newline of a text** is a token, is in a string or joins two lines. -/
theorem hasNewline_of_tokens {pos : Nat} {cs front back : List Char} {ts : List Token}
    (h : tokens pos cs = .ok ts) (hcs : cs = front ++ '\n' :: back) : HasNewline pos ts front := by
  induction ts generalizing pos cs front with
  | nil => exact hasNewline_of_gap (isGapText_of_tokens h) (by simp) hcs
  | cons t ts ih =>
    obtain ⟨gap, ys, rfl, hstart, hgap, htoken, hrest⟩ := tokens_cons h
    rcases exists_of_append_eq hcs with ⟨rest, hnewline⟩ | ⟨middle, rfl, hmiddle⟩
    · have hbehind : ∀ u ∈ t :: ts, pos + width gap ≤ u.start := by
        have hproper := htoken.isProper.start_lt_stop
        have hordered := List.pairwise_cons.1 (areTokens_of_tokens h).1.ordered
        rw [List.forall_mem_cons]
        refine ⟨by omega, fun u hu => ?_⟩
        have := hordered.1 u hu
        omega
      exact hasNewline_of_gap (isGapText_of_lexes (hgap none)) hbehind hnewline
    · rcases exists_of_append_eq hmiddle with ⟨rest, htext⟩ | ⟨last, rfl, hlast⟩
      · exact hasNewline_of_token htoken hstart htext
      · have hstop : t.stop = pos + width (gap ++ t.text) := by
          rw [Token.stop, hstart, width_append, Nat.add_assoc]
        rw [← List.append_assoc]
        exact (ih hrest hlast).behind hstop

/-! ## Tilings -/

/-- **Tokens that are the pieces of a text**, with what separates them. -/
structure IsTiling (text : List Char) (ts : List Token) : Prop where
  nonempty : ∀ t ∈ ts, t.start < t.stop
  ordered : ts.Pairwise fun t u => t.stop ≤ u.start
  boundaries : ∀ t ∈ ts, IsBoundary 0 text t.start ∧ IsBoundary 0 text t.stop
  slices : ∀ t ∈ ts, slice? text t.start t.stop = some t.text
  /-- Between two tokens, before the first one and behind the last one. -/
  gaps : ∀ front back, ts = front ++ back → ∃ gap, IsGapText gap ∧
    slice? text (front.getLast?.elim 0 Token.stop) (back.head?.elim (width text) Token.start) =
      some gap
  strings : ∀ t ∈ ts, t.kind = .string → ∃ mark delimiter body,
    IsLiteral t.text mark delimiter body ∧
      quoteLength (delimiter ++ (body ++ delimiter)) = delimiter.length ∧
      literalValue t.text = if 'r' ∈ mark ∨ 'R' ∈ mark then body else unescape body
  newlines : ∀ front back, text = front ++ '\n' :: back → HasNewline 0 ts front
  /-- They are what is found in the bytes of the text. -/
  found : places 0 (bytes text) = .ok (ts.map Token.place)

/-- **The tokens of every text** are its pieces. -/
theorem tokens_isTiling {text : List Char} {ts : List Token} (h : tokens 0 text = .ok ts) :
    IsTiling text ts := by
  have hcut : ∀ t ∈ ts, ∃ xs ys, text = xs ++ t.text ++ ys ∧ t.start = width xs ∧
      IsToken t.kind t.text ys.head? := by
    intro t ht
    obtain ⟨xs, ys, rfl, hstart, htoken⟩ := exists_append_of_mem_tokens h ht
    exact ⟨xs, ys, by simp, by omega, htoken⟩
  constructor
  case nonempty => exact fun t ht => ((areTokens_of_tokens h).1.proper t ht).start_lt_stop
  case ordered => exact (areTokens_of_tokens h).1.ordered
  case boundaries => exact fun t ht => ⟨isBoundary_start h ht, isBoundary_stop h ht⟩
  case slices =>
    intro t ht
    obtain ⟨xs, ys, rfl, hstart, -⟩ := hcut t ht
    rw [Token.stop, hstart]
    exact slice?_width xs t.text ys
  case gaps => exact fun front back hparts => exists_slice_gap (hparts ▸ h)
  case strings =>
    intro t ht hk
    obtain ⟨xs, ys, -, -, htoken⟩ := hcut t ht
    obtain ⟨c, cs, htext, hlex⟩ := htoken.exists_lexeme
    rw [hk] at hlex
    obtain ⟨mark, delimiter, body, hliteral⟩ := isLiteral_of_lexeme? hlex
    rw [List.take_left, ← htext] at hliteral
    exact ⟨mark, delimiter, body, hliteral, hliteral.quoteLength_eq, hliteral.literalValue_eq⟩
  case newlines => exact fun front back htext => hasNewline_of_tokens h htext
  case found =>
    rw [places_bytes, h]
    rfl

/-- A string over two lines with a quote behind a backslash, a continued line, a character of two
bytes behind a backslash, and a comment that ends in one. -/
def rawText : List Char :=
  "x = r\"\"\"\n\\\"é\"\"\" \\\n\x0c'\\é' # ü\\\n".toList

def rawTokens : List Token := [
  ⟨.word, 0, ['x']⟩, ⟨.equals, 2, ['=']⟩, ⟨.string, 4, "r\"\"\"\n\\\"é\"\"\"".toList⟩,
  ⟨.string, 20, "'\\é'".toList⟩, ⟨.comment, 26, "# ü\\".toList⟩, ⟨.newline, 31, ['\n']⟩]

theorem tokens_isTiling_raw : tokens 0 rawText = .ok rawTokens ∧ IsTiling rawText rawTokens := by
  have htokens : tokens 0 rawText = .ok rawTokens := toOption_eq_some.1 (by decide +kernel)
  exact ⟨htokens, tokens_isTiling htokens⟩

end BuildSync.Build
