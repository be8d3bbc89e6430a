import Mathlib.Data.List.TakeWhile
import BuildSync.Build.Call

/-!
# Lexing a text in parts

What a token is depends on what follows it only through the next character, so a text can be cut
between tokens and each part lexed on its own.

* `lexeme?_take`: a lexeme stays one when something else follows it, as far as `MayFollow` allows.
* `IsToken`: a text is one token before a character. `tokens_cut`: a lexed text, cut at a token.
  `tokens_behind`: it goes on otherwise behind one.
* `AreTokens`: what is known of the tokens of a text (`areTokens_of_tokens`).
* `lexemes`: the tokens of a text without their positions, which do not depend on where the text
  starts (`bare_tokens`).
* `Lexes`: a text is some tokens before a character; it adds up over `++` (`Lexes.append`).
  `IsWritten`: it is, before any character.
-/

namespace BuildSync.Build

open Text

/-! ## Strings -/

/-- A character that a match on a backslash has passed over. -/
theorem ne_backslash {c : Char} {cs : List Char} (h₁ : c = '\\' → cs = [] → False)
    (h₂ : ∀ d ds, c = '\\' → cs = d :: ds → False) : c ≠ '\\' := by
  rintro rfl
  cases cs with
  | nil => exact h₁ rfl rfl
  | cons d ds => exact h₂ d ds rfl rfl

theorem shortString?_cons {quote c : Char} (h : c ≠ '\\') (cs : List Char) :
    shortString? quote (c :: cs) =
      if c = quote then some 1 else if c = '\n' then none
      else (shortString? quote cs).map (· + 1) := by
  rw [shortString?] <;> simp_all

theorem longString?_cons {quote c : Char} (h : c ≠ '\\') (cs : List Char) :
    longString? quote (c :: cs) =
      if (c :: cs).take 3 = [quote, quote, quote] then some 3
      else (longString? quote cs).map (· + 1) := by
  rw [longString?] <;> simp_all

/-- The end of a string does not depend on what follows it. -/
theorem shortString?_take {quote : Char} {cs : List Char} {n : Nat}
    (h : shortString? quote cs = some n) :
    1 ≤ n ∧ n ≤ cs.length ∧ ∀ ys, shortString? quote (cs.take n ++ ys) = some n := by
  fun_induction shortString? quote cs generalizing n with
  | case1 => cases h
  | case2 => cases h
  | case3 c cs ih =>
    obtain ⟨m, hm, rfl⟩ := Option.map_eq_some_iff.1 h
    obtain ⟨-, hle, hstable⟩ := ih hm
    refine ⟨by omega, by simp; omega, fun ys => ?_⟩
    simp [shortString?, hstable]
  | case4 cs h₁ h₂ =>
    cases h
    have hne : quote ≠ '\\' := ne_backslash h₁ h₂
    exact ⟨Nat.le_refl 1, by simp, fun ys => by simp [shortString?_cons hne]⟩
  | case5 => cases h
  | case6 c cs h₁ h₂ hq hn ih =>
    obtain ⟨m, hm, rfl⟩ := Option.map_eq_some_iff.1 h
    obtain ⟨-, hle, hstable⟩ := ih hm
    have hne : c ≠ '\\' := ne_backslash h₁ h₂
    refine ⟨by omega, by simp; omega, fun ys => ?_⟩
    simp [shortString?_cons hne, hq, hn, hstable]

theorem longString?_take {quote : Char} {cs : List Char} {n : Nat}
    (h : longString? quote cs = some n) :
    3 ≤ n ∧ n ≤ cs.length ∧ ∀ ys, longString? quote (cs.take n ++ ys) = some n := by
  fun_induction longString? quote cs generalizing n with
  | case1 => cases h
  | case2 => cases h
  | case3 c cs ih =>
    obtain ⟨m, hm, rfl⟩ := Option.map_eq_some_iff.1 h
    obtain ⟨hge, hle, hstable⟩ := ih hm
    refine ⟨by omega, by simp; omega, fun ys => ?_⟩
    simp [longString?, hstable]
  | case4 c cs h₁ h₂ hq =>
    cases h
    have hne : c ≠ '\\' := ne_backslash h₁ h₂
    have hlen : 3 ≤ (c :: cs).length := by
      have := congrArg List.length hq
      simp only [List.length_take, List.length_cons, List.length_nil] at this ⊢
      omega
    refine ⟨Nat.le_refl 3, hlen, fun ys => ?_⟩
    rw [hq]
    have hquote : quote = c := by
      have := congrArg List.head? hq
      simpa using this.symm
    rw [List.cons_append, longString?_cons (hquote ▸ hne)]
    simp
  | case5 c cs h₁ h₂ hq ih =>
    obtain ⟨m, hm, rfl⟩ := Option.map_eq_some_iff.1 h
    obtain ⟨hge, hle, hstable⟩ := ih hm
    have hne : c ≠ '\\' := ne_backslash h₁ h₂
    refine ⟨by omega, by simp; omega, fun ys => ?_⟩
    -- The recursion found at least three characters, so the test here sees the same three.
    have htake : (c :: (cs.take m ++ ys)).take 3 = (c :: cs).take 3 := by
      simp only [List.take_succ_cons, List.cons.injEq, true_and]
      rw [List.take_append_of_le_length (by simp; omega), List.take_take]
      congr 1
      omega
    rw [List.take_succ_cons, List.cons_append, longString?_cons hne, htake, if_neg hq, hstable]
    rfl

/-- The end of a string does not depend on what follows it, unless that turns two quotes into
three. -/
theorem stringLength?_take {quote : Char} {cs : List Char} {n : Nat}
    (h : stringLength? quote cs = some n) :
    1 ≤ n ∧ n ≤ cs.length ∧ ∀ ys, (n = 1 → ys.head? ≠ some quote) →
      stringLength? quote (cs.take n ++ ys) = some n := by
  have hshort : shortString? quote cs = some n →
      (∀ q₁ q₂ rest, cs = q₁ :: q₂ :: rest → ¬ (q₁ = quote ∧ q₂ = quote)) →
      1 ≤ n ∧ n ≤ cs.length ∧ ∀ ys, (n = 1 → ys.head? ≠ some quote) →
        stringLength? quote (cs.take n ++ ys) = some n := by
    intro hs hq
    obtain ⟨hge, hle, hstable⟩ := shortString?_take hs
    refine ⟨hge, hle, fun ys hys => ?_⟩
    rw [← hstable ys]
    unfold stringLength?
    split
    · rename_i q₁ q₂ rest heq
      refine if_neg fun ⟨h₁, h₂⟩ => ?_
      match n, cs, hge, hle with
      | 1, c :: cs, _, _ =>
        simp only [List.take_succ_cons, List.take_zero, List.cons_append, List.nil_append,
          List.cons.injEq] at heq
        exact hys rfl (by rw [heq.2, h₂]; rfl)
      | n + 2, c :: d :: cs, _, _ =>
        simp only [List.take_succ_cons, List.cons_append, List.cons.injEq] at heq
        exact hq c d cs rfl ⟨heq.1.trans h₁, heq.2.1.trans h₂⟩
    · rfl
  unfold stringLength? at h
  split at h
  · rename_i q₁ q₂ rest
    split at h
    · rename_i hq
      obtain ⟨m, hm, rfl⟩ := Option.map_eq_some_iff.1 h
      obtain ⟨hge, hle, hstable⟩ := longString?_take hm
      refine ⟨by omega, by simp; omega, fun ys _ => ?_⟩
      simp [stringLength?, hq, hstable]
    · rename_i hq
      refine hshort h fun p₁ p₂ rest' heq => ?_
      simp only [List.cons.injEq] at heq
      rw [← heq.1, ← heq.2.1]
      exact hq
  · rename_i hne
    exact hshort h fun p₁ p₂ rest' heq => absurd heq (hne p₁ p₂ rest')

/-! ## Lexemes -/

/-- The characters that end every lexeme but a comment. -/
def breaks : List Char :=
  [',', ')', ' ']

/-- What may follow a lexeme of a kind in place of `old`: the same character, a newline or, but
for a comment, a comma, a closing parenthesis or a blank. -/
def MayFollow (kind : TokenKind) (old new : Option Char) : Prop :=
  new = old ∨ new = some '\n' ∨ ((∃ c ∈ breaks, new = some c) ∧ kind ≠ .comment)

theorem eq_false_of_mem_breaks {p : Char → Bool} (h : breaks.any p = false) :
    ∀ c ∈ breaks, p c = false := fun _ hc => eq_false_of_ne_true (List.any_eq_false.1 h _ hc)

theorem isQuote_of_mem_breaks {c : Char} (h : c ∈ breaks) : isQuote c = false :=
  eq_false_of_mem_breaks rfl c h

theorem takeWhile_take {p : Char → Bool} {cs ys : List Char}
    (h : ∀ c, ys.head? = some c → p c = false) :
    (cs.take (cs.takeWhile p).length ++ ys).takeWhile p = cs.takeWhile p := by
  have hfront : cs.take (cs.takeWhile p).length = cs.takeWhile p :=
    (List.prefix_iff_eq_take.1 (List.takeWhile_prefix p)).symm
  rw [hfront, List.takeWhile_append_of_pos fun c hc => List.mem_takeWhile_imp hc]
  cases ys with
  | nil => simp
  | cons y ys => simp [h y rfl]

theorem drop_takeWhile (p : Char → Bool) (cs : List Char) :
    cs.drop (cs.takeWhile p).length = cs.dropWhile p := by
  have h := @List.drop_left _ (cs.takeWhile p) (cs.dropWhile p)
  rwa [List.takeWhile_append_dropWhile] at h

/-- What may follow a run of characters does not belong to it. -/
theorem MayFollow.eq_false {kind : TokenKind} {p : Char → Bool} {cs ys : List Char}
    (h : MayFollow kind (cs.drop (cs.takeWhile p).length).head? ys.head?)
    (hn : p '\n' = false) (hc : kind ≠ .comment → ∀ c ∈ breaks, p c = false) :
    ∀ c, ys.head? = some c → p c = false := by
  intro c hy
  rcases h with h | h | ⟨⟨d, hd, h⟩, hk⟩
  · rw [drop_takeWhile] at h
    have := List.head?_dropWhile_not p cs
    rw [← h, hy] at this
    simpa using this
  · cases hy.symm.trans h
    exact hn
  · cases hy.symm.trans h
    exact hc hk c hd

/-- A character that is a lexeme, or starts a comment. -/
def isMark (c : Char) : Bool :=
  c ∈ ['\n', '#', '(', ')', '[', ']', '{', '}', ',']

/-- A word, or the string that its marks belong to. -/
def wordLexeme? (c : Char) (cs : List Char) : Option (TokenKind × Nat) :=
  match cs.drop (cs.takeWhile isWordChar).length with
  | quote :: rest =>
    if isQuote quote && stringMarks.contains (c :: cs.takeWhile isWordChar) then
      (stringLength? quote rest).map (.string, (cs.takeWhile isWordChar).length + 1 + ·)
    else some (.word, (cs.takeWhile isWordChar).length)
  | [] => some (.word, (cs.takeWhile isWordChar).length)

/-- A lexeme that is none of the marks, no string and no operator with an equals sign. -/
def plainLexeme? (c : Char) (cs : List Char) : Option (TokenKind × Nat) :=
  if c = '=' then some (.equals, 0)
  else if c.isDigit then
    some (.number, (cs.takeWhile fun c => c.isAlphanum || c = '.').length)
  else if isWordChar c then wordLexeme? c cs
  else some (.operator, 0)

theorem lexeme?_of_not_mark {c : Char} (h : isMark c = false) (cs : List Char) :
    lexeme? c cs =
      if isQuote c then (stringLength? c cs).map (.string, ·)
      else if takesEquals c && cs.head? = some '=' then some (.operator, 1)
      else plainLexeme? c cs := by
  unfold lexeme? plainLexeme? wordLexeme?
  simp only [List.contains_eq_mem]
  split
  all_goals first | rfl | (exact absurd h (by decide))

/-- A string that is just its quotes is not followed by a third one. -/
theorem stringLength?_one {quote : Char} {cs : List Char} (h : stringLength? quote cs = some 1) :
    (cs.drop 1).head? ≠ some quote := by
  unfold stringLength? at h
  split at h
  · rename_i q₁ q₂ rest
    split at h
    · obtain ⟨m, -, hm⟩ := Option.map_eq_some_iff.1 h
      omega
    · rename_i hq
      rintro heq
      have h₂ : q₂ = quote := by simpa using heq
      by_cases hb : q₁ = '\\'
      · subst hb
        simp only [shortString?, Option.map_eq_some_iff] at h
        obtain ⟨m, -, hm⟩ := h
        omega
      · rw [shortString?_cons hb] at h
        split at h
        · rename_i h₁
          exact hq ⟨h₁, h₂⟩
        · split at h
          · cases h
          · obtain ⟨m, hm, he⟩ := Option.map_eq_some_iff.1 h
            have := (shortString?_take hm).1
            omega
  · rename_i hne
    match cs, hne with
    | [], _ => simp
    | [c], _ => simp
    | c :: d :: cs, hne => exact absurd rfl (hne c d cs)

/-- A string stays one when something else follows it that may. -/
theorem MayFollow.stringLength? {quote : Char} (hq : isQuote quote = true) {kind : TokenKind}
    {cs ys : List Char} {n : Nat} (h : Build.stringLength? quote cs = some n)
    (hys : MayFollow kind (cs.drop n).head? ys.head?) :
    Build.stringLength? quote (cs.take n ++ ys) = some n := by
  refine (stringLength?_take h).2.2 ys fun hn => ?_
  subst hn
  rcases hys with hys | hys | ⟨⟨c, hc, hys⟩, -⟩
  · rw [hys]
    exact stringLength?_one h
  · rw [hys]
    rintro ⟨⟩
    exact absurd hq (by decide)
  · rw [hys]
    rintro ⟨⟩
    rw [isQuote_of_mem_breaks hc] at hq
    cases hq

/-- What may follow does not make an operator of a character that was none. -/
theorem MayFollow.takesEquals {c : Char} {kind : TokenKind} {cs ys : List Char} {n : Nat}
    (hn : n ≤ cs.length) (hys : MayFollow kind (cs.drop n).head? ys.head?)
    (h : ¬ (Build.takesEquals c && cs.head? = some '=') = true) :
    ¬ (Build.takesEquals c && (cs.take n ++ ys).head? = some '=') = true := by
  simp only [Bool.and_eq_true, decide_eq_true_eq, not_and] at h ⊢
  intro hc heq
  match n, cs, hn with
  | 0, cs, _ =>
    simp only [List.take_zero, List.nil_append, List.drop_zero] at heq hys
    rcases hys with hys | hys | ⟨⟨d, hd, hys⟩, -⟩
    · exact h hc (hys ▸ heq)
    · cases heq.symm.trans hys
    · cases heq.symm.trans hys
      exact absurd hd (by decide)
  | n + 1, d :: cs, _ => exact h hc (by simpa using heq)

/-- A word with a character after it that belongs to no word. -/
theorem wordLexeme?_append {word : List Char} (hw : ∀ d ∈ word, isWordChar d = true)
    {quote : Char} (hq : isWordChar quote = false) (c : Char) (rest : List Char) :
    wordLexeme? c (word ++ quote :: rest) =
      if isQuote quote && stringMarks.contains (c :: word) then
        (stringLength? quote rest).map (.string, word.length + 1 + ·)
      else some (.word, word.length) := by
  have hrun : (word ++ quote :: rest).takeWhile isWordChar = word := by
    rw [List.takeWhile_append_of_pos hw]
    simp [hq]
  unfold wordLexeme?
  rw [hrun, List.drop_left]

theorem take_behind (xs : List Char) (c : Char) (ys : List Char) (n : Nat) :
    (xs ++ c :: ys).take (xs.length + 1 + n) = xs ++ c :: ys.take n := by
  rw [List.take_append, List.take_of_length_le (by omega)]
  simp [show xs.length + 1 + n - xs.length = n + 1 by omega]

theorem wordLexeme?_take {c : Char} {cs ys : List Char} {kind : TokenKind} {n : Nat}
    (h : wordLexeme? c cs = some (kind, n)) (hys : MayFollow kind (cs.drop n).head? ys.head?) :
    n ≤ cs.length ∧ wordLexeme? c (cs.take n ++ ys) = some (kind, n) := by
  have hlen := (List.takeWhile_prefix (p := isWordChar) (l := cs)).length_le
  have hword : kind = .word ∧ n = (cs.takeWhile isWordChar).length →
      (∀ quote, ys.head? = some quote →
        ¬ (isQuote quote && stringMarks.contains (c :: cs.takeWhile isWordChar)) = true) →
        wordLexeme? c (cs.take n ++ ys) = some (kind, n) := by
    rintro ⟨rfl, rfl⟩ hno
    have hrun := @takeWhile_take isWordChar cs ys
      (hys.eq_false rfl fun _ => eq_false_of_mem_breaks rfl)
    have hdrop : (cs.take (cs.takeWhile isWordChar).length ++ ys).drop
        (cs.takeWhile isWordChar).length = ys := by
      rw [List.drop_append_of_le_length (by simp [hlen])]
      simp
    unfold wordLexeme?
    rw [hrun, hdrop]
    cases ys with
    | nil => rfl
    | cons y ys => exact if_neg (hno y rfl)
  unfold wordLexeme? at h
  split at h
  · rename_i quote rest hdrop
    split at h
    · rename_i hq
      obtain ⟨m, hs, he⟩ := Option.map_eq_some_iff.1 h
      obtain ⟨rfl, rfl⟩ := Prod.mk.inj he
      have hcs : cs = cs.takeWhile isWordChar ++ quote :: rest := by
        rw [← hdrop, drop_takeWhile, List.takeWhile_append_dropWhile]
      have hquote := (Bool.and_eq_true_iff.1 hq).1
      have hnot : isWordChar quote = false := by
        have := List.head?_dropWhile_not isWordChar cs
        rw [← drop_takeWhile, hdrop] at this
        simpa using this
      have hchars : ∀ d ∈ cs.takeWhile isWordChar, isWordChar d = true :=
        fun d hd => List.mem_takeWhile_imp hd
      have hm := (stringLength?_take hs).2.1
      generalize cs.takeWhile isWordChar = word at *
      subst hcs
      have hold : (word ++ quote :: rest).drop (word.length + 1 + m) = rest.drop m := by
        rw [List.drop_append, List.drop_of_length_le (by omega)]
        simp [show word.length + 1 + m - word.length = m + 1 by omega]
      rw [hold] at hys
      refine ⟨by simp; omega, ?_⟩
      rw [take_behind, List.append_assoc, List.cons_append, wordLexeme?_append hchars hnot,
        if_pos hq, hys.stringLength? hquote hs]
      rfl
    · rename_i hq
      cases h
      refine ⟨hlen, hword ⟨rfl, rfl⟩ fun y hy => ?_⟩
      rw [hdrop] at hys
      rcases hys with hys | hys | ⟨⟨d, hd, hys⟩, -⟩
      · cases hy.symm.trans hys
        exact hq
      · cases hy.symm.trans hys
        simp [isQuote]
      · cases hy.symm.trans hys
        simp [isQuote_of_mem_breaks hd]
  · rename_i hdrop
    cases h
    refine ⟨hlen, hword ⟨rfl, rfl⟩ fun y hy => ?_⟩
    rw [hdrop] at hys
    rcases hys with hys | hys | ⟨⟨d, hd, hys⟩, -⟩
    · cases hy.symm.trans hys
    · cases hy.symm.trans hys
      simp [isQuote]
    · cases hy.symm.trans hys
      simp [isQuote_of_mem_breaks hd]

theorem plainLexeme?_take {c : Char} {cs ys : List Char} {kind : TokenKind} {n : Nat}
    (h : plainLexeme? c cs = some (kind, n)) (hys : MayFollow kind (cs.drop n).head? ys.head?) :
    n ≤ cs.length ∧ plainLexeme? c (cs.take n ++ ys) = some (kind, n) := by
  unfold plainLexeme? at h ⊢
  by_cases he : c = '='
  · rw [if_pos he] at h ⊢
    cases h
    exact ⟨Nat.zero_le _, rfl⟩
  · rw [if_neg he] at h ⊢
    by_cases hd : c.isDigit = true
    · rw [if_pos hd] at h ⊢
      cases h
      refine ⟨(List.takeWhile_prefix _).length_le, ?_⟩
      rw [takeWhile_take (hys.eq_false rfl fun _ => eq_false_of_mem_breaks rfl)]
    · rw [if_neg hd] at h ⊢
      by_cases hw : isWordChar c = true
      · rw [if_pos hw] at h ⊢
        exact wordLexeme?_take h hys
      · rw [if_neg hw] at h ⊢
        cases h
        exact ⟨Nat.zero_le _, rfl⟩

/-- **A lexeme stays one** when something else follows it that may. -/
theorem lexeme?_take {c : Char} {cs ys : List Char} {kind : TokenKind} {n : Nat}
    (h : lexeme? c cs = some (kind, n)) (hys : MayFollow kind (cs.drop n).head? ys.head?) :
    n ≤ cs.length ∧ lexeme? c (cs.take n ++ ys) = some (kind, n) := by
  by_cases hm : isMark c = true
  · by_cases hc : c = '#'
    · subst hc
      simp only [lexeme?, Option.some.injEq, Prod.mk.injEq] at h
      obtain ⟨rfl, rfl⟩ := h
      refine ⟨(List.takeWhile_prefix _).length_le, ?_⟩
      have hrun := @takeWhile_take (· ≠ '\n') cs ys (hys.eq_false (by decide) (by simp))
      simp only [lexeme?, hrun]
    · have hn : n = 0 ∧ ∀ zs, lexeme? c zs = lexeme? c cs := by
        simp only [isMark, List.mem_cons, List.not_mem_nil, or_false, decide_eq_true_eq] at hm
        rcases hm with rfl | rfl | rfl | rfl | rfl | rfl | rfl | rfl | rfl <;>
          simp_all [lexeme?]
      obtain ⟨rfl, hzs⟩ := hn
      exact ⟨Nat.zero_le _, (hzs _).trans h⟩
  · rw [Bool.not_eq_true] at hm
    rw [lexeme?_of_not_mark hm] at h ⊢
    by_cases hq : isQuote c = true
    · rw [if_pos hq] at h ⊢
      obtain ⟨m, hs, he⟩ := Option.map_eq_some_iff.1 h
      obtain ⟨rfl, rfl⟩ := Prod.mk.inj he
      exact ⟨(stringLength?_take hs).2.1, by rw [hys.stringLength? hq hs]; rfl⟩
    · rw [if_neg hq] at h ⊢
      by_cases he : (takesEquals c && cs.head? = some '=') = true
      · rw [if_pos he] at h
        cases h
        obtain ⟨hc, hhead⟩ := Bool.and_eq_true_iff.1 he
        obtain ⟨cs, rfl⟩ := List.head?_eq_some_iff.1 (of_decide_eq_true hhead)
        exact ⟨by simp, by simp [hc]⟩
      · rw [if_neg he] at h
        obtain ⟨hle, hplain⟩ := plainLexeme?_take h hys
        rw [if_neg (hys.takesEquals hle he)]
        exact ⟨hle, hplain⟩

/-! ## Tokens -/

/-- A text is one token of a kind, before the character `next` or at the end. -/
structure IsToken (kind : TokenKind) (text : List Char) (next : Option Char) : Prop where
  not_gap : text.head?.any isGap = false
  /-- A backslash before a newline is no token but a continuation of the line. -/
  not_joined : text.head? = some '\\' → (text.tail.head?.or next) ≠ some '\n'
  lexeme : ∃ c cs, text = c :: cs ∧
    ∀ ys, ys.head? = next → lexeme? c (cs ++ ys) = some (kind, cs.length)

/-- The lexeme that a token is. -/
theorem IsToken.exists_lexeme {kind : TokenKind} {text : List Char} {next : Option Char}
    (h : IsToken kind text next) :
    ∃ c cs, text = c :: cs ∧ lexeme? c (cs ++ next.toList) = some (kind, cs.length) := by
  obtain ⟨c, cs, htext, hlex⟩ := h.lexeme
  exact ⟨c, cs, htext, hlex next.toList (by cases next <;> rfl)⟩

/-- **A token stays one** before another character that may follow it. -/
theorem IsToken.before {kind : TokenKind} {text : List Char} {old new : Option Char}
    (h : IsToken kind text old) (hn : MayFollow kind old new)
    (hb : text = ['\\'] → new ≠ some '\n') : IsToken kind text new := by
  obtain ⟨c, cs, rfl, hlex⟩ := h.lexeme
  refine ⟨h.not_gap, fun hc => ?_, c, cs, rfl, fun ys hys => ?_⟩
  · cases hc
    cases cs with
    | nil => exact hb rfl
    | cons d ds => exact h.not_joined rfl
  · have hold := hlex old.toList (by cases old <;> rfl)
    have hdrop : ((cs ++ old.toList).drop cs.length).head? = old := by
      rw [List.drop_left]
      cases old <;> rfl
    have hfollow : MayFollow kind ((cs ++ old.toList).drop cs.length).head? ys.head? := by
      rw [hdrop, hys]
      exact hn
    have hnew := (lexeme?_take hold hfollow).2
    rwa [List.take_left] at hnew

/-- The kinds of tokens that one character makes, and comments. -/
theorem lexeme?_kind {c : Char} {cs : List Char} {kind : TokenKind} {n : Nat}
    (h : lexeme? c cs = some (kind, n)) :
    match kind with
    | .newline => c = '\n' ∧ n = 0
    | .comment => c = '#' ∧ n = (cs.takeWhile (· ≠ '\n')).length
    | .opening .square => c = '[' ∧ n = 0
    | .closing .square => c = ']' ∧ n = 0
    | .closing .round => c = ')' ∧ n = 0
    | .comma => c = ',' ∧ n = 0
    | _ => True := by
  by_cases hm : isMark c = true
  · simp only [isMark, List.mem_cons, List.not_mem_nil, or_false, decide_eq_true_eq] at hm
    rcases hm with rfl | rfl | rfl | rfl | rfl | rfl | rfl | rfl | rfl <;>
      simp only [lexeme?, Option.some.injEq, Prod.mk.injEq] at h <;> obtain ⟨rfl, rfl⟩ := h <;>
      simp
  · rw [Bool.not_eq_true] at hm
    rw [lexeme?_of_not_mark hm] at h
    unfold plainLexeme? wordLexeme? at h
    repeat' split at h
    all_goals simp only [Option.map_eq_some_iff, Option.some.injEq, Prod.mk.injEq] at h
    all_goals grind

theorem IsToken.eq_comma {text : List Char} {next : Option Char} (h : IsToken .comma text next) :
    text = [','] := by
  obtain ⟨c, cs, rfl, hlex⟩ := h.exists_lexeme
  obtain ⟨rfl, hn⟩ := lexeme?_kind hlex
  rw [List.length_eq_zero_iff.1 hn]

theorem IsToken.eq_closing {text : List Char} {next : Option Char}
    (h : IsToken (.closing .round) text next) : text = [')'] := by
  obtain ⟨c, cs, rfl, hlex⟩ := h.exists_lexeme
  obtain ⟨rfl, hn⟩ := lexeme?_kind hlex
  rw [List.length_eq_zero_iff.1 hn]

theorem IsToken.comma (next : Option Char) : IsToken .comma [','] next :=
  ⟨by decide, by simp, ',', [], rfl, fun ys _ => by simp [lexeme?]⟩

theorem IsToken.tokens_append {kind : TokenKind} {text : List Char} {next : Option Char}
    (h : IsToken kind text next) (pos : Nat) {ys : List Char} (hys : ys.head? = next) :
    tokens pos (text ++ ys) =
      (tokens (pos + width text) ys).map (⟨kind, pos, text⟩ :: ·) := by
  obtain ⟨c, cs, rfl, hlex⟩ := h.lexeme
  have hg : isGap c = false := by simpa using h.not_gap
  have hj : ¬ (c = '\\' ∧ (cs ++ ys).head? = some '\n') := by
    rintro ⟨rfl, hn⟩
    rw [List.head?_append, hys] at hn
    exact h.not_joined rfl hn
  rw [List.cons_append, tokens, if_neg (by simp [hg]), if_neg hj, hlex ys hys]
  simp [Token.stop]

/-! ## Tokens without positions -/

/-- The token without its position. -/
def Token.bare (t : Token) : Token :=
  { t with start := 0 }

/-- The tokens of a text without their positions. -/
def lexemes (cs : List Char) : Option (List Token) :=
  (tokens 0 cs).toOption.map (List.map Token.bare)

/-- The tokens are the same wherever the text starts. -/
theorem bare_tokens (pos : Nat) (cs : List Char) :
    (tokens pos cs).toOption.map (List.map Token.bare) = lexemes cs := by
  suffices h : ∀ pos', (tokens pos cs).toOption.map (List.map Token.bare) =
      (tokens pos' cs).toOption.map (List.map Token.bare) from h 0
  fun_induction tokens pos cs with
  | case1 => intro pos'; rw [tokens]
  | case2 pos c cs hg ih =>
    intro pos'
    rw [tokens, if_pos hg]
    exact ih (pos' + 1)
  | case3 pos c cs hg hj ih =>
    intro pos'
    rw [tokens, if_neg hg, if_pos hj]
    exact ih (pos' + 2)
  | case4 pos c cs hg hj hl =>
    intro pos'
    rw [tokens, if_neg hg, if_neg hj, hl]
    rfl
  | case5 pos c cs hg hj kind n hl token ih =>
    intro pos'
    rw [tokens, if_neg hg, if_neg hj, hl]
    have ih := ih (Token.stop ⟨kind, pos', c :: cs.take n⟩)
    revert ih
    dsimp only
    cases tokens token.stop (cs.drop n) <;>
      cases tokens (Token.stop ⟨kind, pos', c :: cs.take n⟩) (cs.drop n) <;>
      simp [Except.toOption, Except.map, Token.bare, token]

theorem lexemes_of_tokens {pos : Nat} {cs : List Char} {ts : List Token}
    (h : tokens pos cs = .ok ts) : lexemes cs = some (ts.map Token.bare) := by
  rw [← bare_tokens pos, h]
  rfl

theorem exists_tokens {cs : List Char} {ls : List Token} (h : lexemes cs = some ls) (pos : Nat) :
    ∃ ts, tokens pos cs = .ok ts ∧ ts.map Token.bare = ls := by
  rw [← bare_tokens pos] at h
  obtain ⟨ts, hts, hls⟩ := Option.map_eq_some_iff.1 h
  refine ⟨ts, ?_, hls⟩
  cases ht : tokens pos cs with
  | error e =>
    rw [ht] at hts
    cases hts
  | ok us =>
    rw [ht] at hts
    cases hts
    rfl

theorem lexemes_bare {cs : List Char} {ls : List Token} (h : lexemes cs = some ls) :
    ls.map Token.bare = ls := by
  obtain ⟨ts, -, rfl⟩ := exists_tokens h 0
  rw [List.map_map]
  rfl

@[simp] theorem lexemes_nil : lexemes [] = some [] := by
  simp [lexemes, tokens, Except.toOption]

theorem lexemes_gap {c : Char} (h : isGap c = true) (cs : List Char) :
    lexemes (c :: cs) = lexemes cs := by
  rw [← bare_tokens 0 (c :: cs), tokens, if_pos h]
  exact bare_tokens _ cs

/-- A continued line is no token. -/
theorem lexemes_joined (cs : List Char) : lexemes ('\\' :: '\n' :: cs) = lexemes cs := by
  rw [← bare_tokens 0 ('\\' :: '\n' :: cs), tokens, if_neg (by decide), if_pos (by simp)]
  exact bare_tokens _ cs

theorem IsToken.lexemes_append {kind : TokenKind} {text : List Char} {next : Option Char}
    (h : IsToken kind text next) {ys : List Char} (hys : ys.head? = next) :
    lexemes (text ++ ys) = (lexemes ys).map (⟨kind, 0, text⟩ :: ·) := by
  rw [← bare_tokens 0 (text ++ ys), h.tokens_append 0 hys, ← bare_tokens (0 + width text) ys]
  cases tokens (0 + width text) ys <;> rfl

/-! ## Parts of a text -/

/-- A text is some tokens, given without positions, before the character `next`. -/
def Lexes (xs : List Char) (ts : List Token) (next : Option Char) : Prop :=
  ∀ ys, ys.head? = next → lexemes (xs ++ ys) = (lexemes ys).map (ts ++ ·)

/-- A text that lexes to some tokens, whatever follows it. -/
def IsWritten (text : List Char) (written : List Token) : Prop :=
  ∀ next, Lexes text written next

theorem Lexes.nil (next : Option Char) : Lexes [] [] next := by
  intro ys _
  simp

theorem Lexes.gap {c : Char} (h : isGap c = true) (next : Option Char) : Lexes [c] [] next := by
  intro ys _
  simp [lexemes_gap h]

theorem Lexes.joined (next : Option Char) : Lexes ['\\', '\n'] [] next := by
  intro ys _
  simp [lexemes_joined]

theorem IsToken.lexes {kind : TokenKind} {text : List Char} {next : Option Char}
    (h : IsToken kind text next) : Lexes text [⟨kind, 0, text⟩] next := by
  intro ys hys
  rw [h.lexemes_append hys]
  simp

/-- **Parts add up.** -/
theorem Lexes.append {xs ys : List Char} {ts us : List Token} {next : Option Char}
    (hx : Lexes xs ts (ys.head?.or next)) (hy : Lexes ys us next) :
    Lexes (xs ++ ys) (ts ++ us) next := by
  intro zs hzs
  rw [List.append_assoc, hx (ys ++ zs) (by rw [List.head?_append, hzs]), hy zs hzs,
    Option.map_map]
  congr 1
  funext vs
  simp

theorem Lexes.gaps {xs : List Char} (h : ∀ c ∈ xs, isGap c = true) (next : Option Char) :
    Lexes xs [] next := by
  induction xs with
  | nil => exact .nil next
  | cons c xs ih =>
    have hxs := ih fun d hd => h d (List.mem_cons_of_mem c hd)
    exact (Lexes.gap (h c List.mem_cons_self) _).append hxs

theorem Lexes.lexemes {xs : List Char} {ts : List Token} (h : Lexes xs ts none) :
    lexemes xs = some ts := by
  simpa using h [] rfl

/-! ## Cutting a lexed text -/

theorem utf8Size_of_isGap {c : Char} (h : isGap c = true) : c.utf8Size = 1 := by
  simp only [isGap, Bool.or_eq_true, decide_eq_true_eq] at h
  rcases h with ((rfl | rfl) | rfl) | rfl <;> rfl

/-- What is left after the last token is no token wherever it stands. -/
theorem lexes_of_tokens_nil {pos : Nat} {cs : List Char} (h : tokens pos cs = .ok [])
    (next : Option Char) : Lexes cs [] next := by
  fun_induction tokens pos cs with
  | case1 => exact .nil next
  | case2 pos c cs hg ih => exact (Lexes.gap hg _).append (ih h)
  | case3 pos c cs hg hj ih =>
    obtain ⟨rfl, hn⟩ := hj
    obtain ⟨cs, rfl⟩ := List.head?_eq_some_iff.1 hn
    exact (Lexes.joined _).append (ih h)
  | case4 => cases h
  | case5 pos c cs hg hj kind n hl token ih =>
    obtain ⟨ts, -, hts⟩ := map_eq_ok h
    cases hts

theorem isToken_of_lexeme? {c : Char} {cs : List Char} {kind : TokenKind} {n : Nat}
    (hg : ¬ isGap c = true) (hj : ¬ (c = '\\' ∧ cs.head? = some '\n'))
    (h : lexeme? c cs = some (kind, n)) : IsToken kind (c :: cs.take n) (cs.drop n).head? := by
  have hle : n ≤ cs.length := (lexeme?_take h (.inl rfl)).1
  refine ⟨by simpa using hg, fun hc hn => ?_, c, cs.take n, rfl, fun ys hys => ?_⟩
  · refine hj ⟨by simpa using hc, ?_⟩
    rw [← hn, ← List.head?_append]
    simp
  · rw [List.length_take_of_le hle]
    exact (lexeme?_take h (.inl hys)).2

/-- The first token of a text, with what stands before and after it. -/
theorem tokens_cons {pos : Nat} {cs : List Char} {t : Token} {ts : List Token}
    (h : tokens pos cs = .ok (t :: ts)) :
    ∃ gap ys, cs = gap ++ (t.text ++ ys) ∧ t.start = pos + width gap ∧
      (∀ next, Lexes gap [] next) ∧ IsToken t.kind t.text ys.head? ∧ tokens t.stop ys = .ok ts := by
  fun_induction tokens pos cs with
  | case1 => cases h
  | case2 pos c cs hg ih =>
    obtain ⟨gap, ys, rfl, hstart, hgap, htoken, hrest⟩ := ih h
    refine ⟨c :: gap, ys, rfl, ?_, fun next => (Lexes.gap hg _).append (hgap next), htoken, hrest⟩
    rw [hstart, width_cons, utf8Size_of_isGap hg, Nat.add_assoc]
  | case3 pos c cs hg hj ih =>
    obtain ⟨rfl, hn⟩ := hj
    obtain ⟨cs, rfl⟩ := List.head?_eq_some_iff.1 hn
    obtain ⟨gap, ys, hcs, hstart, hgap, htoken, hrest⟩ := ih h
    refine ⟨'\\' :: '\n' :: gap, ys, by rw [List.tail_cons] at hcs; rw [hcs]; rfl, ?_,
      fun next => (Lexes.joined _).append (hgap next), htoken, hrest⟩
    have hb : ('\\' : Char).utf8Size = 1 := rfl
    have hl : ('\n' : Char).utf8Size = 1 := rfl
    rw [hstart, width_cons, width_cons, hb, hl]
    omega
  | case4 => cases h
  | case5 pos c cs hg hj kind n hl token ih =>
    obtain ⟨us, hus, hts⟩ := map_eq_ok h
    obtain ⟨rfl, rfl⟩ := List.cons.inj hts
    exact ⟨[], cs.drop n, by simp [token], rfl, .nil, isToken_of_lexeme? hg hj hl, hus⟩

/-- **A lexed text, cut at a token.** -/
theorem tokens_cut {pos : Nat} {cs : List Char} {ts us : List Token} {t : Token}
    (h : tokens pos cs = .ok (ts ++ t :: us)) :
    ∃ xs ys, cs = xs ++ (t.text ++ ys) ∧ t.start = pos + width xs ∧
      Lexes xs (ts.map Token.bare) t.text.head? ∧ IsToken t.kind t.text ys.head? ∧
      tokens t.stop ys = .ok us := by
  induction ts generalizing pos cs with
  | nil =>
    obtain ⟨gap, ys, hcs, hstart, hgap, htoken, hrest⟩ := tokens_cons h
    exact ⟨gap, ys, hcs, hstart, hgap _, htoken, hrest⟩
  | cons s ts ih =>
    obtain ⟨gap, ys, rfl, hstart, hgap, htoken, hrest⟩ := tokens_cons h
    obtain ⟨xs, zs, rfl, ht, hxs, htt, hzs⟩ := ih hrest
    refine ⟨gap ++ (s.text ++ xs), zs, by simp, ?_, ?_, htt, hzs⟩
    · rw [ht, Token.stop, hstart]
      simp only [width_append]
      omega
    · obtain ⟨c, cs, htext, -⟩ := htt.lexeme
      have hnext : (xs ++ (t.text ++ zs)).head? = xs.head?.or t.text.head? := by
        simp [htext]
      rw [hnext] at htoken
      exact (hgap _).append (htoken.lexes.append hxs)

/-- **A lexed text goes on otherwise** behind a token, as far as that stays one. -/
theorem tokens_behind {pos : Nat} {cs : List Char} {ts us : List Token} {t : Token}
    (h : tokens pos cs = .ok (ts ++ t :: us)) :
    ∃ xs ys, cs = xs ++ (t.text ++ ys) ∧ t.start = pos + width xs ∧
      IsToken t.kind t.text ys.head? ∧ tokens t.stop ys = .ok us ∧ ∀ zs,
      IsToken t.kind t.text zs.head? →
        tokens pos (xs ++ (t.text ++ zs)) = (tokens t.stop zs).map (ts ++ t :: ·) := by
  fun_induction tokens pos cs generalizing ts with
  | case1 => simp at h
  | case2 pos c cs hg ih =>
    obtain ⟨xs, ys, rfl, hstart, hlast, hrest, hmore⟩ := ih h
    refine ⟨c :: xs, ys, rfl, ?_, hlast, hrest, fun zs hz => ?_⟩
    · rw [hstart, width_cons, utf8Size_of_isGap hg, Nat.add_assoc]
    · rw [List.cons_append, tokens, if_pos hg, hmore zs hz]
  | case3 pos c cs hg hj ih =>
    obtain ⟨rfl, hn⟩ := hj
    obtain ⟨cs, rfl⟩ := List.head?_eq_some_iff.1 hn
    rw [List.tail_cons] at ih h
    obtain ⟨xs, ys, rfl, hstart, hlast, hrest, hmore⟩ := ih h
    refine ⟨'\\' :: '\n' :: xs, ys, rfl, ?_, hlast, hrest, fun zs hz => ?_⟩
    · have hb : ('\\' : Char).utf8Size = 1 := rfl
      have hl : ('\n' : Char).utf8Size = 1 := rfl
      rw [hstart, width_cons, width_cons, hb, hl]
      omega
    · rw [List.cons_append, List.cons_append, tokens, if_neg hg, if_pos (by simp), List.tail_cons,
        hmore zs hz]
  | case4 => cases h
  | case5 pos c cs hg hj kind n hl token =>
    rename_i ih
    have htoken := isToken_of_lexeme? hg hj hl
    have hcs : c :: cs = token.text ++ cs.drop n := by simp [token]
    obtain ⟨vs, hvs, hts⟩ := map_eq_ok h
    cases ts with
    | nil =>
      obtain ⟨rfl, rfl⟩ := List.cons.inj hts
      exact ⟨[], cs.drop n, hcs, rfl, htoken, hvs, fun zs hz => hz.tokens_append pos rfl⟩
    | cons s ts =>
      obtain ⟨rfl, rfl⟩ := List.cons.inj hts
      obtain ⟨xs, ys, hdrop, hstart, hlast, hrest, hmore⟩ := ih hvs
      refine ⟨token.text ++ xs, ys, by rw [hcs, hdrop, List.append_assoc], ?_, hlast, hrest,
        fun zs hz => ?_⟩
      · rw [hstart, Token.stop, width_append, Nat.add_assoc]
      · obtain ⟨d, ds, htext, -⟩ := hz.lexeme
        have hhead : (xs ++ (t.text ++ zs)).head? = (cs.drop n).head? := by
          rw [hdrop, htext]
          cases xs <;> rfl
        rw [List.append_assoc, htoken.tokens_append pos hhead]
        have hbehind : tokens (pos + width token.text) (xs ++ (t.text ++ zs)) = _ := hmore zs hz
        rw [hbehind]
        cases tokens t.stop zs <;> rfl

/-! ## The tokens of a text -/

/-- A token takes some bytes, a comment starts with a hash and ends before its line does, and a
square bracket is one. -/
structure Token.IsProper (t : Token) : Prop where
  ne_nil : t.text ≠ []
  comment : t.kind = .comment → ∃ cs, t.text = '#' :: cs ∧ '\n' ∉ cs
  square : t.kind = .opening .square → t.text = ['[']

theorem Token.IsProper.start_lt_stop {t : Token} (h : t.IsProper) : t.start < t.stop :=
  Nat.lt_add_of_pos_right (width_pos h.ne_nil)

theorem IsToken.comment_eq {text : List Char} {next : Option Char}
    (h : IsToken .comment text next) :
    ∃ cs, text = '#' :: cs ∧ '\n' ∉ cs ∧ (next = none ∨ next = some '\n') := by
  obtain ⟨c, cs, rfl, hlex⟩ := h.exists_lexeme
  obtain ⟨rfl, hn⟩ := lexeme?_kind hlex
  have hrun := List.prefix_iff_eq_take.1 (List.takeWhile_prefix (· ≠ '\n') (l := cs ++ next.toList))
  rw [← hn, List.take_left] at hrun
  have hall : ∀ c ∈ cs, c ≠ '\n' := by
    intro c hc
    rw [← hrun] at hc
    simpa using List.mem_takeWhile_imp hc
  refine ⟨cs, rfl, fun hc => hall _ hc rfl, ?_⟩
  cases next with
  | none => exact .inl rfl
  | some d =>
    by_cases hd : d = '\n'
    · exact .inr (by rw [hd])
    · rw [List.takeWhile_append_of_pos fun c hc => by simpa using hall c hc] at hn
      simp [hd] at hn

theorem IsToken.isProper {t : Token} {next : Option Char} (h : IsToken t.kind t.text next) :
    t.IsProper := by
  refine ⟨?_, fun hk => ?_, fun hk => ?_⟩
  · obtain ⟨c, cs, htext, -⟩ := h.lexeme
    simp [htext]
  · rw [hk] at h
    obtain ⟨ds, hds, hn, -⟩ := h.comment_eq
    exact ⟨ds, hds, hn⟩
  · rw [hk] at h
    obtain ⟨c, cs, htext, hlex⟩ := h.exists_lexeme
    obtain ⟨rfl, hn⟩ := lexeme?_kind hlex
    rw [htext, List.length_eq_zero_iff.1 hn]

/-- **What is known of the tokens of a text**, and of those of a part of it. -/
structure AreTokens (ts : List Token) : Prop where
  ordered : ts.Pairwise fun a b => a.stop ≤ b.start
  proper : ∀ t ∈ ts, t.IsProper
  remarks : ∀ front t u rest, ts = front ++ t :: u :: rest → t.kind = .comment → u.kind = .newline

theorem AreTokens.of_append {xs ys zs : List Token} (h : AreTokens (xs ++ (ys ++ zs))) :
    AreTokens ys := by
  refine ⟨?_, fun t ht => h.proper t (by simp [ht]), ?_⟩
  · exact (List.pairwise_append.1 (List.pairwise_append.1 h.ordered).2.1).1
  · rintro front t u rest rfl
    exact h.remarks (xs ++ front) t u (rest ++ zs) (by simp)

theorem areTokens_of_tokens {pos : Nat} {cs : List Char} {ts : List Token}
    (h : tokens pos cs = .ok ts) : AreTokens ts ∧ ∀ t ∈ ts, pos ≤ t.start := by
  induction ts generalizing pos cs with
  | nil => exact ⟨⟨.nil, by simp, by simp⟩, by simp⟩
  | cons t ts ih =>
    obtain ⟨gap, ys, rfl, hstart, -, htoken, hrest⟩ := tokens_cons h
    obtain ⟨⟨hordered, hproper, hremarks⟩, hpos⟩ := ih hrest
    have hstop := htoken.isProper.start_lt_stop
    refine ⟨⟨.cons hpos hordered, ?_, ?_⟩, ?_⟩
    · rw [List.forall_mem_cons]
      exact ⟨htoken.isProper, hproper⟩
    · rintro (- | ⟨s, front⟩) t' u rest heq hk
      · obtain ⟨rfl, rfl⟩ := List.cons.inj heq
        rw [hk] at htoken
        obtain ⟨-, -, -, hn | hn⟩ := htoken.comment_eq
        · rw [List.head?_eq_none_iff.1 hn, tokens] at hrest
          cases hrest
        · obtain ⟨zs, rfl⟩ := List.head?_eq_some_iff.1 hn
          rw [tokens, if_neg (by decide), if_neg (by simp)] at hrest
          obtain ⟨us, -, hus⟩ := map_eq_ok hrest
          rw [← (List.cons.inj hus).1]
      · obtain ⟨rfl, rfl⟩ := List.cons.inj heq
        exact hremarks front t' u rest rfl hk
    · rw [List.forall_mem_cons]
      refine ⟨by omega, fun u hu => ?_⟩
      have := hpos u hu
      omega

end BuildSync.Build
