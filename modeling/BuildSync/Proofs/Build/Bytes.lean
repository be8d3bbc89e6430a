import BuildSync.Build.Rule
import BuildSync.Proofs.Build.Lexing

/-!
# Lexing byte by byte

All that the lexer looks for are characters of one byte, so the tokens of a text can be found in its
UTF-8 form without reading characters. Two steps go over a part of a longer character: in a string,
a backslash takes the one byte behind it, and an operator takes as many bytes as its first one says.

* `bytes`: the UTF-8 form of a text (`isPrefix_bytes`, `takeWhile_bytes`: what is found in it).
* `places`: the kinds and places of the tokens, found byte by byte. It fails at a byte with which no
  character starts.
* `shortString?_bytes`, `longString?_bytes`, `lexeme?_bytes`: strings and lexemes, by their bytes.
* `places_bytes`: the tokens found are those of the text, so no step ends within a character.
-/

namespace BuildSync.Build

open Text

/-- The bytes of a character in UTF-8, each as the character with its number. -/
def charBytes (c : Char) : List Char :=
  (String.utf8EncodeChar c).map Char.ofUInt8

/-- The bytes of a text in UTF-8, each as the character with its number. -/
def bytes (cs : List Char) : List Char :=
  cs.flatMap charBytes

/-- A byte of a character that takes several, or such a character. -/
def isHigh (b : Char) : Bool :=
  0x80 ≤ b.toNat

/-- How many bytes of a character follow its first one, none if no character starts so. -/
def following? (b : Char) : Option Nat :=
  if b.toNat < 0x80 then some 0
  else if b.toNat < 0xC0 then none
  else if b.toNat < 0xE0 then some 1
  else if b.toNat < 0xF0 then some 2
  else some 3

/-- The kind of the lexeme that starts with the byte `b`, and how many of the bytes after `b` belong
to it. -/
def byteLexeme? (b : Char) (bs : List Char) : Option (TokenKind × Nat) :=
  if isHigh b then (following? b).map (.operator, ·) else lexeme? b bs

/-- The kinds and places of the tokens in some bytes of which the first is the byte `pos`. -/
def places (pos : Nat) : List Char → Except Nat (List (TokenKind × Span))
  | [] => .ok []
  | b :: bs =>
    if isGap b then places (pos + 1) bs
    else if b = '\\' ∧ bs.head? = some '\n' then places (pos + 2) bs.tail
    else
      match byteLexeme? b bs with
      | none =>
        let mark := bs.takeWhile isWordChar
        .error (if isQuote b then pos else pos + 1 + mark.length)
      | some (kind, n) =>
        (places (pos + 1 + n) (bs.drop n)).map ((kind, ⟨pos, pos + 1 + n⟩) :: ·)
termination_by bs => bs.length
decreasing_by
  all_goals
    simp only [List.length_cons, List.length_tail, List.length_drop]
    omega

/-- The kind of a token and where it stands. -/
def Token.place (t : Token) : TokenKind × Span :=
  (t.kind, ⟨t.start, t.stop⟩)

/-! ## Characters -/

theorem toNat_ofUInt8 {n : Nat} (h : n < 256) : (Char.ofUInt8 (UInt8.ofNat n)).toNat = n := by
  show (UInt8.ofNat n).toNat = n
  simp [Nat.mod_eq_of_lt h]

theorem isHigh_ofUInt8 {n : Nat} (h : 0x80 ≤ n) (hn : n < 256) :
    isHigh (Char.ofUInt8 (UInt8.ofNat n)) = true := by
  rw [isHigh, toNat_ofUInt8 hn]
  exact decide_eq_true h

theorem length_charBytes (c : Char) : (charBytes c).length = c.utf8Size := by
  rw [charBytes, List.length_map, String.length_utf8EncodeChar]

theorem charBytes_of_low {c : Char} (h : isHigh c = false) : charBytes c = [c] := by
  have hc : c.val.toNat < 0x80 := by simpa [isHigh] using h
  have hbyte : Char.ofUInt8 (UInt8.ofNat c.val.toNat) = c :=
    Char.toNat_inj.1 (toNat_ofUInt8 (by omega))
  unfold charBytes String.utf8EncodeChar
  dsimp only
  rw [if_pos (by omega), List.map_singleton, hbyte]

/-- A character of several bytes: none of them is one of a single byte, and the first one tells how
many there are. -/
theorem charBytes_of_high {c : Char} (h : isHigh c = true) : ∃ b bs, charBytes c = b :: bs ∧
    (∀ d ∈ b :: bs, isHigh d = true) ∧ following? b = some bs.length := by
  have hc : 0x80 ≤ c.val.toNat := of_decide_eq_true h
  have hmax : c.val.toNat < 0x110000 := by
    have := c.valid
    unfold UInt32.isValidChar Nat.isValidChar at this
    omega
  unfold charBytes String.utf8EncodeChar
  dsimp only
  rw [if_neg (by omega)]
  -- Two, three and four bytes.
  split_ifs
  all_goals
    refine ⟨_, _, rfl, ?_, ?_⟩
    · simp (disch := omega) only [List.map_cons, List.map_nil, List.forall_mem_cons, isHigh_ofUInt8,
        true_and]
      exact List.forall_mem_nil _
    · simp (disch := omega) only [following?, toNat_ofUInt8, if_neg, if_pos]
      rfl

theorem utf8Size_of_low {c : Char} (h : isHigh c = false) : c.utf8Size = 1 := by
  rw [← length_charBytes, charBytes_of_low h]
  rfl

theorem ne_of_high {b c : Char} (hb : isHigh b = true) (hc : isHigh c = false) : b ≠ c := by
  rintro rfl
  rw [hb] at hc
  cases hc

theorem not_mem_of_high {b : Char} {cs : List Char} (hb : isHigh b = true)
    (hcs : ∀ c ∈ cs, isHigh c = false) : b ∉ cs := fun hmem => ne_of_high hb (hcs b hmem) rfl

/-- A character of one byte is no byte of another character. -/
theorem ne_of_mem_charBytes {b c q : Char} (hb : b ∈ charBytes c) (hq : isHigh q = false)
    (hc : c ≠ q) : b ≠ q := by
  cases hh : isHigh c with
  | false =>
    rw [charBytes_of_low hh, List.mem_singleton] at hb
    rwa [hb]
  | true =>
    obtain ⟨d, ds, hbytes, hhigh, -⟩ := charBytes_of_high hh
    exact ne_of_high (hhigh b (hbytes ▸ hb)) hq

/-- What a backslash takes of a character, and what is left of it. -/
theorem exists_rest (c : Char) : ∃ b bs, charBytes c = b :: bs ∧ bs.length + 1 = c.utf8Size ∧
    ∀ d ∈ bs, isHigh d = true := by
  cases hc : isHigh c with
  | false => exact ⟨c, [], charBytes_of_low hc, by rw [utf8Size_of_low hc]; rfl, by simp⟩
  | true =>
    obtain ⟨b, bs, hbytes, hhigh, -⟩ := charBytes_of_high hc
    refine ⟨b, bs, hbytes, ?_, fun d hd => hhigh d (List.mem_cons_of_mem b hd)⟩
    rw [← length_charBytes, hbytes, List.length_cons]

/-! ## Classes of characters -/

theorem isAlphanum_of_high {b : Char} (h : isHigh b = true) : b.isAlphanum = false := by
  have hb : 0x80 ≤ b.toNat := of_decide_eq_true h
  unfold Char.isAlphanum Char.isAlpha Char.isUpper Char.isLower Char.isDigit
  simp only [UInt32.le_iff_toNat_le, ge_iff_le]
  simp
  omega

theorem isWordChar_of_high {b : Char} (h : isHigh b = true) : isWordChar b = false := by
  simp [isWordChar, isAlphanum_of_high h, ne_of_high h (show isHigh '_' = false by decide)]

theorem isQuote_of_high {b : Char} (h : isHigh b = true) : isQuote b = false := by
  have hmem : b ∉ ['\x22', '\x27'] := not_mem_of_high h (by simp [isHigh])
  simpa [isQuote] using hmem

theorem isGap_of_high {b : Char} (h : isHigh b = true) : isGap b = false := by
  have hmem : b ∉ [' ', '\t', '\r', '\x0c'] := not_mem_of_high h (by simp [isHigh])
  simpa [isGap, and_assoc] using hmem

/-- The characters of such a class take one byte. -/
theorem isHigh_of_class {p : Char → Bool} (hp : ∀ {b}, isHigh b = true → p b = false) {c : Char}
    (h : p c = true) : isHigh c = false := by
  cases hc : isHigh c with
  | false => rfl
  | true =>
    rw [hp hc] at h
    cases h

/-! ## Texts -/

@[simp] theorem bytes_nil : bytes [] = [] := rfl

theorem bytes_cons (c : Char) (cs : List Char) : bytes (c :: cs) = charBytes c ++ bytes cs := rfl

theorem bytes_append (cs ds : List Char) : bytes (cs ++ ds) = bytes cs ++ bytes ds :=
  List.flatMap_append

theorem bytes_low {c : Char} (h : isHigh c = false) (cs : List Char) :
    bytes (c :: cs) = c :: bytes cs := by
  rw [bytes_cons, charBytes_of_low h]
  rfl

theorem bytes_of_low {cs : List Char} (h : ∀ c ∈ cs, isHigh c = false) : bytes cs = cs := by
  induction cs with
  | nil => rfl
  | cons c cs ih =>
    rw [List.forall_mem_cons] at h
    rw [bytes_low h.1, ih h.2]

theorem length_bytes (cs : List Char) : (bytes cs).length = width cs := by
  induction cs with
  | nil => rfl
  | cons c cs ih => rw [bytes_cons, List.length_append, length_charBytes, ih, width_cons]

theorem width_of_low {cs : List Char} (h : ∀ c ∈ cs, isHigh c = false) : width cs = cs.length := by
  rw [← length_bytes, bytes_of_low h]

/-- The bytes that are left are those of the characters that are. -/
theorem drop_bytes (cs : List Char) (n : Nat) :
    (bytes cs).drop (width (cs.take n)) = bytes (cs.drop n) := by
  have happend : bytes cs = bytes (cs.take n) ++ bytes (cs.drop n) := by
    rw [← bytes_append, List.take_append_drop]
  rw [happend, ← length_bytes, List.drop_left]

/-- **Characters of one byte** begin the bytes of a text where they begin the text. -/
theorem isPrefix_bytes {qs : List Char} (h : ∀ q ∈ qs, isHigh q = false) (cs : List Char) :
    qs <+: bytes cs ↔ qs <+: cs := by
  induction qs generalizing cs with
  | nil => simp
  | cons q qs ih =>
    rw [List.forall_mem_cons] at h
    cases cs with
    | nil => rfl
    | cons c cs =>
      cases hc : isHigh c with
      | false => rw [bytes_low hc, List.cons_prefix_cons, List.cons_prefix_cons, ih h.2]
      | true =>
        obtain ⟨b, bs, hbytes, hhigh, -⟩ := charBytes_of_high hc
        have hb : q ≠ b := (ne_of_high (hhigh b List.mem_cons_self) h.1).symm
        have hq : q ≠ c := (ne_of_high hc h.1).symm
        rw [bytes_cons, hbytes, List.cons_append, List.cons_prefix_cons, List.cons_prefix_cons]
        simp [hb, hq]

theorem head?_bytes {q : Char} (h : isHigh q = false) (cs : List Char) :
    (bytes cs).head? = some q ↔ cs.head? = some q := by
  have hhead : ∀ ds : List Char, [q] <+: ds ↔ ds.head? = some q := by
    intro ds
    cases ds <;> simp [List.cons_prefix_cons, eq_comm]
  rw [← hhead, ← hhead, isPrefix_bytes (by simpa using h)]

/-- **A run of characters** of a class that has all or none of those with several bytes. -/
theorem takeWhile_bytes {p : Char → Bool}
    (hp : ∀ b c, isHigh b = true → isHigh c = true → p b = p c) (cs : List Char) :
    (bytes cs).takeWhile p = bytes (cs.takeWhile p) := by
  induction cs with
  | nil => rfl
  | cons c cs ih =>
    cases hc : isHigh c with
    | false =>
      rw [bytes_low hc, List.takeWhile_cons, List.takeWhile_cons]
      cases p c with
      | false => rfl
      | true => simp [bytes_low hc, ih]
    | true =>
      obtain ⟨b, bs, hbytes, hhigh, -⟩ := charBytes_of_high hc
      rw [bytes_cons, List.takeWhile_cons]
      cases hpc : p c with
      | false =>
        have hb : p b = false := (hp b c (hhigh b List.mem_cons_self) hc).trans hpc
        simp [hbytes, hb]
      | true =>
        have hall : ∀ d ∈ charBytes c, p d = true := fun d hd =>
          (hp d c (hhigh d (hbytes ▸ hd)) hc).trans hpc
        rw [List.takeWhile_append_of_pos hall, ih]
        rfl

theorem length_takeWhile_bytes {p : Char → Bool}
    (hp : ∀ b c, isHigh b = true → isHigh c = true → p b = p c) (cs : List Char) :
    ((bytes cs).takeWhile p).length = width (cs.take (cs.takeWhile p).length) := by
  rw [takeWhile_bytes hp, length_bytes, ← List.prefix_iff_eq_take.1 (List.takeWhile_prefix p)]

/-! ## Strings -/

/-- Nothing in `front` ends a string. -/
theorem shortString?_append {quote : Char} {front : List Char}
    (h : ∀ b ∈ front, b ≠ '\\' ∧ b ≠ quote ∧ b ≠ '\n') (cs : List Char) :
    shortString? quote (front ++ cs) = (shortString? quote cs).map (· + front.length) := by
  induction front with
  | nil => simp
  | cons b front ih =>
    rw [List.forall_mem_cons] at h
    obtain ⟨⟨hb, hq, hn⟩, hfront⟩ := h
    rw [List.cons_append, shortString?_cons hb, if_neg hq, if_neg hn, ih hfront, Option.map_map]
    rfl

theorem longString?_append {quote : Char} {front : List Char}
    (h : ∀ b ∈ front, b ≠ '\\' ∧ b ≠ quote) (cs : List Char) :
    longString? quote (front ++ cs) = (longString? quote cs).map (· + front.length) := by
  induction front with
  | nil => simp
  | cons b front ih =>
    rw [List.forall_mem_cons] at h
    obtain ⟨⟨hb, hq⟩, hfront⟩ := h
    rw [List.cons_append, longString?_cons hb, if_neg (by simp [hq]), ih hfront, Option.map_map]
    rfl

/-- The bytes of what is read, with a character in front of it. -/
theorem map_width_cons (read : Option Nat) (c : Char) (cs : List Char) :
    (read.map fun n => width (cs.take n)).map (· + c.utf8Size) =
      (read.map (· + 1)).map fun n => width ((c :: cs).take n) := by
  rw [Option.map_map, Option.map_map]
  congr 1
  funext n
  simp only [Function.comp_apply, List.take_succ_cons, width_cons]
  omega

/-- The bytes of what is read, with a character behind a backslash in front of it: `bs` is what the
backslash leaves of the character. -/
theorem map_width_escaped {c : Char} {bs : List Char} (h : bs.length + 1 = c.utf8Size)
    (read : Option Nat) (cs : List Char) :
    ((read.map fun n => width (cs.take n)).map (· + bs.length)).map (· + 2) =
      (read.map (· + 2)).map fun n => width (('\\' :: c :: cs).take n) := by
  have hbackslash : ('\\' : Char).utf8Size = 1 := rfl
  rw [Option.map_map, Option.map_map, Option.map_map]
  congr 1
  funext n
  simp only [Function.comp_apply, List.take_succ_cons, width_cons]
  omega

theorem shortString?_bytes {quote : Char} (hquote : isHigh quote = false) (cs : List Char) :
    shortString? quote (bytes cs) = (shortString? quote cs).map fun n => width (cs.take n) := by
  fun_induction shortString? quote cs with
  | case1 => rfl
  | case2 =>
    rw [bytes_low (by decide)]
    rfl
  | case3 c cs ih =>
    -- The backslash takes the first byte of the character; what is left of it ends nothing.
    obtain ⟨b, bs, hbytes, hlength, hhigh⟩ := exists_rest c
    have hpass : ∀ d ∈ bs, d ≠ '\\' ∧ d ≠ quote ∧ d ≠ '\n' := fun d hd =>
      ⟨ne_of_high (hhigh d hd) (by decide), ne_of_high (hhigh d hd) hquote,
        ne_of_high (hhigh d hd) (by decide)⟩
    rw [bytes_low (by decide), bytes_cons, hbytes, List.cons_append, shortString?,
      shortString?_append hpass, ih, map_width_escaped hlength]
  | case4 cs h₁ h₂ =>
    rw [bytes_low hquote, shortString?_cons (ne_backslash h₁ h₂), if_pos rfl, Option.map_some,
      List.take_succ_cons, List.take_zero, width_cons, utf8Size_of_low hquote]
    rfl
  | case5 cs h₁ h₂ hq =>
    rw [bytes_low (by decide), shortString?_cons (ne_backslash h₁ h₂), if_neg hq, if_pos rfl]
    rfl
  | case6 c cs h₁ h₂ hq hn ih =>
    have hpass : ∀ b ∈ charBytes c, b ≠ '\\' ∧ b ≠ quote ∧ b ≠ '\n' := fun b hb =>
      ⟨ne_of_mem_charBytes hb (by decide) (ne_backslash h₁ h₂), ne_of_mem_charBytes hb hquote hq,
        ne_of_mem_charBytes hb (by decide) hn⟩
    rw [bytes_cons, shortString?_append hpass, ih, length_charBytes, map_width_cons]

theorem longString?_bytes {quote : Char} (hquote : isHigh quote = false) (cs : List Char) :
    longString? quote (bytes cs) = (longString? quote cs).map fun n => width (cs.take n) := by
  have hthree : ∀ cs : List Char, (bytes cs).take 3 = [quote, quote, quote] ↔
      cs.take 3 = [quote, quote, quote] := by
    intro cs
    have hprefix : [quote, quote, quote] <+: bytes cs ↔ _ :=
      isPrefix_bytes (by simpa using hquote) cs
    rwa [List.prefix_iff_eq_take, List.prefix_iff_eq_take, eq_comm, eq_comm (a := [_, _, _])]
      at hprefix
  fun_induction longString? quote cs with
  | case1 => rfl
  | case2 =>
    rw [bytes_low (by decide)]
    rfl
  | case3 c cs ih =>
    obtain ⟨b, bs, hbytes, hlength, hhigh⟩ := exists_rest c
    have hpass : ∀ d ∈ bs, d ≠ '\\' ∧ d ≠ quote := fun d hd =>
      ⟨ne_of_high (hhigh d hd) (by decide), ne_of_high (hhigh d hd) hquote⟩
    rw [bytes_low (by decide), bytes_cons, hbytes, List.cons_append, longString?,
      longString?_append hpass, ih, map_width_escaped hlength]
  | case4 c cs h₁ h₂ hq =>
    have hc : c = quote := by simpa using congrArg List.head? hq
    have hquotes := (hthree (c :: cs)).2 hq
    rw [hc, bytes_low hquote] at hquotes
    rw [hc, bytes_low hquote, longString?_cons (hc ▸ ne_backslash h₁ h₂), if_pos hquotes,
      Option.map_some, ← hc, hq]
    simp [utf8Size_of_low hquote]
  | case5 c cs h₁ h₂ hq ih =>
    have hb := ne_backslash h₁ h₂
    -- A quote that is not the first of three is passed over like any other character.
    have hstep : longString? quote (bytes (c :: cs)) =
        (longString? quote (bytes cs)).map (· + c.utf8Size) := by
      by_cases hc : c = quote
      · have hquotes := mt (hthree (c :: cs)).1 hq
        rw [hc, bytes_low hquote] at hquotes
        rw [hc, bytes_low hquote, longString?_cons (hc ▸ hb), if_neg hquotes,
          utf8Size_of_low hquote]
      · have hpass : ∀ b ∈ charBytes c, b ≠ '\\' ∧ b ≠ quote := fun b hmem =>
          ⟨ne_of_mem_charBytes hmem (by decide) hb, ne_of_mem_charBytes hmem hquote hc⟩
        rw [bytes_cons, longString?_append hpass, length_charBytes]
    rw [hstep, ih, map_width_cons]

theorem stringLength?_long (quote : Char) (rest : List Char) :
    stringLength? quote (quote :: quote :: rest) = (longString? quote rest).map (· + 2) := by
  simp [stringLength?]

theorem stringLength?_short {quote : Char} {cs : List Char} (h : ¬ [quote, quote] <+: cs) :
    stringLength? quote cs = shortString? quote cs := by
  unfold stringLength?
  split
  · refine if_neg ?_
    rintro ⟨rfl, rfl⟩
    exact h (List.prefix_append _ _)
  · rfl

theorem stringLength?_bytes {quote : Char} (hquote : isHigh quote = false) (cs : List Char) :
    stringLength? quote (bytes cs) = (stringLength? quote cs).map fun n => width (cs.take n) := by
  by_cases h : [quote, quote] <+: cs
  · obtain ⟨rest, rfl⟩ := h
    rw [List.cons_append, List.singleton_append, bytes_low hquote, bytes_low hquote,
      stringLength?_long, stringLength?_long, longString?_bytes hquote, Option.map_map,
      Option.map_map]
    congr 1
    funext n
    simp only [Function.comp_apply, List.take_succ_cons, width_cons, utf8Size_of_low hquote]
    omega
  · have hbytes : ¬ [quote, quote] <+: bytes cs := by
      rwa [isPrefix_bytes (by simpa using hquote)]
    rw [stringLength?_short h, stringLength?_short hbytes, shortString?_bytes hquote]

/-! ## Lexemes -/

theorem wordLexeme?_end {word : List Char} (hw : ∀ d ∈ word, isWordChar d = true) (c : Char) :
    wordLexeme? c word = some (.word, word.length) := by
  have hrun : word.takeWhile isWordChar = word := List.takeWhile_eq_self_iff.2 hw
  unfold wordLexeme?
  rw [hrun, List.drop_length]

theorem wordLexeme?_bytes (c : Char) (cs : List Char) :
    wordLexeme? c (bytes cs) =
      (wordLexeme? c cs).map fun (kind, n) => (kind, width (cs.take n)) := by
  have hw : ∀ d ∈ cs.takeWhile isWordChar, isWordChar d = true := fun d hd =>
    List.mem_takeWhile_imp hd
  have hcs := List.takeWhile_append_dropWhile (p := isWordChar) (l := cs)
  have hnot := List.head?_dropWhile_not isWordChar cs
  generalize cs.takeWhile isWordChar = word at hw hcs
  generalize cs.dropWhile isWordChar = tail at hcs hnot
  subst hcs
  have hlow : ∀ d ∈ word, isHigh d = false := fun d hd =>
    isHigh_of_class isWordChar_of_high (hw d hd)
  have hlength := width_of_low hlow
  rw [bytes_append, bytes_of_low hlow]
  cases tail with
  | nil =>
    rw [bytes_nil, List.append_nil, wordLexeme?_end hw, Option.map_some]
    simp [hlength]
  | cons d tail =>
    have hd : isWordChar d = false := by simpa using hnot
    rw [wordLexeme?_append hw hd]
    cases hh : isHigh d with
    | true =>
      obtain ⟨b, bs, hbytes, hhigh, -⟩ := charBytes_of_high hh
      have hb := hhigh b List.mem_cons_self
      rw [bytes_cons, hbytes, List.cons_append, wordLexeme?_append hw (isWordChar_of_high hb),
        isQuote_of_high hb, isQuote_of_high hh]
      simp [hlength]
    | false =>
      rw [bytes_low hh, wordLexeme?_append hw hd]
      split
      · rw [stringLength?_bytes hh, Option.map_map, Option.map_map]
        congr 1
        funext n
        show (TokenKind.string, word.length + 1 + width (tail.take n)) =
          (TokenKind.string, width ((word ++ d :: tail).take (word.length + 1 + n)))
        rw [take_behind, width_append, width_cons, hlength, utf8Size_of_low hh, Nat.add_assoc]
      · simp [hlength]

theorem plainLexeme?_bytes (c : Char) (cs : List Char) :
    plainLexeme? c (bytes cs) =
      (plainLexeme? c cs).map fun (kind, n) => (kind, width (cs.take n)) := by
  have hdot : isHigh '.' = false := by decide
  have hnumber : ∀ b c, isHigh b = true → isHigh c = true →
      (b.isAlphanum || b = '.') = (c.isAlphanum || c = '.') := fun b c hb hc => by
    simp [isAlphanum_of_high hb, isAlphanum_of_high hc, ne_of_high hb hdot, ne_of_high hc hdot]
  unfold plainLexeme?
  split
  · rfl
  · split
    · rw [length_takeWhile_bytes hnumber]
      rfl
    · split
      · exact wordLexeme?_bytes c cs
      · rfl

/-- **A lexeme, by its bytes.** -/
theorem lexeme?_bytes {c : Char} (h : isHigh c = false) (cs : List Char) :
    lexeme? c (bytes cs) = (lexeme? c cs).map fun (kind, n) => (kind, width (cs.take n)) := by
  cases hm : isMark c with
  | true =>
    have hnewline : isHigh '\n' = false := by decide
    have hcomment : ∀ b c, isHigh b = true → isHigh c = true →
        decide (b ≠ '\n') = decide (c ≠ '\n') := fun b c hb hc => by
      simp [ne_of_high hb hnewline, ne_of_high hc hnewline]
    simp only [isMark, List.mem_cons, List.not_mem_nil, or_false, decide_eq_true_eq] at hm
    rcases hm with rfl | rfl | rfl | rfl | rfl | rfl | rfl | rfl | rfl
    case inr.inl => simp only [lexeme?, length_takeWhile_bytes hcomment, Option.map_some]
    all_goals simp [lexeme?]
  | false =>
    rw [lexeme?_of_not_mark hm, lexeme?_of_not_mark hm]
    split
    · rw [stringLength?_bytes h, Option.map_map, Option.map_map]
      rfl
    · simp only [head?_bytes (show isHigh '=' = false by decide)]
      split
      · rename_i he
        obtain ⟨-, he⟩ := Bool.and_eq_true_iff.1 he
        obtain ⟨ds, rfl⟩ := List.head?_eq_some_iff.1 (of_decide_eq_true he)
        rfl
      · exact plainLexeme?_bytes c cs

/-- A character of several bytes is an operator. -/
theorem lexeme?_of_high {c : Char} (h : isHigh c = true) (cs : List Char) :
    lexeme? c cs = some (.operator, 0) := by
  have hmark : isMark c = false := decide_eq_false (not_mem_of_high h (by simp [isHigh]))
  have htakes : takesEquals c = false := decide_eq_false (not_mem_of_high h (by simp [isHigh]))
  have heq : c ≠ '=' := ne_of_high h (by decide)
  have hdigit : c.isDigit = false := (Bool.or_eq_false_iff.1 (isAlphanum_of_high h)).2
  rw [lexeme?_of_not_mark hmark, plainLexeme?]
  simp [isQuote_of_high h, htakes, heq, hdigit, isWordChar_of_high h]

/-! ## Tokens -/

/-- **The tokens of a text, found byte by byte**: the same places and kinds, and where there are
none the same byte at fault. -/
theorem places_bytes (pos : Nat) (cs : List Char) :
    places pos (bytes cs) = (tokens pos cs).map (List.map Token.place) := by
  fun_induction tokens pos cs with
  | case1 => simp [places, Except.map]
  | case2 pos c cs hg ih => rw [bytes_low (isHigh_of_class isGap_of_high hg), places, if_pos hg, ih]
  | case3 pos c cs hg hj ih =>
    obtain ⟨rfl, hn⟩ := hj
    obtain ⟨cs, rfl⟩ := List.head?_eq_some_iff.1 hn
    rw [bytes_low (by decide), bytes_low (by decide), places, if_neg hg, if_pos (by simp)]
    exact ih
  | case4 pos c cs hg hj hl mark =>
    cases hc : isHigh c with
    | true =>
      rw [lexeme?_of_high hc] at hl
      cases hl
    | false =>
      have hword : ∀ b c, isHigh b = true → isHigh c = true → isWordChar b = isWordChar c :=
        fun b c hb hc => (isWordChar_of_high hb).trans (isWordChar_of_high hc).symm
      have hmark : ∀ d ∈ mark, isHigh d = false := fun d hd =>
        isHigh_of_class isWordChar_of_high (List.mem_takeWhile_imp hd)
      have hlex : byteLexeme? c (bytes cs) = none := by
        rw [byteLexeme?, hc, if_neg (by simp), lexeme?_bytes hc, hl]
        rfl
      rw [bytes_low hc, places, if_neg hg, if_neg (by rwa [head?_bytes (by decide)]), hlex]
      dsimp only
      rw [takeWhile_bytes hword, bytes_of_low hmark]
      rfl
  | case5 pos c cs hg hj kind n hl token ih =>
    cases hc : isHigh c with
    | true =>
      rw [lexeme?_of_high hc] at hl
      cases hl
      obtain ⟨b, bs, hbytes, hhigh, hfollow⟩ := charBytes_of_high hc
      have hb := hhigh b List.mem_cons_self
      have hlex : byteLexeme? b (bs ++ bytes cs) = some (.operator, bs.length) := by
        rw [byteLexeme?, if_pos hb, hfollow]
        rfl
      have hstop : pos + 1 + bs.length = token.stop := by
        show pos + 1 + bs.length = pos + width [c]
        rw [width_cons, width_nil, ← length_charBytes, hbytes, List.length_cons]
        omega
      have hjoined : ¬ (b = '\\' ∧ (bs ++ bytes cs).head? = some '\n') := fun h =>
        ne_of_high hb (by decide) h.1
      rw [bytes_cons, hbytes, List.cons_append, places, if_neg (by simp [isGap_of_high hb]),
        if_neg hjoined, hlex]
      dsimp only
      rw [List.drop_zero] at ih ⊢
      rw [hstop, List.drop_left, ih]
      cases tokens token.stop cs <;> rfl
    | false =>
      have hlex : byteLexeme? c (bytes cs) = some (kind, width (cs.take n)) := by
        rw [byteLexeme?, hc, if_neg (by simp), lexeme?_bytes hc, hl]
        rfl
      have hstop : pos + 1 + width (cs.take n) = token.stop := by
        rw [Token.stop, width_cons, utf8Size_of_low hc, Nat.add_assoc]
      rw [bytes_low hc, places, if_neg hg, if_neg (by rwa [head?_bytes (by decide)]), hlex]
      dsimp only
      rw [hstop, drop_bytes, ih]
      cases tokens token.stop (cs.drop n) <;> rfl

end BuildSync.Build
