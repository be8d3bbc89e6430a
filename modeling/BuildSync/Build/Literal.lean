import BuildSync.Build.Token

/-! # String literals of a BUILD file

* `quote`: a text as a literal in double quotes.
* `literalValue`: the text that a literal stands for; it reads `quote` back
  (`literalValue_quote`).
-/

namespace BuildSync.Build

/-- A character as it stands between double quotes. -/
def escapeChar (c : Char) : List Char :=
  if c = '\x22' then ['\\', '\x22']
  else if c = '\\' then ['\\', '\\']
  else if c = '\n' then ['\\', 'n']
  else [c]

/-- A text as a literal in double quotes. -/
def quote (cs : List Char) : List Char :=
  '\x22' :: cs.flatMap escapeChar ++ ['\x22']

/-- The character that a backslash and `c` stand for. -/
def unescapeChar (c : Char) : Char :=
  if c = 'n' then '\n'
  else if c = 't' then '\t'
  else if c = 'r' then '\r'
  else if c = '0' then '\x00'
  else c

/-- A text with its escapes resolved; a backslash at the end stands for itself. -/
def unescape : List Char → List Char
  | [] => []
  | ['\\'] => ['\\']
  | '\\' :: c :: cs => unescapeChar c :: unescape cs
  | c :: cs => c :: unescape cs

/-- How many quotes stand at each end of a literal without its marks. -/
def quoteLength (body : List Char) : Nat :=
  if Text.width body < 6 then 1
  else if body.take 3 = ['\x22', '\x22', '\x22'] || body.take 3 = ['\x27', '\x27', '\x27'] then 3
  else 1

/-- The text that a literal stands for; one marked `r` holds no escapes. -/
def literalValue (literal : List Char) : List Char :=
  let mark := literal.takeWhile (fun c => !isQuote c)
  let body := literal.dropWhile (fun c => !isQuote c)
  let n := quoteLength body
  let inner := (body.drop n).take (body.length - 2 * n)
  if 'r' ∈ mark ∨ 'R' ∈ mark then inner else unescape inner

/-! ## Reading a written literal back -/

theorem unescape_escapeChar (c : Char) (cs : List Char) :
    unescape (escapeChar c ++ cs) = c :: unescape cs := by
  unfold escapeChar
  split
  · next h => subst h; rfl
  · split
    · next h => subst h; rfl
    · split
      · next h => subst h; rfl
      · next h _ =>
        cases cs with
        | nil => rw [List.append_nil]; unfold unescape; split <;> simp_all [unescape]
        | cons d ds => simp [unescape, h]

theorem unescape_flatMap_escapeChar (cs : List Char) :
    unescape (cs.flatMap escapeChar) = cs := by
  induction cs with
  | nil => rfl
  | cons c cs ih => rw [List.flatMap_cons, unescape_escapeChar, ih]

/-- The escaped text never starts with a quote. -/
theorem head_flatMap_escapeChar_ne (cs : List Char) :
    (cs.flatMap escapeChar).head? ≠ some '\x22' := by
  cases cs with
  | nil => simp
  | cons c cs =>
    simp only [List.flatMap_cons, escapeChar]
    split
    · simp
    · split
      · simp
      · split <;> simp_all

theorem literalValue_quote (cs : List Char) : literalValue (quote cs) = cs := by
  have hq : isQuote '\x22' = true := by decide
  have hn : quoteLength (quote cs) = 1 := by
    unfold quoteLength quote
    have := head_flatMap_escapeChar_ne cs
    cases h : cs.flatMap escapeChar with
    | nil => simp
    | cons d ds =>
      rw [h] at this
      have hd : d ≠ '\x22' := by simpa using this
      simp [hd]
  have hb : (quote cs).dropWhile (fun c => !isQuote c) = quote cs := by
    simp [quote, hq]
  have hm : (quote cs).takeWhile (fun c => !isQuote c) = [] := by
    simp [quote, hq]
  unfold literalValue
  simp only [hb, hm, hn]
  simp [quote, unescape_flatMap_escapeChar]

end BuildSync.Build
