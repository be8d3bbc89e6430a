import BuildSync.Parser

/-! # Lexemes

Words, numbers, strings, regular expressions and punctuation. Each parser first passes over the
blanks and comments in front of its lexeme, so what is left after it starts right behind it.

* `skipTrivia`: what follows blanks and comments, and whether a line ended in between.
* `word`, `keyword`, `identifier`; `number`; `string`; `regularExpression`.
* `symbol`: punctuation; of several marks that begin alike the longest is read.
-/

namespace BuildSync.TypeScript

/-! ## Characters -/

/-- A character that ends a line. -/
def isLineEnd (c : Char) : Bool :=
  c = '\n' || c = '\r' || c = '\u2028' || c = '\u2029'

/-- A blank within a line. -/
def isSpace (c : Char) : Bool :=
  let n := c.toNat
  n = 0x09 || n = 0x0B || n = 0x0C || n = 0x20 || n = 0xA0 || n = 0xFEFF || n = 0x1680 ||
    (0x2000 ≤ n && n ≤ 0x200A) || n = 0x202F || n = 0x205F || n = 0x3000

/-- The ranges outside ASCII that hold no letters: punctuation, symbols and pictures. -/
def symbolRanges : List (Nat × Nat) :=
  [(0x80, 0xA9), (0xAB, 0xB4), (0xB6, 0xB9), (0xBB, 0xBF), (0xD7, 0xD7), (0xF7, 0xF7),
    (0x2000, 0x203E), (0x2041, 0x2053), (0x2055, 0x2070), (0x2072, 0x207E), (0x2080, 0x208F),
    (0x20A0, 0x20CF), (0x2190, 0x2BFF), (0x2E00, 0x2FFF), (0x3000, 0x3004), (0x3008, 0x3020),
    (0x3030, 0x3030), (0xD800, 0xF8FF), (0xFE10, 0xFE1F), (0xFE30, 0xFE32), (0xFE35, 0xFE4C),
    (0xFE50, 0xFE6F), (0xFEFF, 0xFEFF), (0xFF01, 0xFF0F), (0xFF1A, 0xFF20), (0xFF3B, 0xFF3E),
    (0xFF40, 0xFF40), (0xFF5B, 0xFF65), (0xFFE0, 0xFFFF), (0x1F000, 0x1FAFF), (0xE0000, 0xE00FF),
    (0xF0000, 0x10FFFF)]

/-- A letter outside ASCII. -/
def isOtherLetter (c : Char) : Bool :=
  0x80 ≤ c.toNat && !(symbolRanges.any fun (low, high) => low ≤ c.toNat && c.toNat ≤ high)

/-- A character that starts a word. -/
def isWordStart (c : Char) : Bool :=
  c.isAlpha || c = '_' || c = '$' || isOtherLetter c

/-- A character within a word. -/
def isWordPart (c : Char) : Bool :=
  isWordStart c || c.isDigit || c = '\u200C' || c = '\u200D'

/-- A hexadecimal digit. -/
def isHexDigit (c : Char) : Bool :=
  c.isDigit || ('a' ≤ c && c ≤ 'f') || ('A' ≤ c && c ≤ 'F')

/-- The value of a hexadecimal digit. -/
def hexValue (c : Char) : Nat :=
  if c.isDigit then c.toNat - 48 else if 'a' ≤ c then c.toNat - 87 else c.toNat - 55

/-! ## Blanks and comments -/

/-- Where a text in front of a lexeme stands. -/
inductive Trivia
  | blank
  | lineComment
  | blockComment
deriving DecidableEq

/-- What follows blanks and comments; the flag tells whether a line ended. -/
def skipTrivia (crossed : Bool) : Trivia → List Char → Bool × List Char
  | _, [] => (crossed, [])
  | .blockComment, '*' :: '/' :: cs => skipTrivia crossed .blank cs
  | .blockComment, c :: cs => skipTrivia (crossed || isLineEnd c) .blockComment cs
  | .lineComment, c :: cs =>
    if isLineEnd c then skipTrivia true .blank cs else skipTrivia crossed .lineComment cs
  | .blank, '/' :: '/' :: cs => skipTrivia crossed .lineComment cs
  | .blank, '/' :: '*' :: cs => skipTrivia crossed .blockComment cs
  | .blank, '<' :: '!' :: '-' :: '-' :: cs => skipTrivia crossed .lineComment cs
  | .blank, c :: cs =>
    if isLineEnd c then skipTrivia true .blank cs
    else if isSpace c then skipTrivia crossed .blank cs
    else (crossed, c :: cs)

theorem skipTrivia_suffix (crossed : Bool) (trivia : Trivia) (cs : List Char) :
    (skipTrivia crossed trivia cs).2 <:+ cs := by
  have two : ∀ {a b : Char} {xs ys : List Char}, xs <:+ ys → xs <:+ a :: b :: ys :=
    fun h => h.trans ((List.suffix_cons _ _).trans (List.suffix_cons _ _))
  fun_induction skipTrivia crossed trivia cs with
  | case1 => exact List.suffix_refl _
  | case2 _ _ ih => exact two ih
  | case3 _ _ _ _ ih => exact ih.trans (List.suffix_cons _ _)
  | case4 _ _ _ _ ih => exact ih.trans (List.suffix_cons _ _)
  | case5 _ _ _ _ ih => exact ih.trans (List.suffix_cons _ _)
  | case6 _ _ ih => exact two ih
  | case7 _ _ ih => exact two ih
  | case8 _ _ ih => exact two (two ih)
  | case9 _ _ _ _ _ _ _ ih => exact ih.trans (List.suffix_cons _ _)
  | case10 _ _ _ _ _ _ _ _ ih => exact ih.trans (List.suffix_cons _ _)
  | case11 => exact List.suffix_refl _

open BuildSync.Parser

/-- Passes over blanks and comments, and tells whether a line ended. -/
def trivia : Parser Bool := fun text =>
  some ⟨(skipTrivia false .blank text).1, (skipTrivia false .blank text).2,
    skipTrivia_suffix false .blank text⟩

/-- A lexeme after the blanks and comments in front of it. -/
def token (p : Parser α) : Parser α := do
  let _ ← trivia
  p

/-- Reads nothing, and succeeds if the next lexeme is on a line of its own. -/
def newline : Parser Unit := do
  let crossed ← ahead trivia
  require crossed

/-- Reads nothing, and succeeds if the next lexeme is on the same line. -/
def sameLine : Parser Unit := do
  let crossed ← ahead trivia
  require (!crossed)

/-- Reads nothing, and succeeds at the end of the text. -/
def atEnd : Parser Unit := do
  let _ ← trivia
  notAhead (satisfy fun _ => true)

/-! ## Words -/

/-- The value of hexadecimal digits. -/
def hexNumber (digits : List Char) : Nat :=
  digits.foldl (fun n c => n * 16 + hexValue c) 0

/-- Exactly `n` hexadecimal digits. -/
def hexDigits : Nat → Parser Unit
  | 0 => pure ()
  | n + 1 => do
    let _ ← satisfy isHexDigit
    hexDigits n

/-- What follows `\u`: four digits, or the number of a character in braces. -/
def codePoint : Parser Unit :=
  (do
    chars ['\x7b']
    let digits ← takeWhile1 isHexDigit
    require (hexNumber digits ≤ 0x10FFFF)
    chars ['\x7d']) <|> hexDigits 4

/-- A character of a word written by its number. -/
def wordEscape : Parser (List Char) := do
  chars ['\\', 'u']
  codePoint
  pure ['\\']

/-- A word as it is written, without what stands in front of it. -/
def rawWord : Parser String := do
  let first ← (do let c ← satisfy isWordStart; pure [c]) <|> wordEscape
  let rest ← many (takeWhile1 isWordPart <|> wordEscape)
  pure (String.ofList (first ++ rest.flatten))

/-- A word. -/
def word : Parser String :=
  token rawWord

/-- The given word. -/
def keyword (text : String) : Parser Unit := do
  let found ← word
  require (found = text)

/-- One of the given words. -/
def oneOf (texts : List String) : Parser String := do
  let found ← word
  require (texts.contains found)
  pure found

/-- The words that name nothing. -/
def reservedWords : List String :=
  ["break", "case", "catch", "class", "const", "continue", "debugger", "default", "delete", "do",
    "else", "enum", "export", "extends", "false", "finally", "for", "function", "if", "import",
    "in", "instanceof", "new", "null", "return", "super", "switch", "this", "throw", "true", "try",
    "typeof", "var", "void", "while", "with"]

/-- A word that may name something. -/
def identifier : Parser String := do
  let found ← word
  require (!reservedWords.contains found)
  pure found

/-! ## Punctuation -/

/-- The marks, each after those that begin with it. -/
def marks : List (List Char) :=
  [">>>=", "...", "===", "!==", "**=", "<<=", ">>=", ">>>", "&&=", "||=", "??=", "=>", "==", "!=",
    "<=", ">=", "&&", "||", "??", "?.", "++", "--", "+=", "-=", "*=", "/=", "%=", "&=", "|=", "^=",
    "<<", ">>", "**", "\x7b", "\x7d", "(", ")", "[", "]", ".", ";", ",", "<", ">", "+", "-", "*",
    "/", "%", "&", "|", "^", "!", "~", "?", ":", "=", "@", "#"].map String.toList

/-- The longest mark at the front of a text. -/
def longestMark? (text : List Char) : Option (List Char) :=
  match marks.find? (·.isPrefixOf text) with
  | some mark =>
    if mark = ['?', '.'] ∧ ((text.drop 2).head?.any Char.isDigit) then some ['?'] else some mark
  | none => none

/-- A mark, without what stands in front of it. -/
def rawMark : Parser String := fun text =>
  match longestMark? text with
  | none => none
  | some mark =>
    some ⟨String.ofList mark, text.drop mark.length, List.drop_suffix mark.length text⟩

/-- A mark. -/
def mark : Parser String :=
  token rawMark

/-- The given mark. -/
def symbol (text : String) : Parser Unit := do
  let found ← mark
  require (found = text)

/-- The character that opens or closes the arguments of a type, also as the front of a longer
mark. -/
def angle (c : Char) : Parser Unit :=
  token (chars [c])

/-- The end of a statement: a semicolon, or a place where it may be left out. -/
def semicolon : Parser Unit :=
  symbol ";" <|> ahead (symbol "\x7d") <|> newline <|> ahead atEnd

/-! ## Literals -/

/-- Digits, perhaps grouped by underscores. -/
def digits (p : Char → Bool) : Parser Unit := do
  let _ ← takeWhile1 (fun c => p c || c = '_')

/-- The exponent of a number. -/
def exponent : Parser Unit := do
  let _ ← satisfy (fun c => c = 'e' || c = 'E')
  let _ ← maybe (satisfy fun c => c = '+' || c = '-')
  digits Char.isDigit

/-- A number with a base of its own. -/
def radixNumber : Parser Unit := do
  chars ['0']
  let base ← satisfy (fun c => "xXbBoO".toList.contains c)
  let allowed : Char → Bool :=
    if base = 'x' || base = 'X' then isHexDigit
    else if base = 'b' || base = 'B' then fun c => c = '0' || c = '1'
    else fun c => '0' ≤ c && c ≤ '7'
  digits allowed

/-- A decimal number. -/
def decimalNumber : Parser Unit :=
  (do
    digits Char.isDigit
    let _ ← maybe (do chars ['.']; maybe (digits Char.isDigit))
    let _ ← maybe exponent) <|>
  (do
    chars ['.']
    digits Char.isDigit
    let _ ← maybe exponent)

/-- A number. -/
def number : Parser Unit :=
  token do
    radixNumber <|> decimalNumber
    let _ ← maybe (chars ['n'])
    notAhead (satisfy isWordStart)

/-- An escape in a string. -/
def stringEscape : Parser (List Char) := do
  chars ['\\']
  let c ← satisfy (fun _ => true)
  if c = 'u' then codePoint
  else if c = 'x' then hexDigits 2
  else if c = '\r' then do let _ ← maybe (chars ['\n'])
  pure []

/-- A string, without what stands in front of it. One that is not closed ends with its line. -/
def rawString : Parser Unit := do
  let quote ← satisfy (fun c => c = '\x22' || c = '\x27')
  let plain : Char → Bool := fun c => c ≠ quote && c ≠ '\\' && c ≠ '\n' && c ≠ '\r'
  let _ ← many (takeWhile1 plain <|> stringEscape)
  chars [quote] <|> ahead (do let _ ← satisfy fun c => c = '\n' || c = '\r') <|>
    notAhead (satisfy fun _ => true)

/-- A string. -/
def string : Parser Unit :=
  token rawString

/-- A part of a regular expression: an escape, a class, or plain characters. -/
def regexPart : Parser Unit :=
  let escape : Parser Unit := do
    chars ['\\']
    let _ ← satisfy (fun c => !isLineEnd c)
  escape <|>
    (do
      chars ['[']
      let _ ← many (escape <|>
        do let _ ← takeWhile1 fun c => c ≠ ']' && c ≠ '\\' && !isLineEnd c)
      chars [']']) <|>
    (do
      let _ ← takeWhile1 fun c => c ≠ '/' && c ≠ '[' && c ≠ '\\' && !isLineEnd c)

/-- A regular expression. -/
def regularExpression : Parser Unit :=
  token do
    chars ['/']
    let _ ← many1 regexPart
    chars ['/']
    let _ ← takeWhile isWordPart

end BuildSync.TypeScript
