import BuildSync.Text.Span

/-! # Tokens of a BUILD file

* `Token`: a lexeme with its kind and the byte it starts at.
* `lexeme?`: the kind and length of the lexeme at the front of a text.
* `tokens`: the tokens of a text; blanks and continued lines between them are left out.
-/

namespace BuildSync.Build

/-- The three kinds of brackets. -/
inductive Bracket
  | round
  | square
  | curly
deriving DecidableEq, Repr

/-- What a token is. -/
inductive TokenKind
  | word
  | string
  | number
  | comment
  | newline
  | opening (bracket : Bracket)
  | closing (bracket : Bracket)
  | comma
  | equals
  | operator
deriving DecidableEq, Repr

/-- A lexeme and where it starts. -/
structure Token where
  kind : TokenKind
  start : Nat
  text : List Char
deriving DecidableEq, Repr

namespace Token

/-- The byte after the token. -/
def stop (t : Token) : Nat :=
  t.start + Text.width t.text

/-- A newline or a comment. -/
def isTrivia (t : Token) : Bool :=
  t.kind = .newline || t.kind = .comment

end Token

/-! ## Lexemes -/

/-- A letter, a digit or an underscore. -/
def isWordChar (c : Char) : Bool :=
  c.isAlphanum || c = '_'

/-- A blank that separates tokens: space, tab, carriage return or form feed. -/
def isGap (c : Char) : Bool :=
  c = ' ' || c = '\t' || c = '\r' || c = '\x0c'

/-- A single or double quote. -/
def isQuote (c : Char) : Bool :=
  c = '\x22' || c = '\x27'

/-- The operators that may be followed by `=`. -/
def takesEquals (c : Char) : Bool :=
  c ∈ ['=', '!', '<', '>', '+', '-', '*', '/', '%', '|', '&', '^']

/-- What may stand before a string's opening quote. -/
def stringMarks : List (List Char) :=
  ["r", "b", "rb", "br", "R", "B", "Rb", "bR"].map String.toList

/-- How many characters of a one-line string follow its opening quote. -/
def shortString? (quote : Char) : List Char → Option Nat
  | [] => none
  | ['\\'] => none
  | '\\' :: _ :: cs => (shortString? quote cs).map (· + 2)
  | c :: cs =>
    if c = quote then some 1 else if c = '\n' then none else (shortString? quote cs).map (· + 1)

/-- How many characters of a string in triple quotes follow its opening quotes. -/
def longString? (quote : Char) : List Char → Option Nat
  | [] => none
  | ['\\'] => none
  | '\\' :: _ :: cs => (longString? quote cs).map (· + 2)
  | c :: cs =>
    if (c :: cs).take 3 = [quote, quote, quote] then some 3
    else (longString? quote cs).map (· + 1)

/-- How many characters of a string follow the first quote, none if it does not end. -/
def stringLength? (quote : Char) (cs : List Char) : Option Nat :=
  match cs with
  | q₁ :: q₂ :: rest =>
    if q₁ = quote ∧ q₂ = quote then (longString? quote rest).map (· + 2)
    else shortString? quote cs
  | _ => shortString? quote cs

/-- The kind of the lexeme that starts with `c`, and how many of the characters after `c` belong
to it; none in front of a string that does not end. -/
def lexeme? (c : Char) (cs : List Char) : Option (TokenKind × Nat) :=
  match c with
  | '\n' => some (.newline, 0)
  | '#' => some (.comment, (cs.takeWhile (· ≠ '\n')).length)
  | '(' => some (.opening .round, 0)
  | ')' => some (.closing .round, 0)
  | '[' => some (.opening .square, 0)
  | ']' => some (.closing .square, 0)
  | '{' => some (.opening .curly, 0)
  | '}' => some (.closing .curly, 0)
  | ',' => some (.comma, 0)
  | _ =>
    if isQuote c then (stringLength? c cs).map (.string, ·)
    else if takesEquals c && cs.head? = some '=' then some (.operator, 1)
    else if c = '=' then some (.equals, 0)
    else if c.isDigit then
      some (.number, (cs.takeWhile fun c => c.isAlphanum || c = '.').length)
    else if isWordChar c then
      let word := cs.takeWhile isWordChar
      match cs.drop word.length with
      | quote :: rest =>
        if isQuote quote && (c :: word) ∈ stringMarks then
          (stringLength? quote rest).map (.string, word.length + 1 + ·)
        else some (.word, word.length)
      | [] => some (.word, word.length)
    else some (.operator, 0)

/-- The tokens of a text whose first byte is the byte `pos`, or the byte at which a string starts
that does not end. -/
def tokens (pos : Nat) : List Char → Except Nat (List Token)
  | [] => .ok []
  | c :: cs =>
    if isGap c then tokens (pos + 1) cs
    else if c = '\\' ∧ cs.head? = some '\n' then tokens (pos + 2) cs.tail
    else
      match lexeme? c cs with
      | none =>
        let mark := cs.takeWhile isWordChar
        .error (if isQuote c then pos else pos + 1 + mark.length)
      | some (kind, n) =>
        let token : Token := ⟨kind, pos, c :: cs.take n⟩
        (tokens token.stop (cs.drop n)).map (token :: ·)
termination_by cs => cs.length
decreasing_by
  all_goals
    simp only [List.length_cons, List.length_tail, List.length_drop]
    omega

end BuildSync.Build
