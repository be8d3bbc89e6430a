import BuildSync.Parser

/-! # JSON

* `Json`: a JSON value. The fields of an object keep their order, and a key may stand twice.
* `Json.parse?`: the value of a text.
* `Json.field?`, `Json.text?`, `Json.list?`, `Json.fields?`: what a value holds.
-/

namespace BuildSync

/-- A JSON value. -/
inductive Json
  | null
  | flag (value : Bool)
  /-- A number as it is written. -/
  | number (digits : String)
  | text (text : String)
  | list (items : List Json)
  | object (fields : List (String × Json))

namespace Json

/-! ## Parts of values -/

/-- A text. -/
def text? : Json → Option String
  | text s => some s
  | _ => none

/-- The items of an array. -/
def list? : Json → Option (List Json)
  | list items => some items
  | _ => none

/-- The fields of an object. -/
def fields? : Json → Option (List (String × Json))
  | object fields => some fields
  | _ => none

/-- The last field of a key. -/
def field? (json : Json) (key : String) : Option Json :=
  (json.fields?.getD []).reverse.lookup key

/-! ## Lexemes -/

open BuildSync.Parser

/-- Blanks between lexemes. -/
def blanks : Parser Unit := do
  let _ ← takeWhile fun c => c = ' ' || c = '\t' || c = '\n' || c = '\r'

/-- A mark, after blanks. -/
def mark (c : Char) : Parser Unit := do
  blanks
  chars [c]

/-- The value of a hexadecimal digit. -/
def hexDigit? (c : Char) : Option Nat :=
  if '0' ≤ c ∧ c ≤ '9' then some (c.toNat - 48)
  else if 'a' ≤ c ∧ c ≤ 'f' then some (c.toNat - 87)
  else if 'A' ≤ c ∧ c ≤ 'F' then some (c.toNat - 55)
  else none

/-- A hexadecimal digit. -/
def hexDigit : Parser Nat := do
  let c ← satisfy fun c => (hexDigit? c).isSome
  pure ((hexDigit? c).getD 0)

/-- Four hexadecimal digits. -/
def unit : Parser Nat := do
  let a ← hexDigit
  let b ← hexDigit
  let c ← hexDigit
  let d ← hexDigit
  pure (((a * 16 + b) * 16 + c) * 16 + d)

/-- A character written by its number, perhaps in two halves. -/
def numbered : Parser Char := do
  let high ← unit
  if 0xD800 ≤ high && high ≤ 0xDBFF then
    chars ['\\', 'u']
    let low ← unit
    require (0xDC00 ≤ low && low ≤ 0xDFFF)
    pure (Char.ofNat (0x10000 + (high - 0xD800) * 0x400 + (low - 0xDC00)))
  else
    require (!(0xDC00 ≤ high && high ≤ 0xDFFF))
    pure (Char.ofNat high)

/-- The characters that are written with a letter after a backslash. -/
def escapes : List (Char × Char) :=
  [('\x22', '\x22'), ('\\', '\\'), ('/', '/'), ('b', '\x08'), ('f', '\x0C'), ('n', '\n'),
    ('r', '\r'), ('t', '\t')]

/-- A character that is written with a backslash. -/
def escaped : Parser Char := do
  chars ['\\']
  let c ← satisfy fun _ => true
  if c = 'u' then numbered
  else
    match escapes.lookup c with
    | some c => pure c
    | none => failure

/-- A character that stands for itself in a text. -/
def isPlain (c : Char) : Bool :=
  c ≠ '\x22' && c ≠ '\\' && 0x20 ≤ c.toNat

/-- A text in quotes. -/
def quoted : Parser String := do
  mark '\x22'
  let parts ← many (takeWhile1 isPlain <|> (List.singleton <$> escaped))
  chars ['\x22']
  pure (String.ofList parts.flatten)

/-- A digit of a number. -/
def isDigit (c : Char) : Bool :=
  '0' ≤ c && c ≤ '9'

/-- A mark that may be left out. -/
def sign (marks : List Char) : Parser (List Char) :=
  (List.singleton <$> satisfy fun c => marks.contains c) <|> pure []

/-- A number. -/
def numeral : Parser String := do
  blanks
  let minus ← sign ['-']
  let whole ← (do chars ['0']; pure ['0']) <|> takeWhile1 isDigit
  let fraction ← (do chars ['.']; List.cons '.' <$> takeWhile1 isDigit) <|> pure []
  let exponent ← (do
    let _ ← satisfy fun c => c = 'e' || c = 'E'
    let plus ← sign ['+', '-']
    let power ← takeWhile1 isDigit
    pure ('e' :: plus ++ power)) <|> pure []
  pure (String.ofList (minus ++ whole ++ fraction ++ exponent))

/-- A value that is a word. -/
def constant : Parser Json := do
  blanks
  (do chars "null".toList; pure null) <|>
    (do chars "true".toList; pure (flag true)) <|>
    (do chars "false".toList; pure (flag false))

/-! ## Values -/

/-- Items with commas in between, or none. -/
def items (p : Parser α) : Parser (List α) :=
  separated1 p (mark ',') <|> pure []

/-- A value whose items are read by `p`. -/
def valueOf (p : Parser Json) : Parser Json :=
  (text <$> quoted) <|>
  (do
    mark '['
    let all ← items p
    mark ']'
    pure (list all)) <|>
  (do
    mark '\x7b'
    let all ← items (do
      let key ← quoted
      mark ':'
      let value ← p
      pure (key, value))
    mark '\x7d'
    pure (object all)) <|>
  (number <$> numeral) <|>
  constant

/-- A value with at most `depth` values around one another. -/
def value : (depth : Nat) → Parser Json
  | 0 => failure
  | depth + 1 => valueOf (value depth)

/-- The value of a text, whose values are no deeper than the text is long. -/
def parse? (source : String) : Option Json :=
  let cs := source.toList
  ((do
    let json ← value (cs.length + 1)
    blanks
    notAhead (satisfy fun _ => true)
    pure json : Parser Json) cs).map (·.value)

end Json

end BuildSync
