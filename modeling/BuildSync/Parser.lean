import BuildSync.Text.Span

/-! # Parsers of character lists

* `Reading`: what was read from the front of a text, and what is left, which is a part at its end
  by construction.
* `Parser`: a function from a text to a reading, or none. Parsers are a monad, and `<|>` tries a
  second parser where the first fails.
* `Parser.many`: repeats a parser while it reads something; always ends.
-/

namespace BuildSync

/-- A value read from the front of `text`, and what is left of it. -/
structure Reading (text : List Char) (α : Type) where
  value : α
  rest : List Char
  suffix : rest <:+ text

/-- Reads a value from the front of a text, if it can. -/
def Parser (α : Type) : Type :=
  (text : List Char) → Option (Reading text α)

namespace Parser

/-- Reads nothing. -/
def done (a : α) : Parser α := fun text =>
  some ⟨a, text, List.suffix_refl text⟩

/-- Reads with `p`, then with the parser that its value chooses. -/
def andThen (p : Parser α) (f : α → Parser β) : Parser β := fun text =>
  match p text with
  | none => none
  | some r =>
    match f r.value r.rest with
    | none => none
    | some r' => some ⟨r'.value, r'.rest, r'.suffix.trans r.suffix⟩

instance : Monad Parser where
  pure := done
  bind := andThen

/-- Reads with `p`, or else with `q`. -/
def orElse (p : Parser α) (q : Unit → Parser α) : Parser α := fun text =>
  match p text with
  | some r => some r
  | none => q () text

instance : Alternative Parser where
  failure := fun _ => none
  orElse := orElse

/-- Reads nothing, and tells how many bytes are left. -/
def bytesLeft : Parser Nat := fun text =>
  some ⟨Text.width text, text, List.suffix_refl text⟩

/-- Reads one character, if there is one that satisfies `p`. -/
def satisfy (p : Char → Bool) : Parser Char := fun text =>
  match text with
  | [] => none
  | c :: cs => if p c then some ⟨c, cs, List.suffix_cons c cs⟩ else none

/-- Reads the characters that satisfy `p`, as many as there are. -/
def takeWhile (p : Char → Bool) : Parser (List Char) := fun text =>
  some ⟨text.takeWhile p, text.dropWhile p, List.dropWhile_suffix p⟩

/-- Characters that satisfy `p`, at least one. -/
def takeWhile1 (p : Char → Bool) : Parser (List Char) := do
  let first ← satisfy p
  let rest ← takeWhile p
  pure (first :: rest)

/-- Reads exactly the given characters. -/
def chars : List Char → Parser Unit
  | [] => pure ()
  | c :: cs => do
    let _ ← satisfy (· = c)
    chars cs

/-- Reads nothing, and succeeds if `p` can read something. -/
def ahead (p : Parser α) : Parser α := fun text =>
  match p text with
  | none => none
  | some r => some ⟨r.value, text, List.suffix_refl text⟩

/-- Reads nothing, and succeeds if `p` cannot read anything. -/
def notAhead (p : Parser α) : Parser Unit := fun text =>
  match p text with
  | none => some ⟨(), text, List.suffix_refl text⟩
  | some _ => none

/-- Reads with `p` if it can. -/
def maybe (p : Parser α) : Parser (Option α) :=
  (some <$> p) <|> pure none

/-- Reads with `p` if it can, and tells whether it could. -/
def possibly (p : Parser α) : Parser Bool :=
  (do let _ ← p; pure true) <|> pure false

/-- Succeeds without reading if a condition holds. -/
def require (condition : Bool) : Parser Unit :=
  if condition then pure () else failure

/-- Reads with `p` again and again, at most `n` times, as long as it reads something. -/
def upTo (p : Parser α) : Nat → Parser (List α)
  | 0 => pure []
  | n + 1 => fun text =>
    match p text with
    | none => some ⟨[], text, List.suffix_refl text⟩
    | some r =>
      if r.rest.length = text.length then some ⟨[], text, List.suffix_refl text⟩
      else
        match upTo p n r.rest with
        | none => none
        | some r' => some ⟨r.value :: r'.value, r'.rest, r'.suffix.trans r.suffix⟩

/-- Reads with `p` again and again as long as it reads something. -/
def many (p : Parser α) : Parser (List α) := fun text =>
  upTo p text.length text

/-- Reads with `p` at least once. -/
def many1 (p : Parser α) : Parser (List α) := do
  let first ← p
  let rest ← many p
  pure (first :: rest)

/-- Reads what `p` reads, with `separator` in between, once or more. -/
def separated1 (p : Parser α) (separator : Parser β) : Parser (List α) := do
  let first ← p
  let rest ← many (do let _ ← separator; p)
  pure (first :: rest)

/-- Reads what `p` reads, with `separator` in between and perhaps at the end. -/
def separated (p : Parser α) (separator : Parser β) : Parser (List α) :=
  (do
    let all ← separated1 p separator
    let _ ← maybe separator
    pure all) <|> pure []

end Parser

end BuildSync
