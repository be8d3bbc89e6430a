import BuildSync.TypeScript.Grammar

/-! # Markup

Elements as values. An element that holds others is closed under the name it was opened with.
-/

namespace BuildSync.TypeScript.Grammar

open BuildSync.Parser

/-- A word of markup, which may hold hyphens. -/
def markupWord : Parser String :=
  token do
    let first ← satisfy isWordStart
    let rest ← takeWhile fun c => isWordPart c || c = '-'
    pure (String.ofList (first :: rest))

/-- The name of an element or attribute, with the marks between its words. -/
def markupName : Parser (List String) := do
  let first ← markupWord
  let rest ← many (do
    let divider ← token (satisfy fun c => c = '.' || c = ':')
    let part ← markupWord
    pure [divider.toString, part])
  pure (first :: rest.flatten)

/-- A text in quotes, in which nothing is escaped. -/
def markupString : Parser Unit :=
  token do
    let quote ← satisfy fun c => c = '\x22' || c = '\x27'
    let _ ← takeWhile (· ≠ quote)
    chars [quote]

/-- A value in braces, or nothing there. -/
def placeholder (g : Grammar) : Parser Unit :=
  braces do
    let _ ← maybe (do
      let _ ← maybe (symbol "...")
      g.expression)

/-- An element with its opening mark. -/
def markupElement (g : Grammar) : Parser Unit := do
  angle '<'
  g.rule .element

/-- An attribute of an element. -/
def markupAttribute (g : Grammar) : Parser Unit :=
  braces (do
    symbol "..."
    g.assignment) <|>
  (do
    let _ ← markupName
    let _ ← maybe (do
      symbol "="
      markupString <|> braces g.expression <|> g.markupElement))

/-- Something inside an element: text, a value, or an element. -/
def markupChild (g : Grammar) : Parser Unit :=
  (do let _ ← takeWhile1 fun c => c ≠ '<' && c ≠ '\x7b') <|>
  g.placeholder <|>
  (do
    notAhead (do chars ['<']; token (chars ['/']))
    g.markupElement)

/-- What an element holds, and its end under the given name. -/
def markupContents (g : Grammar) (name : Option (List String)) : Parser Unit := do
  let _ ← many g.markupChild
  chars ['<']
  token (chars ['/'])
  let closing ← maybe markupName
  require (closing = name)
  angle '>'

/-- An element after its opening mark. -/
def element (g : Grammar) (arguments : Parser Unit) : Parser Unit :=
  (do
    angle '>'
    g.markupContents none) <|>
  (do
    let name ← markupName
    let _ ← maybe arguments
    let _ ← many g.markupAttribute
    (do
      token (chars ['/'])
      angle '>') <|>
    (do
      angle '>'
      g.markupContents (some name)))

end BuildSync.TypeScript.Grammar
