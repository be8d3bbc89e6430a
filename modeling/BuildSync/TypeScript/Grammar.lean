import BuildSync.TypeScript.Lexeme

/-! # Goals of the grammar

The rules of the language refer to each other in circles. Each rule is a function of a `Grammar`,
which holds parsers for the goals that a rule comes back to; a rule uses them only after it has
read something.

This module also holds what several kinds of rules share: brackets, names of properties, patterns
of variables, and templates.
-/

namespace BuildSync.TypeScript

/-- The parts of a program that rules come back to. -/
inductive Goal
  /-- Assignments with commas in between; the flag allows the operator `in`. -/
  | expression (inAllowed : Bool)
  /-- One assignment; the second flag allows an arrow function to state its type. -/
  | assignment (inAllowed typed : Bool)
  /-- An operand with the accesses and calls that follow it. -/
  | access
  /-- An operand of `new`, with accesses only. -/
  | callee
  /-- An element of markup, after its `<`. -/
  | element
  | type
  /-- What a variable may be declared as. -/
  | pattern
  | statement
  /-- A statement of a module or namespace. -/
  | item
deriving DecidableEq

/-- Parsers for the goals, and whether the program may hold markup. -/
structure Grammar where
  markup : Bool
  rule : Goal → Parser Unit

open BuildSync.Parser

namespace Grammar

/-! ## Brackets -/

/-- What stands in parentheses. -/
def parens (p : Parser α) : Parser α := do
  symbol "("
  let a ← p
  symbol ")"
  pure a

/-- What stands in square brackets. -/
def brackets (p : Parser α) : Parser α := do
  symbol "["
  let a ← p
  symbol "]"
  pure a

/-- What stands in braces. -/
def braces (p : Parser α) : Parser α := do
  symbol "\x7b"
  let a ← p
  symbol "\x7d"
  pure a

/-- Items with commas in between. -/
def commas (p : Parser α) : Parser (List α) :=
  separated p (symbol ",")

/-- Items with commas in between, at least one. -/
def commas1 (p : Parser α) : Parser (List α) := do
  let all ← separated1 p (symbol ",")
  let _ ← maybe (symbol ",")
  pure all

/-- One of the given marks. -/
def oneMark (texts : List String) : Parser Unit := do
  let found ← mark
  require (texts.contains found)

/-! ## Goals by name -/

/-- An expression. -/
def expression (g : Grammar) : Parser Unit := g.rule (.expression true)

/-- An assignment. -/
def assignment (g : Grammar) : Parser Unit := g.rule (.assignment true true)

/-- A type. -/
def type (g : Grammar) : Parser Unit := g.rule .type

/-! ## Names -/

/-- A name that only the class it is declared in can use. -/
def privateName : Parser Unit :=
  token do
    chars ['#']
    let _ ← rawWord

/-- The name of a property. -/
def propertyName (g : Grammar) : Parser Unit :=
  (do let _ ← word) <|> string <|> number <|> privateName <|> brackets g.assignment

/-- Reads nothing, and succeeds in front of the name of a property. -/
def nameAhead : Parser Unit :=
  ahead ((do let _ ← word) <|> string <|> number <|> privateName <|> symbol "[" <|> symbol "*")

/-- One of the given words in front of the name it belongs to. -/
def modifier (words : List String) : Parser Unit := do
  let _ ← oneOf words
  nameAhead

/-- A name followed by the names of parts. -/
def qualifiedName : Parser Unit := do
  (do let _ ← identifier) <|> keyword "this"
  let _ ← many (do symbol "."; word)

/-! ## Templates -/

/-- A piece of a template between its placeholders. -/
def templateText : Parser Unit :=
  (do let _ ← takeWhile1 fun c => c ≠ '\x60' && c ≠ '\\' && c ≠ '$') <|>
  (do
    chars ['\\']
    let _ ← satisfy (fun _ => true)) <|>
  (do
    chars ['$']
    notAhead (chars ['\x7b']))

/-- A template whose placeholders hold what `p` reads. -/
def template (p : Parser Unit) : Parser Unit :=
  token do
    chars ['\x60']
    let _ ← many (templateText <|> do
      chars ['$', '\x7b']
      p
      token (chars ['\x7d']))
    chars ['\x60']

/-! ## Patterns -/

/-- The value that a variable starts with. -/
def initializer (g : Grammar) : Parser Unit := do
  symbol "="
  g.assignment

/-- A part of a pattern, with the value it takes where none is given. -/
def patternElement (g : Grammar) : Parser Unit := do
  let _ ← maybe (symbol "...")
  g.rule .pattern
  let _ ← maybe g.initializer

/-- A property in a pattern. -/
def patternProperty (g : Grammar) : Parser Unit :=
  (do
    symbol "..."
    g.rule .pattern) <|>
  (do
    g.propertyName
    symbol ":"
    g.patternElement) <|>
  (do
    let _ ← identifier
    let _ ← maybe g.initializer)

/-- What a variable may be declared as: a name, or a pattern of names. -/
def pattern (g : Grammar) : Parser Unit :=
  (do let _ ← identifier) <|>
  braces (do let _ ← commas g.patternProperty) <|>
  brackets (do
    let _ ← many (symbol ",")
    let _ ← separated g.patternElement (many1 (symbol ",")))

end Grammar

end BuildSync.TypeScript
