import BuildSync.TypeScript.Types

/-! # Functions and classes

The rules for bodies of functions, and for classes and their members.
-/

namespace BuildSync.TypeScript.Grammar

open BuildSync.Parser

/-! ## Functions -/

/-- Statements in braces. -/
def block (g : Grammar) : Parser Unit :=
  braces do let _ ← many (g.rule .statement)

/-- The body of a function; a mere declaration leaves it out. -/
def functionBody (g : Grammar) : Parser Unit :=
  g.block <|> do
    notAhead (symbol "\x7b")
    semicolon

/-- A function from its parameters on. -/
def functionTail (g : Grammar) : Parser Unit := do
  g.signature
  g.functionBody

/-- The word that starts a function, with the word that makes it run on its own. -/
def functionHead : Parser Unit := do
  let _ ← maybe (do keyword "async"; sameLine)
  keyword "function"
  let _ ← maybe (symbol "*")

/-- A function as a value. -/
def functionExpression (g : Grammar) : Parser Unit := do
  functionHead
  let _ ← maybe identifier
  g.functionTail

/-- A function with a name. -/
def functionDeclaration (g : Grammar) : Parser Unit := do
  functionHead
  let _ ← identifier
  g.functionTail

/-! ## Classes -/

/-- The words that may stand in front of a member's name. -/
def memberWords : List String :=
  ["declare", "abstract", "static", "public", "private", "protected", "readonly", "override",
    "async", "get", "set", "accessor"]

/-- A method, or a property with its type and value. -/
def namedMember (g : Grammar) : Parser Unit := do
  let _ ← maybe (symbol "*")
  g.propertyName
  let _ ← maybe (oneMark ["?", "!"])
  g.functionTail <|> do
    let _ ← maybe g.annotation
    let _ ← maybe g.initializer
    semicolon

/-- A member of a class. -/
def classMember (g : Grammar) : Parser Unit :=
  symbol ";" <|>
  (do
    keyword "static"
    g.block) <|>
  (do
    let _ ← many g.decorator
    let _ ← many (modifier memberWords)
    (do
      g.indexSignature
      semicolon) <|> g.namedMember)

/-- A type that a class or interface takes over. -/
def heritage (g : Grammar) : Parser Unit := do
  qualifiedName
  let _ ← maybe g.typeArguments

/-- A class from its parameters on. -/
def classTail (g : Grammar) : Parser Unit := do
  let _ ← maybe g.typeParameters
  let _ ← maybe (do
    keyword "extends"
    g.rule .access
    maybe g.typeArguments)
  let _ ← maybe (do
    keyword "implements"
    separated1 g.heritage (symbol ","))
  braces do let _ ← many g.classMember

/-- The name of a class. -/
def className : Parser Unit := do
  notAhead (keyword "implements")
  let _ ← identifier

/-- A class as a value. -/
def classExpression (g : Grammar) : Parser Unit := do
  let _ ← many g.decorator
  keyword "class"
  let _ ← maybe className
  g.classTail

/-- A class with a name, without what stands in front of its first word. -/
def namedClass (g : Grammar) : Parser Unit := do
  keyword "class"
  className
  g.classTail

end BuildSync.TypeScript.Grammar
