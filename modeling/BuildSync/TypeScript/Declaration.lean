import BuildSync.TypeScript.Expression

/-! # Declarations

The rules for variables, functions, classes, enumerations, interfaces, names of types, and
namespaces.

Some of their first words are no reserved words, and are names where a line ends behind them. Behind
`export` or `declare` such a word can be no name: there the declaration is *marked*, and the line
may end.
-/

namespace BuildSync.TypeScript.Grammar

open BuildSync.Parser

/-! ## Variables -/

/-- The word that starts a declaration of variables. -/
def variableWord : Parser Unit :=
  (do let _ ← oneOf ["var", "let", "const"]) <|>
  (do
    let _ ← maybe (keyword "await")
    keyword "using"
    sameLine
    ahead do
      notAhead (oneOf ["of", "in"])
      let _ ← identifier)

/-- A variable with its type and value. -/
def binding (g : Grammar) (inAllowed : Bool) : Parser Unit := do
  g.rule .pattern
  let _ ← maybe (symbol "!")
  let _ ← maybe g.annotation
  let _ ← maybe (do
    symbol "="
    g.rule (.assignment inAllowed true))

/-- Variables with commas in between. -/
def variableList (g : Grammar) (inAllowed : Bool) : Parser Unit := do
  variableWord
  let _ ← separated1 (g.binding inAllowed) (symbol ",")

/-- A declaration of variables. -/
def variableDeclaration (g : Grammar) : Parser Unit := do
  g.variableList true
  semicolon

/-! ## Types with a name -/

/-- A list of named values. -/
def enumeration (g : Grammar) : Parser Unit := do
  let _ ← maybe (keyword "const")
  keyword "enum"
  let _ ← identifier
  braces do
    let _ ← commas (do
      g.propertyName
      maybe g.initializer)

/-- An object type with a name, after its first word. -/
def interfaceTail (g : Grammar) : Parser Unit := do
  let _ ← identifier
  let _ ← maybe g.typeParameters
  let _ ← maybe (do
    keyword "extends"
    separated1 g.heritage (symbol ","))
  g.typeMembers

/-- A name for a type, after its first word. -/
def typeAliasTail (g : Grammar) : Parser Unit := do
  let _ ← identifier
  let _ ← maybe g.typeParameters
  symbol "="
  g.type
  semicolon

/-! ## Namespaces -/

/-- The items of a namespace. -/
def items (g : Grammar) : Parser Unit :=
  braces do let _ ← many (g.rule .item)

/-- A namespace with its items, after its first word. -/
def namespaceTail (g : Grammar) : Parser Unit := do
  let _ ← identifier
  let _ ← many (do symbol "."; word)
  g.items

/-- A namespace, or what another module holds, after the first word. -/
def moduleTail (g : Grammar) : Parser Unit :=
  g.namespaceTail <|> do
    string
    g.items <|> semicolon

/-- What every module can use. -/
def globalDeclaration (g : Grammar) : Parser Unit := do
  keyword "global"
  g.items

/-! ## All declarations -/

/-- The first word of a declaration, on the line of its next word unless the declaration is
marked. -/
def leadingWord (marked : Bool) (text : String) : Parser Unit := do
  keyword text
  require marked <|> sameLine

/-- A class with a name, after the words that it may start with. -/
def classDeclaration (g : Grammar) (marked : Bool) : Parser Unit := do
  let _ ← many g.decorator
  let _ ← maybe (leadingWord marked "abstract")
  g.namedClass

/-- A declaration; one that is marked may be exported. -/
def declaration (g : Grammar) (marked : Bool) : Parser Unit :=
  g.enumeration <|>
  g.variableDeclaration <|>
  g.functionDeclaration <|>
  g.classDeclaration marked <|>
  (do
    leadingWord marked "interface"
    g.interfaceTail) <|>
  (do
    leadingWord marked "type"
    g.typeAliasTail) <|>
  (do
    keyword "namespace"
    g.namespaceTail) <|>
  (do
    require (!marked) <|> sameLine
    leadingWord marked "module"
    g.moduleTail)

/-- A declaration of something that is defined elsewhere. -/
def ambientDeclaration (g : Grammar) : Parser Unit := do
  keyword "declare"
  g.declaration true <|> g.globalDeclaration

end BuildSync.TypeScript.Grammar
