import BuildSync.Import
import BuildSync.TypeScript.Statement

/-! # Modules

A module is a list of items: statements, and declarations that import or export something. Of the
latter the rules keep those that name another module, as `Clause`s.

* `Clause`: how it uses the module, and where it stands, counted in bytes from the end of the text.
* `Grammar.item`: reads an item.
-/

namespace BuildSync.TypeScript

open BuildSync.Parser

/-- A place between two positions, each counted in bytes from the end of the text. -/
structure Stretch where
  start : Nat
  stop : Nat
deriving DecidableEq, Repr

/-- A declaration that names another module. -/
structure Clause where
  kind : ImportKind
  whole : Stretch
  /-- The name of the module, with its quotes. -/
  name : Stretch
deriving DecidableEq, Repr

namespace Grammar

/-- The position of the next lexeme, in bytes from the end. -/
def position : Parser Nat := do
  let _ ← trivia
  bytesLeft

/-- What `p` reads, and where it stands. -/
def stretch (p : Parser α) : Parser (α × Stretch) := do
  let start ← position
  let a ← p
  let stop ← bytesLeft
  pure (a, ⟨start, stop⟩)

/-- The name of a module. -/
def moduleName : Parser Stretch := do
  let (_, place) ← stretch string
  pure place

/-- What is said about how a module is loaded. -/
def loadAttributes (g : Grammar) : Parser Unit := do
  let _ ← maybe (do
    sameLine
    let _ ← oneOf ["with", "assert"]
    g.objectLiteral)

/-- The rest of a declaration from the name of a module on. -/
def source (g : Grammar) : Parser Stretch := do
  let name ← moduleName
  g.loadAttributes
  semicolon
  pure name

/-- The rest of a declaration that takes something from a module. -/
def fromSource (g : Grammar) : Parser Stretch := do
  keyword "from"
  g.source

/-! ## Names that are imported or exported -/

/-- A name in a list of imports or exports; one in quotes is none. -/
def listedName : Parser (Option String) :=
  (some <$> word) <|>
  (do
    string
    pure none)

/-- A name that is imported or exported, under another name if one is given. -/
structure Listed where
  typeOnly : Bool
  name : Option String
  newName : Option String

/-- A name in a list from its words. -/
def Listed.ofWords? : List (Option String) → Option Listed
  | [a] => some ⟨false, a, a⟩
  | [a, some "as", b] => some ⟨false, a, b⟩
  | [some "type", a] => some ⟨true, a, a⟩
  | [some "type", a, some "as", b] => some ⟨true, a, b⟩
  | _ => none

/-- A name can be given to a variable. -/
def isBindable : Option String → Bool
  | some name => !reservedWords.contains name
  | none => false

/-- A name in a list. -/
def listed : Parser Listed := do
  let words ← many1 listedName
  match Listed.ofWords? words with
  | some entry => pure entry
  | none => failure

/-- Names in braces. -/
def listedNames : Parser (List Listed) :=
  braces (commas listed)

/-- A list has names, all of them of types. -/
def isTypesOnly (names : List Bool) : Bool :=
  !names.isEmpty && names.all id

/-! ## Imports -/

/-- The word that makes an import one of types. -/
def importedTypeWord : Parser Bool :=
  (do
    keyword "type"
    ahead (oneMark ["*", "\x7b"] <|> do
      let name ← identifier
      require (name ≠ "from") <|> keyword "from" <|> symbol "=")
    pure true) <|> pure false

/-- The word that puts off a part of loading a module. -/
def phaseWord : Parser Unit := do
  let _ ← maybe (do
    let _ ← oneOf ["defer", "source"]
    ahead (symbol "*" <|> do
      let name ← identifier
      require (name ≠ "from") <|> keyword "from"))

/-- What an import gives a name to: another module, or a part of a namespace. -/
def aliasTarget : Parser (Option Stretch) := do
  symbol "="
  let target ← (do
    keyword "require"
    some <$> parens moduleName) <|> (do
    qualifiedName
    pure none)
  semicolon
  pure target

/-- An import that gives one name, after its first word. -/
def importAlias : Parser (Option (ImportKind × Stretch)) := do
  let typeOnly ← importedTypeWord
  let _ ← identifier
  let target ← aliasTarget
  pure (target.map fun name => (if typeOnly then .typeOnly else .value, name))

/-- The names behind the first of an import; the flags tell which are of types. -/
def importedNames : Parser (List Bool) :=
  (do
    symbol "*"
    keyword "as"
    let _ ← identifier
    pure [false]) <|>
  (do
    let names ← listedNames
    require (names.all fun entry => isBindable entry.newName)
    pure (names.map (·.typeOnly))) <|>
  pure []

/-- An import of names, after its first word. -/
def importNames (g : Grammar) : Parser (ImportKind × Stretch) := do
  let typeOnly ← importedTypeWord
  phaseWord
  let first ← maybe identifier
  require first.isNone <|> ahead (keyword "from") <|> symbol ","
  let others ← importedNames
  let names := if first.isSome then false :: others else others
  let name ← g.fromSource
  let kind : ImportKind :=
    if typeOnly || isTypesOnly names then .typeOnly
    else if names.isEmpty then .sideEffect
    else .value
  pure (kind, name)

/-- An import that only runs a module, after its first word. -/
def importEffect (g : Grammar) : Parser (ImportKind × Stretch) := do
  let name ← g.source
  pure (.sideEffect, name)

/-- An import. -/
def importDeclaration (g : Grammar) : Parser (Option (ImportKind × Stretch)) := do
  keyword "import"
  (some <$> g.importEffect) <|> importAlias <|> (some <$> g.importNames)

/-! ## Exports -/

/-- The kind of an export from another module. -/
def reexportKind (typeOnly : Bool) : ImportKind :=
  if typeOnly then .typeOnly else .reexport

/-- An export of all that a module exports, after its first word. -/
def exportAll (g : Grammar) : Parser (Option (ImportKind × Stretch)) := do
  let typeOnly ← possibly (keyword "type")
  symbol "*"
  let _ ← maybe (do
    keyword "as"
    listedName)
  let name ← g.fromSource
  pure (some (reexportKind typeOnly, name))

/-- An export of names, of this module or another, after its first word. -/
def exportNames (g : Grammar) : Parser (Option (ImportKind × Stretch)) := do
  let typeOnly ← possibly (keyword "type")
  let names ← listedNames
  let elsewhere ← maybe (ahead (keyword "from"))
  match elsewhere with
  | some _ =>
    let name ← g.fromSource
    pure (some (reexportKind (typeOnly || isTypesOnly (names.map (·.typeOnly))), name))
  | none =>
    require (names.all fun entry => isBindable entry.name)
    semicolon
    pure none

/-- An export of an imported name, after its first word. -/
def exportAlias : Parser (Option (ImportKind × Stretch)) := do
  keyword "import"
  importAlias

/-- What a module exports without a name. -/
def defaultExport (g : Grammar) : Parser Unit := do
  keyword "default"
  g.classDeclaration true <|>
    (do
      let _ ← many g.decorator
      let _ ← maybe (keyword "abstract")
      keyword "class"
      g.classTail) <|>
    g.functionExpression <|>
    (do
      keyword "interface"
      g.interfaceTail) <|>
    (do
      notAhead (functionHead <|> keyword "class" <|> keyword "interface" <|> symbol "@")
      g.assignment
      semicolon)

/-- An export of something that this module holds, after its first word. -/
def exportOwn (g : Grammar) : Parser Unit :=
  g.defaultExport <|>
  (do
    symbol "="
    g.expression
    semicolon) <|>
  (do
    keyword "as"
    keyword "namespace"
    let _ ← identifier
    semicolon) <|>
  g.declaration true

/-- An export; of what is defined elsewhere it says so. -/
def exportDeclaration (g : Grammar) : Parser (Option (ImportKind × Stretch)) := do
  keyword "export"
  let elsewhere ← possibly (keyword "declare")
  g.exportAll <|> g.exportNames <|> exportAlias <|> do
    g.exportOwn <|> do
      require elsewhere
      g.globalDeclaration
    pure none

/-! ## Items -/

/-- An item of a module, and the clause it is if it names another module. -/
def item (g : Grammar) : Parser (Option Clause) := do
  let (found, whole) ← (do
    let _ ← many g.decorator
    stretch (g.importDeclaration <|> g.exportDeclaration)) <|> stretch (do
    g.rule .statement
    pure none)
  pure (found.map fun (kind, name) => ⟨kind, whole, name⟩)

end Grammar

end BuildSync.TypeScript
