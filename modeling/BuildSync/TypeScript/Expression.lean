import BuildSync.TypeScript.Function
import BuildSync.TypeScript.Markup

/-! # Expressions

The rules tell of each expression whether a value can be assigned to it. Operators of all ranks are
read alike, since only the extent of an expression matters here.
-/

namespace BuildSync.TypeScript.Grammar

open BuildSync.Parser

/-! ## Operands -/

/-- What a function is called with. -/
def arguments (g : Grammar) : Parser Unit :=
  parens do
    let _ ← commas (do
      let _ ← maybe (symbol "...")
      g.assignment)

/-- A list of values, some of them perhaps left out. -/
def arrayLiteral (g : Grammar) : Parser Unit :=
  brackets do
    let element := do
      let _ ← maybe (symbol "...")
      g.assignment
    let _ ← many (symbol ",")
    let _ ← separated element (many1 (symbol ","))

/-- A property of an object. -/
def objectMember (g : Grammar) : Parser Unit :=
  (do
    symbol "..."
    g.assignment) <|>
  (do
    g.propertyName
    symbol ":"
    g.assignment) <|>
  (do
    let _ ← many (modifier ["async", "get", "set"])
    let _ ← maybe (symbol "*")
    g.propertyName
    g.signature
    g.block) <|>
  (do
    let _ ← identifier
    let _ ← maybe g.initializer)

/-- An object made from its properties. -/
def objectLiteral (g : Grammar) : Parser Unit :=
  braces do let _ ← commas g.objectMember

/-- A new object of a class. -/
def construction (g : Grammar) : Parser Unit := do
  keyword "new"
  (do
    symbol "."
    keyword "target") <|>
  (do
    g.rule .callee
    let _ ← maybe g.typeArguments
    let _ ← maybe g.arguments)

/-- A module loaded while the program runs, or what is known of this one. -/
def importExpression (g : Grammar) : Parser Unit := do
  keyword "import"
  g.arguments <|>
  (do
    symbol "."
    keyword "meta") <|>
  (do
    symbol "."
    let _ ← oneOf ["defer", "source"]
    g.arguments)

/-- An operand that stands for itself. -/
def plainValue (g : Grammar) : Parser Unit :=
  template g.expression <|>
  string <|>
  number <|>
  regularExpression <|>
  g.functionExpression <|>
  g.classExpression <|>
  g.construction <|>
  g.importExpression <|>
  (do let _ ← oneOf ["this", "null", "true", "false", "super"]) <|>
  privateName <|>
  (do
    require g.markup
    g.markupElement)

/-- An operand without operators, accesses and calls. -/
def primary (g : Grammar) : Parser Bool :=
  (do
    parens g.expression
    pure true) <|>
  (do
    g.arrayLiteral
    pure true) <|>
  (do
    g.objectLiteral
    pure true) <|>
  (do
    g.plainValue
    pure false) <|>
  (do
    let _ ← identifier
    pure true)

/-! ## Accesses and calls -/

/-- The marks that continue an expression after the arguments of a type. -/
def followingMarks : List String :=
  [")", "]", "\x7d", ":", ";", ",", ".", "?.", "?", "=", "==", "===", "!=", "!==", "&&", "||", "??",
    "^", "&", "|", "*", "**", "%", "=>"]

/-- Reads nothing, and succeeds where arguments of a type may end. -/
def argumentsEnd : Parser Unit :=
  newline <|> ahead atEnd <|> ahead (oneMark ("(" :: followingMarks)) <|>
  ahead (token (chars ['\x60'])) <|>
  ahead (do let _ ← oneOf ["as", "satisfies", "in", "instanceof"])

/-- The arguments of a type within an expression. -/
def instantiation (g : Grammar) : Parser Unit := do
  g.typeArguments
  notAhead (oneMark ["<", ">", "+", "-"])
  argumentsEnd

/-- The name of a part of a value. -/
def memberName : Parser Unit :=
  (do let _ ← word) <|> privateName

/-- An access that is left out if the value is missing. -/
def optionalAccess (g : Grammar) : Parser Unit := do
  symbol "?."
  memberName <|> brackets g.expression <|> do
    let _ ← maybe g.typeArguments
    g.arguments

/-- An access to a part of a value, or a call. -/
def suffix (g : Grammar) (calls : Bool) : Parser Bool :=
  (do
    symbol "."
    memberName
    pure true) <|>
  (do
    brackets g.expression
    pure true) <|>
  (do
    template g.expression
    pure false) <|>
  (do
    sameLine
    symbol "!"
    pure true) <|>
  (do
    require calls
    g.arguments
    pure false) <|>
  (do
    require calls
    g.optionalAccess
    pure true) <|>
  (do
    require calls
    g.instantiation
    pure true)

/-- An operand with its accesses and calls. -/
def accessed (g : Grammar) (calls : Bool) : Parser Bool := do
  let first ← g.primary
  let rest ← many (g.suffix calls)
  pure (rest.getLast?.getD first)

/-! ## Operators -/

/-- A type that is claimed for the value behind it. -/
def assertion (g : Grammar) : Parser Unit := do
  require (!g.markup)
  angle '<'
  keyword "const" <|> g.type
  angle '>'

/-- An operator in front of its operand. -/
def frontOperator (g : Grammar) : Parser Bool :=
  (do
    oneMark ["!", "~", "+", "-", "++", "--"]
    pure false) <|>
  (do
    let _ ← oneOf ["typeof", "void", "delete", "await"]
    pure false) <|>
  (do
    g.assertion
    pure true)

/-- An operand with the operators that belong to it alone. -/
def operand (g : Grammar) : Parser Bool := do
  let fronts ← many g.frontOperator
  let target ← g.accessed true
  let stepped ← possibly (do
    sameLine
    oneMark ["++", "--"])
  pure (target && !stepped && fronts.all id)

/-- The marks that stand between two operands. -/
def operatorMarks : List String :=
  ["**", "*", "/", "%", "+", "-", "<<", ">>", ">>>", "<", ">", "<=", ">=", "==", "!=", "===", "!==",
    "&", "^", "|", "&&", "||", "??"]

/-- The words that stand between two operands. -/
def operatorWords (inAllowed : Bool) : List String :=
  if inAllowed then ["instanceof", "in"] else ["instanceof"]

/-- Operands with operators in between. -/
def operation (g : Grammar) (inAllowed : Bool) : Parser Bool := do
  let first ← g.operand
  let rest ← many
    ((do
      sameLine
      let _ ← oneOf ["as", "satisfies"]
      keyword "const" <|> g.type
      pure true) <|>
    (do
      oneMark operatorMarks <|> do let _ ← oneOf (operatorWords inAllowed)
      let _ ← g.operand
      pure false))
  pure (first && rest.all id)

/-! ## Functions written with an arrow -/

/-- What stands in front of an arrow; the first flag allows parameters of a type. -/
def arrowParameters (g : Grammar) (generic typed : Bool) : Parser Unit :=
  (do let _ ← identifier) <|>
  (do
    let _ ← maybe (do
      require generic
      g.typeParameters)
    g.parameters
    let _ ← maybe (do
      require typed
      g.resultAnnotation))

/-- The parameters of a function, up to its arrow. -/
def arrowHead (g : Grammar) (generic typed : Bool) : Parser Unit := do
  g.arrowParameters generic typed
  sameLine
  symbol "=>"

/-- A function written with an arrow. -/
def arrowFunction (g : Grammar) (generic inAllowed typed : Bool) : Parser Unit := do
  (do
    keyword "async"
    sameLine
    g.arrowHead true typed) <|> g.arrowHead generic typed
  g.block <|> do
    notAhead (symbol "\x7b")
    g.rule (.assignment inAllowed typed)

/-! ## Assignments -/

/-- The marks of assignments. -/
def assignmentMarks : List String :=
  ["=", "+=", "-=", "*=", "/=", "%=", "**=", "<<=", ">>=", ">>>=", "&=", "|=", "^=", "&&=", "||=",
    "??="]

/-- A value handed to the caller of a function that goes on afterwards. -/
def yieldExpression (g : Grammar) (inAllowed : Bool) : Parser Unit := do
  keyword "yield"
  let _ ← maybe (do
    sameLine
    let _ ← maybe (symbol "*")
    g.rule (.assignment inAllowed true))

/-- Two values of which a condition chooses one.

The first is read with arrow functions that state their type, and where no colon is left after it,
without. -/
def choice (g : Grammar) (inAllowed typed : Bool) : Parser Unit := do
  symbol "?"
  (do
    require typed
    g.assignment
    ahead (symbol ":")) <|> g.rule (.assignment true false)
  symbol ":"
  g.rule (.assignment inAllowed typed)

/-- One expression without commas. A program that may hold markup has parameters of a type only
where no element can be read. -/
def assignmentRule (g : Grammar) (inAllowed typed : Bool) : Parser Unit :=
  g.arrowFunction (!g.markup) inAllowed typed <|>
  g.yieldExpression inAllowed <|>
  (do
    let target ← g.operation inAllowed
    (do
      require target
      oneMark assignmentMarks
      g.rule (.assignment inAllowed typed)) <|>
    (do let _ ← maybe (g.choice inAllowed typed))) <|>
  (do
    require g.markup
    g.arrowFunction true inAllowed typed)

/-- Expressions with commas in between. -/
def expressionRule (g : Grammar) (inAllowed : Bool) : Parser Unit := do
  let _ ← separated1 (g.rule (.assignment inAllowed true)) (symbol ",")

end BuildSync.TypeScript.Grammar
