import BuildSync.TypeScript.Grammar

/-! # Types

The rules for types, and for the parameters and signatures of functions, which types share with
expressions.
-/

namespace BuildSync.TypeScript.Grammar

open BuildSync.Parser

/-! ## Parameters -/

/-- A parameter of a type. -/
def typeParameter (g : Grammar) : Parser Unit := do
  let _ ← many (do let _ ← oneOf ["const", "in", "out"]; ahead word)
  let _ ← identifier
  let _ ← maybe (do keyword "extends"; g.type)
  let _ ← maybe (do symbol "="; g.type)

/-- The parameters of a type. -/
def typeParameters (g : Grammar) : Parser Unit := do
  angle '<'
  let _ ← commas1 g.typeParameter
  angle '>'

/-- What a type's parameters stand for. -/
def typeArguments (g : Grammar) : Parser Unit := do
  angle '<'
  let _ ← commas1 g.type
  angle '>'

/-- The type of a variable. -/
def annotation (g : Grammar) : Parser Unit := do
  symbol ":"
  g.type

/-- A mark put on a declaration. -/
def decorator (g : Grammar) : Parser Unit := do
  symbol "@"
  g.rule .access

/-- A parameter of a function. -/
def parameter (g : Grammar) : Parser Unit := do
  let _ ← many g.decorator
  let _ ← many (do
    let _ ← oneOf ["public", "private", "protected", "readonly", "override"]
    ahead ((do let _ ← word) <|> symbol "\x7b" <|> symbol "["))
  let _ ← maybe (symbol "...")
  keyword "this" <|> g.rule .pattern
  let _ ← maybe (symbol "?")
  let _ ← maybe g.annotation
  let _ ← maybe g.initializer

/-- The parameters of a function. -/
def parameters (g : Grammar) : Parser Unit :=
  parens (do let _ ← commas g.parameter)

/-- A variable that a function says something about. -/
def subject : Parser Unit :=
  (do let _ ← identifier) <|> keyword "this"

/-- The result of a function: a type, or what its result says about a variable. -/
def resultType (g : Grammar) : Parser Unit :=
  (do
    keyword "asserts"
    sameLine
    subject
    let _ ← maybe (do keyword "is"; g.type)) <|>
  (do
    subject
    sameLine
    keyword "is"
    g.type) <|>
  g.type

/-- The stated result of a function. -/
def resultAnnotation (g : Grammar) : Parser Unit := do
  symbol ":"
  g.resultType

/-- The parameters and the result of a function. -/
def signature (g : Grammar) : Parser Unit := do
  let _ ← maybe g.typeParameters
  g.parameters
  let _ ← maybe g.resultAnnotation

/-! ## Members of object types -/

/-- A signature of the values of all properties. -/
def indexSignature (g : Grammar) : Parser Unit := do
  brackets (do
    let _ ← identifier
    g.annotation)
  let _ ← maybe g.annotation

/-- A member of an object type. -/
def typeMember (g : Grammar) : Parser Unit :=
  g.signature <|>
  (do
    keyword "new"
    g.signature) <|>
  (do
    let _ ← many (modifier ["readonly", "static"])
    g.indexSignature) <|>
  (do
    let _ ← many (modifier ["readonly", "get", "set", "static", "public", "private", "protected"])
    g.propertyName
    let _ ← maybe (symbol "?")
    g.signature <|> do let _ ← maybe g.annotation)

/-- What ends a member of an object type. -/
def memberEnd : Parser Unit :=
  symbol "," <|> semicolon

/-- The members of an object type. -/
def typeMembers (g : Grammar) : Parser Unit :=
  braces do
    let _ ← many (do g.typeMember; memberEnd)

/-- A type made from another by its keys. -/
def mappedType (g : Grammar) : Parser Unit :=
  braces do
    let sign := maybe (oneMark ["+", "-"])
    let _ ← sign
    let _ ← maybe (keyword "readonly")
    brackets do
      let _ ← identifier
      keyword "in"
      g.type
      let _ ← maybe (do keyword "as"; g.type)
    let _ ← sign
    let _ ← maybe (symbol "?")
    let _ ← maybe g.annotation
    let _ ← maybe (oneMark [";", ","])

/-! ## Types -/

/-- An element of a tuple, with or without a name. -/
def tupleElement (g : Grammar) : Parser Unit := do
  let _ ← maybe (symbol "...")
  (do
    let _ ← word
    let _ ← maybe (symbol "?")
    symbol ":"
    g.type) <|>
  (do
    g.type
    let _ ← maybe (symbol "?"))

/-- A type that another file exports. -/
def importedType (g : Grammar) : Parser Unit := do
  keyword "import"
  parens do
    g.type
    let _ ← maybe (do symbol ","; maybe g.assignment)
  let _ ← many (do symbol "."; word)

/-- The arguments of a type, which start on its line. -/
def sameLineArguments (g : Grammar) : Parser Unit := do
  let _ ← maybe (do sameLine; g.typeArguments)

/-- A type without operators. -/
def simpleType (g : Grammar) : Parser Unit :=
  (do
    keyword "typeof"
    g.importedType <|> qualifiedName
    g.sameLineArguments) <|>
  (do
    g.importedType
    g.sameLineArguments) <|>
  (do let _ ← oneOf ["void", "null", "true", "false"]) <|>
  (do
    qualifiedName
    g.sameLineArguments) <|>
  parens g.type <|>
  g.mappedType <|>
  g.typeMembers <|>
  brackets (do let _ ← commas g.tupleElement) <|>
  string <|>
  (do
    let _ ← maybe (symbol "-")
    number) <|>
  template g.type

/-- Reads nothing, and succeeds in front of a type. -/
def typeAhead : Parser Unit :=
  ahead ((do let _ ← word) <|> oneMark ["(", "[", "\x7b"] <|> string <|> number)

/-- A type with the operators in front of and behind it. -/
def operatorType (g : Grammar) : Parser Unit := do
  let _ ← many (do let _ ← oneOf ["keyof", "unique", "readonly"]; typeAhead)
  (do
    keyword "infer"
    let _ ← identifier
    let _ ← maybe (do keyword "extends"; g.type)) <|>
  (do
    g.simpleType
    let _ ← many (do
      sameLine
      brackets (maybe g.type)))

/-- Types that a value must all have. -/
def intersectionType (g : Grammar) : Parser Unit := do
  let _ ← maybe (symbol "&")
  let _ ← separated1 g.operatorType (symbol "&")

/-- Types of which a value must have one. -/
def unionType (g : Grammar) : Parser Unit := do
  let _ ← maybe (symbol "|")
  let _ ← separated1 g.intersectionType (symbol "|")

/-- The type of a function. -/
def functionType (g : Grammar) : Parser Unit := do
  let _ ← maybe g.typeParameters
  g.parameters
  symbol "=>"
  g.resultType

/-- The type of a class. -/
def constructorType (g : Grammar) : Parser Unit := do
  let _ ← maybe (keyword "abstract")
  keyword "new"
  g.functionType

/-- A type that depends on another, or just one. -/
def conditionalType (g : Grammar) : Parser Unit := do
  g.unionType
  let _ ← maybe (do
    sameLine
    keyword "extends"
    g.type
    symbol "?"
    g.type
    symbol ":"
    g.type)

/-- Any type. -/
def anyType (g : Grammar) : Parser Unit :=
  g.functionType <|> g.constructorType <|> g.conditionalType

end BuildSync.TypeScript.Grammar
