import BuildSync.TypeScript.Declaration

/-! # Statements

The rules for statements. Statements that change the flow of a program are accepted everywhere.
-/

namespace BuildSync.TypeScript.Grammar

open BuildSync.Parser

/-- A condition in parentheses. -/
def condition (g : Grammar) : Parser Unit :=
  parens g.expression

/-- One of two statements, or one that may be passed over. -/
def conditional (g : Grammar) : Parser Unit := do
  keyword "if"
  g.condition
  g.rule .statement
  let _ ← maybe (do
    keyword "else"
    g.rule .statement)

/-- A variable or place that takes one value after another. -/
def loopTarget (g : Grammar) : Parser Unit :=
  (do
    variableWord
    g.binding false) <|>
  (do let _ ← g.accessed true)

/-- What a loop runs over: the values, or the keys, of an expression. -/
def loopRange (g : Grammar) : Parser Unit :=
  (do
    keyword "of"
    g.assignment) <|>
  (do
    keyword "in"
    g.expression)

/-- The start, the condition and the step of a loop. -/
def loopSteps (g : Grammar) : Parser Unit := do
  let _ ← maybe (g.variableList false <|> g.rule (.expression false))
  symbol ";"
  let _ ← maybe g.expression
  symbol ";"
  let _ ← maybe g.expression

/-- A loop over values, or with steps. -/
def forLoop (g : Grammar) : Parser Unit := do
  keyword "for"
  let _ ← maybe (keyword "await")
  parens ((do
    g.loopTarget
    g.loopRange) <|> g.loopSteps)
  g.rule .statement

/-- A loop with its condition in front. -/
def whileLoop (g : Grammar) : Parser Unit := do
  let _ ← oneOf ["while", "with"]
  g.condition
  g.rule .statement

/-- A loop with its condition at the end. -/
def doLoop (g : Grammar) : Parser Unit := do
  keyword "do"
  g.rule .statement
  keyword "while"
  g.condition
  let _ ← maybe (symbol ";")

/-- A case of a selection, with the statements up to the next. -/
def selectionCase (g : Grammar) : Parser Unit := do
  keyword "default" <|> do
    keyword "case"
    g.expression
  symbol ":"
  let _ ← many (g.rule .statement)

/-- A selection among cases. -/
def selection (g : Grammar) : Parser Unit := do
  keyword "switch"
  g.condition
  braces do let _ ← many g.selectionCase

/-- A block with what follows when it fails, and when it ends. -/
def guardedBlock (g : Grammar) : Parser Unit := do
  keyword "try"
  g.block
  let _ ← maybe (do
    keyword "catch"
    let _ ← maybe (parens do
      g.rule .pattern
      maybe g.annotation)
    g.block)
  let _ ← maybe (do
    keyword "finally"
    g.block)

/-- The end of a function, with its value. -/
def returnStatement (g : Grammar) : Parser Unit := do
  keyword "return"
  let _ ← maybe (do
    sameLine
    g.expression)
  semicolon

/-- A failure, with its value on the same line. -/
def throwStatement (g : Grammar) : Parser Unit := do
  keyword "throw"
  sameLine
  g.expression
  semicolon

/-- The end of a loop, or of one of its rounds. -/
def jump : Parser Unit := do
  let _ ← oneOf ["break", "continue"]
  let _ ← maybe (do
    sameLine
    identifier)
  semicolon

/-- A halt for the person who looks at the program. -/
def halt : Parser Unit := do
  keyword "debugger"
  semicolon

/-- A statement with a name. -/
def labelled (g : Grammar) : Parser Unit := do
  let _ ← identifier
  symbol ":"
  g.rule .statement

/-- Reads nothing, and succeeds where a statement does not start with an expression. -/
def noExpressionAhead : Parser Unit :=
  ahead (symbol "\x7b" <|> functionHead <|> keyword "class" <|> symbol "@")

/-- A statement that is an expression. -/
def expressionStatement (g : Grammar) : Parser Unit := do
  notAhead noExpressionAhead
  g.expression
  semicolon

/-- A statement that starts with a word of its own. -/
def controlStatement (g : Grammar) : Parser Unit :=
  g.conditional <|>
  g.forLoop <|>
  g.whileLoop <|>
  g.doLoop <|>
  g.selection <|>
  g.guardedBlock <|>
  g.returnStatement <|>
  g.throwStatement <|>
  jump <|>
  halt

/-- Any statement. -/
def statementRule (g : Grammar) : Parser Unit :=
  symbol ";" <|>
  g.block <|>
  g.controlStatement <|>
  g.declaration false <|>
  g.ambientDeclaration <|>
  g.globalDeclaration <|>
  g.labelled <|>
  g.expressionStatement

end BuildSync.TypeScript.Grammar
