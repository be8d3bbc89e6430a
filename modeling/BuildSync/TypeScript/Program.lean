import BuildSync.TypeScript.Module

/-! # Programs

* `parse`: ties the rules of the grammar together.
* `clauses?`: the clauses of a program that name other modules, or none where the text is not a
  program.
-/

namespace BuildSync.TypeScript

open BuildSync.Parser

/-- The rule for a goal. -/
def Grammar.ruleFor (g : Grammar) : Goal → Parser Unit
  | .expression inAllowed => g.expressionRule inAllowed
  | .assignment inAllowed typed => g.assignmentRule inAllowed typed
  | .access => do let _ ← g.accessed true
  | .callee => do let _ ← g.accessed false
  | .element => g.element (do let _ ← g.typeArguments)
  | .type => g.anyType
  | .pattern => g.pattern
  | .statement => g.statementRule
  | .item => do let _ ← g.item

/-- Reads a goal, coming back to goals at most `depth` times within one another. -/
def parse (markup : Bool) : (depth : Nat) → Goal → Parser Unit
  | 0, _ => failure
  | depth + 1, goal => Grammar.ruleFor ⟨markup, parse markup depth⟩ goal

/-- The rules with enough depth for a text: between two characters of it, rules come back to goals
only a few times within one another. -/
def grammarFor (markup : Bool) (text : List Char) : Grammar :=
  ⟨markup, parse markup (8 * (text.length + 1))⟩

/-- A first line that names the program to run a file with. -/
def scriptLine : Parser Unit := do
  chars ['#', '!']
  let _ ← takeWhile fun c => !isLineEnd c

/-- A whole program. -/
def program (g : Grammar) : Parser (List Clause) := do
  let _ ← maybe scriptLine
  let found ← many g.item
  atEnd
  pure (found.filterMap id)

/-- The clauses of a program, if the text is one. -/
def clauses? (markup : Bool) (text : List Char) : Option (List Clause) :=
  (program (grammarFor markup text) text).map (·.value)

end BuildSync.TypeScript
