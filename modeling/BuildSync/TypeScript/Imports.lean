import BuildSync.Path
import BuildSync.TypeScript.Header
import BuildSync.TypeScript.Program

/-! # The imports of a source

* `ScanFault`: why the imports of a source cannot be told.
* `imports`: the directives of a source, then the imports and exports of its program.

A mark at the very front of a text that tells the order of its bytes is not part of the program.
Positions in the program are counted from behind that mark and used for the whole text, so in a
text with such a mark they are too small by its width; a place that this moves into the middle of a
character has no text.
-/

namespace BuildSync.TypeScript

open Text

/-- Why the imports of a source cannot be told. -/
inductive ScanFault
  /-- The text is not a program. -/
  | notAProgram
  /-- The name of a module starts or ends inside a character. -/
  | splitCharacter
deriving DecidableEq, Repr

/-- A program without the mark for the order of its bytes. -/
def programText (text : List Char) : List Char :=
  match text with
  | '\uFEFF' :: rest => rest
  | _ => text

/-- A text without its first and last byte, empty where these are not whole characters. -/
def unquoted (literal : List Char) : List Char :=
  (slice? literal 1 (width literal - 1)).getD []

/-- The import that a clause is, given the width of its program and the whole text. -/
def importOf (text : List Char) (total : Nat) (clause : Clause) : Except ScanFault Import :=
  match slice? text (total - clause.name.start) (total - clause.name.stop) with
  | none => .error .splitCharacter
  | some literal =>
    let start := total - clause.whole.start
    let stop := total - clause.whole.stop
    .ok
      { specifier := String.ofList (unquoted literal)
        kind := clause.kind
        line := lineAt text start
        endLine := lineAt text (max (stop - 1) start)
        start := start
        stop := stop }

/-- The file of this path may hold markup. -/
def holdsMarkup (file : String) : Bool :=
  (Path.ofText file).fileName?.any fun name => endsWith name.toList ".tsx".toList

/-- The imports of a source: its directives, then the others in their order. -/
def imports (file : String) (text : String) : Except ScanFault (List Import) :=
  let whole := text.toList
  let program := programText whole
  match clauses? (holdsMarkup file) program with
  | none => .error .notAProgram
  | some clauses =>
    match clauses.mapM (importOf whole (width program)) with
    | .error fault => .error fault
    | .ok found => .ok (Header.references whole ++ found)

end BuildSync.TypeScript
