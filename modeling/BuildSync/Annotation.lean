import BuildSync.Resolution
import BuildSync.Text.Blank
import BuildSync.Text.Edit

/-! # Annotations of imports

An annotation is a comment `// from //pkg:name` that follows an import on the line on which its
statement ends. It says which rule provides the import.

* `Annotation.edit?`: what has to change behind one import.
* `Annotation.edits`: what has to change in a source, from its end to its start.
* `Annotation.update`: the source with its annotations brought up to date.
-/

namespace BuildSync.Annotation

open Text

/-- The start of an annotation. -/
def marker : List Char :=
  "// from ".toList

/-- The annotation for a label. -/
def written (label : Label) : List Char :=
  marker ++ label.canonical.toList

/-- The rest of the line on which a text starts, without the marks of the line's end. -/
def lineRest (text : List Char) : List Char :=
  trimEndOf (· = '\r') (text.takeWhile (· ≠ '\n'))

/-- What has to change behind the byte `stop`, where this is the rest of the line. Only a blank
rest and an annotation are replaced. -/
def replacement? (stop : Nat) (rest : List Char) (wanted : List Char) : Option Edit :=
  let comment := trimStart rest
  if comment = [] then some ⟨stop, stop + width rest, ' ' :: wanted⟩
  else if startsWith comment marker ∧ trimEnd comment ≠ wanted then
    some ⟨stop + (width rest - width comment), stop + width rest, wanted⟩
  else none

/-- What has to change behind an import. Only a statement that exactly one rule provides is
annotated. -/
def edit? (text : List Char) (resolved : ResolvedImport) : Option Edit :=
  match resolved.candidates with
  | [label] =>
    if resolved.source.kind = .reference then none
    else
      match splitAt? resolved.source.stop text with
      | some (_, rest) => replacement? resolved.source.stop (lineRest rest) (written label)
      | none => none
  | _ => none

/-- What has to change in a source, from its end to its start; of several changes at one place the
first is made. -/
def edits (text : List Char) (imports : List ResolvedImport) : List Edit :=
  dropRepeatsOf Edit.start
    ((imports.filterMap (edit? text)).mergeSort fun a b => b.start ≤ a.start)

/-- A text with edits made one after the other, each in the text that the one before left. -/
def replaceEach? (text : List Char) : List Edit → Option (List Char)
  | [] => some text
  | e :: edits => (replace? text e).bind fun text => replaceEach? text edits

/-- What becomes of a source. -/
inductive Update
  /-- Nothing has to change. -/
  | same
  | changed (text : String)
  /-- An edit does not fit the text that those behind it left. -/
  | torn
deriving DecidableEq, Repr

/-- A source with its annotations brought up to date. -/
def update (text : String) (imports : List ResolvedImport) : Update :=
  match edits text.toList imports with
  | [] => .same
  | needed =>
    match replaceEach? text.toList needed with
    | some text => .changed (String.ofList text)
    | none => .torn

end BuildSync.Annotation
