import BuildSync.Import
import BuildSync.Text.Blank
import BuildSync.Text.Cut
import BuildSync.Text.Span

/-! # Directives in front of a program

The header of a source ends with the first line that holds code. A directive is a line of the
header of the form `/// <reference path="…" />` or `/// <reference types="…" />`.

* `attribute?`: the value of an attribute of a directive.
* `directive?`: the module that a line names.
* `references`: the directives of a source.
-/

namespace BuildSync.TypeScript.Header

open Text

/-! ## Directives -/

/-- What an attribute says, from behind its name on; the inner part is missing where what follows
the sign is no text in quotes, and the outer part where there is no sign. -/
def attributeValue? (text : List Char) : Option (Option (List Char)) :=
  match trimStart text with
  | '=' :: value =>
    match trimStart value with
    | [] => some none
    | quote :: body =>
      if quote = '\x22' ∨ quote = '\x27' then some ((cut? [quote] body).map Prod.fst)
      else some none
  | _ => none

/-- The value of the first attribute of this name that stands behind a blank and has a sign. -/
def attribute? (name : List Char) (hname : name ≠ []) (text : List Char) : Option (List Char) :=
  match _ : cut? name text with
  | none => none
  | some (front, back) =>
    match (front.getLast?.filter isBlank).bind fun _ => attributeValue? back with
    | some value => value
    | none => attribute? name hname back
termination_by text.length
decreasing_by
  have := List.length_pos_iff.2 hname
  have := congrArg List.length (cut?_eq_some ‹cut? name text = _›)
  simp at this
  omega

/-- A path is written from the directory of the source. -/
def fromHere (path : List Char) : List Char :=
  if path.head? = some '.' ∨ path.head? = some '/' then path else '.' :: '/' :: path

/-- The module that a line without outer blanks names, if the line is a directive. -/
def directive? (line : List Char) : Option (List Char) :=
  match strip? ['/', '/', '/'] line with
  | none => none
  | some rest =>
    let text := trimStart rest
    if startsWith text "<reference".toList then
      match attribute? ['p', 'a', 't', 'h'] (by decide) text with
      | some path => some (fromHere path)
      | none => attribute? ['t', 'y', 'p', 'e', 's'] (by decide) text
    else none

/-! ## The header -/

/-- What a line without outer blanks means for the header. -/
inductive Line
  /-- The header ends before it, or with it. -/
  | code
  /-- The header goes on; the flag tells whether within a comment. -/
  | comment (inside : Bool)
  /-- The header goes on, and the line may be a directive. -/
  | remark
deriving DecidableEq

/-- What the rest of a line within a comment means. -/
def Line.ofComment (body : List Char) : Line :=
  match cut? ['*', '/'] body with
  | none => .comment true
  | some (_, rest) => if trim rest = [] then .comment false else .code

/-- What a line without outer blanks means. -/
def Line.of (inside : Bool) (line : List Char) : Line :=
  if line = [] then .comment inside
  else if inside then Line.ofComment line
  else
    match strip? ['/', '*'] line with
    | some body => Line.ofComment body
    | none => if startsWith line ['/', '/'] then .remark else .code

/-- The directives in lines of which the first has this number and starts at this byte. -/
def referencesFrom (inside : Bool) (number start : Nat) : List (List Char) → List Import
  | [] => []
  | line :: lines =>
    let next := start + width line + 1
    match Line.of inside (trim line) with
    | .code => []
    | .comment inside => referencesFrom inside (number + 1) next lines
    | .remark =>
      let others := referencesFrom false (number + 1) next lines
      match directive? (trim line) with
      | none => others
      | some specifier =>
        { specifier := String.ofList specifier
          kind := .reference
          line := number
          endLine := number
          start := start + (width line - width (trimStart line))
          stop := start + width (trimEnd line) } :: others

/-- The directives of a source, in their order. -/
def references (text : List Char) : List Import :=
  referencesFrom false 1 0 (splitOnChar '\n' text)

end BuildSync.TypeScript.Header
