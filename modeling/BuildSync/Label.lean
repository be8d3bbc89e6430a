import BuildSync.Order
import BuildSync.Text.Blank
import BuildSync.Text.Cut

/-! # Labels

A label names one rule: an optional external repository, a package and a name.

* `Label.parse?`: a label as it is written in a BUILD file of some package.
* `Label.renderIn`: its shortest written form there; `Label.canonical`: its full form.
* `Label.le`: the total order of labels; `Label.writtenLe`: the order of a dependency list.
-/

namespace BuildSync

/-- The name of one rule. -/
structure Label where
  repo : Option String
  package : String
  name : String
deriving DecidableEq, Repr, Inhabited

namespace Label

/-- A label of the main repository. -/
def ofPackage (package name : String) : Label :=
  ⟨none, package, name⟩

/-- A label from its parts, if they can be told apart again in its written form. -/
def ofParts? (repo : Option String) (package name : List Char) : Option Label :=
  if name = [] ∨ ':' ∈ name ∨ package.head? = some '/' ∨ package.getLast? = some '/' then none
  else some ⟨repo, String.ofList package, String.ofList name⟩

/-- A label from what follows the `//`: without a `:`, the package's last segment is the name. -/
def ofAbsolute? (repo : Option String) (rest : List Char) : Option Label :=
  match Text.cut? [':'] rest with
  | some (package, name) => ofParts? repo package name
  | none => ofParts? repo rest (Text.lastSegment rest)

/-- A label as written in a BUILD file of `package`: `//pkg:name`, `//pkg`, `@repo//pkg:name`,
`:name` or `name`. -/
def parse? (text package : String) : Option Label :=
  let cs := text.toList
  if cs = [] ∨ cs.any Text.isBlank then none
  else
    match cs with
    | '@' :: rest =>
      match Text.cut? ['/', '/'] rest with
      | some (repo, rest) => if repo = [] then none else ofAbsolute? (String.ofList repo) rest
      | none => none
    | '/' :: '/' :: rest => ofAbsolute? none rest
    | ':' :: name => ofParts? none package.toList name
    | _ => if ':' ∈ cs then none else ofParts? none package.toList cs

/-- A label as written outside any BUILD file, where it must start at a repository's root. -/
def parseAbsolute? (text : String) : Option Label :=
  match text.toList with
  | '@' :: _ => parse? text ""
  | '/' :: '/' :: _ => parse? text ""
  | _ => none

/-- The label is one of `package` in the main repository. -/
def isIn (label : Label) (package : String) : Bool :=
  label.repo.isNone && label.package == package

/-- What stands before the package in an absolute label. -/
def root (label : Label) : String :=
  match label.repo with
  | some repo => "@" ++ repo ++ "//"
  | none => "//"

/-- The label in full. -/
def canonical (label : Label) : String :=
  label.root ++ label.package ++ ":" ++ label.name

instance : ToString Label := ⟨canonical⟩

/-- The name repeats the last segment of the package. -/
def isShort (label : Label) : Bool :=
  label.package ≠ "" && Text.lastSegment label.package.toList == label.name.toList

/-- The shortest form of the label in a BUILD file of `package`: `:name` within the package,
`//pkg` where the name repeats the last segment, `//pkg:name` otherwise. -/
def renderIn (label : Label) (package : String) : String :=
  if label.isIn package then ":" ++ label.name
  else if label.isShort then label.root ++ label.package
  else label.canonical

/-! ## Orders -/

/-- The part of a dependency list a label stands in: the package's own, the main repository's,
then external labels. -/
def group (label : Label) (package : String) : Nat :=
  if label.isIn package then 0 else if label.repo.isNone then 1 else 2

/-- The order of a dependency list in `package`: by group, then by written form. -/
def writtenLe (package : String) (a b : Label) : Bool :=
  a.group package < b.group package ||
    (a.group package == b.group package && textLe (a.renderIn package) (b.renderIn package))

/-- Labels in the order of a dependency list of `package`. -/
def sortFor (package : String) (labels : List Label) : List Label :=
  labels.mergeSort (writtenLe package)

/-- Repositories in order, the main one first. -/
def repoLe : Option String → Option String → Bool
  | none, _ => true
  | some _, none => false
  | some a, some b => textLe a b

/-- Labels in order of repository, package and name. -/
def le (a b : Label) : Bool :=
  if a.repo ≠ b.repo then repoLe a.repo b.repo
  else if a.package ≠ b.package then textLe a.package b.package
  else textLe a.name b.name

/-- The labels of a list in their total order, each once. -/
def sortedSet (labels : List Label) : List Label :=
  BuildSync.sortedSet le labels

end Label

end BuildSync
