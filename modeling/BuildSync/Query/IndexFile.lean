import BuildSync.Json
import BuildSync.Query.Key

/-! # Index files

An index file answers questions about the build graph. It is a JSON object with up to three
fields, each an object: `modules` and `files` give the labels for a module name and for a file,
`kinds` gives the function of a rule. An array of up to three such objects, in this order, is read
alike.

* `IndexFile.parse?`: an index file from its text.
* `IndexFile.answer`: the rules that answer a question.
-/

namespace BuildSync.Query

/-! ## Index files -/

/-- What an index file says; of what it says twice, the last counts. -/
structure IndexFile where
  modules : List (String × List Label)
  files : List (String × List Label)
  /-- The kinds of rules, none for a rule that is not managed. -/
  kinds : List (Label × Option Build.RuleKind)
deriving DecidableEq, Repr

/-- The last value of a key. -/
def lastOf? [BEq α] (entries : List (α × β)) (key : α) : Option β :=
  entries.reverse.lookup key

namespace IndexFile

/-- The index file that says nothing. -/
def empty : IndexFile :=
  ⟨[], [], []⟩

/-- A label that starts at a repository's root. -/
def label? (json : Json) : Option Label :=
  json.text?.bind Label.parseAbsolute?

/-- The labels for names. -/
def labelLists? (json : Json) : Option (List (String × List Label)) := do
  let fields ← json.fields?
  fields.mapM fun (name, value) => do
    let items ← value.list?
    let labels ← items.mapM label?
    pure (name, labels)

/-- The kinds of rules. Labels that are written in several forms are taken in the order of their
texts. -/
def ruleKinds? (json : Json) : Option (List (Label × Option Build.RuleKind)) := do
  let fields ← json.fields?
  let functions ← fields.mapM fun (name, value) => value.text?.map fun function => (name, function)
  (sortedTexts (functions.map Prod.fst)).mapM fun name => do
    let label ← Label.parseAbsolute? name
    pure (label, (lastOf? functions name).bind Build.RuleKind.ofFunction?)

/-- An index file with one field filled in. -/
def withField? (file : IndexFile) (name : String) (json : Json) : Option IndexFile :=
  match name with
  | "modules" => (labelLists? json).map fun modules => { file with modules := modules }
  | "files" => (labelLists? json).map fun files => { file with files := files }
  | "kinds" => (ruleKinds? json).map fun kinds => { file with kinds := kinds }
  | _ => none

/-- An index file from its fields, of which each stands once. -/
def ofFields? (fields : List (String × Json)) : Option IndexFile :=
  if (fields.map Prod.fst).Nodup then
    fields.foldlM (fun file (name, json) => file.withField? name json) empty
  else none

/-- The names of the fields, in the order in which they stand in an array. -/
def fieldNames : List String :=
  ["modules", "files", "kinds"]

/-- An index file from its value. -/
def ofJson? : Json → Option IndexFile
  | .object fields => ofFields? fields
  | .list items =>
    if items.length ≤ fieldNames.length then ofFields? (fieldNames.zip items) else none
  | _ => none

/-- An index file from its text. -/
def parse? (text : String) : Option IndexFile :=
  (Json.parse? text).bind ofJson?

/-! ## Answers -/

/-- The rules of labels, with their kinds. -/
def known (file : IndexFile) (labels : List Label) : List KnownRule :=
  labels.map fun label => ⟨label, (lastOf? file.kinds label).join⟩

/-- The rules that answer a question. The longest module name that is listed provides a module. -/
def answer (file : IndexFile) : Key → List KnownRule
  | .module specifier =>
    file.known (((moduleNames specifier).findSome? (lastOf? file.modules)).getD [])
  | .file path => file.known ((lastOf? file.files path).getD [])
  | .rule label =>
    match lastOf? file.kinds label with
    | some kind => [⟨label, kind⟩]
    | none => []

/-- Answers questions from an index file. -/
def service (file : IndexFile) : Service := fun keys =>
  .ok (keys.map file.answer)

end IndexFile

end BuildSync.Query
