import BuildSync.Build.Contents

/-! # Written forms

How rules, lists and loads are laid out in a BUILD file.

* `ListValue.layout`: a list, on one line if it has at most one item and no comments.
* `Rule.layout`: a new rule. `Load.layout`: a load with its added symbols.
-/

namespace BuildSync.Build

/-- Texts with a comma and a blank between them. -/
def commaSeparated (parts : List (List Char)) : List Char :=
  Text.joined [',', ' '] parts

/-! ## Lists -/

namespace ListValue

/-- Some comment is attached to the list. -/
def hasComments (list : ListValue α) : Bool :=
  list.footer ≠ [] || list.items.any fun item => item.trailing.isSome || item.leading ≠ []

/-- The items on one line, without comments. -/
def inline (list : ListValue α) (write : α → List Char) : List Char :=
  '[' :: commaSeparated (list.values.map write) ++ [']']

/-- A line of its own, indented. -/
def line (indent text : List Char) : List Char :=
  indent ++ text ++ ['\n']

/-- An item with its comments on lines of their own. -/
def itemLines (indent : List Char) (write : α → List Char) (item : ListItem α) : List Char :=
  item.leading.flatMap (fun comment => line indent comment.toList) ++
    line indent (write item.value ++ [','] ++
      match item.trailing with
      | some comment => ' ' :: ' ' :: comment.toList
      | none => [])

/-- The list, where its first line starts at `indent`. -/
def layout (list : ListValue α) (indent : List Char) (write : α → List Char) : List Char :=
  if !list.hasComments && list.items.length ≤ 1 then list.inline write
  else
    let inner := indent ++ "    ".toList
    "[\n".toList ++ list.items.flatMap (itemLines inner write) ++
      list.footer.flatMap (fun comment => line inner comment.toList) ++ indent ++ [']']

end ListValue

/-- A source as it is written. -/
def writeSource (name : String) : List Char :=
  quote name.toList

/-- A dependency as it is written in a BUILD file of `package`. -/
def writeDep (package : String) (label : Label) : List Char :=
  quote (label.renderIn package).toList

/-! ## Rules -/

/-- An argument of a call on a line of its own. -/
def argumentLine (key : String) (value : List Char) : List Char :=
  "    ".toList ++ key.toList ++ " = ".toList ++ value ++ ",\n".toList

/-- The sources of a new rule; the rule that gathers all libraries has none. -/
def Rule.srcsLayout (rule : Rule) : List Char :=
  match rule.kind, rule.srcs with
  | .devSources, _ => []
  | _, .literal list => argumentLine "srcs" (list.layout "    ".toList writeSource)
  | _, _ => []

/-- The dependencies of a new rule, if it has any. -/
def Rule.depsLayout (rule : Rule) (package : String) : List Char :=
  match rule.deps with
  | .literal list =>
    if list.items = [] then []
    else argumentLine "deps" (list.layout "    ".toList (writeDep package))
  | _ => []

/-- A new rule of `package`. -/
def Rule.layout (rule : Rule) (package : String) : List Char :=
  rule.kind.function.toList ++ "(\n".toList ++
    argumentLine "name" (quote rule.name.toList) ++ rule.srcsLayout ++
    (if rule.kind = .library true then argumentLine "testonly" "True".toList else []) ++
    rule.depsLayout package ++ ")\n".toList

/-! ## Loads -/

/-- A call of `load` with its arguments. -/
def loadCall (file : String) (args : List (List Char)) : List Char :=
  "load(".toList ++ commaSeparated (quote file.toList :: args) ++ [')']

/-- The load with the symbols added to it, its symbols in order. -/
def Load.layout (load : Load) : List Char :=
  let added := load.added.map fun symbol => (symbol, String.ofList (quote symbol.toList))
  let symbols := (load.positional ++ added).mergeSort fun a b => textLe a.1 b.1
  loadCall load.file
    ((dropRepeatsOf (·.1) symbols).map (·.2.toList) ++ load.keyword.map (·.2.toList))

end BuildSync.Build
