import BuildSync.Build.Layout

/-! # BUILD files in memory

A `Descriptor` is the text of a package's BUILD file with the rules read from it. Rules are edited
in memory; `Descriptor.render` is the text with just the edited parts replaced.

* `Descriptor.parse`: the descriptor of a text; `Descriptor.empty`: of a file still to be made.
* `Descriptor.addRule`: adds a rule, and loads its function if the file does not have it.
* `Descriptor.edits`: what changes in the text; `Descriptor.render` makes the edits and appends the
  new rules.
-/

namespace BuildSync.Build

/-- A package's BUILD file. -/
structure Descriptor where
  /-- The path of the file. -/
  path : String
  package : String
  /-- The text the rules were read from. -/
  text : String
  rules : List Rule
  loads : List Load
  /-- The functions that the text calls. -/
  called : List String
  /-- The symbols to be loaded by new statements, each after its file. -/
  pendingLoads : List (String × String)
deriving DecidableEq, Repr

namespace Descriptor

/-- A BUILD file that does not exist yet. -/
def empty (path package : String) : Descriptor :=
  ⟨path, package, "", [], [], [], []⟩

/-- A BUILD file from its text. -/
def parse (path package text : String) : Except Fault Descriptor :=
  (Contents.parse text.toList package).map fun contents =>
    ⟨path, package, text, contents.rules, contents.loads, contents.called, []⟩

/-! ## Rules -/

/-- The first rule of a name. -/
def rule? (d : Descriptor) (name : String) : Option Rule :=
  d.rules.find? (·.name = name)

/-- The rules with the first one of a name changed. -/
def modifyFirst (name : String) (f : Rule → Rule) : List Rule → List Rule
  | [] => []
  | r :: rs => if r.name = name then f r :: rs else r :: modifyFirst name f rs

/-- The descriptor with the first rule of a name changed. -/
def modifyRule (d : Descriptor) (name : String) (f : Rule → Rule) : Descriptor :=
  { d with rules := modifyFirst name f d.rules }

/-- The rules that own sources and list `file`. -/
def owners (d : Descriptor) (file : String) : List Rule :=
  d.rules.filter fun r => !r.kind.isAggregate && r.owns file

/-- The rule that lists `file`, if it is the only one. -/
def owner? (d : Descriptor) (file : String) : Option Rule :=
  match d.owners file with
  | [rule] => some rule
  | _ => none

/-- The file gives `symbol` a meaning, or will. -/
def hasSymbol (d : Descriptor) (symbol : String) : Bool :=
  symbol ∈ d.called || d.loads.any (·.binds symbol) || d.pendingLoads.any (·.2 = symbol)

/-- The loads with a symbol added to the first one of a file. -/
def addSymbol (file symbol : String) : List Load → List Load
  | [] => []
  | l :: ls =>
    if l.file = file then { l with added := l.added ++ [symbol] } :: ls
    else l :: addSymbol file symbol ls

/-- The descriptor with `symbol` loaded from `file`, unless it has a meaning already. -/
def ensureSymbol (d : Descriptor) (file symbol : String) : Descriptor :=
  if d.hasSymbol symbol then d
  else if d.loads.any (·.file = file) then { d with loads := addSymbol file symbol d.loads }
  else { d with pendingLoads := d.pendingLoads ++ [(file, symbol)] }

/-- The descriptor with a rule added, whose function comes from `file`. -/
def addRule (d : Descriptor) (rule : Rule) (file : String) : Descriptor :=
  let d := d.ensureSymbol file rule.kind.function
  { d with rules := d.rules ++ [rule] }

theorem ensureSymbol_eq (d : Descriptor) (file symbol : String) :
    d.ensureSymbol file symbol = { d with
      loads := (d.ensureSymbol file symbol).loads
      pendingLoads := (d.ensureSymbol file symbol).pendingLoads } := by
  unfold ensureSymbol
  split
  · rfl
  · split <;> rfl

@[simp] theorem rules_addRule (d : Descriptor) (rule : Rule) (file : String) :
    (d.addRule rule file).rules = d.rules ++ [rule] := by
  rw [addRule, ensureSymbol_eq]

@[simp] theorem package_addRule (d : Descriptor) (rule : Rule) (file : String) :
    (d.addRule rule file).package = d.package := by
  rw [addRule, ensureSymbol_eq]

/-! ## Edits -/

/-- The new statements for the pending loads, one for each file. -/
def pendingLines (pending : List (String × String)) : List Char :=
  (sortedTexts (pending.map (·.1))).flatMap fun file =>
    let symbols := sortedTexts ((pending.filter (·.1 = file)).map (·.2))
    loadCall file (symbols.map fun symbol => quote symbol.toList) ++ ['\n']

/-- How many bytes the lines at the front of a text take that are comments. -/
def headerWidth : List (List Char) → Nat
  | [] => 0
  | line :: lines =>
    if line.head? ≠ some '#' then 0
    else if lines = [] then Text.width line
    else Text.width line + 1 + headerWidth lines

/-- Where new loads go: after the line on which the last load ends, or after the comments at the
top of a file without loads. -/
def loadPoint (text : List Char) (loads : List Load) : Nat :=
  match (loads.map (·.span.stop)).max? with
  | none => headerWidth (Text.splitOnChar '\n' text)
  | some last =>
    let rest := Text.dropBytes last text
    let line := rest.takeWhile (· ≠ '\n')
    if line.length = rest.length then Text.width text else last + Text.width line + 1

/-- The edit that adds statements for the pending loads. -/
def pendingEdits (d : Descriptor) : List Text.Edit :=
  if d.pendingLoads = [] then []
  else
    let text := d.text.toList
    let point := loadPoint text d.loads
    let rest := Text.dropBytes point text
    let before := if Text.lineFront text point = [] then [] else ['\n']
    let after := if rest = [] || rest.head? = some '\n' then [] else ['\n']
    [⟨point, point, before ++ pendingLines d.pendingLoads ++ after⟩]

/-- The edits that write the loads that gained a symbol. -/
def loadEdits (d : Descriptor) : List Text.Edit :=
  (d.loads.filter (·.added ≠ [])).map fun load =>
    ⟨load.span.start, load.span.stop, load.layout⟩

/-- The edit of one list attribute of a rule, or else the attribute to be inserted. -/
def listEdit (text : List Char) (key : String) (changed : Bool) (span : Option Span)
    (attr : ListAttr α) (write : α → List Char) : List Text.Edit × List (List Char) :=
  match changed, attr with
  | true, .literal list =>
    match span with
    | some span =>
      ([⟨span.start, span.stop, list.layout (Text.lineIndent text span.start) write⟩], [])
    | none => ([], [key.toList ++ " = ".toList ++ list.inline write])
  | _, _ => ([], [])

/-- The edits that add attributes after a rule's last argument. -/
def insertions (origin : Origin) (attributes : List (List Char)) : List Text.Edit :=
  if attributes = [] then []
  else
    let apart := !origin.trailingComma && origin.lastArgEnd ≠ origin.insertAt
    let comma : List Text.Edit :=
      if apart then [⟨origin.lastArgEnd, origin.lastArgEnd, [',']⟩] else []
    let added :=
      if origin.multiline then
        (if !origin.trailingComma && !apart then [','] else []) ++
          attributes.flatMap fun a => '\n' :: origin.indent.toList ++ a ++ [',']
      else
        (if origin.trailingComma then [] else [',']) ++
          Text.joined [','] (attributes.map (' ' :: ·)) ++
          (if origin.trailingComma then [','] else [])
    comma ++ [⟨origin.insertAt, origin.insertAt, added⟩]

/-- The edits of one rule. -/
def ruleEdits (text : List Char) (package : String) (rule : Rule) : List Text.Edit :=
  match rule.origin with
  | none => []
  | some origin =>
    let srcs := listEdit text "srcs" rule.srcsChanged origin.srcs rule.srcs writeSource
    let deps := listEdit text "deps" rule.depsChanged origin.deps rule.deps (writeDep package)
    srcs.1 ++ deps.1 ++ insertions origin (srcs.2 ++ deps.2)

/-- Everything that changes within the text, in order. -/
def edits (d : Descriptor) : List Text.Edit :=
  (d.pendingEdits ++ d.loadEdits ++ d.rules.flatMap (ruleEdits d.text.toList d.package)).mergeSort
    Text.Edit.le

/-! ## Rendering -/

/-- A text with a rule appended after an empty line. -/
def appendRule (package : String) (text : List Char) (rule : Rule) : List Char :=
  let gap :=
    if text = [] then []
    else if text.getLast? = some '\n' then ['\n']
    else ['\n', '\n']
  text ++ gap ++ rule.layout package

/-- The text of the BUILD file with the edits made and the new rules appended. -/
def render (d : Descriptor) : String :=
  let text := d.text.toList
  let edited := (Text.splice? 0 text d.edits).getD text
  String.ofList ((d.rules.filter Rule.isNew).foldl (appendRule d.package) edited)

/-- Rendering gives another text than was read. -/
def isChanged (d : Descriptor) : Bool :=
  d.render ≠ d.text

end Descriptor

end BuildSync.Build
