import BuildSync.Label
import BuildSync.Text.Blank

/-! # Managed rules

* `RuleKind`: the four kinds of rules that are kept up to date.
* `ListAttr`: a list attribute, with the comments attached to its items.
* `Rule`: a rule with its sources and dependencies; `setSrcs` and `setDeps` replace a list that is
  written out and keep the comments of the items that stay.
-/

namespace BuildSync.Build

/-- The kinds of managed rules. -/
inductive RuleKind
  | library (testonly : Bool)
  | declaration
  | config
  | devSources
deriving DecidableEq, Repr

namespace RuleKind

/-- The function that a BUILD file calls for a rule of the kind. -/
def function : RuleKind → String
  | library _ => "ts_library"
  | declaration => "ts_declaration"
  | config => "ts_config"
  | devSources => "ts_development_sources"

/-- The kind of the rules that a function makes. -/
def ofFunction? (name : String) : Option RuleKind :=
  if name = "ts_library" then some (library false)
  else if name = "ts_declaration" then some declaration
  else if name = "ts_config" then some config
  else if name = "ts_development_sources" then some devSources
  else none

/-- A rule of the kind gathers files or rules of the whole project and owns no source. -/
def isAggregate : RuleKind → Bool
  | config | devSources => true
  | library _ | declaration => false

theorem ofFunction?_function (kind : RuleKind) :
    ofFunction? kind.function = some (match kind with | library _ => library false | k => k) := by
  cases kind <;> rfl

end RuleKind

/-! ## List attributes -/

/-- An item of a list, with the comments attached to it. -/
structure ListItem (α : Type) where
  value : α
  /-- The comment after the item on its line. -/
  trailing : Option String
  /-- The comments on lines of their own above the item. -/
  leading : List String
deriving DecidableEq, Repr

/-- An item without comments. -/
def ListItem.plain (value : α) : ListItem α :=
  ⟨value, none, []⟩

/-- A list that is written out. -/
structure ListValue (α : Type) where
  items : List (ListItem α)
  /-- The comments on lines of their own after the last item. -/
  footer : List String
deriving DecidableEq, Repr

namespace ListValue

/-- The list without items and comments. -/
def empty : ListValue α :=
  ⟨[], []⟩

/-- The items without their comments. -/
def values (list : ListValue α) : List α :=
  list.items.map ListItem.value

/-- The item that stands for `value` in a new list: the first one that held it, or a plain one. -/
def itemFor [DecidableEq α] (list : ListValue α) (value : α) : ListItem α :=
  (list.items.find? fun item => item.value = value).getD (.plain value)

/-- A list of other values; the items that stay keep their comments. -/
def withValues [DecidableEq α] (list : ListValue α) (values : List α) : ListValue α :=
  ⟨values.map list.itemFor, list.footer⟩

theorem values_withValues [DecidableEq α] (list : ListValue α) (values : List α) :
    (list.withValues values).values = values := by
  have h : ∀ v, (list.itemFor v).value = v := by
    intro v
    unfold itemFor
    cases hf : list.items.find? (fun item => item.value = v) with
    | none => rfl
    | some item => simpa using List.find?_some hf
  simp [withValues, ListValue.values, Function.comp_def, h]

end ListValue

/-- A list attribute of a rule: missing, written out, or computed by another expression. -/
inductive ListAttr (α : Type)
  | absent
  | literal (list : ListValue α)
  | computed
deriving DecidableEq, Repr

namespace ListAttr

/-- The values of a list that is missing or written out. -/
def values? : ListAttr α → Option (List α)
  | absent => some []
  | literal list => some list.values
  | computed => none

/-- The attribute with other values, none if that changes nothing or cannot be done. -/
def replace? [DecidableEq α] (attr : ListAttr α) (values : List α) : Option (ListValue α) :=
  match attr with
  | computed => none
  | absent => if values = [] then none else some (ListValue.empty.withValues values)
  | literal list => if list.values = values then none else some (list.withValues values)

end ListAttr

/-! ## Rules -/

/-- A span of bytes. -/
structure Span where
  start : Nat
  stop : Nat
deriving DecidableEq, Repr

/-- Where a rule stands in the text of its BUILD file. -/
structure Origin where
  span : Span
  /-- Where new attributes go. -/
  insertAt : Nat
  /-- The end of the last argument, its comma included. -/
  lastArgEnd : Nat
  /-- A comma follows the last argument. -/
  trailingComma : Bool
  /-- The call takes more than one line. -/
  multiline : Bool
  /-- What stands before the arguments on their lines. -/
  indent : String
  srcs : Option Span
  deps : Option Span
deriving DecidableEq, Repr

/-- A managed rule. -/
structure Rule where
  kind : RuleKind
  name : String
  srcs : ListAttr String
  deps : ListAttr Label
  moduleName : Option String
  /-- Where the rule was read, none for a new one. -/
  origin : Option Origin
  srcsChanged : Bool
  depsChanged : Bool
deriving DecidableEq, Repr

namespace Rule

/-- A new rule without sources and dependencies. -/
def ofName (kind : RuleKind) (name : String) : Rule :=
  ⟨kind, name, .literal .empty, .literal .empty, none, none, false, false⟩

/-- The rule's label, for a rule of `package`. -/
def label (rule : Rule) (package : String) : Label :=
  .ofPackage package rule.name

/-- The rule was not read from a file. -/
def isNew (rule : Rule) : Bool :=
  rule.origin.isNone

/-- The rule's written list of sources holds `file`. -/
def owns (rule : Rule) (file : String) : Bool :=
  match rule.srcs with
  | .literal list => file ∈ list.values
  | _ => false

/-- A comment that protects the item before it: `# keep`. -/
def isKeep (comment : String) : Bool :=
  Text.trim (comment.toList.dropWhile (· = '#')) = "keep".toList

/-- The rule holds the dependency with a comment that protects it. -/
def isKept (rule : Rule) (dep : Label) : Bool :=
  match rule.deps with
  | .literal list => list.items.any fun item => item.value = dep && item.trailing.any isKeep
  | _ => false

/-- The rule with other sources, sorted and without repetitions. -/
def setSrcs (rule : Rule) (names : List String) : Rule :=
  match rule.srcs.replace? (sortedTexts names) with
  | some list => { rule with srcs := .literal list, srcsChanged := true }
  | none => rule

/-- The labels as they stand in the rule's list: in order, without repetitions and without the
rule's own. -/
def arrangeDeps (rule : Rule) (package : String) (labels : List Label) : List Label :=
  dropRepeats (Label.sortFor package (labels.filter (· ≠ rule.label package)))

/-- The rule with other dependencies. -/
def setDeps (rule : Rule) (package : String) (labels : List Label) : Rule :=
  match rule.deps.replace? (rule.arrangeDeps package labels) with
  | some list => { rule with deps := .literal list, depsChanged := true }
  | none => rule

end Rule

end BuildSync.Build
