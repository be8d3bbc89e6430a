import BuildSync.Build.Call
import BuildSync.Text.Edit

/-! # Contents of a BUILD file

* `Load`: a statement that loads symbols from another file.
* `Contents`: the managed rules and the loads of a BUILD file, and every function it calls.
* `Contents.parse`: the contents of a text. Statements that neither load nor make a managed rule
  are only skipped.
-/

namespace BuildSync.Build

/-- A statement that loads symbols. -/
structure Load where
  span : Span
  /-- The label of the file that is loaded. -/
  file : String
  /-- The symbols loaded under their own names, each with its text as written. -/
  positional : List (String × String)
  /-- The symbols loaded under other names: that name, and the text as written. -/
  keyword : List (String × String)
  /-- The symbols to be loaded in addition. -/
  added : List String
deriving DecidableEq, Repr

/-- The statement gives `name` a meaning in its file. -/
def Load.binds (load : Load) (name : String) : Bool :=
  load.positional.any (·.1 = name) || load.keyword.any (·.1 = name) || name ∈ load.added

/-- The contents of a BUILD file. -/
structure Contents where
  rules : List Rule
  loads : List Load
  /-- The functions called by the statements, in order. -/
  called : List String
deriving DecidableEq, Repr

namespace Contents

/-- The contents of a file without statements. -/
def empty : Contents :=
  ⟨[], [], []⟩

/-- The contents of a file that goes on with another. -/
def append (a b : Contents) : Contents :=
  ⟨a.rules ++ b.rules, a.loads ++ b.loads, a.called ++ b.called⟩

instance : Append Contents := ⟨append⟩

end Contents

/-! ## Rules -/

/-- The attributes of a rule as far as they have been read. -/
structure RuleReader where
  kind : RuleKind
  name : Option String
  srcs : ListAttr String
  deps : ListAttr Label
  srcsSpan : Option Span
  depsSpan : Option Span
  moduleName : Option String
  indent : Option String

namespace RuleReader

/-- The item with another value. -/
def withValue (item : ListItem α) (value : β) : ListItem β :=
  ⟨value, item.trailing, item.leading⟩

/-- The sources that a value lists. -/
def sources (arg : Argument) : ListAttr String :=
  match arg.strings? with
  | some list => .literal ⟨list.items.map fun item => withValue item item.value.1, list.footer⟩
  | none => .computed

/-- The dependencies that a value lists in a BUILD file of `package`. -/
def dependencies (package : String) (arg : Argument) : Except Fault (ListAttr Label) :=
  match arg.strings? with
  | none => .ok .computed
  | some list => do
    let items ← list.items.mapM fun item =>
      match Label.parse? item.value.1 package with
      | some label => .ok (withValue item label)
      | none => .error ⟨item.value.2, .invalidDep item.value.1⟩
    pure (.literal ⟨items, list.footer⟩)

/-- What stands before the byte `n` on its line, if that is only spaces and tabs, and some. -/
def indentAt? (text : List Char) (n : Nat) : Option String :=
  let front := Text.lineFront text n
  if front ≠ [] ∧ front.all Text.isIndent then some (String.ofList front) else none

/-- The attributes with one more keyword argument. -/
def argument (text : List Char) (package : String) (r : RuleReader) (arg : Argument) :
    Except Fault RuleReader :=
  match arg.key with
  | none => .ok r
  | some key =>
    let r := { r with indent := r.indent <|> indentAt? text arg.start }
    if key = "name" then
      match arg.string? with
      | some name => .ok { r with name := some name }
      | none => .error ⟨arg.start, .computedName⟩
    else if key = "module_name" then .ok { r with moduleName := arg.string? }
    else if key = "testonly" then
      match r.kind with
      | .library _ => .ok { r with kind := .library arg.isTrue }
      | _ => .ok r
    else if key = "srcs" then .ok { r with srcs := sources arg, srcsSpan := arg.span? }
    else if key = "deps" then do
      let deps ← dependencies package arg
      pure { r with deps := deps, depsSpan := arg.span? }
    else .ok r

end RuleReader

/-- A managed rule from its call: the function's name, the opening parenthesis, the tokens up to
the closing one, and that one. -/
def Rule.parse (text : List Char) (package : String) (kind : RuleKind) (callee opening : Token)
    (inside : List Token) (close : Token) : Except Fault Rule := do
  let r ← (arguments inside).foldlM (RuleReader.argument text package)
    ⟨kind, none, .absent, .absent, none, none, none, none⟩
  match r.name with
  | none => .error ⟨callee.start, .unnamedRule kind⟩
  | some name =>
    let trailing := inside.reverse.takeWhile Token.isTrivia
    let last := (inside.reverse.dropWhile Token.isTrivia).head?
    let lastArgEnd := (last.getD opening).stop
    let insertAt :=
      match last, trailing.getLast? with
      | some _, some t => if t.kind = .comment then t.stop else lastArgEnd
      | _, _ => lastArgEnd
    pure {
      kind := r.kind, name := name, srcs := r.srcs, deps := r.deps, moduleName := r.moduleName,
      origin := some {
        span := ⟨callee.start, close.stop⟩
        insertAt := insertAt
        lastArgEnd := lastArgEnd
        trailingComma := last.any (·.kind = .comma)
        multiline := inside.any (·.kind = .newline)
        indent := r.indent.getD "    "
        srcs := r.srcsSpan
        deps := r.depsSpan }
      srcsChanged := false, depsChanged := false }

/-! ## Loads -/

/-- The text between two bytes. -/
def spanText (text : List Char) (span : Span) : String :=
  String.ofList ((Text.slice? text span.start span.stop).getD [])

/-- The load with one more argument after the first. -/
def Load.argument (text : List Char) (load : Load) (arg : Argument) : Except Fault Load :=
  match arg.span? with
  | none => .ok load
  | some span =>
    match arg.key with
    | some key =>
      let written := key ++ " = " ++ spanText text span
      .ok { load with keyword := load.keyword ++ [(key, written)] }
    | none =>
      match arg.string? with
      | some symbol =>
        .ok { load with positional := load.positional ++ [(symbol, spanText text span)] }
      | none => .error ⟨span.start, .computedSymbol⟩

/-- A load from its call. -/
def Load.parse (text : List Char) (callee : Token) (inside : List Token) (close : Token) :
    Except Fault Load :=
  let missing : Except Fault Load := .error ⟨callee.start, .missingFile⟩
  match arguments inside with
  | [] => missing
  | first :: args =>
    match first.key, first.string? with
    | none, some file =>
      args.foldlM (Load.argument text) ⟨⟨callee.start, close.stop⟩, file, [], [], []⟩
    | _, _ => missing

/-! ## Statements -/

/-- The contents that a call at the start of a statement makes. -/
def Contents.ofCall (text : List Char) (package : String) (callee opening : Token)
    (inside : List Token) (close : Token) : Except Fault Contents :=
  let name := String.ofList callee.text
  if name = "load" then do
    let load ← Load.parse text callee inside close
    pure ⟨[], [load], [name]⟩
  else
    match RuleKind.ofFunction? name with
    | some kind => do
      let rule ← Rule.parse text package kind callee opening inside close
      pure ⟨[rule], [], [name]⟩
    | none => .ok ⟨[], [], [name]⟩

/-- The contents of the statements that the tokens make. -/
def Contents.ofTokens (text : List Char) (package : String) : List Token → Except Fault Contents
  | [] => .ok .empty
  | t :: ts =>
    if t.isTrivia then ofTokens text package ts
    else
      match _hc : callOpening? t ts with
      | none =>
        match _hs : skipStatement 0 [] (t :: ts) with
        | .error fault => .error fault
        | .ok rest => ofTokens text package rest
      | some (opening, inner) =>
        match _hg : group opening.start [.round] inner with
        | .error fault => .error fault
        | .ok (inside, close, after) =>
          match ofCall text package t opening inside close with
          | .error fault => .error fault
          | .ok first =>
            match _hs : skipStatement 0 [] after with
            | .error fault => .error fault
            | .ok rest => (ofTokens text package rest).map (first ++ ·)
termination_by ts => ts.length
decreasing_by
  · simp
  · have := length_skipStatement_cons_le _hs
    simp; omega
  · have := eq_cons_of_callOpening? _hc
    have := length_group_le _hg
    have := length_skipStatement_le _hs
    simp_all; omega

/-- The contents of a BUILD file of `package`. -/
def Contents.parse (text : List Char) (package : String) : Except Fault Contents :=
  match tokens 0 text with
  | .error offset => .error ⟨offset, .openString⟩
  | .ok ts => ofTokens text package ts

end BuildSync.Build
