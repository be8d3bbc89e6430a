import BuildSync.Session

/-! # What the program is asked for

* `Switch`, `Setting`: the options without and with a value.
* `Request.ofArguments?`: what a list of arguments asks for, none for one that makes no sense.

Options and paths may be mixed. An option is given at most once, apart from the one for more
messages. After `--` there are only paths.
-/

namespace BuildSync.CommandLine

/-- The options without a value. -/
inductive Switch
  | root
  | recursive
  | files
  | removeUnusedDeclarations
  | updateComments
  | keepGoing
deriving DecidableEq, Repr

/-- The options with a value. -/
inductive Setting
  | index
  | bazel
  | rulesFile
deriving DecidableEq, Repr

/-- The names of the options without a value. -/
def switchNames : List (String × Switch) :=
  [("--root", .root), ("--recursive", .recursive), ("--files", .files),
    ("--remove-unused-declarations", .removeUnusedDeclarations),
    ("--update-comments", .updateComments), ("--keep-going", .keepGoing)]

/-- The names of the options with a value. -/
def settingNames : List (String × Setting) :=
  [("--index", .index), ("--bazel", .bazel), ("--rules-bzl", .rulesFile)]

/-- The names of the option for more messages, which changes nothing else. -/
def verboseNames : List String :=
  ["--verbose", "-v"]

/-- The arguments that were given. -/
structure Given where
  switches : List Switch
  settings : List (Setting × String)
  paths : List String
deriving DecidableEq, Repr

/-- What the program is asked for. -/
inductive Request
  | version
  | help
  | update (given : Given)
deriving DecidableEq, Repr

namespace Given

/-- Nothing is given. -/
def nothing : Given :=
  ⟨[], [], []⟩

/-- A switch is given. -/
def has (g : Given) (s : Switch) : Bool :=
  s ∈ g.switches

/-- The value of a setting, if it is given. -/
def value? (g : Given) (s : Setting) : Option String :=
  g.settings.lookup s

/-- A switch is given, for the first time. -/
def addSwitch? (g : Given) (s : Switch) : Option Given :=
  if g.has s then none else some { g with switches := g.switches ++ [s] }

/-- A setting is given, for the first time. One that names a file is not empty. -/
def addSetting? (g : Given) (s : Setting) (value : String) : Option Given :=
  if (g.value? s).isSome ∨ (value = "" ∧ s ≠ .rulesFile) then none
  else some { g with settings := g.settings ++ [(s, value)] }

/-- One more path is given, which is not empty. -/
def addPath? (g : Given) (path : String) : Option Given :=
  if path = "" then none else some { g with paths := g.paths ++ [path] }

/-- More paths are given. -/
def addPaths? (g : Given) (paths : List String) : Option Given :=
  paths.foldlM addPath? g

end Given

/-! ## Arguments -/

/-- An argument that is an option, or at least looks like one. -/
def isOption (argument : String) : Bool :=
  Text.startsWith argument.toList ['-'] && argument ≠ "-"

/-- What a group of short options asks for at once, if anything; none if one is unknown. -/
def shortRequest? : List Char → Option (Option Request)
  | [] => some none
  | c :: rest =>
    if c = 'v' then shortRequest? rest
    else if c = 'V' then some (some .version)
    else if c = 'h' then some (some .help)
    else none

/-- The name and the value of an option that is written with `=`. -/
def assigned? (argument : String) : Option (Setting × String) :=
  match Text.cut? ['='] argument.toList with
  | some (name, value) =>
    (settingNames.lookup (String.ofList name)).map fun s => (s, String.ofList value)
  | none => none

namespace Request

/-- What the rest of the arguments asks for, after those that are given. -/
def read? (g : Given) : List String → Option Request
  | [] => some (.update g)
  | argument :: rest =>
    if argument = "--" then (g.addPaths? rest).map .update
    else if argument = "--version" then some .version
    else if argument = "--help" then some .help
    else if argument ∈ verboseNames then read? g rest
    else
      match switchNames.lookup argument, settingNames.lookup argument, assigned? argument with
      | some s, _, _ => (g.addSwitch? s).bind fun g => read? g rest
      | none, some s, _ =>
        match rest with
        | [] => none
        | value :: rest =>
          if isOption value then none else (g.addSetting? s value).bind fun g => read? g rest
      | none, none, some (s, value) => (g.addSetting? s value).bind fun g => read? g rest
      | none, none, none =>
        match argument.toList with
        | '-' :: '-' :: _ => none
        | '-' :: c :: cs =>
          match shortRequest? (c :: cs) with
          | none => none
          | some none => read? g rest
          | some (some request) => some request
        | _ => (g.addPath? argument).bind fun g => read? g rest

/-- What a list of arguments asks for. -/
def ofArguments? (arguments : List String) : Option Request :=
  read? .nothing arguments

end Request

/-! ## Options of a session -/

namespace Given

/-- The file that new kinds of rules are loaded from if none is given. -/
def defaultRulesFile : String :=
  "@npm_bazel_typescript//:index.bzl"

/-- The program that answers queries if none is given. -/
def defaultBazel : String :=
  "bazel"

/-- The paths, or the current directory. -/
def startPaths (g : Given) : List String :=
  if g.paths = [] then ["."] else g.paths

/-- What a session is asked to do. -/
def options (g : Given) : SessionOptions where
  paths := g.startPaths
  isProjectRoot := g.has .root
  recursive := g.has .recursive
  areFiles := g.has .files
  keepsGoing := g.has .keepGoing
  update := {
    dropsUnused := g.has .removeUnusedDeclarations
    annotates := g.has .updateComments
    rulesFile := (g.value? .rulesFile).getD defaultRulesFile }

/-- The path from which the workspace is looked for. -/
def searchPath (g : Given) : String :=
  let first := g.startPaths.headD "."
  if g.has .files then dirOf first else first

end Given

end BuildSync.CommandLine
