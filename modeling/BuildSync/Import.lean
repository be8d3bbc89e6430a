/-! # Imports

What a source says about the modules it uses: one `Import` for each statement or directive that
names a module.
-/

namespace BuildSync

/-- How a source uses a module. -/
inductive ImportKind
  /-- It takes values from the module. -/
  | value
  /-- It takes types only. -/
  | typeOnly
  /-- It only has the module run. -/
  | sideEffect
  /-- It exports what the module exports. -/
  | reexport
  /-- A directive in front of the program names the module. -/
  | reference
deriving DecidableEq, Repr

/-- A place in a source where a module is named. -/
structure Import where
  /-- The name of the module as it is written. -/
  specifier : String
  kind : ImportKind
  /-- The line on which the statement starts, counted from one. -/
  line : Nat
  /-- The line on which the statement ends. -/
  endLine : Nat
  /-- The byte at which the statement starts. -/
  start : Nat
  /-- The byte after the statement. -/
  stop : Nat
deriving DecidableEq, Repr

end BuildSync
