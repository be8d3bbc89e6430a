import BuildSync.Build.Rule

/-! # What can be wrong with a BUILD file -/

namespace BuildSync.Build

/-- What is wrong with a BUILD file. -/
inductive Defect
  /-- A string literal does not end. -/
  | openString
  /-- A bracket is closed by one of another kind. -/
  | mismatchedBracket
  /-- A bracket is not closed. -/
  | openBracket
  /-- A bracket is closed that was not opened. -/
  | strayBracket
  /-- A managed rule has no name. -/
  | unnamedRule (kind : RuleKind)
  /-- The name of a managed rule is not written out. -/
  | computedName
  /-- A written dependency is no label. -/
  | invalidDep (text : String)
  /-- A load does not start with the text of a file's label. -/
  | missingFile
  /-- A load names a symbol that is not written out. -/
  | computedSymbol
deriving DecidableEq, Repr

/-- A defect as it is reported. -/
def Defect.message : Defect → String
  | openString => "unterminated string literal"
  | mismatchedBracket => "mismatched closing bracket"
  | openBracket => "unclosed bracket"
  | strayBracket => "unexpected closing bracket"
  | unnamedRule kind => kind.function ++ "() without a name"
  | computedName => "rule name must be a string literal"
  | invalidDep text => "invalid label '" ++ text ++ "' in deps"
  | missingFile => "load() needs a module string"
  | computedSymbol => "load() symbols must be string literals"

/-- A defect and the byte at which it is reported. -/
structure Fault where
  offset : Nat
  defect : Defect
deriving DecidableEq, Repr

end BuildSync.Build
