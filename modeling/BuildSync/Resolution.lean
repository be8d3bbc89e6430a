import BuildSync.Import
import BuildSync.Label

/-! # Resolved imports

The imports of a source, each with the labels of the rules that provide it.
-/

namespace BuildSync

/-- An import with the rules that provide it. -/
structure ResolvedImport where
  source : Import
  /-- No label for an import that nothing provides, several for one that is not settled. -/
  candidates : List Label
deriving DecidableEq, Repr

/-- The resolved imports of a source. -/
structure ResolvedFile where
  name : String
  imports : List ResolvedImport
deriving DecidableEq, Repr

end BuildSync
