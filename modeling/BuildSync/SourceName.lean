import BuildSync.Text.Cut

/-! # Names of sources and directories

The kind of a source is told by the end of its name.
-/

namespace BuildSync

/-- What a source is for. -/
inductive SourceKind
  | library
  | test
  | declaration
deriving DecidableEq, Repr

namespace SourceKind

/-- The kind of the source of a name, none for a file that is no TypeScript source. -/
def ofName? (name : String) : Option SourceKind :=
  let ends := fun (final : String) => Text.endsWith name.toList final.toList
  if ends ".d.ts" then some declaration
  else if ends "_test.ts" || ends "_test.tsx" then some test
  else if ends ".ts" || ends ".tsx" then some library
  else none

end SourceKind

/-- A directory of this name is passed over when directories are gathered: hidden ones, installed
packages and build output. -/
def isSkippedDir (name : String) : Bool :=
  name = "node_modules" || Text.startsWith name.toList ".".toList ||
    Text.startsWith name.toList "bazel-".toList

end BuildSync
