import BuildSync.CommandLine.Exit

/-! # The program

The files that a run can depend on are read into a tree, and those that the run changed are written
back.
-/

namespace BuildSync.CommandLine

/-- The text of a file of this name can matter. -/
def isTextName (name : String) : Bool :=
  (SourceKind.ofName? name).isSome || name ∈ buildFileNames ||
    name ∈ [".gitignore", ".ignore", "exclude", ModulePath.manifestName]

/-- The text of a file, if it has one. -/
def readNode (path : String) : IO Node := do
  let bytes ← IO.FS.readBinFile path
  pure ((String.fromUTF8? bytes).elim .binary .text)

/-- What stands in a directory. Of files that cannot matter only the place is read. Links to
directories are left out. -/
def entriesOf (wanted : List Location) (dir : Location) : IO (List (Location × Node)) := do
  let mut found := []
  for entry in ← (← IO.FS.realPath dir.text).readDir do
    let location := dir ++ [entry.fileName]
    if (← entry.path.symlinkMetadata).type == .dir then
      found := (location, .directory) :: found
    else if !(← entry.path.isDir) then
      let node ←
        if isTextName entry.fileName || wanted.contains location then readNode location.text
        else pure .binary
      found := (location, node) :: found
  pure found

/-- What stands in directories that can be read. -/
def readableEntries (wanted : List Location) (dirs : List Location) :
    IO (List (Location × Node)) := do
  let mut found := []
  for dir in dirs do
    match ← (entriesOf wanted dir).toBaseIO with
    | .ok entries => found := entries ++ found
    | .error _ => pure ()
  pure found

/-- What stands below directories. -/
def entriesBelow (wanted : List Location) (dirs : List Location) :
    IO (List (Location × Node)) := do
  let mut found := []
  let mut pending := dirs
  while !pending.isEmpty do
    let entries ← readableEntries wanted pending
    pending := (entries.filter (·.2 = .directory)).map Prod.fst
    found := entries ++ found
  pure found

/-- The location of a path that exists. -/
def locationOf? (path : String) : IO (Option Location) := do
  match ← (IO.FS.realPath path).toBaseIO with
  | .ok path => pure (Path.ofText path.toString).location?
  | .error _ => pure none

/-- The tree that a run depends on: the directories above what the arguments name, and all of the
workspace. -/
def readTree (cwd : Location) (given : Given) : IO Tree := do
  let named ← (given.startPaths ++ (given.value? .index).toList).filterMapM locationOf?
  let above := ((cwd :: named).flatMap Location.upward).eraseDups
  let entries ← readableEntries named above
  match Workspace.find ⟨entries⟩ cwd given.searchPath with
  | .ok w =>
    let outside := entries.filter fun entry => entry.1 = w.root || !w.root.isPrefixOf entry.1
    pure ⟨(← entriesBelow named [w.root]) ++ outside⟩
  | .error _ => pure ⟨entries⟩

/-- The tree for a list of arguments. -/
def treeFor (cwd : Location) (arguments : List String) : IO Tree :=
  match Request.ofArguments? arguments with
  | some (.update given) => readTree cwd given
  | _ => pure .empty

end BuildSync.CommandLine

open BuildSync BuildSync.CommandLine in
/-- Runs the program. -/
def main (arguments : List String) : IO UInt32 := do
  let cwd := ((← locationOf? ".").getD [])
  let before ← treeFor cwd arguments
  let exit := execute noPrograms before cwd arguments
  for (location, text) in before.changes exit.tree do
    IO.FS.writeFile location.text text
  for line in exit.output do
    IO.println line
  for line in exit.report do
    IO.eprintln line
  pure exit.code.toUInt32
