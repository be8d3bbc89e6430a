import BuildSync.Order
import BuildSync.Path
import BuildSync.Problem

/-! # File trees

A `Tree` says what stands at each location: a directory or a file.

* `Tree.node?`: the view of a tree; `Tree.put` changes it at one location (`node?_put_self`,
  `node?_put_of_ne`).
* `Tree.follow`: the location that a spelled path leads to.
* `Tree.read`, `Tree.write`, `Tree.list`: the operations, with their faults.
* `Tree.changes`: the files that differ between two trees.
-/

namespace BuildSync

/-- What stands at a location. -/
inductive Node
  | directory
  | text (text : String)
  /-- A file whose bytes are no UTF-8. -/
  | binary
deriving DecidableEq, Repr

/-- What stands at each location. The root is always a directory. -/
structure Tree where
  entries : List (Location × Node)
deriving DecidableEq, Repr

namespace Tree

/-- The tree with nothing below the root. -/
def empty : Tree :=
  ⟨[]⟩

/-- What stands at a location. -/
def node? (t : Tree) (location : Location) : Option Node :=
  if location = [] then some .directory else t.entries.lookup location

/-- The tree without what stands at a location. -/
def erase (t : Tree) (location : Location) : Tree :=
  ⟨t.entries.filter (·.1 ≠ location)⟩

/-- The tree with something put at a location. -/
def put (t : Tree) (location : Location) (node : Node) : Tree :=
  ⟨(location, node) :: (t.erase location).entries⟩

/-- A directory stands at a location. -/
def isDir (t : Tree) (location : Location) : Bool :=
  t.node? location = some .directory

/-- A file stands at a location. -/
def isFile (t : Tree) (location : Location) : Bool :=
  match t.node? location with
  | some (.text _) | some .binary => true
  | _ => false

/-! ## Paths -/

/-- The location that segments lead to from a location. Each segment but the last must lead to a
directory, and something must stand at the end. -/
def follow (t : Tree) (location : Location) : List String → Except FileFault Location
  | [] => if (t.node? location).isSome then .ok location else .error .missing
  | segment :: rest =>
    match t.node? location with
    | none => .error .missing
    | some .directory =>
      if segment = "" ∨ segment = "." then follow t location rest
      else if segment = ".." then follow t location.dropLast rest
      else follow t (location ++ [segment]) rest
    | some _ => .error .notDirectory

/-- The location of a spelled path, seen from the directory `cwd`. -/
def resolve (t : Tree) (cwd : Location) (text : String) : Except FileFault Location :=
  if text = "" then .error .missing
  else t.follow (if Path.startsAtRoot text then [] else cwd) (Path.segments text)

/-! ## Operations -/

/-- The text of a file. -/
def read (t : Tree) (location : Location) : Except FileFault String :=
  match t.node? location with
  | some (.text text) => .ok text
  | some .binary => .error .notText
  | some .directory => .error .isDirectory
  | none => .error .missing

/-- The text of the file that a spelled path leads to. -/
def readText (t : Tree) (cwd : Location) (text : String) : Except FileFault String :=
  match t.resolve cwd text with
  | .ok location => t.read location
  | .error fault => .error fault

/-- The tree with a file's text written. -/
def write (t : Tree) (location : Location) (text : String) : Except FileFault Tree :=
  if t.isDir location then .error .isDirectory
  else
    match t.node? location.dropLast with
    | none => .error .missing
    | some .directory => .ok (t.put location (.text text))
    | some _ => .error .notDirectory

/-- The tree with directories below `above`, one inside the other. -/
def addDirs (t : Tree) (above : Location) : List String → Tree
  | [] => t
  | name :: rest =>
    let dir := above ++ [name]
    addDirs (if t.isDir dir then t else t.put dir .directory) dir rest

/-- The tree with a directory, and the directories above it. -/
def addDir (t : Tree) (location : Location) : Tree :=
  t.addDirs [] location

/-- The tree with a file or a directory, and the directories above it. -/
def add (t : Tree) (location : Location) (node : Node) : Tree :=
  (t.addDir location.dropLast).put location node

/-- The tree without a location and all that is below it. -/
def remove (t : Tree) (location : Location) : Tree :=
  ⟨t.entries.filter fun entry => !location.isPrefixOf entry.1⟩

/-- The names in a directory, in order. -/
def names (t : Tree) (location : Location) : List String :=
  sortedTexts ((t.entries.filterMap fun entry =>
    if entry.1.dropLast = location then entry.1.getLast? else none))

/-- The names in what should be a directory. -/
def list (t : Tree) (location : Location) : Except FileFault (List String) :=
  match t.node? location with
  | some .directory => .ok (t.names location)
  | some _ => .error .notDirectory
  | none => .error .missing

/-- The files whose texts are not the same in a tree as they were before, with their texts. -/
def changes (before after : Tree) : List (Location × String) :=
  after.entries.filterMap fun (location, node) =>
    match node with
    | .text text =>
      if before.node? location = some (.text text) then none else some (location, text)
    | _ => none

/-! ## The view -/

theorem lookup_filter_ne {l l' : Location} (h : l ≠ l') (xs : List (Location × Node)) :
    (xs.filter (·.1 ≠ l')).lookup l = xs.lookup l := by
  induction xs with
  | nil => rfl
  | cons x xs ih =>
    obtain ⟨k, v⟩ := x
    by_cases hk : k = l'
    · subst hk
      simpa [List.lookup_cons, beq_eq_false_iff_ne.2 h] using ih
    · simp only [List.filter_cons, hk, ne_eq, not_false_eq_true, decide_true, if_true,
        List.lookup_cons, ih]

theorem node?_put_self {l : Location} (h : l ≠ []) (t : Tree) (n : Node) :
    (t.put l n).node? l = some n := by
  simp [node?, put, h]

theorem node?_put_of_ne {l l' : Location} (h : l ≠ l') (t : Tree) (n : Node) :
    (t.put l' n).node? l = t.node? l := by
  unfold node? put erase
  split
  · rfl
  · rw [List.lookup_cons, beq_eq_false_iff_ne.2 h]
    exact lookup_filter_ne h _

end Tree

end BuildSync
