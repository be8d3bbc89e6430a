import BuildSync.ModulePath
import BuildSync.Package
import BuildSync.Workspace

/-! # Targets of imports

Where an import leads, before any rule is looked at.

* `Target`: a module by its name, or a file and the package it is in.
* `Workspace.target`: the target of a specifier.
-/

namespace BuildSync

/-- Where an import leads. -/
inductive Target
  /-- A module, known by its name. -/
  | module (name : String)
  /-- A file in the directory of the source. -/
  | sibling (name : String)
  /-- A file of a package. -/
  | member (dir : Location) (package : String) (file : String) (path : String)
  /-- A file of the workspace that is in no package. -/
  | stray (path : String)
  /-- Nothing is there, or it is outside the workspace. -/
  | missing
deriving DecidableEq, Repr

namespace Workspace

/-- The target of a file that is imported from a directory. A file of a package is given as seen
from its package, and as seen from the root of the workspace. -/
def fileTarget (w : Workspace) (t : Tree) (dir file : Location) : Target :=
  if file.dropLast = dir then .sibling (file.getLast?.getD "")
  else
    match w.relative? file with
    | none => .missing
    | some path =>
      match w.owningPackage? t file with
      | some (owner, package) =>
        .member owner package (((Workspace.mk owner).relative? file).getD path) path
      | none => .stray path

/-- The target of a specifier in a source that stands in a directory. The file that it leads to is
looked up in the tree `seen`, which may be an earlier one. -/
def target (w : Workspace) (t : Tree) (dir : Location) (specifier : String) (seen : Tree := t) :
    Target :=
  if ModulePath.isRelative specifier then
    match seen.moduleFile? dir specifier with
    | some file => w.fileTarget t dir file
    | none => .missing
  else .module specifier

end Workspace

end BuildSync
