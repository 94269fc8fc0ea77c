/-
  Making and changing disks.

  New nodes are added at the end of the table and no node is ever dropped from it, so numbers
  held by readers stay valid.  An edit that is impossible leaves the disk as it is.
-/
import Pushdown.Disk.Basic

namespace Pushdown.Disk

/-- A disk with nothing on it but the chain of directories down to the current one. -/
def empty (cwd : List Text) : Disk :=
  let rec chain : Nat → List Text → List Node
    | _, [] => [.directory []]
    | n, c :: cs => .directory [(c, n + 1)] :: chain (n + 1) cs
  { nodes := (chain 0 cwd).toArray, cwd := (cwd.mapIdx fun i c => (c, i + 1)).reverse }

/-- The disk with another node under a number. -/
def setNode (d : Disk) (i : Nat) (n : Node) : Disk :=
  { d with nodes := d.nodes.setIfInBounds i n }

/-- The disk with a new node listed under a name in the directory at a place. -/
def add (d : Disk) (parent : Place) (name : Text) (n : Node) : Disk :=
  match d.node parent.node with
  | .directory entries =>
    let d' := d.setNode parent.node (.directory (entries ++ [(name, d.nodes.size)]))
    { d' with nodes := d'.nodes.push n }
  | _ => d

/-- Adds a directory at the end of a list of components, if the name is free. -/
def addDirectory (d : Disk) (origin : Place) (cs : List Text) : Disk :=
  match d.walk .atOnce origin cs with
  | .ok (.vacant parent name) => d.add parent name (.directory [])
  | _ => d

/-- Adds all directories on the way along a list of components. -/
def addDirectories (d : Disk) (origin : Place) (cs : List Text) : Disk :=
  (List.range cs.length).foldl (fun d k => d.addDirectory origin (cs.take (k + 1))) d

/-- Adds a directory and all directories on the way to it. -/
def makeDirectory (d : Disk) (path : Text) : Disk :=
  d.addDirectories (d.origin path) (Path.components path)

/-- Adds the directories on the way to a file. -/
def makeParents (d : Disk) (path : Text) : Disk :=
  d.addDirectories (d.origin path) (Path.components path).dropLast

/-- Creates a file, or replaces the content of the file that the path names. -/
def write (d : Disk) (path content : Text) : Disk :=
  let d := d.makeParents path
  match d.locate path with
  | .ok (.found place) =>
    match d.node place.node with
    | .file _ => d.setNode place.node (.file content)
    | _ => d
  | .ok (.vacant parent name) => d.add parent name (.file content)
  | .error _ => d

/-- The directory that holds the last component of a path, and that component.  A link at the end
    of the path is not followed. -/
def holder? (d : Disk) (path : Text) : Option (Place × Text) :=
  let cs := Path.components path
  match cs.getLast?, d.walk .atOnce (d.origin path) cs.dropLast with
  | some name, .ok (.found place) => some (place, name)
  | _, _ => none

/-- Creates a symbolic link. -/
def makeLink (d : Disk) (path target : Text) : Disk :=
  let d := d.makeParents path
  match d.holder? path with
  | some (place, name) =>
    match d.node place.node with
    | .directory entries => if (nodeOf? name entries).isSome then d else d.add place name (.link target)
    | _ => d
  | none => d

/-- Takes a name off the disk.  A directory with entries keeps its name. -/
def remove (d : Disk) (path : Text) : Disk :=
  match d.holder? path with
  | some (place, name) =>
    match d.node place.node with
    | .directory entries =>
      match (nodeOf? name entries).map d.node with
      | some (.directory (_ :: _)) => d
      | _ => d.setNode place.node (.directory (entries.filter (·.1 ≠ name)))
    | _ => d
  | none => d

end Pushdown.Disk
