/-
  Disks: directories, files and symbolic links.

  A disk is a table of numbered nodes with the root at number zero.  A directory lists names with
  the numbers of their nodes; an opened file is known by its number, so it stays readable after
  its name is gone, and overwriting a file changes what its readers see.

  `walk` follows a path component by component.  A link is replaced by its target on the way, and
  the number of links that may be followed is bounded.  `locate` walks as opening a file does: the
  path is handed over as a whole and its length is checked once.  `canonical` cleans the path by
  its spelling first and only then resolves links, asking for every place on the way by its
  absolute path, and falls back on the spelling if that fails.
-/
import Pushdown.Disk.Path

namespace Pushdown

/-- What a number on a disk stands for. -/
inductive Node where
  | file (content : Text)
  | directory (entries : List (Text × Nat))
  | link (target : Text)
  deriving DecidableEq, Repr, Inhabited

/-- Why a path leads nowhere or a node cannot be read. -/
inductive Fault where
  | notFound
  | notDirectory
  | isDirectory
  | linkLoop
  | nameTooLong
  | invalid
  deriving DecidableEq, Repr

/-- The text of a fault. -/
def Fault.message : Fault → Text
  | .notFound => Text.lit "no such file or directory"
  | .notDirectory => Text.lit "not a directory"
  | .isDirectory => Text.lit "is a directory"
  | .linkLoop => Text.lit "too many levels of symbolic links"
  | .nameTooLong => Text.lit "file name too long"
  | .invalid => Text.lit "invalid argument"

/-- A node reached from the root: the names and numbers on the way, innermost first.  The root is
    the empty list. -/
abbrev Place := List (Text × Nat)

/-- The number of the node at a place. -/
def Place.node : Place → Nat
  | [] => 0
  | (_, i) :: _ => i

/-- The absolute path of a place. -/
def Place.path (p : Place) : Text := Path.slash :: Text.join [Path.slash] (p.reverse.map Prod.fst)

/-- The length of the absolute path of a name in the directory at a place. -/
def Place.lengthOf (p : Place) (name : Text) : Nat :=
  p.foldl (fun n e => n + (e.1.length + 1)) (name.length + 1)

/-- The length of names with slashes between them. -/
theorem length_join_slash {ts : List Text} (h : ts ≠ []) :
    (Text.join [Path.slash] ts).length + 1 = ts.foldr (fun t n => n + (t.length + 1)) 0 := by
  induction ts with
  | nil => exact absurd rfl h
  | cons t ts ih =>
    cases ts with
    | nil => simp [Text.join]
    | cons u us =>
      have := ih (List.cons_ne_nil u us)
      simp only [Text.join, List.length_append, List.length_singleton, List.foldr_cons] at this ⊢
      omega

/-- What `lengthOf` counts is the length of the path, without the path being built. -/
theorem Place.length_path_cons (p : Place) (name : Text) (i : Nat) :
    (Place.path ((name, i) :: p)).length = p.lengthOf name := by
  have h := @length_join_slash (((name, i) :: p).reverse.map Prod.fst) (by simp)
  rw [Place.path, List.length_cons, h, List.map_reverse, List.foldr_reverse, List.foldl_map,
    List.foldl_cons, Nat.zero_add]
  rfl

/-- A disk and the directory that relative paths start from. -/
structure Disk where
  nodes : Array Node
  cwd : Place
  deriving Repr

/-- Where a walk ends: at a node, or at a name that is free in an existing directory. -/
inductive Spot where
  | found (place : Place)
  | vacant (parent : Place) (name : Text)
  deriving DecidableEq, Repr

namespace Disk

/-! ## Walking -/

/-- The node with a given number. -/
def node (d : Disk) (i : Nat) : Node := d.nodes.getD i (.directory [])

/-- The number that a directory lists under a name. -/
def nodeOf? (name : Text) : List (Text × Nat) → Option Nat
  | [] => none
  | (n, i) :: r => if n = name then some i else nodeOf? name r

/-- No name on a disk is longer than this. -/
def maxName : Nat := 255

/-- No path handed to the disk is as long as this. -/
def maxPath : Nat := 4096

/-- The two manners of following a path. -/
inductive Manner where
  /-- The path is handed over as a whole. -/
  | atOnce
  /-- Every place on the way is asked for by its absolute path. -/
  | placewise
  deriving DecidableEq, Repr

/-- How many links are followed. -/
def Manner.links : Manner → Nat
  | .atOnce => 40
  | .placewise => 255

/-- May a name in the directory at a place be asked for? -/
def Manner.admits : Manner → Place → Text → Bool
  | .atOnce, _, _ => true
  | .placewise, place, name => place.lengthOf name < maxPath

/-- Follows components from a place; `onLink` goes on from a link with the directory that its
    target starts from and all components still ahead. -/
def steps (d : Disk) (m : Manner) (onLink : Place → List Text → Except Fault Spot)
    (place : Place) : List Text → Except Fault Spot
  | [] => .ok (.found place)
  | c :: rest =>
    match d.node place.node with
    | .directory entries =>
      if c = Path.here then steps d m onLink place rest
      else if c = Path.up then steps d m onLink place.tail rest
      else if maxName < c.length ∨ !m.admits place c then .error .nameTooLong
      else match nodeOf? c entries with
        | none => if rest = [] then .ok (.vacant place c) else .error .notFound
        | some i =>
          match d.node i with
          | .link target =>
            onLink (if Path.isAbsolute target then [] else place) (Path.components target ++ rest)
          | _ => steps d m onLink ((c, i) :: place) rest
    | _ => .error .notDirectory

/-- Follows components from a place and at most `links` links on the way. -/
def walkFrom (d : Disk) (m : Manner) : (links : Nat) → Place → List Text → Except Fault Spot
  | 0 => steps d m fun _ _ => .error .linkLoop
  | n + 1 => steps d m (walkFrom d m n)

/-- Follows components from a place. -/
def walk (d : Disk) (m : Manner) (place : Place) (cs : List Text) : Except Fault Spot :=
  d.walkFrom m m.links place cs

/-- The place that a path starts from. -/
def origin (d : Disk) (path : Text) : Place := if Path.isAbsolute path then [] else d.cwd

/-- Where a path leads when a file is opened. -/
def locate (d : Disk) (path : Text) : Except Fault Spot :=
  if path = [] then .error .notFound
  else if path.contains 0 then .error .invalid
  else if maxPath ≤ path.length then .error .nameTooLong
  else d.walk .atOnce (d.origin path) (Path.components path)

/-- The number of the node that a path names. -/
def lookup (d : Disk) (path : Text) : Except Fault Nat :=
  match d.locate path with
  | .ok (.found place) => .ok place.node
  | .ok (.vacant _ _) => .error .notFound
  | .error f => .error f

/-! ## Reading -/

/-- The content of a node that can be read. -/
def content (d : Disk) (i : Nat) : Except Fault Text :=
  match d.node i with
  | .file content => .ok content
  | _ => .error .isDirectory

/-- Does the path name something other than a directory? -/
def hasFile (d : Disk) (path : Text) : Bool :=
  match d.lookup path with
  | .ok i => match d.node i with
    | .directory _ => false
    | _ => true
  | .error _ => false

/-- The absolute path of a name, by spelling only. -/
def absolute (d : Disk) (name : Text) : Text :=
  if Path.isAbsolute name then Path.clean name
  else Path.clean (d.cwd.path ++ Path.slash :: name)

/-- The identity of the file of a given name: the absolute path with all links resolved, or the
    absolute path itself if it cannot be resolved. -/
def canonical (d : Disk) (name : Text) : Text :=
  match d.walk .placewise [] (Path.components (d.absolute name)) with
  | .ok (.found place) => place.path
  | _ => d.absolute name

end Disk
end Pushdown
