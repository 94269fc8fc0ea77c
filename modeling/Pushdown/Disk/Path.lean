/-
  Path names.

  A path is a text with `/` between its components.  `clean` shortens a path by looking at its
  spelling only: it drops empty and `.` components and lets `..` cancel the component in front of
  it, whatever that component may be on a disk.
-/
import Pushdown.Text.Basic

namespace Pushdown.Path

open Text (lit)

/-- The separator of components. -/
def slash : UInt8 := 47

/-- The component that names the directory itself. -/
def here : Text := lit "."

/-- The component that names the directory above. -/
def up : Text := lit ".."

/-- Does the path start at the root? -/
def isAbsolute (p : Text) : Bool := p.head? = some slash

/-- The components of a path.  A slash at the end asks for a directory, as `.` does. -/
def components (p : Text) : List Text :=
  (Text.splitAt slash p).filter (· ≠ []) ++ (if p.getLast? = some slash then [here] else [])

/-- A component pushed onto a stack of components, innermost first. -/
def push (rooted : Bool) (stack : List Text) (c : Text) : List Text :=
  if c = [] ∨ c = here then stack
  else if c = up then
    match stack with
    | [] => if rooted then [] else [up]
    | top :: rest => if top = up then up :: top :: rest else rest
  else c :: stack

/-- The shortest path that is equal to `p` by spelling; the empty path is `.`. -/
def clean (p : Text) : Text :=
  let rooted := isAbsolute p
  let body := Text.join [slash] (((Text.splitAt slash p).foldl (push rooted) []).reverse)
  if rooted then slash :: body else if body = [] then here else body

/-- A directory and a name put together and cleaned; an empty directory adds nothing. -/
def join (dir name : Text) : Text :=
  if dir = [] then (if name = [] then [] else clean name) else clean (dir ++ slash :: name)

end Pushdown.Path
