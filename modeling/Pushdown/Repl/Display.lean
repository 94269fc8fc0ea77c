/-
  What the interpreter shows: marked lines and trees.

  A marked line has a mark in front of its message; further lines of the message are indented by
  the width of the mark, and one newline ends it all.  A tree is drawn with a branch for every
  node; nodes below a node that has followers hang on a vertical line.  Markup in messages and
  labels is left out.
-/
import Pushdown.Repl.Markup

namespace Pushdown.Display

open Text (lit)

/-! ## Marked lines -/

/-- The marks of messages. -/
inductive Mark where
  | info
  | error
  | warning
  deriving DecidableEq, Repr

/-- The text of a mark. -/
def Mark.text : Mark → Text
  | .info => lit "  >>"
  | .error => lit "  Error"
  | .warning => lit "WARNING"

/-- A message behind its mark. -/
def marked (mark : Mark) (message : Text) : Text :=
  let indent := Text.newline :: List.replicate (mark.text.length + 3) 32
  let lines := Text.splitAt Text.newline (Text.trimNewlines (Markup.untagged message))
  Markup.shown (lit " " ++ mark.text ++ lit "  " ++ Text.join indent (lines.map Markup.plain)
    ++ [Text.newline])

/-! ## Trees -/

/-- A labelled tree. -/
inductive Tree where
  | node (label : Text) (children : List Tree)
  deriving Repr, Inhabited

/-- A label with the level it has in a tree; the level of a child is one more than that of its
    parent, and a node comes directly before what is below it.  A level below zero counts as zero.

    Levels are plain integers, since none of them can wrap around in a machine word: a level is 0 or
    1 at the top and grows by one with every list that is entered, so that it is never more than
    the depth of a value that is held in memory, and that is far below `2 ^ 63`. -/
structure Item where
  level : Int
  label : Text
  deriving DecidableEq, Repr

/-- The trees of a list of items, from level `n` on, and the items left over.  The fuel bounds the
    number of items. -/
def treesFrom : Nat → Nat → List Item → List Tree × List Item
  | 0, _, items => ([], items)
  | _, _, [] => ([], [])
  | fuel + 1, n, i :: items =>
    if i.level.toNat < n then ([], i :: items)
    else
      let (children, rest) := treesFrom fuel (n + 1) items
      let (followers, rest) := treesFrom fuel n rest
      (.node i.label children :: followers, rest)

/-- The trees of a list of items. -/
def trees (items : List Item) : List Tree := (treesFrom items.length 0 items).1

mutual

/-- The lines of a node and of all nodes below it, in front of other lines. -/
def drawNode (margin : Text) (isLast : Bool) (rest : List Text) : Tree → List Text
  | .node label children =>
    (margin ++ (if isLast then lit "└─" else lit "├─")
      ++ (if children.isEmpty then lit "─" else lit "┬") ++ Markup.plain label)
      :: drawNodes (margin ++ (if isLast then lit "  " else lit "│ ")) rest children

/-- The lines of nodes of one level, in front of other lines. -/
def drawNodes (margin : Text) (rest : List Text) : List Tree → List Text
  | [] => rest
  | [t] => drawNode margin true rest t
  | t :: ts => drawNode margin false (drawNodes margin rest ts) t

end

/-- The trees of a list of items, and an empty line. -/
def draw (items : List Item) : Text :=
  Markup.shown ((drawNodes [] [] (trees items)).flatMap (· ++ [Text.newline]) ++ [Text.newline])

end Pushdown.Display
