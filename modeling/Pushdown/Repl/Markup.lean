/-
  Markup in what is shown.

  The display knows colour tags such as `<red>` and `</>`, and the colour codes of terminals.
  Since nothing is shown in colour, tags and codes are left out.  Tags count only in a text that
  closes one with `</>`; what looks like a tag in any other text is shown.

  A text is filtered piece by piece while it is put together (`plain`) and several times as a whole
  before it is shown (`shown`), so that tags which only appear when others are left out go as well,
  up to that many levels.
-/
import Pushdown.Text.Basic

namespace Pushdown.Markup

open Text (lit byte)

/-- The text without the pieces that `piece` measures: it gives the length of the piece that a text
    starts with, or zero.  The first argument counts the bytes still to be left out. -/
def leaveOut (piece : Text → Nat) : Nat → Text → Text
  | _, [] => []
  | k + 1, _ :: t => leaveOut piece k t
  | 0, b :: t =>
    match piece (b :: t) with
    | 0 => b :: leaveOut piece 0 t
    | n + 1 => leaveOut piece n t

/-- The length of the piece that consists of `opening`, bytes of a class and the byte `closing`. -/
def enclosed (opening : Text) (p : UInt8 → Bool) (closing : UInt8) (t : Text) : Nat :=
  match Text.dropPrefix? t opening with
  | none => 0
  | some u =>
    let n := (u.takeWhile p).length
    if (u.drop n).head? = some closing then opening.length + n + 1 else 0

/-! ## Tags -/

/-- The bytes in the name of a tag. -/
def isTagByte (b : UInt8) : Bool :=
  (byte 'a' ≤ b && b ≤ byte 'z') || (byte 'A' ≤ b && b ≤ byte 'Z')
    || b = byte '_' || b = byte '=' || b = byte ',' || b = byte ';'

/-- The length of the tag that a text starts with. -/
def tag (t : Text) : Nat :=
  max (enclosed (lit "<") isTagByte (byte '>') t) (enclosed (lit "</") isTagByte (byte '>') t)

/-- Does the text close a tag? -/
def closesTag : Text → Bool
  | [] => false
  | b :: t => (lit "</>").isPrefixOf (b :: t) || closesTag t

/-- Leaves out the tags of a text that closes one. -/
def untagged (t : Text) : Text := if closesTag t then leaveOut tag 0 t else t

/-! ## Codes -/

/-- The bytes in a colour code. -/
def isCodeByte (b : UInt8) : Bool := (byte '0' ≤ b && b ≤ byte '9') || b = byte ';' || b = byte '?'

/-- The length of the colour code that a text starts with; it has at least one byte in it. -/
def code (t : Text) : Nat :=
  let n := enclosed [27, byte '['] isCodeByte (byte 'm') t
  if n ≤ 3 then 0 else n

/-- The text without colour codes. -/
def uncoded (t : Text) : Text := leaveOut code 0 t

/-! ## Filtering -/

/-- A piece of a text without markup. -/
def plain (t : Text) : Text := uncoded (untagged t)

/-- How often a text is filtered as a whole. -/
def rounds : Nat := 5

/-- A whole text as it is shown. -/
def shown (t : Text) : Text := Nat.repeat untagged rounds t

example : plain (lit "<red>a</> b") = lit "a b" := by decide
example : plain (lit "<any>") = lit "<any>" := by decide
example : plain [27, 91, 51, 49, 109, 97] = [97] := by decide
example : plain (lit "</</>>") = lit "</>" ∧ shown (lit "</</>>") = [] := by decide

end Pushdown.Markup
