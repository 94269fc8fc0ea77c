/-
  The texts of number and string literals.

  A number is replaced by its decimal numeral, whatever its notation and size.  A string loses its
  delimiters; inside, a doubled delimiter and a backslash in front of a delimiter both stand for
  the delimiter.  A backslash in front of any other byte is kept, and so is that byte.
-/
import Pushdown.Text.Numeral

namespace Pushdown.Literal

open Text (byte)

/-- The decimal numeral of a number literal. -/
def number? (lexeme : Text) : Option Text := (Numeral.literal? lexeme).map Numeral.ofInt

/-- The backslash. -/
def backslash : UInt8 := byte '\\'

/-- The content of a string literal with its escapes resolved. -/
def unescape (delim : UInt8) : Text → Text
  | [] => []
  | [b] => [b]
  | b :: c :: t =>
    if b = backslash then
      if c = delim then c :: unescape delim t else b :: c :: unescape delim t
    else if b = delim ∧ c = delim then delim :: unescape delim t
    else b :: unescape delim (c :: t)

/-- The text of a string literal.  The first byte is taken as the delimiter and the last one is
    dropped unseen; a text of fewer than two bytes is no literal and stays as it is. -/
def unquote : Text → Text
  | delim :: b :: t => unescape delim (b :: t).dropLast
  | t => t

example : unquote [39, 97, 39, 39, 98, 92, 39, 39] = [97, 39, 98, 39] := by decide

end Pushdown.Literal
