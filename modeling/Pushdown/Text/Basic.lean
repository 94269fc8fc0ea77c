/-
  Texts: literals, beginnings and endings, cutting at a byte, hexadecimal.

  Everything else in the library speaks about `Text`; the functions here are the vocabulary it
  uses for that.  Order is the bytewise lexicographic order of `List UInt8`.
-/
import Pushdown.Text.Utf8

namespace Pushdown.Text

/-- The UTF-8 bytes of a string, mostly of a literal. -/
def lit (s : String) : Text := s.toList.flatMap Utf8.encode

/-- The byte of an ASCII character. -/
def byte (c : Char) : UInt8 := c.toNat.toUInt8

/-- The line feed. -/
def newline : UInt8 := 10

/-! ## Beginnings and endings -/

/-- `t` without `p` at its front, if it is there. -/
def dropPrefix? : Text → Text → Option Text
  | t, [] => some t
  | [], _ :: _ => none
  | a :: t, b :: p => if a = b then dropPrefix? t p else none

/-- `t` without the longest run of trailing newlines. -/
def trimNewlines (t : Text) : Text := (t.reverse.dropWhile (· = newline)).reverse

/-- `t` without one newline at its end, if it ends in one. -/
def chomp (t : Text) : Text := if t.getLast? = some newline then t.dropLast else t

/-! ## Cutting -/

/-- The pieces of `t` between the occurrences of the byte `b`; there is one more of them than
    there are occurrences. -/
def splitAt (b : UInt8) : Text → List Text
  | [] => [[]]
  | a :: t =>
    if a = b then [] :: splitAt b t
    else match splitAt b t with
      | [] => [[a]]
      | p :: ps => (a :: p) :: ps

/-- Texts joined with a separator between neighbours. -/
def join (sep : Text) : List Text → Text
  | [] => []
  | [t] => t
  | t :: ts => t ++ sep ++ join sep ts

/-- The lines of a text: what stands between newlines, where a last newline opens no line. -/
def lines (t : Text) : List Text :=
  if t = [] then []
  else if t.getLast? = some newline then splitAt newline t.dropLast
  else splitAt newline t

/-! ## Padding and hexadecimal -/

/-- `t` with blanks in front up to the given width. -/
def padLeft (n : Nat) (t : Text) : Text := List.replicate (n - t.length) 32 ++ t

/-- The lower-case hexadecimal digit of a number below sixteen. -/
def hexDigit (n : Nat) : UInt8 := if n < 10 then (48 + n).toUInt8 else (87 + n).toUInt8

/-- A number as lower-case hexadecimal of a fixed number of digits. -/
def hex : Nat → Nat → Text
  | 0, _ => []
  | d + 1, n => hex d (n / 16) ++ [hexDigit (n % 16)]

/-- Two hexadecimal digits for every byte. -/
def hexBytes (t : Text) : Text := t.flatMap fun b => hex 2 b.toNat

end Pushdown.Text
