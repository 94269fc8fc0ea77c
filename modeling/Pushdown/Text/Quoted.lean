/-
  Quoted text, as it appears in messages.

  A text is put between double quotes, a single character between apostrophes.  The quote at hand
  and the backslash are escaped, printable characters stand for themselves, and everything else is
  an escape: a letter for the seven usual control characters, `\x` and two digits for other ASCII
  controls and for stray bytes, `\u` and four or `\U` and eight digits for the rest.
-/
import Pushdown.Text.Basic
import Pushdown.Text.Printable

namespace Pushdown.Text

open Utf8 (Glyph glyphs)

/-- The letter that follows the backslash in the short escape of a control character. -/
def shortEscape? (n : Nat) : Option Char :=
  match n with
  | 7 => some 'a'
  | 8 => some 'b'
  | 9 => some 't'
  | 10 => some 'n'
  | 11 => some 'v'
  | 12 => some 'f'
  | 13 => some 'r'
  | _ => none

/-- How a character is written between quotes of the given kind. -/
def quotedChar (quote c : Char) : Text :=
  if c = quote || c = '\\' then lit "\\" ++ Utf8.encode c
  else if Printable.isPrintable c then Utf8.encode c
  else match shortEscape? c.toNat with
    | some e => lit "\\" ++ Utf8.encode e
    | none =>
      if c.toNat < 0x80 then lit "\\x" ++ hex 2 c.toNat
      else if c.toNat < 0x10000 then lit "\\u" ++ hex 4 c.toNat
      else lit "\\U" ++ hex 8 c.toNat

/-- How a glyph is written between quotes of the given kind. -/
def quotedGlyph (quote : Char) (g : Glyph) : Text :=
  match g.char with
  | some c => quotedChar quote c
  | none => g.bytes.flatMap fun b => lit "\\x" ++ hex 2 b.toNat

/-- A text between double quotes. -/
def quoted (t : Text) : Text :=
  lit "\"" ++ (glyphs t).flatMap (quotedGlyph '"') ++ lit "\""

/-- The apostrophe. -/
def apostrophe : Char := '\x27'

/-- The backtick. -/
def backtick : Char := '\x60'

/-- A glyph between apostrophes. -/
def quotedOne (g : Glyph) : Text :=
  Utf8.encode apostrophe ++ quotedGlyph apostrophe g ++ Utf8.encode apostrophe

/-- Can a text stand between backticks as it is?  It has no blank, no backtick, no replacement
    character, and nothing that is not printable. -/
def isPlain (t : Text) : Bool :=
  (glyphs t).all fun g => match g.char with
    | some c => Printable.isPrintable c && c != ' ' && c != backtick && c != Utf8.replacement
    | none => false

/-- A text between backticks if it can stand there, or else between double quotes. -/
def backquoted (t : Text) : Text :=
  if isPlain t then Utf8.encode backtick ++ t ++ Utf8.encode backtick else quoted t

end Pushdown.Text
