/-
  Lexemes: a line of input cut into numbers, strings, names, operators and directives.

  At every position after blanks and tabs the longest lexeme is taken, over raw bytes
  (`longest?`).  Where none starts, one glyph is delivered as it is, so cutting a line never
  fails (`scan`).  A directive runs to the end of the line.
-/
import Pushdown.Text.Basic

namespace Pushdown

/-- The classes of lexemes. -/
inductive LexemeKind where
  | number
  | string
  | name
  | operator
  | directive
  /-- A single glyph that starts none of the others. -/
  | glyph
  deriving DecidableEq, Repr

/-- A piece of a line. -/
structure Lexeme where
  kind : LexemeKind
  text : Text
  deriving DecidableEq, Repr

namespace Lexeme

open Text (lit byte)

/-! ## Bytes -/

/-- A decimal digit. -/
def isDecimal (b : UInt8) : Bool := byte '0' ≤ b && b ≤ byte '9'

/-- An octal digit. -/
def isOctal (b : UInt8) : Bool := byte '0' ≤ b && b ≤ byte '7'

/-- A binary digit. -/
def isBinary (b : UInt8) : Bool := b = byte '0' || b = byte '1'

/-- A hexadecimal digit, in either case. -/
def isHex (b : UInt8) : Bool :=
  isDecimal b || (byte 'a' ≤ b && b ≤ byte 'f') || (byte 'A' ≤ b && b ≤ byte 'F')

/-- A letter of the basic alphabet, in either case. -/
def isLetter (b : UInt8) : Bool :=
  (byte 'a' ≤ b && b ≤ byte 'z') || (byte 'A' ≤ b && b ≤ byte 'Z')

/-- What a name may go on with: letters, decimal digits and underscores. -/
def isNamePart (b : UInt8) : Bool := isLetter b || isDecimal b || b = byte '_'

/-- A blank or a tab: what may stand between lexemes. -/
def isGap (b : UInt8) : Bool := b = 32 || b = 9

/-! ## The classes

  Each function gives the number of bytes that a lexeme of its class takes after a first byte that
  selects the class. -/

/-- The length of the longest run of bytes of a class at the front of a text. -/
def run (p : UInt8 → Bool) (t : Text) : Nat := (t.takeWhile p).length

/-- Digits of a base after `0` and the letter of the base; without a digit the lexeme is the `0`
    alone. -/
def prefixed (p : UInt8 → Bool) (t : Text) : Nat := if run p t = 0 then 0 else 1 + run p t

/-- What follows a leading `0`. -/
def afterZero : Text → Nat
  | [] => 0
  | b :: t =>
    if b = byte 'x' ∨ b = byte 'X' then prefixed isHex t
    else if b = byte 'b' ∨ b = byte 'B' then prefixed isBinary t
    else run isOctal (b :: t)

/-- What follows the opening delimiter of a string, up to and including the last delimiter that
    can close it.  A backslash hides the byte behind it; a delimiter closes the string, unless
    another one follows and the string closes later on. -/
def afterDelimiter (delim : UInt8) : Text → Option Nat
  | [] => none
  | b :: t =>
    if b = byte '\\' then
      match t with
      | [] => none
      | _ :: u => (afterDelimiter delim u).map (· + 2)
    else if b = delim then
      match t with
      | [] => some 1
      | c :: u =>
        if c = delim then
          match afterDelimiter delim u with
          | some n => some (n + 2)
          | none => some 1
        else some 1
    else (afterDelimiter delim t).map (· + 1)

/-- The operators of two bytes. -/
def operatorPairs : List Text := [lit "<<", lit ">>", lit "==", lit "!=", lit ">=", lit "<="]

/-- The operators of one byte. -/
def operatorBytes : Text := lit "<>=!()+-*/%,:"

/-! ## The longest lexeme -/

/-- The class and length of the longest lexeme at the front of a text. -/
def longest? : Text → Option (LexemeKind × Nat)
  | [] => none
  | b :: t =>
    if b = byte '0' then some (.number, 1 + afterZero t)
    else if isDecimal b then some (.number, 1 + run isDecimal t)
    else if b = byte '\'' ∨ b = byte '"' then
      (afterDelimiter b t).map fun n => (.string, 1 + n)
    else if isLetter b then some (.name, 1 + run isNamePart t)
    else if b = byte '#' then some (.directive, 1 + run (· ≠ Text.newline) t)
    else if (b :: t).take 2 ∈ operatorPairs then some (.operator, 2)
    else if b ∈ operatorBytes then some (.operator, 1)
    else none

/-- The lexeme at the front of a non-empty text that starts with no gap. -/
def front (t : Text) : Lexeme :=
  match longest? t with
  | some (kind, n) => ⟨kind, t.take n⟩
  | none => ⟨.glyph, t.take (Utf8.width t)⟩

/-- The byte that selects the class is part of the lexeme. -/
theorem longest?_pos {t : Text} {k : LexemeKind} {n : Nat} (h : longest? t = some (k, n)) :
    1 ≤ n := by
  unfold longest? at h
  repeat' split at h
  all_goals simp at h
  all_goals omega

/-- A lexeme takes at least one byte. -/
theorem front_length_pos {t : Text} (ht : t ≠ []) : 1 ≤ (front t).text.length := by
  have hl : 1 ≤ t.length := List.length_pos_iff.2 ht
  unfold front
  split
  · rename_i kind n h
    have := longest?_pos h
    simp [List.length_take]
    omega
  · have := Utf8.width_pos t
    simp [List.length_take]
    omega

end Lexeme

/-! ## Scanning a line -/

/-- A line being cut: what is left of it, and whether nothing has been cut off yet. -/
structure Scan where
  rest : Text
  first : Bool := true
  deriving DecidableEq, Repr

namespace Scan

/-- The next lexeme of a line, unless only gaps are left. -/
def next (s : Scan) : Option (Lexeme × Scan) :=
  let t := s.rest.dropWhile Lexeme.isGap
  if t = [] then none
  else
    let x := Lexeme.front t
    some (x, ⟨t.drop x.text.length, false⟩)

/-- Each lexeme leaves less of the line. -/
theorem next_rest_lt {s s' : Scan} {x : Lexeme} (h : s.next = some (x, s')) :
    s'.rest.length < s.rest.length := by
  unfold next at h
  simp only at h
  split at h
  · simp at h
  · rename_i hne
    simp only [Option.some.injEq, Prod.mk.injEq] at h
    obtain ⟨-, rfl⟩ := h
    have h1 := Lexeme.front_length_pos hne
    have h2 := (List.dropWhile_suffix Lexeme.isGap (l := s.rest)).length_le
    have h3 : 1 ≤ (s.rest.dropWhile Lexeme.isGap).length := List.length_pos_iff.2 hne
    simp only [List.length_drop]
    omega

/-- A lexeme is a piece of the line. -/
theorem next_text_le {s s' : Scan} {x : Lexeme} (h : s.next = some (x, s')) :
    x.text.length ≤ s.rest.length := by
  unfold next at h
  simp only at h
  split at h
  · simp at h
  · simp only [Option.some.injEq, Prod.mk.injEq] at h
    obtain ⟨rfl, -⟩ := h
    have h2 := (List.dropWhile_suffix Lexeme.isGap (l := s.rest)).length_le
    refine Nat.le_trans ?_ h2
    unfold Lexeme.front
    split
    · exact List.length_take_le' ..
    · exact List.length_take_le' ..

/-- All lexemes of a line, each with the mark of the first one. -/
def lexemes (s : Scan) : List (Lexeme × Bool) :=
  match _h : s.next with
  | none => []
  | some (x, s') => (x, s.first) :: lexemes s'
termination_by s.rest.length
decreasing_by exact next_rest_lt _h

end Scan
end Pushdown
