/-
  Numbers as text.

  `ofInt` writes the canonical decimal numeral.  Two readers stand beside it: `int64?` takes a
  decimal numeral with an optional sign and refuses what does not fit into 64 bits, `literal?`
  takes a literal of any size whose prefix selects the base (`0x` sixteen, `0b` two, `0o` or a
  plain leading `0` eight) and which may have single underscores between its digits or after the
  prefix.
-/
import Pushdown.Text.Basic

namespace Pushdown.Numeral

open Text (byte)

/-! ## Writing -/

/-- The decimal digits of a natural number. -/
def ofNat (n : Nat) : Text := (Nat.toDigits 10 n).map byte

/-- The decimal numeral of an integer. -/
def ofInt : Int → Text
  | .ofNat n => ofNat n
  | .negSucc n => byte '-' :: ofNat (n + 1)

/-! ## Digits -/

/-- The value of a digit or letter in bases up to thirty-six. -/
def digit? (b : UInt8) : Option Nat :=
  if byte '0' ≤ b && b ≤ byte '9' then some (b.toNat - 48)
  else if byte 'a' ≤ b && b ≤ byte 'z' then some (b.toNat - 87)
  else if byte 'A' ≤ b && b ≤ byte 'Z' then some (b.toNat - 55)
  else none

/-- The value of a digit of the given base. -/
def digitOf? (base : Nat) (b : UInt8) : Option Nat := (digit? b).filter (· < base)

/-- A sign at the front of a numeral: is the number negative, and what follows the sign. -/
def splitSign : Text → Bool × Text
  | b :: t => if b = byte '-' then (true, t) else if b = byte '+' then (false, t) else (false, b :: t)
  | [] => (false, [])

/-- The integer of a sign and a magnitude. -/
def signed (negative : Bool) (n : Nat) : Int := if negative then -(n : Int) else n

/-! ## Decimal numerals of 64 bits -/

/-- The value of a run of decimal digits, continuing from `value`. -/
def decimalFrom (value : Nat) : Text → Option Nat
  | [] => some value
  | b :: t => (digitOf? 10 b).bind fun d => decimalFrom (value * 10 + d) t

/-- The value of a non-empty run of decimal digits. -/
def decimal? : Text → Option Nat
  | [] => none
  | t => decimalFrom 0 t

/-- Does the integer fit into 64 bits? -/
def fits64 (n : Int) : Bool := Int64.minValue.toInt ≤ n && n ≤ Int64.maxValue.toInt

/-- The value of a signed decimal numeral, if it fits into 64 bits. -/
def int64? (t : Text) : Option Int :=
  let (negative, digits) := splitSign t
  ((decimal? digits).map (signed negative)).filter fits64

/-! ## Literals -/

/-- What stands in front of the next character of a literal. -/
inductive Before where
  /-- Nothing: no separator may follow. -/
  | start
  /-- The prefix that selects the base. -/
  | basePrefix
  /-- A digit. -/
  | digit
  /-- A separator: a digit has to follow. -/
  | separator
  deriving DecidableEq, Repr

/-- The value of digits of a base with separators among them, continuing from `value`.  A
    separator follows a digit or the prefix, and the last character is a digit. -/
def digitsFrom (base : Nat) (before : Before) (value : Nat) : Text → Option Nat
  | [] => if before = .digit then some value else none
  | b :: t =>
    if b = byte '_' then
      if before = .digit || before = .basePrefix then digitsFrom base .separator value t else none
    else (digitOf? base b).bind fun d => digitsFrom base .digit (value * base + d) t

/-- The value of a literal without sign. -/
def unsigned? : Text → Option Nat
  | [] => none
  | [b] => digitsFrom 10 .start 0 [b]
  | b :: c :: t =>
    if b ≠ byte '0' then digitsFrom 10 .start 0 (b :: c :: t)
    else if c = byte 'x' || c = byte 'X' then digitsFrom 16 .basePrefix 0 t
    else if c = byte 'b' || c = byte 'B' then digitsFrom 2 .basePrefix 0 t
    else if c = byte 'o' || c = byte 'O' then digitsFrom 8 .basePrefix 0 t
    else digitsFrom 8 .basePrefix 0 (c :: t)

/-- The value of a literal of any size, with an optional sign. -/
def literal? (t : Text) : Option Int :=
  let (negative, digits) := splitSign t
  (unsigned? digits).map (signed negative)

end Pushdown.Numeral
