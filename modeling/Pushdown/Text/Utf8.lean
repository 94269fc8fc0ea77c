/-
  UTF-8, one character at a time.

  A text is a list of bytes and need not be well-formed.  `headChar?` reads the character that
  starts a text, `width` says how many bytes it takes, and `isPartial` recognises a text that is
  a proper beginning of a character, so that more input could complete it.  A byte that starts
  no well-formed character stands for itself and has width one: reading never fails, and
  `glyphs_bytes` says that cutting a text into glyphs loses nothing.

  Well-formed means: no overlong form, no surrogate, nothing above U+10FFFF.  The second byte
  carries all these restrictions (`isSecond`).
-/

namespace Pushdown

/-- A byte string.  Input, names and messages are texts; nothing requires them to be UTF-8. -/
abbrev Text := List UInt8

/-- Texts are compared byte by byte, and this decides equality. -/
instance : LawfulBEq Text := List.instLawfulBEq

namespace Utf8

/-! ## Encoding -/

/-- The bytes of a character. -/
def encode (c : Char) : Text :=
  let n := c.toNat
  if n < 0x80 then [n.toUInt8]
  else if n < 0x800 then [(0xC0 + n / 64).toUInt8, (0x80 + n % 64).toUInt8]
  else if n < 0x10000 then
    [(0xE0 + n / 4096).toUInt8, (0x80 + n / 64 % 64).toUInt8, (0x80 + n % 64).toUInt8]
  else
    [(0xF0 + n / 262144).toUInt8, (0x80 + n / 4096 % 64).toUInt8,
      (0x80 + n / 64 % 64).toUInt8, (0x80 + n % 64).toUInt8]

/-- No character takes more than four bytes. -/
theorem encode_length_le (c : Char) : (encode c).length ≤ 4 := by
  unfold encode
  simp only
  repeat' split
  all_goals simp

/-- The character that stands in for a byte that belongs to no character. -/
def replacement : Char := '\ufffd'

/-! ## Decoding -/

/-- A byte that continues a character. -/
def isTail (b : UInt8) : Bool := 0x80 ≤ b && b ≤ 0xBF

/-- May `b` be the second byte of a character that starts with `a`?  The bounds exclude overlong
    forms (`E0`, `F0`), surrogates (`ED`) and values above U+10FFFF (`F4`). -/
def isSecond (a b : UInt8) : Bool :=
  if a = 0xE0 then 0xA0 ≤ b && b ≤ 0xBF
  else if a = 0xED then 0x80 ≤ b && b ≤ 0x9F
  else if a = 0xF0 then 0x90 ≤ b && b ≤ 0xBF
  else if a = 0xF4 then 0x80 ≤ b && b ≤ 0x8F
  else isTail b

/-- First byte of a character of two bytes. -/
def leadsTwo (a : UInt8) : Bool := 0xC2 ≤ a && a ≤ 0xDF

/-- First byte of a character of three bytes. -/
def leadsThree (a : UInt8) : Bool := 0xE0 ≤ a && a ≤ 0xEF

/-- First byte of a character of four bytes. -/
def leadsFour (a : UInt8) : Bool := 0xF0 ≤ a && a ≤ 0xF4

/-- The six payload bits of a continuation byte. -/
def bits (b : UInt8) : Nat := b.toNat - 0x80

/-- The character encoded at the front of a text and the number of its bytes. -/
def decode? : Text → Option (Char × Nat)
  | [] => none
  | a :: t =>
    if a < 0x80 then some (Char.ofNat a.toNat, 1)
    else if leadsTwo a then
      match t with
      | b :: _ =>
        if isSecond a b then some (Char.ofNat ((a.toNat - 0xC0) * 64 + bits b), 2) else none
      | _ => none
    else if leadsThree a then
      match t with
      | b :: c :: _ =>
        if isSecond a b && isTail c then
          some (Char.ofNat ((a.toNat - 0xE0) * 4096 + bits b * 64 + bits c), 3)
        else none
      | _ => none
    else if leadsFour a then
      match t with
      | b :: c :: d :: _ =>
        if isSecond a b && isTail c && isTail d then
          some (Char.ofNat ((a.toNat - 0xF0) * 262144 + bits b * 4096 + bits c * 64 + bits d), 4)
        else none
      | _ => none
    else none

/-- The character at the front of a text, unless the text is empty or starts with a stray byte. -/
def headChar? (t : Text) : Option Char := (decode? t).map Prod.fst

/-- The number of bytes to take off the front of a non-empty text to have read one glyph. -/
def width (t : Text) : Nat := ((decode? t).map Prod.snd).getD 1

/-- Is the whole text the beginning of a character, but not yet a complete one?  The empty text
    is; a text of four or more bytes never is. -/
def isPartial : Text → Bool
  | [] => true
  | [a] => leadsTwo a || leadsThree a || leadsFour a
  | [a, b] => (leadsThree a || leadsFour a) && isSecond a b
  | [a, b, c] => leadsFour a && isSecond a b && isTail c
  | _ => false

/-- A decoded character has one to four bytes, all present in the text. -/
theorem decode?_width {t : Text} {c : Char} {n : Nat} (h : decode? t = some (c, n)) :
    1 ≤ n ∧ n ≤ t.length := by
  unfold decode? at h
  repeat' split at h
  all_goals simp_all
  all_goals (obtain ⟨-, rfl⟩ := h; simp)

/-- Reading a glyph of a non-empty text takes at least one byte. -/
theorem width_pos (t : Text) : 1 ≤ width t := by
  unfold width
  cases h : decode? t with
  | none => simp
  | some p => exact (decode?_width (c := p.1) (n := p.2) h).1

/-- Reading a glyph takes no more bytes than there are. -/
theorem width_le {t : Text} (ht : t ≠ []) : width t ≤ t.length := by
  unfold width
  cases h : decode? t with
  | none =>
    exact List.length_pos_iff.2 ht
  | some p => exact (decode?_width (c := p.1) (n := p.2) h).2

/-- A text that more input could complete to a character is shorter than the longest character. -/
theorem length_lt_of_isPartial {t : Text} (h : isPartial t = true) : t.length < 4 := by
  unfold isPartial at h
  split at h <;> simp_all

/-! ## Glyphs -/

/-- One unit of a text: a character with the bytes that spell it, or a single stray byte. -/
structure Glyph where
  /-- The character, or nothing for a stray byte. -/
  char : Option Char
  /-- The bytes as they stand in the text. -/
  bytes : Text
  deriving DecidableEq, Repr

/-- The first glyph of a non-empty text. -/
def headGlyph (t : Text) : Glyph := ⟨headChar? t, t.take (width t)⟩

/-- The glyphs of a text after `skip` bytes that belong to a glyph already read. -/
def glyphsFrom : Nat → Text → List Glyph
  | _, [] => []
  | skip + 1, _ :: t => glyphsFrom skip t
  | 0, a :: t => headGlyph (a :: t) :: glyphsFrom (width (a :: t) - 1) t

/-- A text cut into glyphs. -/
def glyphs (t : Text) : List Glyph := glyphsFrom 0 t

/-- The glyphs of a text make it up. -/
theorem glyphsFrom_bytes (skip : Nat) (t : Text) :
    (glyphsFrom skip t).flatMap Glyph.bytes = t.drop skip := by
  fun_induction glyphsFrom skip t with
  | case1 => simp
  | case2 skip a t ih => simpa using ih
  | case3 a t ih =>
    have h := width_pos (a :: t)
    obtain ⟨n, hn⟩ : ∃ n, width (a :: t) = n + 1 := ⟨width (a :: t) - 1, by omega⟩
    simp [headGlyph, hn] at ih ⊢
    rw [ih, List.take_append_drop]

/-- Cutting a text into glyphs keeps every byte, in order. -/
theorem glyphs_bytes (t : Text) : (glyphs t).flatMap Glyph.bytes = t := by
  simpa [glyphs] using glyphsFrom_bytes 0 t

/-- The text with the replacement character in place of each stray byte. -/
def repaired (t : Text) : Text :=
  (glyphs t).flatMap fun g => if g.char.isSome then g.bytes else encode replacement

/-- A text without stray bytes. -/
def isValid (t : Text) : Bool := (glyphs t).all (·.char.isSome)

end Utf8
end Pushdown
