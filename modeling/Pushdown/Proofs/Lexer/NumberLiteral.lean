/-
  Number literals: what the scanner takes for a number, the reader of numbers can read.

  A literal is spelled by the digits of some base, with the prefix of that base in front
  (`Literal.Spells`).  The scanner has a pattern for each base, and the words of these patterns are
  the spelled literals (`Word.exists_spells`, `Literal.Spells.word`).  The reader takes the base
  from the prefix by a grammar of its own, with separators and prefixes that the scanner does not
  know; on spelled literals it gives the number that is spelled (`Literal.Spells.unsigned?_eq`).

  A `0` in front is where the two grammars could part.  The scanner takes octal digits behind it,
  and the letters of two bases; the reader knows a third letter, and takes everything else for
  octal.  An octal digit is none of the letters, since each of these stands for no digit below
  eight, and so the reader gets to the octal digits as well.

  Digits have values up to fifteen in all bases (`StandsFor`), and a base only bounds them; so the
  four classes of digits are instances of one statement, which is checked byte by byte
  (`isDigit_eq`).
-/
import Pushdown.Lexer.Basic
import Pushdown.Proofs.Lexer.Cutting
import Pushdown.Proofs.Text.Numeral

namespace Pushdown

open Text (lit byte)
open Numeral (Denotes StandsFor)

/-- `Spells n t`: `t` is a number literal for `n`. -/
inductive Literal.Spells (n : Nat) : Text → Prop
  /-- Only a zero that stands alone comes first. -/
  | decimal {b : UInt8} {t : Text} (hzero : b = byte '0' → t = []) (h : Denotes 10 (b :: t) n) :
      Spells n (b :: t)
  | octal {t : Text} (hne : t ≠ []) (h : Denotes 8 t n) : Spells n (byte '0' :: t)
  | hexadecimal {b : UInt8} {t : Text} (hb : b = byte 'x' ∨ b = byte 'X') (hne : t ≠ [])
      (h : Denotes 16 t n) : Spells n (byte '0' :: b :: t)
  | binary {b : UInt8} {t : Text} (hb : b = byte 'b' ∨ b = byte 'B') (hne : t ≠ [])
      (h : Denotes 2 t n) : Spells n (byte '0' :: b :: t)

/-! ## The scanner

  A spelled number is a word of the class of numbers. -/

namespace Lexeme

/-- The scanner and the reader of numbers have the same digits. -/
theorem isDigit_eq (b : UInt8) : isBinary b = (Numeral.digitOf? 2 b).isSome ∧
    isOctal b = (Numeral.digitOf? 8 b).isSome ∧ isDecimal b = (Numeral.digitOf? 10 b).isSome ∧
    isHex b = (Numeral.digitOf? 16 b).isSome := by
  have hall : ∀ n < 256, isBinary (.ofNat n) = (Numeral.digitOf? 2 (.ofNat n)).isSome ∧
      isOctal (.ofNat n) = (Numeral.digitOf? 8 (.ofNat n)).isSome ∧
      isDecimal (.ofNat n) = (Numeral.digitOf? 10 (.ofNat n)).isSome ∧
      isHex (.ofNat n) = (Numeral.digitOf? 16 (.ofNat n)).isSome := by decide +kernel
  have hb := hall b.toNat b.toNat_lt
  rwa [UInt8.ofNat_toNat] at hb

variable {b : UInt8} {t : Text} {n : Nat}

/-- Binary digits are those below two. -/
theorem isBinary_iff : isBinary b = true ↔ ∃ v < 2, StandsFor b v := by
  rw [(isDigit_eq b).1, Numeral.isSome_digitOf?_iff (by decide)]

/-- Octal digits are those below eight. -/
theorem isOctal_iff : isOctal b = true ↔ ∃ v < 8, StandsFor b v := by
  rw [(isDigit_eq b).2.1, Numeral.isSome_digitOf?_iff (by decide)]

/-- Decimal digits are those below ten. -/
theorem isDecimal_iff : isDecimal b = true ↔ ∃ v < 10, StandsFor b v := by
  rw [(isDigit_eq b).2.2.1, Numeral.isSome_digitOf?_iff (by decide)]

/-- Hexadecimal digits are those below sixteen. -/
theorem isHex_iff : isHex b = true ↔ ∃ v < 16, StandsFor b v := by
  rw [(isDigit_eq b).2.2.2, Numeral.isSome_digitOf?_iff (by decide)]

/-- **What the scanner takes for a number** spells one. -/
theorem Word.exists_spells (h : Word .number t) : ∃ n, Literal.Spells n t := by
  cases h with
  | hexadecimal hb hne hu =>
    obtain ⟨n, hn⟩ := Numeral.exists_denotes fun c hc => isHex_iff.mp (hu c hc)
    exact ⟨n, .hexadecimal hb hne hn⟩
  | binary hb hne hu =>
    obtain ⟨n, hn⟩ := Numeral.exists_denotes fun c hc => isBinary_iff.mp (hu c hc)
    exact ⟨n, .binary hb hne hn⟩
  | octal hne hu =>
    obtain ⟨n, hn⟩ := Numeral.exists_denotes fun c hc => isOctal_iff.mp (hu c hc)
    exact ⟨n, .octal hne hn⟩
  | decimal hb hzero hu =>
    obtain ⟨n, hn⟩ := Numeral.exists_denotes (List.forall_mem_cons.mpr
      ⟨isDecimal_iff.mp hb, fun c hc => isDecimal_iff.mp (hu c hc)⟩)
    exact ⟨n, .decimal (absurd · hzero) hn⟩
  | zero =>
    have hzero : isDecimal (byte '0') = true := by decide
    obtain ⟨n, hn⟩ := Numeral.exists_denotes
      (List.forall_mem_singleton.mpr (isDecimal_iff.mp hzero))
    exact ⟨n, .decimal (fun _ => rfl) hn⟩

end Lexeme

namespace Literal.Spells

open Lexeme (Word)

variable {b : UInt8} {t : Text} {n : Nat}

/-- Every spelled number is a word of the scanner. -/
theorem word (h : Spells n t) : Word .number t := by
  cases h with
  | @decimal b t hzero h =>
    obtain ⟨hb, ht⟩ := List.forall_mem_cons.mp h.exists_standsFor
    by_cases hb0 : b = byte '0'
    · rw [hb0, hzero hb0]
      exact .zero
    · exact .decimal (Lexeme.isDecimal_iff.mpr hb) hb0
        fun c hc => Lexeme.isDecimal_iff.mpr (ht c hc)
  | octal hne h => exact .octal hne fun c hc => Lexeme.isOctal_iff.mpr (h.exists_standsFor c hc)
  | hexadecimal hb hne h =>
    exact .hexadecimal hb hne fun c hc => Lexeme.isHex_iff.mpr (h.exists_standsFor c hc)
  | binary hb hne h =>
    exact .binary hb hne fun c hc => Lexeme.isBinary_iff.mpr (h.exists_standsFor c hc)

/-! ## The reader

  And it is read as the number that it spells, since the prefix tells the base. -/

/-- **The reader gives the number that is spelled.** -/
theorem unsigned?_eq (h : Spells n t) : Numeral.unsigned? t = some n := by
  cases h with
  | @decimal b t hzero h =>
    have hread := h.digitsFrom_eq (List.cons_ne_nil b t) .start
    cases t with
    | nil => exact hread
    | cons c t =>
      have hb : b ≠ byte '0' := fun hb => List.cons_ne_nil c t (hzero hb)
      rw [Numeral.unsigned?, if_pos hb]
      exact hread
  | @octal t hne h =>
    have hread := h.digitsFrom_eq hne .basePrefix
    obtain ⟨c, t, rfl⟩ := List.exists_cons_of_ne_nil hne
    -- a digit of base eight is not the letter of another base
    obtain ⟨v, hv, hc⟩ := h.exists_standsFor c List.mem_cons_self
    have hletter {a : UInt8} (ha : (Numeral.digit? a).all (8 ≤ ·) = true) : c ≠ a := by
      rintro rfl
      rw [hc.digit?_eq] at ha
      have hle : 8 ≤ v := of_decide_eq_true ha
      omega
    have hx : c ≠ byte 'x' ∧ c ≠ byte 'X' := ⟨hletter (by decide), hletter (by decide)⟩
    have hb : c ≠ byte 'b' ∧ c ≠ byte 'B' := ⟨hletter (by decide), hletter (by decide)⟩
    have ho : c ≠ byte 'o' ∧ c ≠ byte 'O' := ⟨hletter (by decide), hletter (by decide)⟩
    simp only [Numeral.unsigned?, ne_eq, not_true_eq_false, hx, hb, ho, decide_false, Bool.or_self,
      Bool.false_eq_true, ↓reduceIte]
    exact hread
  -- the letter tells the base, and the digits follow it
  | @hexadecimal b t hb hne h =>
    have hread := h.digitsFrom_eq hne .basePrefix
    rw [Numeral.unsigned?, if_neg (not_not.mpr rfl), if_pos]
    · exact hread
    · rcases hb with rfl | rfl <;> rfl
  | @binary b t hb hne h =>
    have hread := h.digitsFrom_eq hne .basePrefix
    rw [Numeral.unsigned?, if_neg (not_not.mpr rfl), if_neg, if_pos]
    · exact hread
    · rcases hb with rfl | rfl <;> rfl
    · rcases hb with rfl | rfl <;> decide

/-- A literal starts with a decimal digit. -/
theorem exists_cons (h : Spells n t) : ∃ b u, t = b :: u ∧ Numeral.isDigit b = true := by
  cases h.word with
  | hexadecimal | binary | octal | zero => exact ⟨_, _, rfl, rfl⟩
  | decimal hb => exact ⟨_, _, rfl, hb⟩

/-- The text of the token is the number that is spelled, in decimal. -/
theorem number?_eq (h : Spells n t) : number? t = some (Numeral.ofNat n) := by
  obtain ⟨b, u, rfl, hb⟩ := h.exists_cons
  have hread : Numeral.literal? (b :: u) =
      (Numeral.unsigned? (b :: u)).map (Numeral.signed false) := by
    rw [Numeral.literal?, Numeral.splitSign_of_isDigit hb]
  rw [number?, hread, h.unsigned?_eq]
  rfl

/-- The token of a number is its canonical numeral. -/
theorem token_eq (h : Spells n t) :
    Lexer.token ⟨.number, t⟩ = .ok ⟨Lexer.kindNumber, Numeral.ofNat n⟩ := by
  rw [Lexer.token]
  simp only [h.number?_eq]

end Literal.Spells

/-! ## Lines

  Conversely, a number that is cut from a line spells one. -/

/-- A lexeme of the class of numbers spells a number. -/
theorem Scan.exists_spells_of_some {s s' : Scan} {x : Lexeme} (h : s.next = some (x, s'))
    (hx : x.kind = .number) : ∃ n, Literal.Spells n x.text := by
  obtain ⟨-, -, -, hmunched⟩ := exists_gap_of_some h
  cases hmunched with
  | longest _ hk =>
    obtain rfl := hx
    exact (Lexeme.belongs_iff_word.mp hk).exists_spells
  | glyph => exact nomatch hx

end Pushdown
