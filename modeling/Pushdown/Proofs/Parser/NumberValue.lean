/-
  From number literals to numbers.

  A literal of any base and size leads to one token with the canonical numeral of its number.  The
  reduction of numbers reads that numeral back, if the number fits into 64 bits with a sign, and
  refuses it otherwise (`Literal.numbers_exact`).

  On the way the number is never held in a machine word: a literal is rewritten as a text, digit by
  digit, however long it is.  The limit is that of the value which the reduction makes, and it is
  met there and nowhere else.

  What a literal spells (`Literal.Spells`) is said in terms of digits and a base, without the
  program, and so is what stands in the token.  The lemmas here only put the parts together: a
  literal on a line of its own is one lexeme, it is rewritten as its numeral, and the numeral is
  read back.
-/
import Pushdown.Disk.Edit
import Pushdown.Parser.Reduction
import Pushdown.Proofs.Lexer.TokenLines

namespace Pushdown

open Text (lit)

/-! ## Numbers as lines

  A spelled number is plain and valid text, so that it can stand on a line by itself. -/

namespace Literal.Spells

variable {t : Text} {n : Nat}

/-- A literal has no line break in it, since all its bytes can be part of a name. -/
theorem isPlain (h : Spells n t) : Line.IsPlain t := by
  intro b hb
  have hpart := h.word.isNamePart_of_number b hb
  refine Bool.eq_false_iff.mpr fun hbreak => ?_
  rcases Source.isBreak_iff.mp hbreak with rfl | rfl | rfl <;> exact absurd hpart (by decide)

/-- It is written in ASCII, and so nothing in it has to be repaired. -/
theorem isValid (h : Spells n t) : Utf8.isValid t = true :=
  Utf8.isValid_of_ascii h.word.lt_of_number

end Literal.Spells

/-! ## The reduction of numbers

  The token of a number has its canonical numeral as text, which is read again by the reduction. -/

namespace Reduction

variable {σ : Type} [TokenSource σ]

/-- A number token with a canonical numeral is read, unless the number is too large. -/
theorem apply_number (la : Lookahead σ) (n : Nat) (vs : List Value) :
    apply .number la (.token ⟨Lexer.kindNumber, Numeral.ofNat n⟩ :: vs) =
      (if n ≤ 2 ^ 63 - 1 then .ok (.int n)
        else .error (failHere la (lit "number out of range: " ++ Numeral.ofNat n)), la) := by
  -- the token is the first of the values, and it is of the kind that is looked for
  have hfirst : numberToken? (.token ⟨Lexer.kindNumber, Numeral.ofNat n⟩ :: vs) =
      some ⟨Lexer.kindNumber, Numeral.ofNat n⟩ := rfl
  rw [apply, numberOf, hfirst]
  simp only [Numeral.int64?_ofNat]
  by_cases hn : n ≤ 2 ^ 63 - 1
  · simp only [if_pos hn]
  · simp only [if_neg hn]

end Reduction

/-! ## From literals to numbers

  A literal is scanned, read and reduced, and the number is the same all along. -/

namespace Literal

/-- **Number literals are exact.**  A literal on a line of its own is the single token of the kind
    of numbers, with the canonical numeral of what the literal spells; from that token the reduction
    gives exactly this number, or an error if it is too large.  And every lexeme of the class of
    numbers, wherever it is cut from a line, spells a number and is replaced by its numeral. -/
theorem numbers_exact (σ : Type) [TokenSource σ] (d : Disk) (path : SearchPath)
    (warnUnknown : Bool) (name : Text) :
    (∀ n t ending, Spells n t → ∃ tok,
      (Lexer.transcript d ((Lexer.new path warnUnknown).session
        [(d, .add (.text name (Line.written t ending)))])).view =
          ([⟨tok, ⟨name, 1⟩, 1⟩], ⟨none, ⟨name, 1⟩, 0⟩) ∧
      tok = ⟨Lexer.kindNumber, Numeral.ofNat n⟩ ∧
      ∀ la : Lookahead σ, Reduction.apply .number la [.token tok] =
        (if n ≤ 2 ^ 63 - 1 then .ok (.int n)
          else .error (Reduction.failHere la (lit "number out of range: " ++ Numeral.ofNat n)), la)) ∧
    ∀ s x s', Scan.next s = some (x, s') → x.kind = .number →
      ∃ n, Spells n x.text ∧ number? x.text = some (Numeral.ofNat n) := by
  constructor
  -- forwards, from a literal to the token on its line
  · intro n t ending h
    have hview := Lexer.view_of_word d path warnUnknown h.word (by decide) h.token_eq h.isPlain
      h.isValid name ending
    exact ⟨_, hview, rfl, fun la => Reduction.apply_number la n []⟩
  -- backwards, from a lexeme of the class to what it spells
  · intro s x s' hnext hx
    obtain ⟨n, hn⟩ := Scan.exists_spells_of_some hnext hx
    exact ⟨n, hn, hn.number?_eq⟩

/-- Digits of both cases, for a number that does not fit. -/
theorem numbers_exact_hexadecimal :
    let d := Disk.empty []
    let t := lit "0x00fFffffffffffffFF"
    Spells (2 ^ 64 - 1) t ∧
      (Lexer.transcript d ((Lexer.new [] false).session
        [(d, .add (.text [] (Line.written t none)))])).tokens =
          [⟨⟨lit "NUM", lit "18446744073709551615"⟩, ⟨[], 1⟩, 1⟩] := by
  intro d t
  have hspells : Spells (2 ^ 64 - 1) t := by
    refine .hexadecimal (Or.inl rfl) (by decide)
      ⟨0 :: 0 :: List.replicate 16 15, ?_, by decide, by decide⟩
    unfold Numeral.StandsFor
    decide
  obtain ⟨tok, hview, htok, -⟩ :=
    (numbers_exact (List Token) d [] false []).1 _ _ none hspells
  refine ⟨hspells, ?_⟩
  have htokens := congrArg Prod.fst hview
  rw [htok] at htokens
  exact htokens

end Literal
end Pushdown
