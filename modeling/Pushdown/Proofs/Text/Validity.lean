/-
  Cutting texts between characters.

  A text is valid if it is one character after the other, with no stray byte in between.  Cutting a
  valid text anywhere can leave two texts that are not, since the cut may go through a character.

  Every byte of a character of several bytes has its high bit set, the first one and the others
  alike (`high_of_decode?`).  So a cut next to a byte below 128 goes through no character (`Clean`),
  and both parts of a valid text are valid again (`isValid_append_of_clean`).  Whatever is cut at
  white space, at a delimiter or at an operator is cut in this way.

  The proof takes one character off the left part after the other.  Two facts about decoding carry
  it: what follows a character does not matter (`decode?_take_append`), and the bytes of a character
  do not reach over a clean cut (`le_length_of_clean`).
-/
import Pushdown.Proofs.Lexer.Lines

namespace Pushdown.Utf8

variable {t u v : Text} {c : Char} {n : Nat}

/-! ## One character

  Decoding is a case distinction on the first byte, and what is needed of it further on is told
  here. -/

/-- A character is complete within its own bytes. -/
theorem isPartial_take (h : decode? t = some (c, n)) : isPartial (t.take n) = false := by
  unfold decode? at h
  -- one case for each length of a character
  repeat' split at h
  all_goals simp only [Option.some.injEq, Prod.mk.injEq, reduceCtorEq] at h
  all_goals obtain ⟨-, rfl⟩ := h
  all_goals simp [isPartial, leadsTwo, leadsThree, leadsFour] at *
  all_goals grind

/-- What follows a character does not matter. -/
theorem decode?_take_append (h : decode? t = some (c, n)) (u : Text) :
    decode? (t.take n ++ u) = some (c, n) := by
  have hp := isPartial_take h
  rw [decode?_append hp u, ← decode?_append hp (t.drop n), List.take_append_drop, h]

/-- A character of several bytes has no byte below 128. -/
theorem high_of_decode? (h : decode? t = some (c, n)) : n = 1 ∨ ∀ b ∈ t.take n, 0x80 ≤ b := by
  unfold decode? at h
  repeat' split at h
  all_goals simp only [Option.some.injEq, Prod.mk.injEq, reduceCtorEq] at h
  all_goals obtain ⟨-, rfl⟩ := h
  · exact Or.inl rfl
  all_goals refine Or.inr ?_
  all_goals simp [isSecond, isTail, leadsTwo, leadsThree, leadsFour] at *
  all_goals grind

/-! ## Valid texts

  Validity is told from the first character on, and a cut in the middle is reached from the left. -/

/-- The first glyph, and those behind it. -/
theorem glyphs_of_ne_nil (h : t ≠ []) : glyphs t = headGlyph t :: glyphs (t.drop (width t)) := by
  obtain ⟨a, t, rfl⟩ := List.exists_cons_of_ne_nil h
  obtain ⟨n, hn⟩ : ∃ n, width (a :: t) = n + 1 :=
    ⟨width (a :: t) - 1, by have := width_pos (a :: t); omega⟩
  rw [glyphs, glyphsFrom, hn, Nat.add_sub_cancel, glyphsFrom_eq_glyphs_drop, List.drop_succ_cons]

/-- Where there is a first glyph, it is that of the text. -/
theorem of_glyphs_eq_cons {g : Glyph} {gs : List Glyph} (h : glyphs t = g :: gs) :
    t ≠ [] ∧ headGlyph t = g ∧ glyphs (t.drop (width t)) = gs := by
  have hne : t ≠ [] := by
    rintro rfl
    cases h
  rw [glyphs_of_ne_nil hne] at h
  obtain ⟨hhead, htail⟩ := List.cons.inj h
  exact ⟨hne, hhead, htail⟩

/-- Nothing is valid. -/
theorem isValid_nil : isValid [] = true := rfl

/-- A valid text is a character and then a valid text. -/
theorem isValid_iff_of_ne_nil (h : t ≠ []) : isValid t = true ↔
    ∃ c n, decode? t = some (c, n) ∧ isValid (t.drop n) = true := by
  rw [isValid, glyphs_of_ne_nil h, List.all_cons, Bool.and_eq_true]
  show (headChar? t).isSome = true ∧ isValid (t.drop (width t)) = true ↔ _
  rw [headChar?, width]
  cases hd : decode? t with
  | none => simp
  | some p =>
    obtain ⟨c, n⟩ := p
    constructor
    · exact fun h => ⟨c, n, rfl, h.2⟩
    · rintro ⟨c', n', heq, h⟩
      obtain ⟨rfl, rfl⟩ := Prod.mk.inj (Option.some.inj heq)
      exact ⟨rfl, h⟩

/-- No character reaches over the cut between two texts. -/
def Clean (u v : Text) : Prop :=
  ∀ a ∈ u.getLast?, ∀ b ∈ v.head?, a < 0x80 ∨ b < 0x80

/-- The first character ends in front of a clean cut. -/
theorem le_length_of_clean (hc : Clean u v) (hu : u ≠ []) (hd : decode? (u ++ v) = some (c, n)) :
    n ≤ u.length := by
  refine Nat.le_of_not_lt fun hlong => ?_
  have hv : v ≠ [] := by
    rintro rfl
    have := (decode?_width hd).2
    rw [List.append_nil] at this
    omega
  obtain ⟨b, v, rfl⟩ := List.exists_cons_of_ne_nil hv
  obtain ⟨u, a, rfl⟩ : ∃ u' a, u = u' ++ [a] := ⟨_, _, (List.dropLast_concat_getLast hu).symm⟩
  -- the character takes in the bytes on both sides of the cut
  have hboth : u ++ [a, b] <+: (u ++ [a] ++ b :: v).take n := by
    rw [List.length_append, List.length_singleton] at hlong
    refine List.prefix_take_iff.mpr ⟨⟨v, by simp⟩, ?_⟩
    rw [List.length_append, List.length_cons, List.length_singleton]
    exact hlong
  rcases high_of_decode? hd with hone | hhigh
  · rw [List.length_append, List.length_singleton] at hlong
    omega
  · have ha := hhigh a (hboth.subset (by simp))
    have hb := hhigh b (hboth.subset (by simp))
    rcases hc a (by simp) b (by simp) with h | h
    · exact absurd h (UInt8.not_lt.mpr ha)
    · exact absurd h (UInt8.not_lt.mpr hb)

/-- A cut stays clean when bytes in front are left out. -/
theorem Clean.drop (hc : Clean u v) (n : Nat) : Clean (u.drop n) v := by
  intro a ha b hb
  refine hc a ?_ b hb
  rw [List.getLast?_drop] at ha
  split at ha
  · exact nomatch ha
  · exact ha

/-- **A clean cut of a valid text leaves two valid texts.** -/
theorem isValid_append_of_clean (hc : Clean u v) (h : isValid (u ++ v) = true) :
    isValid u = true ∧ isValid v = true := by
  induction hlen : u.length using Nat.strongRecOn generalizing u with
  | _ k ih =>
    subst hlen
    by_cases hu : u = []
    · subst hu
      exact ⟨isValid_nil, h⟩
    · obtain ⟨c, n, hd, hrest⟩ :=
        (isValid_iff_of_ne_nil (List.append_ne_nil_of_left_ne_nil hu v)).mp h
      have hle := le_length_of_clean hc hu hd
      have hpos := (decode?_width hd).1
      rw [List.drop_append_of_le_length hle] at hrest
      have hlt : (u.drop n).length < u.length := by
        rw [List.length_drop]
        omega
      obtain ⟨hleft, hright⟩ := ih _ hlt (hc.drop n) hrest rfl
      refine ⟨(isValid_iff_of_ne_nil hu).mpr ⟨c, n, ?_, hleft⟩, hright⟩
      have hdu := decode?_take_append hd (u.drop n)
      rwa [List.take_append_of_le_length hle, List.take_append_drop] at hdu

/-- The first character of a valid text is valid, and what follows it. -/
theorem isValid_headGlyph (ht : t ≠ []) (h : isValid t = true) :
    isValid (headGlyph t).bytes = true ∧ isValid (t.drop (width t)) = true := by
  obtain ⟨c, n, hd, hrest⟩ := (isValid_iff_of_ne_nil ht).mp h
  have hw : width t = n := by
    rw [width, hd]
    rfl
  obtain ⟨hpos, hle⟩ := decode?_width hd
  have hne : t.take n ≠ [] := fun hnil => ht (by
    rcases List.take_eq_nil_iff.mp hnil with h | h
    · omega
    · exact h)
  rw [headGlyph, hw]
  refine ⟨(isValid_iff_of_ne_nil hne).mpr ⟨c, n, ?_, ?_⟩, hrest⟩
  · have := decode?_take_append hd []
    rwa [List.append_nil] at this
  · rw [List.drop_take_self]
    exact isValid_nil

end Pushdown.Utf8
