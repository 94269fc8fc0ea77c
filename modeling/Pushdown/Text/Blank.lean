/-
  Blanks, trimming and words.

  A blank is a character of Unicode's White_Space property.  Trimming and splitting look at
  glyphs, so a byte that belongs to no character is never a blank and never lost.
-/
import Pushdown.Text.Utf8

namespace Pushdown.Text

open Utf8 (Glyph glyphs)

/-- The white-space characters. -/
def isBlank (c : Char) : Bool :=
  let n := c.toNat
  (9 ≤ n && n ≤ 13) || n = 0x20 || n = 0x85 || n = 0xA0 || n = 0x1680
    || (0x2000 ≤ n && n ≤ 0x200A) || n = 0x2028 || n = 0x2029 || n = 0x202F || n = 0x205F
    || n = 0x3000

example (c : Char) (h : c.isWhitespace = true) : isBlank c = true := by
  simp [Char.isWhitespace] at h
  rcases h with ((rfl | rfl) | rfl) | rfl <;> decide

/-- A glyph that is a white-space character. -/
def isBlankGlyph (g : Glyph) : Bool := g.char.any isBlank

/-- A text without the blanks at its two ends. -/
def trim (t : Text) : Text :=
  ((((glyphs t).dropWhile isBlankGlyph).reverse.dropWhile isBlankGlyph).reverse).flatMap
    Glyph.bytes

/-- Pieces of glyphs in a row are no longer than the glyphs. -/
theorem flatMap_length_le {gs hs : List Glyph} (h : gs.Sublist hs) :
    (gs.flatMap Glyph.bytes).length ≤ (hs.flatMap Glyph.bytes).length := by
  induction h with
  | slnil => exact Nat.le_refl _
  | cons g _ ih =>
    simp only [List.flatMap_cons, List.length_append]
    omega
  | cons_cons g _ ih =>
    simp only [List.flatMap_cons, List.length_append]
    omega

/-- Trimming adds nothing. -/
theorem trim_length_le (t : Text) : (trim t).length ≤ t.length := by
  have hs : ((((glyphs t).dropWhile isBlankGlyph).reverse.dropWhile isBlankGlyph).reverse).Sublist
      (glyphs t) := by
    have h := (List.dropWhile_sublist isBlankGlyph (l := ((glyphs t).dropWhile isBlankGlyph).reverse))
    have h' := h.reverse
    rw [List.reverse_reverse] at h'
    exact h'.trans (List.dropWhile_sublist isBlankGlyph)
  have h := flatMap_length_le hs
  rwa [Utf8.glyphs_bytes] at h

/-- The glyphs cut at each blank: the run before the first blank, and the runs after it. -/
def cutAtBlanks (gs : List Glyph) : Text × List Text :=
  gs.foldr
    (fun g (run, runs) => if isBlankGlyph g then ([], run :: runs) else (g.bytes ++ run, runs))
    ([], [])

/-- The words of a text: its maximal runs without blanks, in order. -/
def words (t : Text) : List Text :=
  let runs := cutAtBlanks (glyphs t)
  (runs.1 :: runs.2).filter (· ≠ [])

/-- One glyph more: it ends a word, or goes to the front of the first one. -/
theorem cutAtBlanks_cons (g : Glyph) (gs : List Glyph) :
    cutAtBlanks (g :: gs) =
      if isBlankGlyph g then ([], (cutAtBlanks gs).1 :: (cutAtBlanks gs).2)
      else (g.bytes ++ (cutAtBlanks gs).1, (cutAtBlanks gs).2) := rfl

/-- No run is longer than the glyphs it is cut from. -/
theorem cutAtBlanks_length_le (gs : List Glyph) :
    (cutAtBlanks gs).1.length ≤ (gs.flatMap Glyph.bytes).length ∧
      ∀ run ∈ (cutAtBlanks gs).2, run.length ≤ (gs.flatMap Glyph.bytes).length := by
  induction gs with
  | nil => exact ⟨Nat.le_refl _, fun _ h => nomatch h⟩
  | cons g gs ih =>
    rw [cutAtBlanks_cons, List.flatMap_cons, List.length_append]
    split
    · refine ⟨Nat.zero_le _, fun run h => ?_⟩
      rcases List.mem_cons.1 h with rfl | h
      · exact Nat.le_trans ih.1 (Nat.le_add_left _ _)
      · exact Nat.le_trans (ih.2 run h) (Nat.le_add_left _ _)
    · refine ⟨?_, fun run h => Nat.le_trans (ih.2 run h) (Nat.le_add_left _ _)⟩
      rw [List.length_append]
      exact Nat.add_le_add_left ih.1 _

/-- No word is longer than the text it stands in. -/
theorem words_length_le {t w : Text} (h : w ∈ words t) : w.length ≤ t.length := by
  have hc := cutAtBlanks_length_le (glyphs t)
  rw [Utf8.glyphs_bytes] at hc
  have hw : w ∈ (cutAtBlanks (glyphs t)).1 :: (cutAtBlanks (glyphs t)).2 :=
    (List.mem_filter.1 h).1
  rcases List.mem_cons.1 hw with rfl | hw
  · exact hc.1
  · exact hc.2 w hw

end Pushdown.Text
