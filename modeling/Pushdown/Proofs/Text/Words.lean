/-
  Runs of glyphs: what is trimmed off a text, and where its first word ends.

  Trimming and splitting go by glyphs, and what they give are texts.  A text that is put together
  from some of the glyphs of another one could have other glyphs than these: bytes that were stray
  could come together to a character.  They do not if the glyphs stand next to each other in the
  text.  The parts of a text that is cut between glyphs have these very glyphs
  (`glyphs_of_append_left`, `glyphs_of_append_right`), since a first glyph that is all there does
  not depend on what follows (`headGlyph_of_width_le`).

  So it can be said of texts, and not of lists of glyphs, what is cut off.

  * `Spans` is a longest run of glyphs of a class: its glyphs are of the class, and the first one
    behind it is not.

  * `Trims` is what is left between white space: there is nothing but white space around it, and
    none at its ends.  There is one such text, and trimming finds it (`Trims.eq_trim`,
    `trims_trim`).

  * `FirstWord` is a run that is not empty, of what is no white space.  A text that is trimmed
    starts with one unless it is empty (`exists_firstWord`), and it is the first of its words
    (`FirstWord.words_eq`).
-/
import Mathlib.Data.List.TakeWhile
import Pushdown.Proofs.Text.Repair
import Pushdown.Text.Blank

namespace Pushdown

/-! ## Cutting between glyphs -/

namespace Utf8

variable {t u v w rest : Text} {gs hs : List Glyph}

/-- A first glyph that is all there does not depend on what follows. -/
theorem decode?_of_width_le (h : width (u ++ v) ≤ u.length) : decode? (u ++ v) = decode? u := by
  cases hd : decode? (u ++ v) with
  | some p =>
    have hle : p.2 ≤ u.length := by
      rw [width, hd] at h
      exact h
    have hfront := decode?_take_append hd (u.drop p.2)
    rw [List.take_append_of_le_length hle, List.take_append_drop] at hfront
    exact hfront.symm
  | none =>
    -- a character at the front of `u` would be at the front of both
    cases hd' : decode? u with
    | none => rfl
    | some p =>
      have happ := decode?_take_append hd' (u.drop p.2 ++ v)
      rw [← List.append_assoc, List.take_append_drop, hd] at happ
      cases happ

/-- Nor do its bytes. -/
theorem headGlyph_of_width_le (h : width (u ++ v) ≤ u.length) :
    headGlyph u = headGlyph (u ++ v) ∧ width u = width (u ++ v) := by
  have hdecode := decode?_of_width_le h
  have hwidth : width u = width (u ++ v) := by rw [width, width, hdecode]
  refine ⟨?_, hwidth⟩
  rw [headGlyph, headGlyph, headChar?, headChar?, hdecode, hwidth, List.take_append_of_le_length h]

/-- What stands behind some glyphs has the glyphs that are left. -/
theorem glyphs_of_append_right (h : glyphs t = gs ++ hs) :
    glyphs (hs.flatMap Glyph.bytes) = hs := by
  induction gs generalizing t with
  | nil =>
    have hall : glyphs t = hs := h
    rw [← hall, glyphs_bytes]
  | cons g gs ih => exact ih (of_glyphs_eq_cons h).2.2

/-- What stands in front of some glyphs has the glyphs before them. -/
theorem glyphs_of_append_left (h : glyphs t = gs ++ hs) :
    glyphs (gs.flatMap Glyph.bytes) = gs := by
  induction gs generalizing t with
  | nil => rfl
  | cons g gs ih =>
    have hcut : (g :: gs).flatMap Glyph.bytes ++ hs.flatMap Glyph.bytes = t := by
      rw [← List.flatMap_append, ← h, glyphs_bytes]
    obtain ⟨ht, rfl, htail⟩ := of_glyphs_eq_cons h
    have hlen : (t.take (width t)).length = width t := List.length_take_of_le (width_le ht)
    have hfront : (headGlyph t :: gs).flatMap Glyph.bytes =
        t.take (width t) ++ gs.flatMap Glyph.bytes := List.flatMap_cons
    rw [hfront] at hcut ⊢
    have hle : width t ≤ (t.take (width t) ++ gs.flatMap Glyph.bytes).length := by
      rw [List.length_append]
      omega
    have hne : t.take (width t) ++ gs.flatMap Glyph.bytes ≠ [] := by
      rw [← List.length_pos_iff]
      exact Nat.lt_of_lt_of_le (width_pos t) hle
    -- the first glyph is the same without what is cut off behind
    have hhead := headGlyph_of_width_le (v := hs.flatMap Glyph.bytes) (by rwa [hcut])
    rw [hcut] at hhead
    rw [glyphs_of_ne_nil hne, hhead.1, hhead.2, List.drop_left' hlen, ih htail]

/-- The first glyph that is not dropped. -/
theorem eq_false_of_mem_head? {p : Glyph → Bool} {gs : List Glyph} {g : Glyph}
    (hg : g ∈ (gs.dropWhile p).head?) : p g = false := by
  have hhead := List.head?_dropWhile_not p gs
  rw [Option.mem_def.mp hg] at hhead
  exact hhead

/-- `w` is the longest run of glyphs of a class at the front of `u`, and `rest` follows it. -/
structure Spans (p : Glyph → Bool) (u w rest : Text) : Prop where
  glyphs_eq : glyphs u = glyphs w ++ glyphs rest
  all : ∀ g ∈ glyphs w, p g = true
  stop : ∀ g ∈ (glyphs rest).head?, p g = false

variable {p : Glyph → Bool}

/-- Every text has such a run at its front, if only an empty one. -/
theorem exists_spans (p : Glyph → Bool) (u : Text) : ∃ w rest, Spans p u w rest := by
  have hcut : glyphs u = (glyphs u).takeWhile p ++ (glyphs u).dropWhile p :=
    List.takeWhile_append_dropWhile.symm
  have hleft := glyphs_of_append_left hcut
  have hright := glyphs_of_append_right hcut
  refine ⟨((glyphs u).takeWhile p).flatMap Glyph.bytes,
    ((glyphs u).dropWhile p).flatMap Glyph.bytes, ?_, ?_, ?_⟩
  · rwa [hleft, hright]
  · rw [hleft]
    exact fun g hg => List.mem_takeWhile_imp hg
  · rw [hright]
    exact fun g hg => eq_false_of_mem_head? hg

/-- The run and what follows it are the text. -/
theorem Spans.append_eq (h : Spans p u w rest) : u = w ++ rest := by
  rw [← glyphs_bytes u, h.glyphs_eq, List.flatMap_append, glyphs_bytes, glyphs_bytes]

/-- The run has the glyphs that are taken while they are of the class. -/
theorem Spans.takeWhile_eq (h : Spans p u w rest) : (glyphs u).takeWhile p = glyphs w := by
  rw [h.glyphs_eq, List.takeWhile_append_of_pos h.all]
  cases hrest : glyphs rest with
  | nil => exact List.append_nil _
  | cons g gs =>
    have hstop := h.stop g (by rw [hrest]; rfl)
    rw [List.takeWhile_cons_of_neg (by rw [hstop]; exact Bool.false_ne_true), List.append_nil]

end Utf8

namespace Text

open Utf8 (Glyph glyphs Spans)

variable {t u w rest : Text}

/-! ## Trimming -/

/-- `u` is `t` without the white space around it. -/
structure Trims (t u : Text) : Prop where
  cut : ∃ ls rs, glyphs t = ls ++ (glyphs u ++ rs) ∧ (∀ g ∈ ls, isBlankGlyph g = true) ∧
    ∀ g ∈ rs, isBlankGlyph g = true
  head : ∀ g ∈ (glyphs u).head?, isBlankGlyph g = false
  last : ∀ g ∈ (glyphs u).getLast?, isBlankGlyph g = false

/-- Dropping stops at what is not of the class. -/
theorem dropWhile_append_of_head {α : Type} {p : α → Bool} {gs hs : List α}
    (hgs : ∀ g ∈ gs, p g = true) (hhs : ∀ g ∈ hs.head?, p g = false) :
    (gs ++ hs).dropWhile p = hs := by
  rw [List.dropWhile_append_of_pos hgs]
  cases hs with
  | nil => rfl
  | cons g hs =>
    have hg : p g = false := hhs g rfl
    exact List.dropWhile_cons_of_neg (by rw [hg]; exact Bool.false_ne_true)

/-- Behind its last glyph that is no white space, a text has white space only. -/
theorem exists_cut_end (t : Text) : ∃ u rs, glyphs t = glyphs u ++ rs ∧
    (∀ g ∈ rs, isBlankGlyph g = true) ∧ ∀ g ∈ (glyphs u).getLast?, isBlankGlyph g = false := by
  have hcut : glyphs t = ((glyphs t).reverse.dropWhile isBlankGlyph).reverse ++
      ((glyphs t).reverse.takeWhile isBlankGlyph).reverse := by
    rw [← List.reverse_append, List.takeWhile_append_dropWhile, List.reverse_reverse]
  have hu := Utf8.glyphs_of_append_left hcut
  refine ⟨((glyphs t).reverse.dropWhile isBlankGlyph).reverse.flatMap Glyph.bytes,
    ((glyphs t).reverse.takeWhile isBlankGlyph).reverse, ?_, fun g hg => ?_, fun g hg => ?_⟩
  · rwa [hu]
  · exact List.mem_takeWhile_imp (List.mem_reverse.mp hg)
  · rw [hu, List.getLast?_reverse] at hg
    exact Utf8.eq_false_of_mem_head? hg

/-- Every text can be trimmed. -/
theorem exists_trims (t : Text) : ∃ u, Trims t u := by
  -- white space is taken off in front, and then at the end
  obtain ⟨w, rest, hspans⟩ := Utf8.exists_spans isBlankGlyph t
  obtain ⟨u, rs, hrest, hrs, hlast⟩ := exists_cut_end rest
  refine ⟨u, ⟨glyphs w, rs, ?_, hspans.all, hrs⟩, fun g hg => hspans.stop g ?_, hlast⟩
  · rw [hspans.glyphs_eq, hrest]
  · rw [hrest, List.head?_append, Option.mem_def.mp hg]
    rfl

/-- There is only one way to trim a text. -/
theorem Trims.eq_trim (h : Trims t u) : u = trim t := by
  obtain ⟨⟨ls, rs, hcut, hls, hrs⟩, hhead, hlast⟩ := h
  by_cases hu : glyphs u = []
  · have hblank : ∀ g ∈ glyphs t, isBlankGlyph g = true := by
      rw [hcut, hu, List.nil_append]
      exact List.forall_mem_append.mpr ⟨hls, hrs⟩
    have hnil : (glyphs t).dropWhile isBlankGlyph = [] := List.dropWhile_eq_nil_iff.mpr hblank
    rw [trim, hnil, ← Utf8.glyphs_bytes u, hu]
    rfl
  · obtain ⟨g, gs, hgs⟩ := List.exists_cons_of_ne_nil hu
    have hleft : (glyphs t).dropWhile isBlankGlyph = glyphs u ++ rs := by
      rw [hcut]
      refine dropWhile_append_of_head hls ?_
      rw [hgs] at hhead ⊢
      exact hhead
    have hright : (glyphs u ++ rs).reverse.dropWhile isBlankGlyph = (glyphs u).reverse := by
      rw [List.reverse_append]
      refine dropWhile_append_of_head (fun g hg => hrs g (List.mem_reverse.mp hg)) ?_
      rwa [List.head?_reverse]
    rw [trim, hleft, hright, List.reverse_reverse, Utf8.glyphs_bytes]

/-- Trimming takes the white space off, and nothing else. -/
theorem trims_trim (t : Text) : Trims t (trim t) := by
  obtain ⟨u, hu⟩ := exists_trims t
  rw [← hu.eq_trim]
  exact hu

/-- White space in front is trimmed off. -/
theorem Trims.append_left {s : Text} (hclean : Utf8.Clean s t)
    (hs : ∀ g ∈ glyphs s, isBlankGlyph g = true) (h : Trims t u) : Trims (s ++ t) u := by
  obtain ⟨⟨ls, rs, hcut, hls, hrs⟩, hhead, hlast⟩ := h
  refine ⟨⟨glyphs s ++ ls, rs, ?_, List.forall_mem_append.mpr ⟨hs, hls⟩, hrs⟩, hhead, hlast⟩
  rw [Utf8.glyphs_append_of_clean hclean, hcut, List.append_assoc]

/-- Between ASCII characters that are no white space nothing is trimmed. -/
theorem exists_trims_between {a c : UInt8} (ha : a < 0x80) (ha' : isBlankGlyph (.ofAscii a) = false)
    (hc : c < 0x80) (hc' : isBlankGlyph (.ofAscii c) = false) (m t : Text) :
    ∃ v, Trims (a :: (m ++ c :: t)) (a :: (m ++ c :: v)) := by
  obtain ⟨v, rs, hcut, hrs, hend⟩ := exists_cut_end t
  have hsplit (w : Text) : glyphs (a :: (m ++ c :: w)) =
      (.ofAscii a :: glyphs m) ++ (.ofAscii c :: glyphs w) := by
    rw [Utf8.glyphs_cons_of_ascii ha, Utf8.glyphs_append_of_clean (Utf8.clean_of_ascii_right hc m w),
      Utf8.glyphs_cons_of_ascii hc, List.cons_append]
  refine ⟨v, ⟨[], rs, ?_, List.forall_mem_nil _, hrs⟩, fun g hg => ?_, fun g hg => ?_⟩
  · rw [List.nil_append, hsplit, hsplit, hcut, List.append_assoc]
    rfl
  · rw [hsplit] at hg
    obtain rfl := Option.some.inj hg
    exact ha'
  · rw [hsplit, List.getLast?_append, List.getLast?_cons] at hg
    obtain rfl := Option.some.inj hg
    cases hv : (glyphs v).getLast? with
    | none => exact hc'
    | some m => exact hend m hv

/-! ## Words -/

/-- The first word of `u`, and what follows it. -/
structure FirstWord (u w rest : Text) : Prop extends
    Spans (fun g => !isBlankGlyph g) u w rest where
  ne_nil : w ≠ []

/-- The glyphs before the first blank. -/
theorem cutAtBlanks_fst (gs : List Glyph) : (cutAtBlanks gs).1 =
    (gs.takeWhile (fun g => !isBlankGlyph g)).flatMap Glyph.bytes := by
  induction gs with
  | nil => rfl
  | cons g gs ih =>
    rw [cutAtBlanks_cons]
    by_cases hg : isBlankGlyph g = true
    · rw [if_pos hg, List.takeWhile_cons_of_neg (by rw [hg]; exact Bool.false_ne_true)]
      rfl
    · rw [if_neg hg, List.takeWhile_cons_of_pos (by simpa using hg), List.flatMap_cons, ih]

/-- The first word is the first one of the list of words. -/
theorem FirstWord.words_eq (h : FirstWord u w rest) : ∃ ws, words u = w :: ws := by
  have hfirst : (cutAtBlanks (glyphs u)).1 = w := by
    rw [cutAtBlanks_fst, h.takeWhile_eq, Utf8.glyphs_bytes]
  rw [words, hfirst]
  exact ⟨_, List.filter_cons_of_pos (decide_eq_true h.ne_nil)⟩

/-- A text that starts with no white space starts with a word. -/
theorem exists_firstWord (hu : u ≠ []) (hhead : ∀ g ∈ (glyphs u).head?, isBlankGlyph g = false) :
    ∃ w rest, FirstWord u w rest := by
  obtain ⟨w, rest, hspans⟩ := Utf8.exists_spans (fun g => !isBlankGlyph g) u
  refine ⟨w, rest, hspans, ?_⟩
  rintro rfl
  obtain rfl : u = rest := hspans.append_eq
  rw [Utf8.glyphs_of_ne_nil hu] at hhead
  have hstop := hspans.stop (Utf8.headGlyph u) (by rw [Utf8.glyphs_of_ne_nil hu]; rfl)
  rw [hhead (Utf8.headGlyph u) rfl] at hstop
  cases hstop

end Text

end Pushdown
