/-
  Texts with their stray bytes replaced.

  Reading a text never fails: a byte that belongs to no character is read as the replacement
  character.  Writing out the characters of a text gives the text again, with the replacement
  character in the place of each stray byte (`flatMap_encode_chars`).  A valid text has no stray
  bytes, so it comes back unchanged (`repaired_of_isValid`).

  What carries this is that a character is written with the very bytes that it was read from
  (`encode_of_decode?`).  Decoding checks bounds byte by byte, and encoding cuts a number into
  groups of six bits; there is one lemma for each number of bytes, and in each of them the bounds
  are turned into inequations between numbers first (`bounds_of_isSecond`).  That there is no second
  writing of a character, and no writing of a surrogate, is what the bounds of the second byte are
  for.

  Where a cut goes through no character, both parts are read as if the other were not there
  (`glyphs_append_of_clean`), and so they are repaired each on its own.  Texts of ASCII bytes are
  the simplest case, and the one in which glyphs are told from bytes (`glyphs_of_ascii`).
-/
import Pushdown.Proofs.Text.Validity

namespace Pushdown.Utf8

variable {t u v : Text} {c : Char} {n : Nat}

/-! ## Writing what was read

  One lemma for each number of bytes, and the bounds that decoding has checked. -/

/-- The bounds of a second byte, as numbers. -/
theorem bounds_of_isSecond {a b : UInt8} (h : isSecond a b = true) :
    0x80 ≤ b.toNat ∧ b.toNat ≤ 0xBF ∧ (a.toNat = 0xE0 → 0xA0 ≤ b.toNat) ∧
      (a.toNat = 0xED → b.toNat ≤ 0x9F) ∧ (a.toNat = 0xF0 → 0x90 ≤ b.toNat) ∧
      (a.toNat = 0xF4 → b.toNat ≤ 0x8F) := by
  unfold isSecond isTail at h
  -- one case for each first byte that narrows the bounds
  repeat' split at h
  all_goals
    simp only [Bool.and_eq_true, decide_eq_true_eq, UInt8.le_iff_toNat_le, ← UInt8.toNat_inj,
      UInt8.reduceToNat] at *
    omega

/-- Those of the bytes behind it. -/
theorem bounds_of_isTail {b : UInt8} (h : isTail b = true) : 0x80 ≤ b.toNat ∧ b.toNat ≤ 0xBF := by
  simp only [isTail, Bool.and_eq_true, decide_eq_true_eq, UInt8.le_iff_toNat_le] at h
  exact h

/-- A byte is known by its number. -/
theorem toUInt8_eq {k : Nat} {b : UInt8} (h : k = b.toNat) : k.toUInt8 = b := by
  rw [h]
  exact UInt8.ofNat_toNat

/-- A character is written by the size of its code point. -/
theorem encode_ofNat {k : Nat} (hk : k.isValidChar) : encode (Char.ofNat k) =
    if k < 0x80 then [k.toUInt8]
    else if k < 0x800 then [(0xC0 + k / 64).toUInt8, (0x80 + k % 64).toUInt8]
    else if k < 0x10000 then
      [(0xE0 + k / 4096).toUInt8, (0x80 + k / 64 % 64).toUInt8, (0x80 + k % 64).toUInt8]
    else
      [(0xF0 + k / 262144).toUInt8, (0x80 + k / 4096 % 64).toUInt8,
        (0x80 + k / 64 % 64).toUInt8, (0x80 + k % 64).toUInt8] := by
  rw [Char.ofNat, dif_pos hk]
  rfl

/-- Two bytes that carry a code point write it. -/
theorem encode_two {k : Nat} {a b : UInt8} (hlow : 0x80 ≤ k) (hhigh : k < 0x800)
    (ha : 0xC0 + k / 64 = a.toNat) (hb : 0x80 + k % 64 = b.toNat) :
    encode (Char.ofNat k) = [a, b] := by
  rw [encode_ofNat (Or.inl (by omega)), if_neg (by omega), if_pos hhigh, toUInt8_eq ha,
    toUInt8_eq hb]

/-- So do three of them. -/
theorem encode_three {k : Nat} {a b c : UInt8} (hk : k.isValidChar) (hlow : 0x800 ≤ k)
    (hhigh : k < 0x10000) (ha : 0xE0 + k / 4096 = a.toNat) (hb : 0x80 + k / 64 % 64 = b.toNat)
    (hc : 0x80 + k % 64 = c.toNat) : encode (Char.ofNat k) = [a, b, c] := by
  rw [encode_ofNat hk, if_neg (by omega), if_neg (by omega), if_pos hhigh, toUInt8_eq ha,
    toUInt8_eq hb, toUInt8_eq hc]

/-- And four. -/
theorem encode_four {k : Nat} {a b c e : UInt8} (hlow : 0x10000 ≤ k) (hhigh : k < 0x110000)
    (ha : 0xF0 + k / 262144 = a.toNat) (hb : 0x80 + k / 4096 % 64 = b.toNat)
    (hc : 0x80 + k / 64 % 64 = c.toNat) (he : 0x80 + k % 64 = e.toNat) :
    encode (Char.ofNat k) = [a, b, c, e] := by
  rw [encode_ofNat (Or.inr ⟨by omega, hhigh⟩), if_neg (by omega), if_neg (by omega),
    if_neg (by omega), toUInt8_eq ha, toUInt8_eq hb, toUInt8_eq hc, toUInt8_eq he]

/-- **A character that was read is written with the bytes it was read from.** -/
theorem encode_of_decode? (h : decode? t = some (c, n)) : encode c = t.take n := by
  unfold decode? at h
  repeat' split at h
  all_goals simp only [Option.some.injEq, Prod.mk.injEq, reduceCtorEq] at h
  all_goals obtain ⟨rfl, rfl⟩ := h
  · rename_i a t ha
    have ha : a.toNat < 0x80 := UInt8.lt_iff_toNat_lt.mp ha
    rw [encode_ofNat (Or.inl (by omega)), if_pos ha, toUInt8_eq rfl]
    rfl
  · rename_i a ha htwo t b u hb
    have hb := bounds_of_isSecond hb
    simp only [leadsTwo, Bool.and_eq_true, decide_eq_true_eq, UInt8.le_iff_toNat_le,
      UInt8.reduceToNat] at htwo
    have hbits : bits b = b.toNat - 0x80 := rfl
    exact encode_two (by omega) (by omega) (by omega) (by omega)
  · rename_i a ha htwo hthree t b c u hb
    rw [Bool.and_eq_true] at hb
    have hc := bounds_of_isTail hb.2
    have hb := bounds_of_isSecond hb.1
    simp only [leadsThree, Bool.and_eq_true, decide_eq_true_eq, UInt8.le_iff_toNat_le,
      UInt8.reduceToNat] at hthree
    have hbitsb : bits b = b.toNat - 0x80 := rfl
    have hbitsc : bits c = c.toNat - 0x80 := rfl
    refine encode_three ?_ (by omega) (by omega) (by omega) (by omega) (by omega)
    -- the bounds of the second byte keep out the surrogates
    unfold Nat.isValidChar
    omega
  · rename_i a ha htwo hthree hfour t b c e u hb
    rw [Bool.and_eq_true, Bool.and_eq_true] at hb
    have he := bounds_of_isTail hb.2
    have hc := bounds_of_isTail hb.1.2
    have hb := bounds_of_isSecond hb.1.1
    simp only [leadsFour, Bool.and_eq_true, decide_eq_true_eq, UInt8.le_iff_toNat_le,
      UInt8.reduceToNat] at hfour
    have hbitsb : bits b = b.toNat - 0x80 := rfl
    have hbitsc : bits c = c.toNat - 0x80 := rfl
    have hbitse : bits e = e.toNat - 0x80 := rfl
    exact encode_four (by omega) (by omega) (by omega) (by omega) (by omega) (by omega)

/-- Every character in a text is written with the bytes that it has there. -/
theorem encode_of_mem_glyphs {g : Glyph} (hg : g ∈ glyphs t) (hc : g.char = some c) :
    encode c = g.bytes := by
  induction hlen : t.length using Nat.strongRecOn generalizing t with
  | _ k ih =>
    subst hlen
    by_cases ht : t = []
    · subst ht
      exact absurd hg List.not_mem_nil
    · rw [glyphs_of_ne_nil ht] at hg
      rcases List.mem_cons.mp hg with rfl | hg
      · obtain ⟨⟨c', n⟩, hd, hfst⟩ := Option.map_eq_some_iff.mp hc
        obtain rfl : c' = c := hfst
        show encode c' = t.take (width t)
        rw [encode_of_decode? hd, width, hd]
        rfl
      · have hpos := width_pos t
        have hlen : 0 < t.length := List.length_pos_iff.mpr ht
        exact ih _ (by rw [List.length_drop]; omega) hg rfl

/-- **Writing out the characters of a text** repairs it. -/
theorem flatMap_encode_chars (t : Text) : (chars t).flatMap encode = repaired t := by
  have hglyph : ∀ g ∈ glyphs t, encode (g.char.getD replacement) =
      if g.char.isSome then g.bytes else encode replacement := by
    intro g hg
    cases hc : g.char with
    | none => rfl
    | some c => exact encode_of_mem_glyphs hg hc
  rw [chars, repaired, List.flatMap_map, List.flatMap_def, List.flatMap_def,
    List.map_congr_left hglyph]

/-- A text without stray bytes needs no repair. -/
theorem repaired_of_isValid (h : isValid t = true) : repaired t = t := by
  rw [isValid, List.all_eq_true] at h
  have hbytes : ∀ g ∈ glyphs t, (if g.char.isSome then g.bytes else encode replacement) = g.bytes :=
    fun g hg => if_pos (h g hg)
  rw [repaired, List.flatMap_def, List.map_congr_left hbytes, ← List.flatMap_def, glyphs_bytes]

/-- No character is written with nothing. -/
theorem encode_ne_nil (c : Char) : encode c ≠ [] := by
  unfold encode
  simp only
  repeat' split
  all_goals exact List.cons_ne_nil _ _

/-- Repair leaves nothing only of nothing. -/
theorem repaired_eq_nil_iff : repaired t = [] ↔ t = [] := by
  by_cases ht : t = []
  · rw [ht]
    exact Iff.rfl
  · refine iff_of_false (fun h => ?_) ht
    rw [← flatMap_encode_chars, chars_of_ne_nil ht, List.flatMap_cons, List.append_eq_nil_iff] at h
    exact encode_ne_nil _ h.1

/-! ## Reading at a clean cut -/

/-- What stands behind a clean cut does not matter for the first character. -/
theorem decode?_append_of_clean (hc : Clean u v) (hu : u ≠ []) : decode? (u ++ v) = decode? u := by
  cases hd : decode? u with
  | some p =>
    have happ := decode?_take_append hd (u.drop p.2 ++ v)
    rwa [← List.append_assoc, List.take_append_drop] at happ
  | none =>
    -- a character of both texts would be within the first one
    cases hd' : decode? (u ++ v) with
    | none => rfl
    | some p =>
      have hle := le_length_of_clean hc hu hd'
      have happ := decode?_take_append hd' (u.drop p.2)
      rw [List.take_append_of_le_length hle, List.take_append_drop, hd] at happ
      exact nomatch happ

/-- **Texts with a clean cut between them** are read one after the other. -/
theorem glyphs_append_of_clean (hc : Clean u v) : glyphs (u ++ v) = glyphs u ++ glyphs v := by
  induction hlen : u.length using Nat.strongRecOn generalizing u with
  | _ k ih =>
    subst hlen
    by_cases hu : u = []
    · rw [hu]
      rfl
    · have hd := decode?_append_of_clean hc hu
      have hw : width (u ++ v) = width u := by rw [width, hd, width]
      have hle := width_le hu
      have hhead : headGlyph (u ++ v) = headGlyph u := by
        rw [headGlyph, headGlyph, headChar?, hd, hw, List.take_append_of_le_length hle]
        rfl
      have hpos := width_pos u
      rw [glyphs_of_ne_nil (List.append_ne_nil_of_left_ne_nil hu v), glyphs_of_ne_nil hu, hhead, hw,
        List.drop_append_of_le_length hle,
        ih (u.drop (width u)).length (by rw [List.length_drop]; omega) (hc.drop _) rfl]
      rfl

/-- The same of characters. -/
theorem chars_append_of_clean (hc : Clean u v) : chars (u ++ v) = chars u ++ chars v := by
  rw [chars, glyphs_append_of_clean hc, List.map_append]
  rfl

/-- The same of validity. -/
theorem isValid_append_iff (hc : Clean u v) :
    isValid (u ++ v) = true ↔ isValid u = true ∧ isValid v = true := by
  rw [isValid, glyphs_append_of_clean hc, List.all_append, Bool.and_eq_true]
  rfl

/-- A cut in front of an ASCII byte is clean. -/
theorem clean_of_ascii_right {b : UInt8} (hb : b < 0x80) (u v : Text) : Clean u (b :: v) := by
  intro _ _ a ha
  rw [← Option.some.inj ha]
  exact Or.inr hb

/-! ## ASCII

  Bytes below 128 are characters on their own, wherever they stand. -/

/-- An ASCII byte is a character. -/
theorem decode?_cons_of_ascii {a : UInt8} (ha : a < 0x80) (t : Text) :
    decode? (a :: t) = some (Char.ofNat a.toNat, 1) := by
  unfold decode?
  exact if_pos ha

/-- The glyph of an ASCII byte. -/
def Glyph.ofAscii (a : UInt8) : Glyph := ⟨some (Char.ofNat a.toNat), [a]⟩

/-- An ASCII byte is a glyph on its own. -/
theorem glyphs_cons_of_ascii {a : UInt8} (ha : a < 0x80) (t : Text) :
    glyphs (a :: t) = .ofAscii a :: glyphs t := by
  rw [glyphs_of_ne_nil (List.cons_ne_nil a t), headGlyph, headChar?, width, decode?_cons_of_ascii ha]
  rfl

/-- ASCII bytes are their glyphs. -/
theorem glyphs_of_ascii (h : ∀ a ∈ t, a < 0x80) : glyphs t = t.map .ofAscii := by
  induction t with
  | nil => rfl
  | cons a t ih =>
    obtain ⟨ha, ht⟩ := List.forall_mem_cons.mp h
    rw [glyphs_cons_of_ascii ha, ih ht, List.map_cons]

/-- What is true of the glyphs of ASCII bytes. -/
theorem forall_mem_glyphs_of_ascii {p : Glyph → Prop} (h : ∀ a ∈ t, a < 0x80)
    (hp : ∀ a ∈ t, p (.ofAscii a)) : ∀ g ∈ glyphs t, p g := by
  intro g hg
  rw [glyphs_of_ascii h] at hg
  obtain ⟨a, ha, rfl⟩ := List.mem_map.mp hg
  exact hp a ha

/-- A cut behind ASCII bytes is clean. -/
theorem clean_of_ascii (h : ∀ a ∈ u, a < 0x80) (v : Text) : Clean u v :=
  fun a ha _ _ => Or.inl (h a (List.mem_of_getLast? ha))

/-- An ASCII byte is the character of its number. -/
theorem chars_cons_of_ascii {a : UInt8} (ha : a < 0x80) (t : Text) :
    chars (a :: t) = Char.ofNat a.toNat :: chars t := by
  rw [chars_of_ne_nil (List.cons_ne_nil a t), headChar?, width, decode?_cons_of_ascii ha]
  rfl

/-- An ASCII byte in front does not matter for validity. -/
theorem isValid_cons_of_ascii {a : UInt8} (ha : a < 0x80) (t : Text) :
    isValid (a :: t) = isValid t := by
  have hd := decode?_cons_of_ascii ha t
  refine Bool.eq_iff_iff.mpr ⟨fun h => ?_, fun h => ?_⟩
  · obtain ⟨c, n, hd', hrest⟩ := (isValid_iff_of_ne_nil (List.cons_ne_nil a t)).mp h
    obtain ⟨-, rfl⟩ := Prod.mk.inj (Option.some.inj (hd.symm.trans hd'))
    exact hrest
  · exact (isValid_iff_of_ne_nil (List.cons_ne_nil a t)).mpr ⟨_, _, hd, h⟩

/-- Nor does one in between. -/
theorem isValid_append_cons_iff {a : UInt8} (ha : a < 0x80) :
    isValid (u ++ a :: v) = true ↔ isValid u = true ∧ isValid v = true := by
  rw [isValid_append_iff (clean_of_ascii_right ha u v), isValid_cons_of_ascii ha]

/-- ASCII bytes are valid. -/
theorem isValid_of_ascii (h : ∀ a ∈ t, a < 0x80) : isValid t = true := by
  induction t with
  | nil => exact isValid_nil
  | cons a t ih =>
    obtain ⟨ha, ht⟩ := List.forall_mem_cons.mp h
    rw [isValid_cons_of_ascii ha, ih ht]

end Pushdown.Utf8
