/-
  String literals: writing a text between delimiters and reading it back.

  A delimiter within the text is doubled or hidden by a backslash, each of them as one likes
  (`Literal.escape`).  Backslashes stay as they are: they have no escape of their own, and two of
  them in a literal are two of them in the text.  So not every text can be written.  It has to be
  one in which backslashes pair up in front of a delimiter and at the end (`Literal.Paired`), since
  an odd one would hide what the writer means to be seen.

  The scanner and `Literal.unescape` cut a literal into pieces: a plain byte, a doubled delimiter, a
  hidden one, or a backslash with the byte behind it.  `Literal.Escapes` takes text and literal
  apart in the same pieces, so that each side follows from it by one induction:

  * the scanner finds the end of the literal where it was put (`Escapes.closes`),
  * undoing the escapes gives the text again (`Escapes.unescape_eq`),
  * the literal stays on one line and cuts no character (`Escapes.isPlain`, `Escapes.isValid`).

  That a paired text written out is such a pair is `escapes_escape`, and only there is counting
  done.  A backslash forms a piece with the byte behind it, so the induction is on the length of the
  text and takes off one byte or two.

  `string_round_trip` puts this into a line of its own and looks at what a lexer shows of it: one
  token, which has the text.
-/
import Mathlib.Algebra.Group.Nat.Even
import Mathlib.Data.List.DropRight
import Pushdown.Disk.Edit
import Pushdown.Proofs.Lexer.TokenLines

namespace Pushdown

open Text (lit byte)

namespace Literal

/-! ## Escapes -/

/-- The text with every delimiter escaped: the `n`-th one is hidden by a backslash if `hidden n`
    says so, and doubled otherwise. -/
def escape (delim : UInt8) (hidden : Nat → Bool) : Text → Text
  | [] => []
  | b :: s =>
    if b = delim then
      (if hidden 0 then backslash else delim) :: delim :: escape delim (hidden <| · + 1) s
    else b :: escape delim hidden s

/-- The number of backslashes that a text ends with. -/
def trailing (t : Text) : Nat := (t.rtakeWhile (· = backslash)).length

/-- In front of every delimiter and at the end stands an even number of backslashes. -/
def Paired (delim : UInt8) (s : Text) : Prop :=
  ∀ n ≤ s.length, n = s.length ∨ s[n]? = some delim → Even (trailing (s.take n))

/-- `Escapes delim s w`: piece by piece, `w` is `s` with its delimiters escaped.  A backslash makes
    one piece with the byte behind it, which is no delimiter. -/
inductive Escapes (delim : UInt8) : Text → Text → Prop
  | nil : Escapes delim [] []
  | plain {b : UInt8} {s w : Text} (hd : b ≠ delim) (hb : b ≠ backslash) (h : Escapes delim s w) :
      Escapes delim (b :: s) (b :: w)
  | doubled {s w : Text} (h : Escapes delim s w) : Escapes delim (delim :: s) (delim :: delim :: w)
  | hidden {s w : Text} (h : Escapes delim s w) :
      Escapes delim (delim :: s) (backslash :: delim :: w)
  | kept {b : UInt8} {s w : Text} (hd : b ≠ delim) (h : Escapes delim s w) :
      Escapes delim (backslash :: b :: s) (backslash :: b :: w)

variable {delim b : UInt8} {s w x : Text}

/-! ### Backslashes in pairs -/

/-- An even number of backslashes in front does not matter. -/
theorem even_trailing_of_append (hx : Even (trailing x)) (h : Even (trailing (x ++ s))) :
    Even (trailing s) := by
  rw [trailing, List.rtakeWhile, List.length_reverse] at hx h ⊢
  rw [List.reverse_append, List.takeWhile_append] at h
  split at h
  · -- all of `s` is backslashes, and the run reaches back into `x`
    rename_i hall
    rw [List.length_append, Nat.even_add] at h
    rw [hall]
    exact h.mpr hx
  · exact h

/-- A piece that ends with an even number of backslashes may be taken off the front. -/
theorem Paired.of_append (h : Paired delim (x ++ s)) (hx : Even (trailing x)) : Paired delim s := by
  intro n hn hstop
  have hat : (x ++ s)[x.length + n]? = s[n]? := by
    rw [List.getElem?_append_right (Nat.le_add_right _ n), Nat.add_sub_cancel_left]
  have hlen : (x ++ s).length = x.length + s.length := List.length_append
  have hend : x.length + n = (x ++ s).length ∨ (x ++ s)[x.length + n]? = some delim := by
    rw [hat]
    exact hstop.imp_left fun heq => by omega
  have heven := h (x.length + n) (by omega) hend
  rw [List.take_length_add_append] at heven
  exact even_trailing_of_append hx heven

/-- A backslash is not alone in front of a delimiter or of the end. -/
theorem Paired.exists_cons (h : Paired delim (backslash :: s)) :
    ∃ b s', s = b :: s' ∧ b ≠ delim := by
  have hodd : ¬ Even (trailing [backslash]) := by decide
  cases s with
  | nil => exact absurd (h 1 (Nat.le_refl 1) (Or.inl rfl)) hodd
  | cons b s =>
    refine ⟨b, s, rfl, ?_⟩
    rintro rfl
    exact hodd (h 1 (Nat.succ_le_succ (Nat.zero_le _)) (Or.inr rfl))

/-- A paired text is written out piece by piece. -/
theorem escapes_escape (hdelim : delim ≠ backslash) (h : Paired delim s) (hidden : Nat → Bool) :
    Escapes delim s (escape delim hidden s) := by
  induction hlen : s.length using Nat.strongRecOn generalizing s hidden with
  | _ k ih =>
    subst hlen
    cases s with
    | nil => exact .nil
    | cons b s =>
      have hs : b ≠ backslash → Paired delim s := fun hb =>
        h.of_append (x := [b]) (by simp [trailing, List.rtakeWhile, hb])
      rw [escape]
      by_cases hd : b = delim
      · subst hd
        have hrest := ih _ (Nat.lt_succ_self _) (hs hdelim) (hidden <| · + 1) rfl
        rw [if_pos rfl]
        split
        · exact .hidden hrest
        · exact .doubled hrest
      · rw [if_neg hd]
        by_cases hb : b = backslash
        -- the byte behind a backslash belongs to the same piece
        · subst hb
          obtain ⟨b, s, rfl, hd'⟩ := h.exists_cons
          have hpair : Even (trailing [backslash, b]) := by
            by_cases hb : b = backslash
            · rw [hb]
              decide
            · simp [trailing, List.rtakeWhile, hb]
          have hlt : s.length < (backslash :: b :: s).length := by
            rw [List.length_cons, List.length_cons]
            omega
          rw [escape, if_neg hd']
          exact .kept hd' (ih _ hlt (h.of_append (x := [backslash, b]) hpair) hidden rfl)
        · exact .plain hd hb (ih _ (Nat.lt_succ_self _) (hs hb) hidden rfl)

/-! ### Both sides of a literal -/

namespace Escapes

/-- The scanner finds the end of the literal. -/
theorem closes (h : Escapes delim s w) : Lexeme.Closes delim (w ++ [delim]) := by
  induction h with
  | nil => exact .close
  | plain hd hb _ ih => exact .plain hd hb ih
  | doubled _ ih => exact .doubled ih
  | hidden _ ih => exact .hidden ih
  | kept _ _ ih => exact .hidden ih

/-- Undoing the escapes gives the text again. -/
theorem unescape_eq (hdelim : delim ≠ backslash) (h : Escapes delim s w) :
    unescape delim w = s := by
  induction h with
  | nil => rfl
  | @plain b s w hd hb _ ih =>
    cases w with
    | nil => rw [← ih]; rfl
    | cons c w => rw [unescape, if_neg hb, if_neg fun h => hd h.1, ih]
  | doubled _ ih => rw [unescape, if_neg hdelim, if_pos ⟨rfl, rfl⟩, ih]
  | hidden _ ih => rw [unescape, if_pos rfl, if_pos rfl, ih]
  | kept hd _ ih => rw [unescape, if_pos rfl, if_neg hd, ih]

/-- A literal has a line break in it only if its text has. -/
theorem isPlain (hdelim : Source.isBreak delim = false) (h : Escapes delim s w)
    (hs : Line.IsPlain s) : Line.IsPlain w := by
  have hbackslash : Source.isBreak backslash = false := by decide
  induction h with
  | nil => exact hs
  | plain _ _ _ ih =>
    obtain ⟨hb, hs⟩ := List.forall_mem_cons.mp hs
    exact List.forall_mem_cons.mpr ⟨hb, ih hs⟩
  | doubled _ ih =>
    obtain ⟨-, hs⟩ := List.forall_mem_cons.mp hs
    exact List.forall_mem_cons.mpr ⟨hdelim, List.forall_mem_cons.mpr ⟨hdelim, ih hs⟩⟩
  | hidden _ ih =>
    obtain ⟨-, hs⟩ := List.forall_mem_cons.mp hs
    exact List.forall_mem_cons.mpr ⟨hbackslash, List.forall_mem_cons.mpr ⟨hdelim, ih hs⟩⟩
  | kept _ _ ih =>
    obtain ⟨-, hs⟩ := List.forall_mem_cons.mp hs
    obtain ⟨hb, hs⟩ := List.forall_mem_cons.mp hs
    exact List.forall_mem_cons.mpr ⟨hbackslash, List.forall_mem_cons.mpr ⟨hb, ih hs⟩⟩

/-- Escapes are put next to ASCII bytes only, so they cut no character. -/
theorem isValid (hdelim : delim < 0x80) (h : Escapes delim s w)
    (hs : Utf8.isValid (x ++ s) = true) : Utf8.isValid (x ++ w) = true := by
  -- `x` is what stands in front, since a piece may lie within a character
  have hbackslash : backslash < 0x80 := by decide
  induction h generalizing x with
  | nil => exact hs
  | @plain b s w _ _ _ ih =>
    have hw := ih (x := x ++ [b]) (by rwa [List.append_assoc])
    rwa [List.append_assoc] at hw
  | doubled _ ih =>
    obtain ⟨hx, hs⟩ := (Utf8.isValid_append_cons_iff hdelim).mp hs
    have hw := ih (x := []) hs
    rw [Utf8.isValid_append_cons_iff hdelim, Utf8.isValid_cons_of_ascii hdelim]
    exact ⟨hx, hw⟩
  | hidden _ ih =>
    obtain ⟨hx, hs⟩ := (Utf8.isValid_append_cons_iff hdelim).mp hs
    have hw := ih (x := []) hs
    rw [Utf8.isValid_append_cons_iff hbackslash, Utf8.isValid_cons_of_ascii hdelim]
    exact ⟨hx, hw⟩
  | @kept b s w _ _ ih =>
    have hw := ih (x := x ++ [backslash, b]) (by rwa [List.append_assoc])
    rwa [List.append_assoc] at hw

end Escapes

/-! ## Literals -/

/-- The delimiters are taken off, and the escapes in between are undone. -/
theorem unquote_concat (w : Text) : unquote (delim :: (w ++ [delim])) = unescape delim w := by
  cases w with
  | nil => rfl
  | cons b w =>
    rw [List.cons_append, unquote, ← List.cons_append, List.dropLast_concat]

/-- **String literals round-trip.**  A text in which backslashes pair up, written between delimiters
    with each delimiter in it doubled or hidden, is the only token of its line, and comes back as
    the text of that token. -/
theorem string_round_trip (d : Disk) (path : SearchPath) (warnUnknown : Bool) (name : Text)
    (hdelim : delim = byte '\'' ∨ delim = byte '"') (hvalid : Utf8.isValid s = true)
    (hplain : Line.IsPlain s) (hpaired : Paired delim s) (hidden : Nat → Bool)
    (ending : Option LineBreak) :
    (Lexer.transcript d ((Lexer.new path warnUnknown).session [(d, .add (.text name
        (Line.written (delim :: (escape delim hidden s ++ [delim])) ending)))])).view =
      ([⟨⟨Lexer.kindString, s⟩, ⟨name, 1⟩, 1⟩], ⟨none, ⟨name, 1⟩, 0⟩) := by
  have hbackslash : delim ≠ backslash := by rcases hdelim with rfl | rfl <;> decide
  have hbreak : Source.isBreak delim = false := by rcases hdelim with rfl | rfl <;> decide
  have hascii : delim < 0x80 := by rcases hdelim with rfl | rfl <;> decide
  -- the literal is a word of the grammar, and its token has the text
  have hescapes := escapes_escape hbackslash hpaired hidden
  have hword : Lexeme.Word .string (delim :: (escape delim hidden s ++ [delim])) :=
    .string hdelim hescapes.closes
  have htoken : Lexer.token ⟨.string, delim :: (escape delim hidden s ++ [delim])⟩ =
      .ok ⟨Lexer.kindString, s⟩ := by
    rw [Lexer.token]
    simp only [unquote_concat, hescapes.unescape_eq hbackslash]
  -- and it stands on one line, which is valid
  have hplain' : Line.IsPlain (delim :: (escape delim hidden s ++ [delim])) :=
    List.forall_mem_cons.mpr ⟨hbreak,
      (hescapes.isPlain hbreak hplain).append (List.forall_mem_singleton.mpr hbreak)⟩
  have hvalid' : Utf8.isValid (delim :: (escape delim hidden s ++ [delim])) = true := by
    rw [Utf8.isValid_cons_of_ascii hascii, Utf8.isValid_append_cons_iff hascii]
    exact ⟨hescapes.isValid (x := []) hascii hvalid, Utf8.isValid_nil⟩
  exact Lexer.view_of_word d path warnUnknown hword (by decide) htoken hplain' hvalid' name
    ending

/-- Four apostrophes, hidden and doubled by turns, with single and paired backslashes. -/
theorem string_round_trip_mixed :
    let d := Disk.empty []
    let s := lit "'\\a'\\\\''é"
    Paired (byte '\'') s ∧
      (Lexer.transcript d ((Lexer.new [] false).session
        [(d, .add (.text [] (lit "'\\'\\a''\\\\\\'''é'\n")))])).tokens =
          [⟨⟨lit "STR", s⟩, ⟨[], 1⟩, 1⟩] := by
  intro d s
  have hpaired : Paired (byte '\'') s := by
    unfold Paired
    decide
  have hview := string_round_trip d [] false [] (Or.inl rfl) (s := s) (by decide) (by decide)
    hpaired (fun n => n % 2 = 0) (some .lineFeed)
  exact ⟨hpaired, congrArg Prod.fst hview⟩

end Literal
end Pushdown
