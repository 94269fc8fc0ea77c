/-
  A line is the lexemes cut from it, with blanks around them.

  `Cuts` is the run of a scan: matches, one after the other, until none is left.  Whatever the bytes
  of a line, its run is finite, and it loses nothing but blanks and tabs (`Partition`).  A run never
  cuts through a character: a lexeme ends with an ASCII byte, or in front of a newline, or it is a
  character itself (`Munched.isValid`).

  The scanner looks at bytes and knows nothing of characters.  That it cuts between them is because
  of how the classes end:

  * numbers and names consist of ASCII letters, digits and underscores (`Word.lt_of_number`);
  * a string ends with its delimiter, whatever bytes stand between the two (`Closes.getLast?_eq`);
  * operators are ASCII texts, of which there are finitely many;
  * a directive takes all bytes up to a newline or the end (`Munched.head?_of_directive`);
  * whatever is left is delivered glyph by glyph.

  A byte below `0x80` is never part of a longer character, and so a text can be cut behind it or in
  front of it (`Utf8.isValid_append_of_clean`).  On a text with stray bytes nothing is promised of
  single lexemes; the partition holds for it all the same.
-/
import Pushdown.Proofs.Lexer.Content
import Pushdown.Proofs.Lexer.Grammar
import Pushdown.Proofs.Text.Validity

namespace Pushdown

open Text (lit byte)

namespace Lexeme

/-! ## Where a lexeme ends

  What a lexeme of each class ends with, or what has to follow it, so that the cut behind it is
  clean. -/

variable {d : UInt8} {k : LexemeKind} {t u rest : Text} {x : Lexeme}

/-- A string ends with the delimiter that closes it. -/
theorem Closes.getLast?_eq (h : Closes d u) : u.getLast? = some d := by
  induction h with
  | close => rfl
  | plain _ _ _ ih => rw [List.getLast?_cons, ih]; rfl
  | doubled _ ih => rw [List.getLast?_cons, List.getLast?_cons, ih]; rfl
  | hidden _ ih => rw [List.getLast?_cons, List.getLast?_cons, ih]; rfl

/-- Letters, digits and underscores are ASCII. -/
theorem lt_of_isNamePart {b : UInt8} (h : isNamePart b = true) : b < 0x80 := by
  simp only [isNamePart, isLetter, isDecimal, byte, Bool.or_eq_true, Bool.and_eq_true] at h
  grind

/-- Hexadecimal digits are letters or digits. -/
theorem isNamePart_of_isHex {b : UInt8} (h : isHex b = true) : isNamePart b = true := by
  simp only [isHex, isNamePart, isLetter, isDecimal, byte, Bool.or_eq_true, Bool.and_eq_true] at h ⊢
  grind

/-- So are decimal digits. -/
theorem isNamePart_of_isDecimal {b : UInt8} (h : isDecimal b = true) : isNamePart b = true := by
  rw [isNamePart, h, Bool.or_true]
  rfl

/-- Octal digits are decimal digits. -/
theorem isDecimal_of_isOctal {b : UInt8} (h : isOctal b = true) : isDecimal b = true := by
  simp only [isOctal, isDecimal, byte, Bool.and_eq_true] at h ⊢
  grind

/-- So are binary digits. -/
theorem isDecimal_of_isBinary {b : UInt8} (h : isBinary b = true) : isDecimal b = true := by
  simp only [isBinary, Bool.or_eq_true, decide_eq_true_eq] at h
  rcases h with rfl | rfl <;> decide

/-- Numbers consist of letters and digits. -/
theorem Word.isNamePart_of_number (h : Word .number u) : ∀ a ∈ u, isNamePart a = true := by
  have hzero : isNamePart (byte '0') = true := by decide
  cases h with
  | @hexadecimal b v hb _ hv =>
    have hb : isNamePart b = true := by rcases hb with rfl | rfl <;> decide
    simp only [List.forall_mem_cons]
    exact ⟨hzero, hb, fun a ha => isNamePart_of_isHex (hv a ha)⟩
  | @binary b v hb _ hv =>
    have hb : isNamePart b = true := by rcases hb with rfl | rfl <;> decide
    simp only [List.forall_mem_cons]
    exact ⟨hzero, hb, fun a ha => isNamePart_of_isDecimal (isDecimal_of_isBinary (hv a ha))⟩
  | octal _ hv =>
    simp only [List.forall_mem_cons]
    exact ⟨hzero, fun a ha => isNamePart_of_isDecimal (isDecimal_of_isOctal (hv a ha))⟩
  | decimal hb _ hv =>
    simp only [List.forall_mem_cons]
    exact ⟨isNamePart_of_isDecimal hb, fun a ha => isNamePart_of_isDecimal (hv a ha)⟩
  | zero => simpa using hzero

/-- Numbers are ASCII throughout. -/
theorem Word.lt_of_number (h : Word .number u) : ∀ a ∈ u, a < 0x80 :=
  fun a ha => lt_of_isNamePart (h.isNamePart_of_number a ha)

/-- A word ends with an ASCII byte, unless it is a directive. -/
theorem Word.last_lt (h : Word k u) (hk : k ≠ .directive) : ∀ a ∈ u.getLast?, a < 0x80 := by
  intro a ha
  have hmem : a ∈ u := List.mem_of_getLast? ha
  cases h with
  | string hd hu =>
    rw [List.getLast?_cons, hu.getLast?_eq] at ha
    obtain rfl := Option.some.inj ha
    rcases hd with hd | hd <;> rw [hd] <;> decide
  | operator hu =>
    have hall : ∀ t ∈ Grammar.operators, ∀ a ∈ t, a < 0x80 := by decide +kernel
    exact hall u hu a hmem
  | name hb hv =>
    rcases List.mem_cons.mp hmem with rfl | hmem
    · exact lt_of_isNamePart (by rw [isNamePart, hb]; rfl)
    · exact lt_of_isNamePart (hv a hmem)
  | directive => exact absurd rfl hk
  | hexadecimal hb hne hv => exact (Word.hexadecimal hb hne hv).lt_of_number a hmem
  | binary hb hne hv => exact (Word.binary hb hne hv).lt_of_number a hmem
  | octal hne hv => exact (Word.octal hne hv).lt_of_number a hmem
  | decimal hb hzero hv => exact (Word.decimal hb hzero hv).lt_of_number a hmem
  | zero => exact Word.zero.lt_of_number a hmem

/-- A directive ends with the line or in front of a newline. -/
theorem Munched.head?_of_directive (h : Munched (u ++ rest) ⟨.directive, u⟩) :
    ∀ b ∈ rest.head?, b = Text.newline := by
  intro b hb
  cases h with
  | longest _ hk hlongest =>
    obtain ⟨rest, rfl⟩ : ∃ rest', rest = b :: rest' := by
      cases rest with
      | nil => exact nomatch hb
      | cons c rest => exact ⟨rest, by rw [Option.some.inj hb]⟩
    by_contra hne
    -- the directive could have been longer by a byte
    have hlonger : Belongs .directive (u ++ [b]) := by
      rw [belongs_iff_word] at hk ⊢
      cases hk with
      | @directive v hv =>
        refine .directive fun c hc => ?_
        rcases List.mem_append.mp hc with hc | hc
        · exact hv c hc
        · rwa [List.mem_singleton.mp hc]
    have := hlongest _ _ ⟨rest, by simp⟩ hlonger
    rw [List.length_append, List.length_singleton] at this
    omega

/-- No lexeme ends within a character. -/
theorem Munched.isValid (h : Munched t x) (ht : t = x.text ++ rest) (hv : Utf8.isValid t = true) :
    Utf8.isValid x.text = true ∧ Utf8.isValid rest = true := by
  subst ht
  have hm := h
  cases h with
  | @longest k u _ hk _ _ =>
    refine Utf8.isValid_append_of_clean (fun a ha b hb => ?_) hv
    by_cases hdirective : k = .directive
    · subst hdirective
      right
      rw [hm.head?_of_directive b hb]
      decide
    · exact Or.inl ((belongs_iff_word.mp hk).last_lt hdirective a ha)
  -- a glyph is the first character, or the first stray byte, as a whole
  | @glyph c u gs hu hnone =>
    obtain ⟨hne, hhead, -⟩ := Utf8.of_glyphs_eq_cons hu
    have hbytes : (u ++ rest).take (Utf8.width (u ++ rest)) = u := congrArg Utf8.Glyph.bytes hhead
    have hrest : (u ++ rest).drop (Utf8.width (u ++ rest)) = rest := by
      have hall := List.take_append_drop (Utf8.width (u ++ rest)) (u ++ rest)
      rw [hbytes] at hall
      exact List.append_cancel_left hall
    have hboth := Utf8.isValid_headGlyph hne hv
    rwa [Utf8.headGlyph, hbytes, hrest] at hboth

end Lexeme

namespace Scan

open Lexeme

/-- `s.Cuts xs`: matching until nothing is left takes the lexemes `xs`. -/
inductive Cuts : Scan → List Lexeme → Prop
  | ended {s : Scan} (h : s.next = none) : Cuts s []
  | more {s s' : Scan} {x : Lexeme} {xs : List Lexeme} (h : s.next = some (x, s'))
      (hxs : Cuts s' xs) : Cuts s (x :: xs)

end Scan

/-- `Partition t xs`: the text `t` is the non-empty lexemes `xs` in order, with nothing but blanks
    and tabs before, between and after them. -/
inductive Partition : Text → List Lexeme → Prop
  | gap {g : Text} (hg : ∀ b ∈ g, Lexeme.isGap b = true) : Partition g []
  | lexeme {g rest : Text} {x : Lexeme} {xs : List Lexeme} (hg : ∀ b ∈ g, Lexeme.isGap b = true)
      (hx : x.text ≠ []) (hrest : Partition rest xs) : Partition (g ++ x.text ++ rest) (x :: xs)

namespace Scan

open Lexeme

variable {s s' : Scan} {x : Lexeme} {xs : List Lexeme}

/-- One match: some blanks, and a lexeme by maximal munch. -/
theorem exists_gap_of_some (h : s.next = some (x, s')) : ∃ g, (∀ b ∈ g, isGap b = true) ∧
    s.rest = g ++ (x.text ++ s'.rest) ∧ Munched (x.text ++ s'.rest) x := by
  obtain ⟨hne, rfl, hcut⟩ := next_eq_some h
  rw [← hcut]
  exact ⟨s.rest.takeWhile isGap, fun b hb => List.mem_takeWhile_imp hb,
    List.takeWhile_append_dropWhile.symm, munched_front hne⟩

/-- Skipping blanks and taking a lexeme leaves both the lexeme and the rest without stray bytes. -/
theorem isValid_of_some (h : s.next = some (x, s')) (hv : Utf8.isValid s.rest = true) :
    Utf8.isValid x.text = true ∧ Utf8.isValid s'.rest = true := by
  obtain ⟨g, hg, hrest, hmunched⟩ := exists_gap_of_some h
  -- blanks and tabs are ASCII
  have hclean : Utf8.Clean g (x.text ++ s'.rest) := by
    intro a ha b _
    have hgap := hg a (List.mem_of_getLast? ha)
    obtain rfl | rfl : a = 32 ∨ a = 9 := by simpa [isGap] using hgap
    · exact Or.inl (by decide)
    · exact Or.inl (by decide)
  rw [hrest] at hv
  exact hmunched.isValid rfl (Utf8.isValid_append_of_clean hclean hv).2

/-- **A line is partitioned into its lexemes**, whatever its bytes are: matching ends after no more
    matches than there are bytes, the lexemes with blanks around them are the line, and a line
    without stray bytes has no lexeme with stray bytes. -/
theorem exists_cuts_partition (s : Scan) : ∃ xs, s.Cuts xs ∧ Partition s.rest xs ∧
    xs.length ≤ s.rest.length ∧
    (Utf8.isValid s.rest = true → ∀ x ∈ xs, Utf8.isValid x.text = true) := by
  induction s using lexemes.induct with
  | case1 s hnone =>
    have hgap : ∀ b ∈ s.rest, isGap b = true :=
      List.dropWhile_eq_nil_iff.mp (next_eq_none_iff.mp hnone)
    exact ⟨[], .ended hnone, .gap hgap, Nat.zero_le _, fun _ => List.forall_mem_nil _⟩
  | case2 s x s' hsome ih =>
    obtain ⟨xs, hcuts, hpartition, hlength, hvalid⟩ := ih
    obtain ⟨g, hg, hrest, -⟩ := exists_gap_of_some hsome
    have hlt := next_rest_lt hsome
    refine ⟨x :: xs, .more hsome hcuts, ?_, ?_, fun hv => ?_⟩
    · rw [hrest, ← List.append_assoc]
      exact .lexeme hg (next_text_ne_nil hsome) hpartition
    · rw [List.length_cons]
      omega
    -- what is left is valid again, so that the others are too
    · obtain ⟨hx, hv'⟩ := isValid_of_some hsome hv
      exact List.forall_mem_cons.mpr ⟨hx, hvalid hv'⟩

/-- An apostrophe that opens no string, among characters of two bytes. -/
theorem exists_cuts_partition_accented : ∃ xs, Cuts ⟨lit "é 'ü", true⟩ xs ∧
    Utf8.isValid (lit "é 'ü") = true ∧ ∀ x ∈ xs, Utf8.isValid x.text = true := by
  obtain ⟨xs, hcuts, -, -, hvalid⟩ := exists_cuts_partition ⟨lit "é 'ü", true⟩
  have hv : Utf8.isValid (lit "é 'ü") = true := by decide +kernel
  exact ⟨xs, hcuts, hv, hvalid hv⟩

end Scan
end Pushdown
