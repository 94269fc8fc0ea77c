/-
  Directives, told by a grammar.

  `Parted` takes a directive line apart: the `#` and the gap behind it, the keyword, and the
  arguments between white space.  `Named` and `LineNumber` say what arguments spell, and `Reads` is
  what comes of them.  Every line that starts with `#` has one reading (`exists_reads`), and `parse`
  finds it (`Reads.parse_eq`).  A line that is written for a name and a number is read back
  (`parse_delimited_include`, `parse_delimited_line`).

  Trimming, splitting into words and cutting the first word off are separate passes over the text.
  They agree on where the first word ends, so that it is there to be taken whenever arguments are
  not empty (`fileName_cases`, `inBounds`).

  The grammar is not a case distinction of the parser in disguise.  Negative cases are told by what
  there is no name or number for, and not by how looking for one fails; so `exists_reads` has to
  show that something is found wherever there is something.  That the reading is unique comes for
  free then, since each of them is what `parse` gives.

  Two things about file names are easily overlooked:

  * a name ends at the first byte that closes it, and what stands behind is ignored, be it another
    delimiter;
  * between `<` and `>` anything may stand, so that `<<x>>` names `<x`.

  For lines that are written, the keyword has to end where the argument starts.  A delimiter or
  digit is no letter, and `IsMark` collects what is needed of such a byte: it comes before the
  letters, and it is no white space, so that trimming stops at it.
-/
import Mathlib.Data.List.Basic
import Pushdown.Lexer.Directive
import Pushdown.Proofs.Text.Numeral
import Pushdown.Proofs.Text.Words

namespace Pushdown.Directive

open Text (lit byte Trims FirstWord)
open Utf8 (glyphs Spans)

/-! ## The grammar

  A line is told by how it could have been written.  A relation may leave open what does not matter,
  such as how wide a gap is and what stands behind a file name. -/

/-- What stands in front of a file name, and what ends it. -/
inductive Delimiters : UInt8 → UInt8 → Prop
  | double : Delimiters (byte '"') (byte '"')
  | single : Delimiters (byte '\'') (byte '\'')
  | angle : Delimiters (byte '<') (byte '>')

/-- `Named u f`: the text `u` starts with the file name `f`. -/
inductive Named : Text → Text → Prop
  /-- Between delimiters, up to the first one that closes. -/
  | delimited {o c : UInt8} {f rest : Text} (h : Delimiters o c) (hne : f ≠ []) (hf : c ∉ f) :
      Named (o :: (f ++ c :: rest)) f
  /-- A bare word. -/
  | bare {u w rest : Text} (hw : FirstWord u w rest) (ho : ∀ b ∈ u.head?, ∀ c, ¬ Delimiters b c) :
      Named u w

/-- The word spells a number that a line can have. -/
def LineNumber (w : Text) (n : Int) : Prop := Numeral.Integer w n ∧ 0 ≤ n ∧ n ≤ 2 ^ 63 - 1

/-- `Parted t w args`: the directive line `t` has the keyword `w` and the arguments `args`. -/
inductive Parted : Text → Text → Text → Prop
  | mk {gap b w rest args : Text} (hgap : ∀ a ∈ gap, isGap a = true)
      (hb : ∀ a ∈ b.head?, isGap a = false) (hw : Spans isLetterGlyph b w rest)
      (hargs : Trims rest args) : Parted (byte '#' :: (gap ++ b)) w args

/-- What a directive line says. -/
inductive Reads (t : Text) : Except DirectiveError Directive → Prop
  | comment {w args : Text} (h : Parted t w args) (hi : w ≠ lit "include") (hl : w ≠ lit "line") :
      Reads t (.ok (.comment w))
  | includeFile {args f : Text} (h : Parted t (lit "include") args) (hf : Named args f) :
      Reads t (.ok (.includeFile f))
  | includeWithoutName {args : Text} (h : Parted t (lit "include") args)
      (hf : ∀ f, ¬ Named args f) : Reads t (.error .includeWithoutName)
  | lineNumber {args w rest : Text} {n : Int} (h : Parted t (lit "line") args)
      (hw : FirstWord args w rest) (hn : LineNumber w n) (hrest : Trims rest []) :
      Reads t (.ok (.lineNumber n []))
  | lineNumberAndName {args w rest name f : Text} {n : Int} (h : Parted t (lit "line") args)
      (hw : FirstWord args w rest) (hn : LineNumber w n) (hrest : Trims rest name)
      (hf : Named name f) : Reads t (.ok (.lineNumber n f))
  | lineWithoutNumber (h : Parted t (lit "line") []) : Reads t (.error .lineWithoutNumber)
  | invalidLineNumber {args w rest : Text} (h : Parted t (lit "line") args)
      (hw : FirstWord args w rest) (hn : ∀ n, ¬ LineNumber w n) :
      Reads t (.error (.invalidLineNumber w))
  | invalidFileName {args w rest name : Text} {n : Int} (h : Parted t (lit "line") args)
      (hw : FirstWord args w rest) (hn : LineNumber w n) (hrest : Trims rest name)
      (hne : name ≠ []) (hf : ∀ f, ¬ Named name f) : Reads t (.error .invalidFileName)

variable {t u w f args rest : Text} {r : Except DirectiveError Directive}

/-! ## Taking a line apart

  The keyword is the run of letters behind the gap, and the arguments are what is left when white
  space is taken off at both ends. -/

/-- The keyword and the arguments are found where the grammar has them. -/
theorem Parted.keyword_eq (h : Parted t w args) : keyword (body t) = w ∧
    Text.trim ((body t).drop w.length) = args := by
  cases h with
  | @mk gap b w rest args hgap hb hw hargs =>
    have hbody : body (byte '#' :: (gap ++ b)) = b := by
      rw [body, if_pos rfl]
      exact Text.dropWhile_append_of_head hgap hb
    rw [hbody]
    refine ⟨?_, ?_⟩
    · rw [keyword, hw.takeWhile_eq, Utf8.glyphs_bytes]
    · rw [hw.append_eq, List.drop_left, ← hargs.eq_trim]

/-- Every directive line has a keyword, be it empty, and arguments. -/
theorem exists_parted (t : Text) : ∃ w args, Parted (byte '#' :: t) w args := by
  obtain ⟨w, rest, hw⟩ := Utf8.exists_spans isLetterGlyph (t.dropWhile isGap)
  have hparted : Parted (byte '#' :: (t.takeWhile isGap ++ t.dropWhile isGap)) w (Text.trim rest) := by
    refine .mk (fun a ha => List.mem_takeWhile_imp ha) (fun a ha => ?_) hw (Text.trims_trim rest)
    have hhead := List.head?_dropWhile_not isGap t
    rw [Option.mem_def.mp ha] at hhead
    exact hhead
  rw [List.takeWhile_append_dropWhile] at hparted
  exact ⟨w, _, hparted⟩

/-- Arguments are what is left of some text after trimming. -/
theorem Parted.exists_trims (h : Parted t w args) : ∃ rest, Trims rest args := by
  cases h with
  | mk _ _ _ hargs => exact ⟨_, hargs⟩

/-! ## File names

  A name in delimiters begins behind the byte that opens it and ends in front of the first one that
  closes it.  A text that starts with no such byte names a file by its first word. -/

/-- The delimiters that are known are those of the grammar. -/
theorem closing?_eq_some_iff {b c : UInt8} : closing? b = some c ↔ Delimiters b c := by
  rw [closing?]
  constructor
  · intro h
    split at h
    · rename_i hb
      obtain rfl := Option.some.inj h
      rcases hb with rfl | rfl
      · exact .double
      · exact .single
    · split at h
      · rename_i hb
        obtain rfl := Option.some.inj h
        rw [hb]
        exact .angle
      · cases h
  · intro h
    cases h <;> rfl

/-- Behind an opening delimiter, the name is what comes before the closing one, if it is there and
    something is between. -/
theorem fileName_cons {o c : UInt8} (h : Delimiters o c) (t : Text) :
    fileName (o :: t) = if t.takeWhile (fun b => decide (b ≠ c)) = [] ∨
      (t.takeWhile (fun b => decide (b ≠ c))).length = t.length then .error .missing
      else .ok (t.takeWhile (fun b => decide (b ≠ c))) := by
  rw [fileName, closing?_eq_some_iff.mpr h]

/-- What comes before the first closing delimiter. -/
theorem takeWhile_of_not_mem {c : UInt8} (hf : c ∉ f) (rest : Text) :
    (f ++ c :: rest).takeWhile (fun b => decide (b ≠ c)) = f := by
  have hall : ∀ b ∈ f, decide (b ≠ c) = true := by
    intro b hb
    refine decide_eq_true ?_
    rintro rfl
    exact hf hb
  rw [List.takeWhile_append_of_pos hall, List.takeWhile_cons_of_neg (by simp), List.append_nil]

/-- A name that stands there is found. -/
theorem Named.fileName_eq (h : Named u f) : fileName u = .ok f := by
  cases h with
  | @delimited o c f rest h hne hf =>
    have hshort : ¬ (f = [] ∨ f.length = (f ++ c :: rest).length) := by
      rw [List.length_append, List.length_cons]
      rintro (h | h)
      · exact hne h
      · omega
    rw [fileName_cons h, takeWhile_of_not_mem hf, if_neg hshort]
  | @bare u w rest hw ho =>
    obtain ⟨ws, hws⟩ := hw.words_eq
    cases u with
    | nil =>
      have hnil := hw.append_eq
      exact absurd (List.append_eq_nil_iff.mp hnil.symm).1 hw.ne_nil
    | cons b u =>
      have hnone : closing? b = none := by
        rw [Option.eq_none_iff_forall_not_mem]
        exact fun c hc => ho b rfl c (closing?_eq_some_iff.mp hc)
      rw [fileName, hnone]
      simp only [hws]

/-- **A trimmed text starts with a name, or lacks one.**  It never happens that there is something,
    but no word in it. -/
theorem fileName_cases (h : Trims t u) : (∃ f, Named u f) ∨
    fileName u = .error .missing ∧ ∀ f, ¬ Named u f := by
  -- a name that stands there would have been found
  have hmissing (h : fileName u = .error .missing) :
      fileName u = .error .missing ∧ ∀ f, ¬ Named u f := by
    refine ⟨h, fun f hf => ?_⟩
    rw [hf.fileName_eq] at h
    cases h
  rcases u with _ | ⟨o, v⟩
  · exact .inr (hmissing rfl)
  -- with an opening delimiter in front, or without
  · cases hclosing : closing? o with
    | some c =>
      have hd := closing?_eq_some_iff.mp hclosing
      by_cases hc : c ∈ v
      · obtain ⟨f, rest, rfl, hf⟩ := List.eq_append_cons_of_mem hc
        by_cases hne : f = []
        · right
          refine hmissing ?_
          rw [fileName_cons hd, takeWhile_of_not_mem hf, if_pos (.inl hne)]
        · exact .inl ⟨f, .delimited hd hne hf⟩
      · right
        have hall : v.takeWhile (fun b => decide (b ≠ c)) = v := by
          rw [List.takeWhile_eq_self_iff]
          rintro b hb
          refine decide_eq_true ?_
          rintro rfl
          exact hc hb
        refine hmissing ?_
        rw [fileName_cons hd, hall, if_pos (.inr rfl)]
    | none =>
      left
      -- a trimmed text that is not empty starts with a word
      obtain ⟨w, rest, hw⟩ := Text.exists_firstWord (List.cons_ne_nil o v) h.head
      refine ⟨w, .bare hw fun b hb c hc => ?_⟩
      obtain rfl := Option.some.inj hb
      rw [closing?_eq_some_iff.mpr hc] at hclosing
      cases hclosing

/-! ## Readings

  The parser finds the reading of a line, with one case for each rule.  That every line has one goes
  through the same questions in the same order: which keyword there is, and whether there is a word,
  a number and a name. -/

/-- The numbers that are accepted are those that a line can have. -/
theorem filter_int64?_eq_some_iff {n : Int} :
    (Numeral.int64? w).filter (0 ≤ ·) = some n ↔ LineNumber w n := by
  rw [Option.filter_eq_some_iff, Numeral.int64?_eq_some_iff, decide_eq_true_eq, LineNumber]
  constructor
  · rintro ⟨⟨hi, -, hhigh⟩, hlow⟩
    exact ⟨hi, hlow, hhigh⟩
  · rintro ⟨hi, hlow, hhigh⟩
    exact ⟨⟨hi, by omega, hhigh⟩, hlow⟩

/-- `include` is followed by a name. -/
theorem Parted.parse_include (h : Parted t (lit "include") args) : parse t = parseInclude args := by
  obtain ⟨hkeyword, hargs⟩ := h.keyword_eq
  rw [parse]
  simp only [hkeyword, hargs, ↓reduceIte]

/-- `line` is followed by a number. -/
theorem Parted.parse_line (h : Parted t (lit "line") args) : parse t = parseLine args := by
  obtain ⟨hkeyword, hargs⟩ := h.keyword_eq
  have hne : lit "line" ≠ lit "include" := by decide
  rw [parse]
  simp only [hkeyword, hargs, hne, ↓reduceIte]

/-- The arguments of `line` with a number in front. -/
theorem parseLine_of_lineNumber {name : Text} {n : Int} (hw : FirstWord args w rest)
    (hn : LineNumber w n) (hrest : Trims rest name) :
    parseLine args = if name = [] then .ok (.lineNumber n []) else match fileName name with
      | .ok f => .ok (.lineNumber n f)
      | .error _ => .error .invalidFileName := by
  obtain ⟨ws, hws⟩ := hw.words_eq
  have hdrop : Text.trim (args.drop w.length) = name := by
    rw [hw.append_eq, List.drop_left, ← hrest.eq_trim]
  rw [parseLine, hws]
  cases hfile : fileName name with
  | ok f => simp only [filter_int64?_eq_some_iff.mpr hn, hdrop, hfile]
  | error e => simp only [filter_int64?_eq_some_iff.mpr hn, hdrop, hfile]

/-- There is no name in an empty text. -/
theorem Named.ne_nil (h : Named u f) : u ≠ [] := by
  rintro rfl
  have hfile := h.fileName_eq
  cases hfile

/-- If no name is there, none is found. -/
theorem fileName_of_not_named (h : Trims t u) (hf : ∀ f, ¬ Named u f) :
    fileName u = .error .missing := by
  rcases fileName_cases h with ⟨f, hf'⟩ | ⟨hmissing, -⟩
  · exact absurd hf' (hf f)
  · exact hmissing

/-- **`parse` gives the reading of a line.** -/
theorem Reads.parse_eq (h : Reads t r) : parse t = r := by
  cases h with
  | comment h hi hl =>
    obtain ⟨hkeyword, -⟩ := h.keyword_eq
    rw [parse]
    simp only [hkeyword, hi, hl, ↓reduceIte]
  | includeFile h hf => rw [h.parse_include, parseInclude, hf.fileName_eq]
  | includeWithoutName h hf =>
    obtain ⟨rest, hargs⟩ := h.exists_trims
    rw [h.parse_include, parseInclude, fileName_of_not_named hargs hf]
  | lineNumber h hw hn hrest =>
    rw [h.parse_line, parseLine_of_lineNumber hw hn hrest, if_pos rfl]
  | lineNumberAndName h hw hn hrest hf =>
    rw [h.parse_line, parseLine_of_lineNumber hw hn hrest, if_neg hf.ne_nil, hf.fileName_eq]
  | lineWithoutNumber h =>
    rw [h.parse_line]
    rfl
  | @invalidLineNumber args w rest h hw hn =>
    obtain ⟨ws, hws⟩ := hw.words_eq
    have hnone : (Numeral.int64? w).filter (0 ≤ ·) = none := by
      rw [Option.eq_none_iff_forall_not_mem]
      exact fun n hn' => hn n (filter_int64?_eq_some_iff.mp hn')
    rw [h.parse_line, parseLine, hws]
    simp only [hnone]
  | invalidFileName h hw hn hrest hne hf =>
    rw [h.parse_line, parseLine_of_lineNumber hw hn hrest, if_neg hne,
      fileName_of_not_named hrest hf]

/-- **Every line has a reading.** -/
theorem exists_reads (t : Text) : ∃ r, Reads (byte '#' :: t) r := by
  obtain ⟨w, args, h⟩ := exists_parted t
  by_cases hi : w = lit "include"
  · subst hi
    by_cases hf : ∃ f, Named args f
    · obtain ⟨f, hf⟩ := hf
      exact ⟨_, .includeFile h hf⟩
    · exact ⟨_, .includeWithoutName h (not_exists.mp hf)⟩
  -- a keyword other than `include`
  · by_cases hl : w = lit "line"
    · subst hl
      by_cases hargs : args = []
      · subst hargs
        exact ⟨_, .lineWithoutNumber h⟩
      · obtain ⟨trimmed, htrims⟩ := h.exists_trims
        obtain ⟨word, rest, hw⟩ := Text.exists_firstWord hargs htrims.head
        by_cases hn : ∃ n, LineNumber word n
        · obtain ⟨n, hn⟩ := hn
          have hrest := Text.trims_trim rest
          by_cases hname : Text.trim rest = []
          · rw [hname] at hrest
            exact ⟨_, .lineNumber h hw hn hrest⟩
          · by_cases hf : ∃ f, Named (Text.trim rest) f
            · obtain ⟨f, hf⟩ := hf
              exact ⟨_, .lineNumberAndName h hw hn hrest hf⟩
            · exact ⟨_, .invalidFileName h hw hn hrest hname (not_exists.mp hf)⟩
        · exact ⟨_, .invalidLineNumber h hw (not_exists.mp hn)⟩
    · exact ⟨_, .comment h hi hl⟩

/-! ## Directives as they are written

  From a name and a number to the line that says them.  Delimiters, gaps and what stands behind are
  arbitrary, within what the grammar allows. -/

/-- The character of the byte can stand behind a keyword, and begin or end its arguments. -/
structure IsMark (b : UInt8) : Prop where
  lt : b < byte 'A'
  not_blank : Text.isBlankGlyph (.ofAscii b) = false

/-- What comes before the letters is ASCII. -/
theorem ascii_of_lt {b : UInt8} (hb : b < byte 'A') : b < 0x80 := UInt8.lt_trans hb (by decide)

/-- Digits are such bytes. -/
theorem isMark_of_isDigit {b : UInt8} (hb : Numeral.isDigit b = true) : IsMark b := by
  rw [Numeral.isDigit, Bool.and_eq_true, decide_eq_true_eq, decide_eq_true_eq,
    UInt8.le_iff_toNat_le, UInt8.le_iff_toNat_le] at hb
  have hlow : 48 ≤ b.toNat := hb.1
  have hhigh : b.toNat < 58 := Nat.lt_succ_of_le hb.2
  refine ⟨UInt8.lt_iff_toNat_lt.mpr (Nat.lt_trans hhigh (by decide)), ?_⟩
  have hdigits : ∀ n < 58, 48 ≤ n → Text.isBlank (Char.ofNat n) = false := by decide
  exact hdigits b.toNat hhigh hlow

/-- So are delimiters. -/
theorem Delimiters.isMark {o c : UInt8} (h : Delimiters o c) : IsMark o ∧ IsMark c := by
  cases h
  all_goals exact ⟨⟨by decide, by decide⟩, ⟨by decide, by decide⟩⟩

/-- A gap comes before the letters. -/
theorem lt_of_isGap {b : UInt8} (hb : isGap b = true) : b < byte 'A' := by
  rw [isGap, Bool.or_eq_true, decide_eq_true_eq, decide_eq_true_eq] at hb
  rcases hb with rfl | rfl <;> decide

/-- A gap is white space. -/
theorem isBlankGlyph_of_isGap {b : UInt8} (hb : isGap b = true) :
    Text.isBlankGlyph (.ofAscii b) = true := by
  rw [isGap, Bool.or_eq_true, decide_eq_true_eq, decide_eq_true_eq] at hb
  rcases hb with rfl | rfl <;> rfl

/-- The letters come later. -/
theorem isLetterGlyph_of_lt {b : UInt8} (hb : b < byte 'A') :
    isLetterGlyph (.ofAscii b) = false := by
  have hlow : ∀ n < 65, Letter.isLetter (Char.ofNat n) = false := by decide
  exact hlow b.toNat (UInt8.lt_iff_toNat_lt.mp hb)

/-- A word of ASCII letters. -/
structure IsKeyword (k : Text) : Prop where
  ne_nil : k ≠ []
  ascii : ∀ a ∈ k, a < 0x80
  letter : ∀ a ∈ k, isLetterGlyph (.ofAscii a) = true

/-- `include` is such a word. -/
theorem isKeyword_include : IsKeyword (lit "include") where
  ne_nil := by decide
  ascii := List.forall_iff_forall_mem.mp (by decide)
  letter := List.forall_iff_forall_mem.mp (by decide)

/-- So is `line`. -/
theorem isKeyword_line : IsKeyword (lit "line") where
  ne_nil := by decide
  ascii := List.forall_iff_forall_mem.mp (by decide)
  letter := List.forall_iff_forall_mem.mp (by decide)

variable {k g₁ g₂ g₃ v : Text} {b o c : UInt8}

/-- A word of letters is the longest run of letters in front of any such byte. -/
theorem IsKeyword.spans (hk : IsKeyword k) (hrest : ∃ a v, rest = a :: v ∧ a < byte 'A') :
    Spans isLetterGlyph (k ++ rest) k rest := by
  obtain ⟨a, v, rfl, ha⟩ := hrest
  have hclean := Utf8.clean_of_ascii hk.ascii (a :: v)
  refine ⟨Utf8.glyphs_append_of_clean hclean, Utf8.forall_mem_glyphs_of_ascii hk.ascii hk.letter,
    fun g hg => ?_⟩
  rw [Utf8.glyphs_cons_of_ascii (ascii_of_lt ha)] at hg
  obtain rfl := Option.some.inj hg
  exact isLetterGlyph_of_lt ha

/-- A gap in front is trimmed. -/
theorem trims_of_gap (hg : ∀ a ∈ g₂, isGap a = true) (h : Trims v args) : Trims (g₂ ++ v) args := by
  have hascii : ∀ a ∈ g₂, a < 0x80 := fun a ha => ascii_of_lt (lt_of_isGap (hg a ha))
  have hblank : ∀ g ∈ glyphs g₂, Text.isBlankGlyph g = true :=
    Utf8.forall_mem_glyphs_of_ascii hascii fun a ha => isBlankGlyph_of_isGap (hg a ha)
  exact h.append_left (Utf8.clean_of_ascii hascii v) hblank

/-- A keyword between gaps, and what follows it. -/
theorem IsKeyword.parted (hk : IsKeyword k) (h₁ : ∀ a ∈ g₁, isGap a = true)
    (h₂ : ∀ a ∈ g₂, isGap a = true) (hb : b < byte 'A') (h : Trims (b :: v) args) :
    Parted (byte '#' :: (g₁ ++ (k ++ (g₂ ++ b :: v)))) k args := by
  refine .mk h₁ (fun a ha => ?_) (hk.spans ?_) (trims_of_gap h₂ h)
  · -- the keyword starts with a letter, which is no gap
    obtain ⟨a', k', rfl⟩ := List.exists_cons_of_ne_nil hk.ne_nil
    obtain rfl := Option.some.inj ha
    have hletter := hk.letter a' List.mem_cons_self
    rw [← Bool.not_eq_true]
    intro hgap
    rw [isLetterGlyph_of_lt (lt_of_isGap hgap)] at hletter
    cases hletter
  · cases g₂ with
    | nil => exact ⟨b, v, rfl, hb⟩
    | cons a g₂ => exact ⟨a, g₂ ++ b :: v, rfl, lt_of_isGap (h₂ a List.mem_cons_self)⟩

/-- Between delimiters, a name can be written that the closing one is not in. -/
theorem exists_named (hd : Delimiters o c) (hne : f ≠ []) (hf : c ∉ f) (rest : Text) :
    ∃ u, Trims (o :: (f ++ c :: rest)) u ∧ Named u f := by
  obtain ⟨ho, hc⟩ := hd.isMark
  obtain ⟨v, hv⟩ := Text.exists_trims_between (ascii_of_lt ho.lt) ho.not_blank (ascii_of_lt hc.lt)
    hc.not_blank f rest
  exact ⟨_, hv, .delimited hd hne hf⟩

/-- **`include` finds the name that is written between delimiters**, whatever follows it. -/
theorem parse_delimited_include (hd : Delimiters o c) (hne : f ≠ []) (hf : c ∉ f)
    (h₁ : ∀ a ∈ g₁, isGap a = true) (h₂ : ∀ a ∈ g₂, isGap a = true) (rest : Text) :
    parse (byte '#' :: (g₁ ++ (lit "include" ++ (g₂ ++ o :: (f ++ c :: rest))))) =
      .ok (.includeFile f) := by
  obtain ⟨u, hu, hname⟩ := exists_named hd hne hf rest
  have hparted := isKeyword_include.parted h₁ h₂ hd.isMark.1.lt hu
  exact (Reads.includeFile hparted hname).parse_eq

/-- A numeral spells a number that a line can have, up to the greatest one. -/
theorem lineNumber_ofNat {n : Nat} (hn : n ≤ 2 ^ 63 - 1) : LineNumber (Numeral.ofNat n) n := by
  have hread := Numeral.int64?_ofNat n
  rw [if_pos hn] at hread
  obtain ⟨hi, -, hhigh⟩ := Numeral.int64?_eq_some_iff.mp hread
  exact ⟨hi, Int.natCast_nonneg n, hhigh⟩

/-- A numeral ends at a gap. -/
theorem firstWord_ofNat (n : Nat) (hne : g₃ ≠ []) (h₃ : ∀ a ∈ g₃, isGap a = true) (v : Text) :
    FirstWord (Numeral.ofNat n ++ (g₃ ++ v)) (Numeral.ofNat n) (g₃ ++ v) := by
  have hmark (a : UInt8) (ha : a ∈ Numeral.ofNat n) : IsMark a :=
    isMark_of_isDigit (Numeral.isDigit_of_mem_ofNat ha)
  have hascii : ∀ a ∈ Numeral.ofNat n, a < 0x80 := fun a ha => ascii_of_lt (hmark a ha).lt
  refine ⟨⟨Utf8.glyphs_append_of_clean (Utf8.clean_of_ascii hascii _),
    Utf8.forall_mem_glyphs_of_ascii hascii fun a ha => ?_, fun g hg => ?_⟩, Numeral.ofNat_ne_nil n⟩
  -- digits are no white space, and the gap behind them is
  · rw [(hmark a ha).not_blank]
    rfl
  · obtain ⟨a, g₃, rfl⟩ := List.exists_cons_of_ne_nil hne
    have hgap := h₃ a List.mem_cons_self
    rw [List.cons_append, Utf8.glyphs_cons_of_ascii (ascii_of_lt (lt_of_isGap hgap))] at hg
    obtain rfl := Option.some.inj hg
    rw [isBlankGlyph_of_isGap hgap]
    rfl

/-- **`line` finds the number and the name that are written**, whatever follows them. -/
theorem parse_delimited_line {n : Nat} (hd : Delimiters o c) (hne : f ≠ []) (hf : c ∉ f)
    (hn : n ≤ 2 ^ 63 - 1) (h₁ : ∀ a ∈ g₁, isGap a = true) (h₂ : ∀ a ∈ g₂, isGap a = true)
    (hne₃ : g₃ ≠ []) (h₃ : ∀ a ∈ g₃, isGap a = true) (rest : Text) :
    parse (byte '#' :: (g₁ ++ (lit "line" ++ (g₂ ++ (Numeral.ofNat n ++
      (g₃ ++ o :: (f ++ c :: rest))))))) = .ok (.lineNumber n f) := by
  obtain ⟨-, hc⟩ := hd.isMark
  obtain ⟨b, ds, hds⟩ := List.exists_cons_of_ne_nil (Numeral.ofNat_ne_nil n)
  have hb : IsMark b := isMark_of_isDigit (Numeral.isDigit_of_mem_ofNat (hds ▸ List.mem_cons_self))
  -- the arguments reach from the first digit to the closing delimiter, at least
  have hshape (z : Text) : Numeral.ofNat n ++ (g₃ ++ o :: (f ++ c :: z)) =
      b :: ((ds ++ (g₃ ++ o :: f)) ++ c :: z) := by
    rw [hds, List.cons_append, List.append_assoc, List.append_assoc, List.cons_append]
  obtain ⟨z, hz⟩ := Text.exists_trims_between (ascii_of_lt hb.lt) hb.not_blank (ascii_of_lt hc.lt)
    hc.not_blank (ds ++ (g₃ ++ o :: f)) rest
  have hparted := isKeyword_line.parted h₁ h₂ hb.lt hz
  rw [← hshape, ← hshape] at hparted
  have hword := firstWord_ofNat n hne₃ h₃ (o :: (f ++ c :: z))
  obtain ⟨u, hu, hname⟩ := exists_named hd hne hf z
  exact (Reads.lineNumberAndName hparted hword (lineNumber_ofNat hn) (trims_of_gap h₃ hu)
    hname).parse_eq

/-! ## All that `parse` does

  The slices of the parser are taken at positions that it has computed.  That they lie within the
  text is told of every line, whether it is a directive or not. -/

/-- What is left of a directive line behind its keyword, trimmed. -/
def arguments (t : Text) : Text := Text.trim ((body t).drop (keyword (body t)).length)

/-- Every part of the line `t` that `parse` takes by its position is there to be taken. -/
structure InBounds (t : Text) : Prop where
  keyword : keyword (body t) <+: body t
  included : fileName (arguments t) ≠ .error .noWord
  number : ∀ w ∈ (Text.words (arguments t)).head?, w <+: arguments t
  named : ∀ w ∈ (Text.words (arguments t)).head?,
    fileName (Text.trim ((arguments t).drop w.length)) ≠ .error .noWord

/-- In a trimmed text there is always a word to be taken as a name. -/
theorem fileName_trim_ne_noWord (t : Text) : fileName (Text.trim t) ≠ .error .noWord := by
  intro h
  rcases fileName_cases (Text.trims_trim t) with ⟨f, hf⟩ | ⟨hmissing, -⟩
  · rw [hf.fileName_eq] at h
    cases h
  · rw [hmissing] at h
    cases h

/-- The first word of a trimmed text is where the text starts. -/
theorem words_trim_head (h : w ∈ (Text.words (Text.trim t)).head?) : w <+: Text.trim t := by
  by_cases hne : Text.trim t = []
  · rw [hne] at h
    cases h
  · obtain ⟨w', rest, hw⟩ := Text.exists_firstWord hne (Text.trims_trim t).head
    obtain ⟨ws, hws⟩ := hw.words_eq
    rw [hws] at h
    obtain rfl := Option.some.inj h
    exact ⟨rest, hw.append_eq.symm⟩

/-- Whatever the text is, every part that `parse` takes is there. -/
theorem inBounds (t : Text) : InBounds t where
  keyword := by
    obtain ⟨w, rest, hw⟩ := Utf8.exists_spans isLetterGlyph (body t)
    rw [Directive.keyword, hw.takeWhile_eq, Utf8.glyphs_bytes]
    exact ⟨rest, hw.append_eq.symm⟩
  included := fileName_trim_ne_noWord _
  number _ h := words_trim_head h
  named _ _ := fileName_trim_ne_noWord _

/-- **`parse` accepts the grammar of directives**: it gives the one reading of a line, reads back
    the name and the number that are written in one of the delimited styles, and never reaches out
    of bounds. -/
theorem parse_directive_iff :
    (∀ t r, parse (byte '#' :: t) = r ↔ Reads (byte '#' :: t) r) ∧
    (∀ o c f g₁ g₂ rest, Delimiters o c → f ≠ [] → c ∉ f → (∀ a ∈ g₁ ++ g₂, isGap a = true) →
      parse (byte '#' :: (g₁ ++ (lit "include" ++ (g₂ ++ o :: (f ++ c :: rest))))) =
        .ok (.includeFile f) ∧
      ∀ n ≤ 2 ^ 63 - 1, ∀ g₃ ≠ [], (∀ a ∈ g₃, isGap a = true) →
        parse (byte '#' :: (g₁ ++ (lit "line" ++ (g₂ ++ (Numeral.ofNat n ++
          (g₃ ++ o :: (f ++ c :: rest))))))) = .ok (.lineNumber n f)) ∧
    ∀ t, InBounds t := by
  refine ⟨fun t r => ⟨?_, Reads.parse_eq⟩, ?_, inBounds⟩
  · rintro rfl
    obtain ⟨r, hr⟩ := exists_reads t
    rwa [hr.parse_eq]
  · intro o c f g₁ g₂ rest hd hne hf hgap
    obtain ⟨h₁, h₂⟩ := List.forall_mem_append.mp hgap
    refine ⟨parse_delimited_include hd hne hf h₁ h₂ rest, fun n hn g₃ hne₃ h₃ => ?_⟩
    exact parse_delimited_line hd hne hf hn h₁ h₂ hne₃ h₃ rest

/-- A name with a blank in it, between angles. -/
theorem parse_directive_iff_angles :
    parse (lit "#line 70 <a b> c") = .ok (.lineNumber 70 (lit "a b")) := by
  obtain ⟨-, hwritten, -⟩ := parse_directive_iff
  have hgap : ∀ a ∈ lit " ", isGap a = true := List.forall_iff_forall_mem.mp (by decide)
  have hline := (hwritten (byte '<') (byte '>') (lit "a b") [] (lit " ") (lit " c") .angle
    (by decide) (by decide) hgap).2
  exact hline 70 (by decide) (lit " ") (by decide) hgap

end Pushdown.Directive
