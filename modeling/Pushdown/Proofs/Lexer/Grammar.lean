/-
  The longest lexeme, told from the patterns that declare the lexemes.

  `grammar` lists the patterns of the lexemes with their classes, and a line is cut by maximal
  munch: the longest beginning that belongs to a pattern is taken, and a single glyph only where
  none belongs (`Munched`).  `Scan.next` decides the same by looking at one byte after the other,
  with strings that close or double their delimiter as the hard part; `next_maximal_munch` is the
  proof that it takes exactly what the patterns say.

  Between the two stands `Word`, which tells each pattern by its bytes.  The first byte of a word
  tells its class (`Word.kind_eq`), so every branch of the scanner has one predicate to answer to,
  and `Longest` says what such an answer is worth.

  The proof goes up in three layers:

  * patterns to words (`belongs_iff_word`): a repetition of a class of bytes is a run of them, and
    only strings need an induction, on the pieces between their delimiters;
  * words to lengths: each scanning function gives the length of a longest beginning, shown along
    its own recursion by putting one byte in front (`Longest.cons`, `Longest.cons_of_nil`);
  * lengths to lexemes (`longest?_eq`, `munched_front`): the first byte selects the function, and no
    other class has a word that starts with it.

  A string is the one class in which the scanner cannot decide byte by byte.  At a delimiter that
  another one follows, the string may go on, if it closes later, or end here.  `afterDelimiter`
  tries to go on first; its answer is the longest in either case, since a string that goes on is
  longer than one that ends (`longest_afterDelimiter`).

  Whether something belongs to a pattern never depends on what stands behind it, so that the longest
  beginning is well defined on any rest of a line, cut off wherever it may be.
-/
import Mathlib.Data.List.TakeWhile
import Pushdown.Lexer.Lexeme
import Pushdown.Proofs.Text.Pattern

namespace Pushdown
namespace Lexeme

open Text (lit byte)

/-! ## The patterns

  The patterns are written as they would be in a table of lexemes, and the operators are a list of
  texts.  Nothing is said here of how a scanner finds a lexeme, nor of which pattern goes first: the
  longest match decides, and `Munched` says so. -/

namespace Grammar

open Pattern

/-- `0x` or `0X`, and hexadecimal digits. -/
def hexadecimal : Pattern :=
  only '0' * ((only 'x' + only 'X') * many (within '0' '9' + within 'a' 'f' + within 'A' 'F'))

/-- `0b` or `0B`, and binary digits. -/
def binary : Pattern := only '0' * ((only 'b' + only 'B') * many (only '0' + only '1'))

/-- `0` and octal digits. -/
def octal : Pattern := only '0' * many (within '0' '7')

/-- Decimal digits, the first of which is not `0`. -/
def decimal : Pattern := within '1' '9' * (within '0' '9').star

/-- `0` alone. -/
def zero : Pattern := only '0'

/-- What stands between the delimiters of a string: a plain byte, a doubled or a hidden delimiter,
    or a backslash with any other byte. -/
def content (delim : Char) : Pattern :=
  noneOf [byte delim, byte '\\'] + only delim * only delim + only '\\' * only delim +
    only '\\' * noneOf [byte delim]

/-- A string between two delimiters of the same kind. -/
def quoted (delim : Char) : Pattern := only delim * ((content delim).star * only delim)

/-- A letter of the basic alphabet. -/
def letter : Pattern := within 'a' 'z' + within 'A' 'Z'

/-- A letter, and letters, digits or underscores. -/
def name : Pattern := letter * (letter + within '0' '9' + only '_').star

/-- `#` and everything up to the end of the line. -/
def directive : Pattern := only '#' * (noneOf [Text.newline]).star

/-- What is skipped between lexemes. -/
def blanks : Pattern := many (only ' ' + only '\t')

/-- The operators, those of two bytes first. -/
def operators : List Text :=
  ["<<", ">>", "==", "!=", ">=", "<=", "<", ">", "=", "!", "(", ")", "+", "-", "*", "/", "%", ",",
    ":"].map lit

end Grammar

open Grammar in
/-- The patterns of the lexemes, each with its class. -/
def grammar : List (LexemeKind × Pattern) :=
  [(.number, hexadecimal), (.number, binary), (.number, octal), (.number, decimal), (.number, zero),
    (.string, quoted '\''), (.string, quoted '"')] ++
  operators.map (fun t => (.operator, Pattern.word t)) ++
  [(.name, name), (.directive, directive)]

/-- `u` belongs to one of the patterns of the class `k`. -/
def Belongs (k : LexemeKind) (u : Text) : Prop := ∃ P, (k, P) ∈ grammar ∧ u ∈ P.matches'

/-- `x` is what maximal munch takes off the front of `t`. -/
inductive Munched (t : Text) : Lexeme → Prop
  /-- The longest beginning that belongs to a pattern; it belongs to patterns of one class only. -/
  | longest {k : LexemeKind} {u : Text} (hu : u <+: t) (hk : Belongs k u)
      (hlongest : ∀ j v, v <+: t → Belongs j v → v.length ≤ u.length)
      (hclass : ∀ j, Belongs j u → j = k) : Munched t ⟨k, u⟩
  /-- The first glyph, where nothing belongs to a pattern. -/
  | glyph {c : Option Char} {u : Text} {gs : List Utf8.Glyph} (hu : Utf8.glyphs t = ⟨c, u⟩ :: gs)
      (hnone : ∀ j v, v <+: t → v ≠ [] → ¬ Belongs j v) : Munched t ⟨.glyph, u⟩

/-! ## Words, byte by byte

  The same classes again, told by bytes.  `Word` is what the scanner can be compared with, one byte
  at a time; that it is the grammar is `belongs_iff_word`. -/

/-- The rest of a string that was opened by `d`. -/
inductive Closes (d : UInt8) : Text → Prop
  | close : Closes d [d]
  | plain {b : UInt8} {u : Text} (hd : b ≠ d) (hb : b ≠ byte '\\') (hu : Closes d u) :
      Closes d (b :: u)
  | doubled {u : Text} (hu : Closes d u) : Closes d (d :: d :: u)
  | hidden {b : UInt8} {u : Text} (hu : Closes d u) : Closes d (byte '\\' :: b :: u)

/-- The lexemes of a class. -/
inductive Word : LexemeKind → Text → Prop
  | hexadecimal {b : UInt8} {u : Text} (hb : b = byte 'x' ∨ b = byte 'X') (hne : u ≠ [])
      (hu : ∀ c ∈ u, isHex c = true) : Word .number (byte '0' :: b :: u)
  | binary {b : UInt8} {u : Text} (hb : b = byte 'b' ∨ b = byte 'B') (hne : u ≠ [])
      (hu : ∀ c ∈ u, isBinary c = true) : Word .number (byte '0' :: b :: u)
  | octal {u : Text} (hne : u ≠ []) (hu : ∀ c ∈ u, isOctal c = true) : Word .number (byte '0' :: u)
  | decimal {b : UInt8} {u : Text} (hb : isDecimal b = true) (hzero : b ≠ byte '0')
      (hu : ∀ c ∈ u, isDecimal c = true) : Word .number (b :: u)
  | zero : Word .number [byte '0']
  | string {d : UInt8} {u : Text} (hd : d = byte '\'' ∨ d = byte '"') (hu : Closes d u) :
      Word .string (d :: u)
  | operator {u : Text} (hu : u ∈ Grammar.operators) : Word .operator u
  | name {b : UInt8} {u : Text} (hb : isLetter b = true) (hu : ∀ c ∈ u, isNamePart c = true) :
      Word .name (b :: u)
  | directive {u : Text} (hu : ∀ c ∈ u, c ≠ Text.newline) : Word .directive (byte '#' :: u)

/-! ### The patterns match the words -/

namespace Grammar

open Pattern

variable {u : Text}

/-- The class of hexadecimal digits. -/
theorem bytes_hex : (within '0' '9' + within 'a' 'f' + within 'A' 'F').Bytes isHex :=
  ((bytes_within '0' '9').add (bytes_within 'a' 'f')).add (bytes_within 'A' 'F')

/-- The class of binary digits. -/
theorem bytes_binary : (only '0' + only '1').Bytes isBinary :=
  (bytes_only '0').add (bytes_only '1')

/-- The class of letters. -/
theorem bytes_letter : letter.Bytes isLetter := (bytes_within 'a' 'z').add (bytes_within 'A' 'Z')

/-- The class of what a name may go on with. -/
theorem bytes_namePart : (letter + within '0' '9' + only '_').Bytes isNamePart :=
  (bytes_letter.add (bytes_within '0' '9')).add (bytes_only '_')

/-- The class of blanks and tabs. -/
theorem bytes_gap : (only ' ' + only '\t').Bytes isGap := (bytes_only ' ').add (bytes_only '\t')

/-- What is skipped is a run of blanks and tabs, and not empty. -/
theorem mem_blanks_iff : u ∈ blanks.matches' ↔ u ≠ [] ∧ ∀ b ∈ u, isGap b = true :=
  bytes_gap.mem_many_iff

/-- A prefixed number: `0`, the letter of the base, and digits. -/
theorem mem_prefixed_iff {lower upper : Char} {P : Pattern} {p : UInt8 → Bool} (hP : P.Bytes p) :
    u ∈ (only '0' * ((only lower + only upper) * many P)).matches' ↔
      ∃ b v, (b = byte lower ∨ b = byte upper) ∧ v ≠ [] ∧ (∀ c ∈ v, p c = true) ∧
        u = byte '0' :: b :: v := by
  rw [only, mem_char_mul_iff]
  simp only [((bytes_only lower).add (bytes_only upper)).mem_mul_iff, hP.mem_many_iff]
  constructor
  · rintro ⟨-, ⟨b, v, hb, ⟨hne, hv⟩, rfl⟩, rfl⟩
    exact ⟨b, v, by simpa using hb, hne, hv, rfl⟩
  · rintro ⟨b, v, hb, hne, hv, rfl⟩
    exact ⟨b :: v, ⟨b, v, by simpa using hb, ⟨hne, hv⟩, rfl⟩, rfl⟩

/-- An octal number: `0` and at least one digit. -/
theorem mem_octal_iff :
    u ∈ octal.matches' ↔ ∃ v, v ≠ [] ∧ (∀ c ∈ v, isOctal c = true) ∧ u = byte '0' :: v := by
  rw [octal, only, mem_char_mul_iff]
  simp only [(bytes_within '0' '7').mem_many_iff, and_assoc]
  exact Iff.rfl

/-- A decimal number: a digit other than `0`, and digits. -/
theorem mem_decimal_iff : u ∈ decimal.matches' ↔ ∃ b v, (isDecimal b = true ∧ b ≠ byte '0') ∧
    (∀ c ∈ v, isDecimal c = true) ∧ u = b :: v := by
  have hfirst (b : UInt8) : (byte '1' ≤ b && b ≤ byte '9') = true ↔
      isDecimal b = true ∧ b ≠ byte '0' := by
    simp only [isDecimal, byte, Bool.and_eq_true]
    grind
  rw [decimal, (bytes_within '1' '9').mem_mul_iff]
  simp only [(bytes_within '0' '9').mem_star_iff, hfirst]
  exact Iff.rfl

/-- A name: a letter, and what a name may go on with. -/
theorem mem_name_iff : u ∈ name.matches' ↔ ∃ b v, isLetter b = true ∧
    (∀ c ∈ v, isNamePart c = true) ∧ u = b :: v := by
  rw [name, bytes_letter.mem_mul_iff]
  simp only [bytes_namePart.mem_star_iff]

/-- A directive: `#`, and bytes other than newlines. -/
theorem mem_directive_iff :
    u ∈ directive.matches' ↔ ∃ v, (∀ c ∈ v, c ≠ Text.newline) ∧ u = byte '#' :: v := by
  rw [directive, only, mem_char_mul_iff]
  simp only [(bytes_noneOf [Text.newline]).mem_star_iff, List.mem_singleton, decide_eq_true_eq]

/-- One piece between delimiters, told by its bytes. -/
theorem mem_content_iff {delim : Char} : u ∈ (content delim).matches' ↔
    (∃ b, b ≠ byte delim ∧ b ≠ byte '\\' ∧ u = [b]) ∨ u = [byte delim, byte delim] ∨
      ∃ b, u = [byte '\\', b] := by
  have hplain : u ∈ (noneOf [byte delim, byte '\\']).matches' ↔
      ∃ b, b ≠ byte delim ∧ b ≠ byte '\\' ∧ u = [b] := by
    rw [bytes_noneOf]
    simp [and_assoc]
  have hpair (c : Char) : u ∈ (only c * only delim).matches' ↔ u = [byte c, byte delim] := by
    rw [only, only, mem_char_mul_iff]
    exact ⟨fun ⟨v, hv, hu⟩ => hu.trans (congrArg _ hv), fun hu => ⟨[byte delim], rfl, hu⟩⟩
  have hother : u ∈ (only '\\' * noneOf [byte delim]).matches' ↔
      ∃ b, b ≠ byte delim ∧ u = [byte '\\', b] := by
    rw [only, mem_char_mul_iff]
    simp only [bytes_noneOf [byte delim] _]
    constructor
    · rintro ⟨-, ⟨b, hb, rfl⟩, hu⟩
      exact ⟨b, by simpa using hb, hu⟩
    · rintro ⟨b, hb, hu⟩
      exact ⟨[b], ⟨b, by simpa using hb, rfl⟩, hu⟩
  rw [content, mem_add_iff, mem_add_iff, mem_add_iff, hplain, hpair, hpair, hother, or_assoc,
    or_assoc]
  -- a backslash with the delimiter and one with another byte are a backslash with any byte
  refine or_congr_right (or_congr_right ?_)
  constructor
  · rintro (hu | ⟨b, -, hu⟩)
    · exact ⟨_, hu⟩
    · exact ⟨b, hu⟩
  · rintro ⟨b, hu⟩
    by_cases hb : b = byte delim
    · exact Or.inl (hb ▸ hu)
    · exact Or.inr ⟨b, hb, hu⟩

/-- A string: its delimiter, and what closes it. -/
theorem mem_quoted_iff {delim : Char} :
    u ∈ (quoted delim).matches' ↔ ∃ v, Closes (byte delim) v ∧ u = byte delim :: v := by
  suffices h : ∀ v, v ∈ ((content delim).star * only delim).matches' ↔ Closes (byte delim) v by
    rw [quoted, only, mem_char_mul_iff]
    exact exists_congr fun v => and_congr_left' (h v)
  intro v
  constructor
  · intro hv
    obtain ⟨w, hw, -, rfl, rfl⟩ := mem_mul_iff.mp hv
    obtain ⟨pieces, rfl, hpieces⟩ := Language.mem_kstar.mp hw
    clear hw hv
    -- on the pieces between the delimiters
    induction pieces with
    | nil => exact .close
    | cons piece pieces ih =>
      obtain ⟨hpiece, hpieces⟩ := List.forall_mem_cons.mp hpieces
      have htail := ih hpieces
      rcases mem_content_iff.mp hpiece with ⟨b, hd, hb, rfl⟩ | rfl | ⟨b, rfl⟩
      · exact .plain hd hb htail
      · exact .doubled htail
      · exact .hidden htail
  · -- each piece in front of a string that closes is one more round of the repetition
    have hmore {w x : Text} (hw : w ∈ (content delim).matches') (hne : w ≠ [])
        (hx : x ∈ ((content delim).star * only delim).matches') :
        w ++ x ∈ ((content delim).star * only delim).matches' := by
      obtain ⟨y, hy, z, hz, rfl⟩ := mem_mul_iff.mp hx
      refine mem_mul_iff.mpr ⟨w ++ y, ?_, z, hz, List.append_assoc w y z⟩
      exact mem_star_iff.mpr (Or.inr ⟨w, hw, y, hy, hne, rfl⟩)
    intro hv
    induction hv with
    | close => exact mem_mul_iff.mpr ⟨[], mem_star_iff.mpr (Or.inl rfl), _, rfl, rfl⟩
    | @plain b u hd hb _ ih =>
      exact hmore (mem_content_iff.mpr (Or.inl ⟨b, hd, hb, rfl⟩)) (List.cons_ne_nil b []) ih
    | @doubled u _ ih =>
      exact hmore (mem_content_iff.mpr (Or.inr (Or.inl rfl))) (List.cons_ne_nil _ _) ih
    | @hidden b u _ ih =>
      exact hmore (mem_content_iff.mpr (Or.inr (Or.inr ⟨b, rfl⟩))) (List.cons_ne_nil _ _) ih

end Grammar

open Grammar in
/-- The patterns match the words, class by class. -/
theorem belongs_iff_word {k : LexemeKind} {u : Text} : Belongs k u ↔ Word k u := by
  constructor
  · rintro ⟨P, hP, hu⟩
    rcases List.mem_append.mp hP with hP | hP
    · rcases List.mem_append.mp hP with hP | hP
      · simp only [List.mem_cons, Prod.mk.injEq, List.not_mem_nil, or_false] at hP
        rcases hP with ⟨rfl, rfl⟩ | ⟨rfl, rfl⟩ | ⟨rfl, rfl⟩ | ⟨rfl, rfl⟩ | ⟨rfl, rfl⟩ | ⟨rfl, rfl⟩ |
          ⟨rfl, rfl⟩
        · obtain ⟨b, v, hb, hne, hv, rfl⟩ := (mem_prefixed_iff bytes_hex).mp hu
          exact .hexadecimal hb hne hv
        · obtain ⟨b, v, hb, hne, hv, rfl⟩ := (mem_prefixed_iff bytes_binary).mp hu
          exact .binary hb hne hv
        · obtain ⟨v, hne, hv, rfl⟩ := mem_octal_iff.mp hu
          exact .octal hne hv
        · obtain ⟨b, v, ⟨hb, hzero⟩, hv, rfl⟩ := mem_decimal_iff.mp hu
          exact .decimal hb hzero hv
        · obtain rfl : u = [byte '0'] := hu
          exact .zero
        · obtain ⟨v, hv, rfl⟩ := mem_quoted_iff.mp hu
          exact .string (Or.inl rfl) hv
        · obtain ⟨v, hv, rfl⟩ := mem_quoted_iff.mp hu
          exact .string (Or.inr rfl) hv
      · obtain ⟨t, ht, hP⟩ := List.mem_map.mp hP
        obtain ⟨rfl, rfl⟩ := Prod.mk.inj hP
        rw [Pattern.mem_word_iff.mp hu]
        exact .operator ht
    · simp only [List.mem_cons, Prod.mk.injEq, List.not_mem_nil, or_false] at hP
      rcases hP with ⟨rfl, rfl⟩ | ⟨rfl, rfl⟩
      · obtain ⟨b, v, hb, hv, rfl⟩ := mem_name_iff.mp hu
        exact .name hb hv
      · obtain ⟨v, hv, rfl⟩ := mem_directive_iff.mp hu
        exact .directive hv
  · intro hu
    cases hu with
    | @hexadecimal b v hb hne hv =>
      have hu := (mem_prefixed_iff bytes_hex).mpr ⟨b, v, hb, hne, hv, rfl⟩
      exact ⟨hexadecimal, by simp [grammar], hu⟩
    | @binary b v hb hne hv =>
      have hu := (mem_prefixed_iff bytes_binary).mpr ⟨b, v, hb, hne, hv, rfl⟩
      exact ⟨binary, by simp [grammar], hu⟩
    | @octal v hne hv => exact ⟨octal, by simp [grammar], mem_octal_iff.mpr ⟨v, hne, hv, rfl⟩⟩
    | @decimal b v hb hzero hv =>
      exact ⟨decimal, by simp [grammar], mem_decimal_iff.mpr ⟨b, v, ⟨hb, hzero⟩, hv, rfl⟩⟩
    | zero => exact ⟨zero, by simp [grammar], rfl⟩
    | @string d v hd hv =>
      rcases hd with rfl | rfl
      · exact ⟨quoted '\'', by simp [grammar], mem_quoted_iff.mpr ⟨v, hv, rfl⟩⟩
      · exact ⟨quoted '"', by simp [grammar], mem_quoted_iff.mpr ⟨v, hv, rfl⟩⟩
    | operator hu =>
      have hmem : (.operator, Pattern.word u) ∈ operators.map (fun t => (LexemeKind.operator,
          Pattern.word t)) := List.mem_map_of_mem hu
      refine ⟨Pattern.word u, ?_, Pattern.mem_word_iff.mpr rfl⟩
      exact List.mem_append_left _ (List.mem_append_right _ hmem)
    | @name b v hb hv => exact ⟨name, by simp [grammar], mem_name_iff.mpr ⟨b, v, hb, hv, rfl⟩⟩
    | @directive v hv => exact ⟨directive, by simp [grammar], mem_directive_iff.mpr ⟨v, hv, rfl⟩⟩

/-! ## The first byte tells the class

  Patterns of different classes begin with different bytes.  So the branch that a scanner takes at
  the first byte never has to be reconsidered. -/

/-- The class of the words that start with a byte. -/
def kindOf (b : UInt8) : LexemeKind :=
  if isDecimal b then .number
  else if b = byte '\'' ∨ b = byte '"' then .string
  else if isLetter b then .name
  else if b = byte '#' then .directive
  else .operator

/-- A letter is no digit. -/
theorem not_isDecimal_of_isLetter {b : UInt8} (h : isLetter b = true) : isDecimal b = false := by
  simp only [isLetter, isDecimal, byte, Bool.or_eq_true, Bool.and_eq_true] at h ⊢
  grind

/-- A letter starts a name, since it starts nothing that is asked for before. -/
theorem kindOf_of_isLetter {b : UInt8} (h : isLetter b = true) : kindOf b = .name := by
  have hquote : ¬ (b = byte '\'' ∨ b = byte '"') := by
    rintro (rfl | rfl) <;> exact absurd h (by decide)
  rw [kindOf, not_isDecimal_of_isLetter h, if_neg Bool.false_ne_true, if_neg hquote, if_pos h]

/-- No word is empty. -/
theorem Word.ne_nil {k : LexemeKind} {u : Text} (h : Word k u) : u ≠ [] := by
  cases h with
  | operator hu =>
    rintro rfl
    exact absurd hu (by decide)
  | _ => exact List.cons_ne_nil _ _

/-- A word is of the class that its first byte tells. -/
theorem Word.kind_eq {k : LexemeKind} {b : UInt8} {u : Text} (h : Word k (b :: u)) :
    k = kindOf b := by
  cases h with
  | hexadecimal | binary | octal | zero => decide
  | decimal hb => rw [kindOf, if_pos hb]
  | string hd =>
    rcases hd with rfl | rfl
    · decide
    · decide
  | operator hu =>
    have hfirst : ∀ t ∈ Grammar.operators, t.head?.map kindOf = some .operator := by decide
    exact (Option.some.inj (hfirst _ hu)).symm
  | name hb => exact (kindOf_of_isLetter hb).symm
  | directive => decide

/-! ## Longest beginnings

  `Longest p t o` says that `o` is the length of the longest beginning of `t` with the property `p`,
  or that there is none.  A scanning function is shown to compute it by putting one byte in front,
  with the property of what follows it. -/

/-- `Longest p t o`: the longest beginning of `t` in the class `p` has the length `o`; there is none
    if `o` is nothing. -/
def Longest (p : Text → Prop) (t : Text) : Option Nat → Prop
  | some n => n ≤ t.length ∧ p (t.take n) ∧ ∀ u, u <+: t → p u → u.length ≤ n
  | none => ∀ u, u <+: t → ¬ p u

namespace Longest

variable {p q : Text → Prop} {b : UInt8} {t : Text} {o : Option Nat}

/-- Only the beginnings of the text count. -/
theorem congr (h : Longest p t o) (hpq : ∀ u, u <+: t → (q u ↔ p u)) : Longest q t o := by
  cases o with
  | none => exact fun u hu hq => h u hu ((hpq u hu).mp hq)
  | some n =>
    obtain ⟨hn, hp, hmax⟩ := h
    exact ⟨hn, (hpq _ (List.take_prefix n t)).mpr hp, fun u hu hq => hmax u hu ((hpq u hu).mp hq)⟩

/-- A byte in front of a class. -/
theorem cons (h : Longest p t o) (hq : ∀ u, q (b :: u) ↔ p u) (hnil : ¬ q []) :
    Longest q (b :: t) (o.map (· + 1)) := by
  cases o with
  | none =>
    intro u hu hqu
    cases u with
    | nil => exact hnil hqu
    | cons c u =>
      obtain ⟨rfl, htail⟩ := List.cons_prefix_cons.mp hu
      exact h u htail ((hq u).mp hqu)
  | some n =>
    obtain ⟨hn, hp, hmax⟩ := h
    refine ⟨Nat.succ_le_succ hn, (hq _).mpr hp, fun u hu hqu => ?_⟩
    cases u with
    | nil => exact absurd hqu hnil
    | cons c u =>
      obtain ⟨rfl, htail⟩ := List.cons_prefix_cons.mp hu
      exact Nat.succ_le_succ (hmax u htail ((hq u).mp hqu))

/-- A byte in front of a class, where the empty beginning is good enough. -/
theorem cons_of_nil (h : Longest p t o) (hq : ∀ u, q (b :: u) ↔ p u) (hnil : q []) :
    Longest q (b :: t) (some (o.elim 0 (· + 1))) := by
  cases o with
  | none =>
    refine ⟨Nat.zero_le _, hnil, fun u hu hqu => ?_⟩
    cases u with
    | nil => exact Nat.le_refl 0
    | cons c u =>
      obtain ⟨rfl, htail⟩ := List.cons_prefix_cons.mp hu
      exact absurd ((hq u).mp hqu) (h u htail)
  | some n =>
    obtain ⟨hn, hp, hmax⟩ := h
    refine ⟨Nat.succ_le_succ hn, (hq _).mpr hp, fun u hu hqu => ?_⟩
    cases u with
    | nil => exact Nat.zero_le _
    | cons c u =>
      obtain ⟨rfl, htail⟩ := List.cons_prefix_cons.mp hu
      exact Nat.succ_le_succ (hmax u htail ((hq u).mp hqu))

/-- The beginnings of the empty text. -/
theorem nil (hp : p []) : Longest p [] (some 0) :=
  ⟨Nat.le_refl 0, hp, fun u hu _ => by rw [List.prefix_nil.mp hu]; exact Nat.le_refl 0⟩

/-- The empty text has nothing of a class that the empty beginning is not in. -/
theorem nil_none (hp : ¬ p []) : Longest p [] none := by
  intro u hu
  rwa [List.prefix_nil.mp hu]

/-- Nothing is in the empty class. -/
theorem none_of_false (t : Text) : Longest (fun _ => False) t none := fun _ _ h => h

end Longest

/-! ### Runs of digits -/

/-- A run is longer by one byte if the byte in front is of the class. -/
theorem run_cons (p : UInt8 → Bool) (b : UInt8) (t : Text) :
    run p (b :: t) = if p b then run p t + 1 else 0 := by
  unfold run
  rw [List.takeWhile_cons]
  split
  · rw [List.length_cons]
  · rfl

/-- A run is the longest beginning of bytes of its class, be it empty. -/
theorem longest_run (p : UInt8 → Bool) (t : Text) :
    Longest (fun u => ∀ b ∈ u, p b = true) t (some (run p t)) := by
  induction t with
  | nil => exact .nil (List.forall_mem_nil _)
  | cons b t ih =>
    rw [run_cons]
    by_cases hb : p b = true
    · rw [if_pos hb]
      exact ih.cons_of_nil (fun u => by simp [hb]) (List.forall_mem_nil _)
    · rw [if_neg hb]
      exact (Longest.none_of_false t).cons_of_nil (fun u => by simp [hb]) (List.forall_mem_nil _)

/-- So it is if it must not be empty. -/
theorem longest_many (p : UInt8 → Bool) (t : Text) :
    Longest (fun u => u ≠ [] ∧ ∀ b ∈ u, p b = true) t
      (if run p t = 0 then none else some (run p t)) := by
  obtain ⟨hle, hall, hmax⟩ := longest_run p t
  split
  · rename_i hzero
    rintro u hu ⟨hne, hu'⟩
    have := hmax u hu hu'
    exact hne (List.length_eq_zero_iff.mp (by omega))
  · rename_i hpos
    refine ⟨hle, ⟨fun hnil => ?_, hall⟩, fun u hu h => hmax u hu h.2⟩
    have := congrArg List.length hnil
    rw [List.length_take, List.length_nil] at this
    omega

/-- After the letter of a base, the digits count together with the letter, or not at all. -/
theorem prefixed_eq (p : UInt8 → Bool) (t : Text) :
    prefixed p t = (if run p t = 0 then none else some (run p t)).elim 0 (· + 1) := by
  unfold prefixed
  split
  · rfl
  · exact Nat.add_comm 1 _

/-! ### Numbers -/

/-- What may follow a `0`: octal digits, or the letter of a base with digits. -/
theorem word_zero_cons {b : UInt8} {u : Text} : Word .number (byte '0' :: b :: u) ↔
    (∀ c ∈ b :: u, isOctal c = true) ∨
      ((b = byte 'x' ∨ b = byte 'X') ∧ u ≠ [] ∧ ∀ c ∈ u, isHex c = true) ∨
      ((b = byte 'b' ∨ b = byte 'B') ∧ u ≠ [] ∧ ∀ c ∈ u, isBinary c = true) := by
  constructor
  · intro h
    cases h with
    | hexadecimal hb hne hu => exact Or.inr (Or.inl ⟨hb, hne, hu⟩)
    | binary hb hne hu => exact Or.inr (Or.inr ⟨hb, hne, hu⟩)
    | octal hne hu => exact Or.inl hu
    | decimal _ hzero => exact absurd rfl hzero
  · rintro (hu | ⟨hb, hne, hu⟩ | ⟨hb, hne, hu⟩)
    · exact .octal (List.cons_ne_nil b u) hu
    · exact .hexadecimal hb hne hu
    · exact .binary hb hne hu

/-- A `0` may stand alone, be followed by octal digits, or by the letter of a base with digits. -/
theorem longest_afterZero (t : Text) :
    Longest (fun u => Word .number (byte '0' :: u)) t (some (afterZero t)) := by
  cases t with
  | nil => exact .nil .zero
  | cons b t =>
    rw [afterZero]
    split
    · rename_i hb
      rw [prefixed_eq]
      refine (longest_many isHex t).cons_of_nil (fun u => ?_) .zero
      -- the letter `x` is no octal digit and not the letter of another base
      have hoctal : isOctal b = false := by rcases hb with rfl | rfl <;> decide
      have hother : ¬ (b = byte 'b' ∨ b = byte 'B') := by rcases hb with rfl | rfl <;> decide
      simp [word_zero_cons, hoctal, hb, hother]
    · rename_i hx
      split
      · rename_i hb
        rw [prefixed_eq]
        refine (longest_many isBinary t).cons_of_nil (fun u => ?_) .zero
        have hoctal : isOctal b = false := by rcases hb with rfl | rfl <;> decide
        simp [word_zero_cons, hoctal, hb, hx]
      · rename_i hb
        refine (longest_run isOctal (b :: t)).congr fun u hu => ?_
        cases u with
        | nil => exact iff_of_true .zero (List.forall_mem_nil _)
        | cons c u =>
          obtain ⟨rfl, -⟩ := List.cons_prefix_cons.mp hu
          simp [word_zero_cons, hb, hx]

/-! ### Strings -/

section Strings

variable {d b : UInt8} {u : Text}

/-- Nothing does not close a string. -/
theorem not_closes_nil : ¬ Closes d [] := nofun

/-- At its delimiter, a string ends, or the delimiter is doubled and it goes on. -/
theorem closes_delim_iff (hd : d ≠ byte '\\') :
    Closes d (d :: u) ↔ u = [] ∨ ∃ v, Closes d v ∧ u = d :: v := by
  constructor
  · intro h
    cases h with
    | close => exact Or.inl rfl
    | plain hne => exact absurd rfl hne
    | doubled hu => exact Or.inr ⟨_, hu, rfl⟩
    | hidden => exact absurd rfl hd
  · rintro (rfl | ⟨v, hv, rfl⟩)
    · exact .close
    · exact .doubled hv

/-- A plain byte is part of the string. -/
theorem closes_plain_iff (hd : b ≠ d) (hb : b ≠ byte '\\') : Closes d (b :: u) ↔ Closes d u := by
  constructor
  · intro h
    cases h with
    | close => exact absurd rfl hd
    | plain _ _ hu => exact hu
    | doubled => exact absurd rfl hd
    | hidden => exact absurd rfl hb
  · exact .plain hd hb

/-- A backslash hides the byte behind it, whatever it is. -/
theorem closes_hidden_iff (hd : d ≠ byte '\\') :
    Closes d (byte '\\' :: u) ↔ ∃ b v, Closes d v ∧ u = b :: v := by
  constructor
  · intro h
    cases h with
    | close => exact absurd rfl hd
    | plain _ hb => exact absurd rfl hb
    | doubled => exact absurd rfl hd
    | hidden hu => exact ⟨_, _, hu, rfl⟩
  · rintro ⟨b, v, hv, rfl⟩
    exact .hidden hv

/-- A string ends at the last delimiter that can close it. -/
theorem longest_afterDelimiter (hd : d ≠ byte '\\') (t : Text) :
    Longest (Closes d) t (afterDelimiter d t) := by
  -- behind a delimiter the string is over or the delimiter was the first of two
  have hdelim {u : Text} {n : Nat}
      (h : Longest (fun u => u = [] ∨ ∃ v, Closes d v ∧ u = d :: v) u (some n)) :
      Longest (Closes d) (d :: u) (some (n + 1)) :=
    h.cons (fun _ => closes_delim_iff hd) not_closes_nil
  fun_induction afterDelimiter d t with
  | case1 => exact .nil_none not_closes_nil
  | case2 =>
    have hnil : Longest (fun u => ∃ b v, Closes d v ∧ u = b :: v) [] none := .nil_none (by simp)
    exact hnil.cons (fun _ => closes_hidden_iff hd) not_closes_nil
  | case3 b u ih =>
    have hbyte : Longest (fun u => ∃ b v, Closes d v ∧ u = b :: v) (b :: u) _ :=
      ih.cons (fun v => by simp) (by simp)
    have hboth := hbyte.cons (fun _ => closes_hidden_iff hd) not_closes_nil
    rwa [Option.map_map] at hboth
  | case4 => exact hdelim (.nil (Or.inl rfl))
  -- doubled, and the string closes later: that is longer than ending here
  | case5 u n hn _ ih =>
    rw [hn] at ih
    exact hdelim (ih.cons_of_nil (fun v => by simp) (Or.inl rfl))
  -- doubled, but the string closes nowhere later: it ends at the first of the two
  | case6 u hn _ ih =>
    rw [hn] at ih
    exact hdelim (ih.cons_of_nil (fun v => by simp) (Or.inl rfl))
  | case7 c u hc =>
    exact hdelim ((Longest.none_of_false u).cons_of_nil (fun v => by simp [hc]) (Or.inl rfl))
  | case8 b t hb hbd ih => exact ih.cons (fun _ => closes_plain_iff hbd hb) not_closes_nil

end Strings

/-! ### Operators -/

/-- Operators have one byte or two. -/
theorem longest_operator {b : UInt8} {t : Text} :
    Longest (fun u => u ∈ Grammar.operators) (b :: t)
      (if (b :: t).take 2 ∈ operatorPairs then some 2
        else if b ∈ operatorBytes then some 1 else none) := by
  have hshort : ∀ u ∈ Grammar.operators,
      (∃ c ∈ operatorBytes, u = [c]) ∨ (u ∈ operatorPairs ∧ u.length = 2) := by decide +kernel
  have hpairs : ∀ u ∈ operatorPairs, u ∈ Grammar.operators ∧ u.length = 2 := by decide +kernel
  have hbytes : ∀ c ∈ operatorBytes, [c] ∈ Grammar.operators := by decide +kernel
  -- an operator of two bytes is what the first two bytes are
  have htwo {u : Text} (hu : u <+: b :: t) (hlen : u.length = 2) : u = (b :: t).take 2 := by
    rw [← hlen]
    exact List.prefix_iff_eq_take.mp hu
  split
  · rename_i hpair
    obtain ⟨hmem, hlen⟩ := hpairs _ hpair
    refine ⟨?_, hmem, fun u _ hu => ?_⟩
    · rw [List.length_take] at hlen
      omega
    · rcases hshort u hu with ⟨c, -, rfl⟩ | ⟨-, hlen⟩
      · exact Nat.le_succ 1
      · exact hlen.le
  · rename_i hpair
    split
    · rename_i hb
      refine ⟨Nat.succ_le_succ (Nat.zero_le _), hbytes b hb, fun u hu hmem => ?_⟩
      rcases hshort u hmem with ⟨c, -, rfl⟩ | ⟨hu', hlen⟩
      · exact Nat.le_refl 1
      · exact absurd (htwo hu hlen ▸ hu') hpair
    · rename_i hb
      intro u hu hmem
      rcases hshort u hmem with ⟨c, hc, rfl⟩ | ⟨hu', hlen⟩
      · obtain ⟨rfl, -⟩ := List.cons_prefix_cons.mp hu
        exact hb hc
      · exact hpair (htwo hu hlen ▸ hu')

/-! ## The longest word

  Each class contributes its scanning function, and the first byte says which.  Where no class has a
  word, a single glyph is taken. -/

section Words

variable {b : UInt8} {u : Text}

/-- After a digit other than `0`: digits. -/
theorem word_decimal_cons (hb : isDecimal b = true) (hzero : b ≠ byte '0') :
    Word .number (b :: u) ↔ ∀ c ∈ u, isDecimal c = true := by
  constructor
  · intro h
    cases h with
    | decimal _ _ hu => exact hu
    | hexadecimal | binary | octal | zero => exact absurd rfl hzero
  · exact .decimal hb hzero

/-- After a delimiter: what closes the string. -/
theorem word_string_cons (hb : b = byte '\'' ∨ b = byte '"') :
    Word .string (b :: u) ↔ Closes b u := by
  constructor
  · intro h
    cases h with
    | string _ hu => exact hu
  · exact .string hb

/-- After a letter: what a name may go on with. -/
theorem word_name_cons (hb : isLetter b = true) :
    Word .name (b :: u) ↔ ∀ c ∈ u, isNamePart c = true := by
  constructor
  · intro h
    cases h with
    | name _ hu => exact hu
  · exact .name hb

/-- After `#`: bytes other than newlines. -/
theorem word_directive_cons :
    Word .directive (byte '#' :: u) ↔ ∀ c ∈ u, (decide (c ≠ Text.newline)) = true := by
  simp only [decide_eq_true_eq]
  constructor
  · intro h
    cases h with
    | directive hu => exact hu
  · exact .directive

/-- An operator is one of the list. -/
theorem word_operator_iff : Word .operator u ↔ u ∈ Grammar.operators := by
  constructor
  · intro h
    cases h with
    | operator hu => exact hu
  · exact .operator

end Words

/-- The scanner takes the longest word; the first byte has told its class. -/
theorem longest?_eq (b : UInt8) (t : Text) : ∃ o,
    longest? (b :: t) = o.map (kindOf b, ·) ∧ Longest (Word (kindOf b)) (b :: t) o := by
  have hnil (k : LexemeKind) : ¬ Word k [] := fun h => h.ne_nil rfl
  rw [longest?]
  split
  · rename_i hb
    subst hb
    refine ⟨some (afterZero t + 1), ?_, (longest_afterZero t).cons (fun _ => Iff.rfl) (hnil _)⟩
    rw [Nat.add_comm]
    rfl
  · rename_i hzero
    split
    · rename_i hb
      have hk : kindOf b = .number := if_pos hb
      rw [hk, Nat.add_comm]
      exact ⟨_, rfl, (longest_run isDecimal t).cons (fun _ => word_decimal_cons hb hzero) (hnil _)⟩
    · rename_i hdigit
      split
      · rename_i hb
        have hk : kindOf b = .string := by rw [kindOf, if_neg hdigit, if_pos hb]
        have hd : b ≠ byte '\\' := by rcases hb with rfl | rfl <;> decide
        rw [hk]
        refine ⟨_, ?_, (longest_afterDelimiter hd t).cons (fun _ => word_string_cons hb) (hnil _)⟩
        rw [Option.map_map]
        refine congrArg (Option.map · _) (funext fun n => ?_)
        rw [Nat.add_comm]
        rfl
      · rename_i hquote
        split
        · rename_i hb
          rw [kindOf_of_isLetter hb, Nat.add_comm]
          exact ⟨_, rfl, (longest_run isNamePart t).cons (fun _ => word_name_cons hb) (hnil _)⟩
        · rename_i hletter
          split
          · rename_i hb
            subst hb
            rw [Nat.add_comm]
            exact ⟨_, rfl, (longest_run _ t).cons (fun _ => word_directive_cons) (hnil _)⟩
          · rename_i hhash
            have hk : kindOf b = .operator := by
              rw [kindOf, if_neg hdigit, if_neg hquote, if_neg hletter, if_neg hhash]
            rw [hk]
            refine ⟨_, ?_, longest_operator.congr fun u _ => word_operator_iff⟩
            split
            · rfl
            · split <;> rfl

/-- **Maximal munch** at the front of a text. -/
theorem munched_front {t : Text} (ht : t ≠ []) : Munched t (front t) := by
  obtain ⟨b, t, rfl⟩ := List.exists_cons_of_ne_nil ht
  obtain ⟨o, heq, hlongest⟩ := longest?_eq b t
  -- what begins like the text is a word of the class that the first byte tells
  have hkind {j : LexemeKind} {v : Text} (hv : v <+: b :: t) (hw : Word j v) : j = kindOf b := by
    obtain ⟨c, v, rfl⟩ := List.exists_cons_of_ne_nil hw.ne_nil
    obtain ⟨rfl, -⟩ := List.cons_prefix_cons.mp hv
    exact hw.kind_eq
  cases o with
  | some n =>
    obtain ⟨hn, hword, hmax⟩ := hlongest
    have hfront : front (b :: t) = ⟨kindOf b, (b :: t).take n⟩ := by
      rw [front, heq]
      rfl
    rw [hfront]
    refine .longest (List.take_prefix n _) (belongs_iff_word.mpr hword) (fun j v hv hj => ?_)
      (fun j hj => hkind (List.take_prefix n _) (belongs_iff_word.mp hj))
    rw [List.length_take_of_le hn]
    have hj := belongs_iff_word.mp hj
    exact hmax v hv (hkind hv hj ▸ hj)
  | none =>
    have hfront : front (b :: t) = ⟨.glyph, (Utf8.headGlyph (b :: t)).bytes⟩ := by
      rw [front, heq]
      rfl
    rw [hfront]
    refine .glyph (c := Utf8.headChar? (b :: t)) rfl fun j v hv _ hj => ?_
    have hj := belongs_iff_word.mp hj
    exact hlongest v hv (hkind hv hj ▸ hj)

/-- No lexeme is empty. -/
theorem Belongs.ne_nil {k : LexemeKind} {u : Text} (h : Belongs k u) : u ≠ [] :=
  (belongs_iff_word.mp h).ne_nil

/-- Only a single glyph is of the class of glyphs. -/
theorem not_belongs_glyph (u : Text) : ¬ Belongs .glyph u := by
  rw [belongs_iff_word]
  nofun

/-- No lexeme starts with a gap. -/
theorem not_belongs_of_isGap {k : LexemeKind} {b : UInt8} {u : Text} (hb : isGap b = true) :
    ¬ Belongs k (b :: u) := by
  have hcases : b = 32 ∨ b = 9 := by simpa [isGap] using hb
  rw [belongs_iff_word]
  intro h
  cases h with
  | hexadecimal | binary | octal | zero | directive => exact absurd hb (by decide)
  | decimal hdigit => rcases hcases with rfl | rfl <;> exact absurd hdigit (by decide)
  | string hd => rcases hd with rfl | rfl <;> exact absurd hb (by decide)
  | operator hu =>
    have hfirst : ∀ t ∈ Grammar.operators, t.head?.map isGap = some false := by decide
    exact absurd (hb.symm.trans (Option.some.inj (hfirst _ hu))) (by decide)
  | name hletter => rcases hcases with rfl | rfl <;> exact absurd hletter (by decide)

/-- A glyph is taken exactly where nothing else starts. -/
theorem Munched.kind_eq_glyph_iff {t : Text} {x : Lexeme} (h : Munched t x) :
    x.kind = .glyph ↔ ∀ k u, Belongs k u → u <+: t → u = [] := by
  cases h with
  | @longest k u hu hk _ _ =>
    refine iff_of_false ?_ fun hnone => hk.ne_nil (hnone k u hk hu)
    rintro rfl
    exact not_belongs_glyph u hk
  | glyph _ hnone =>
    refine iff_of_true rfl fun k u hk hu => ?_
    by_contra hne
    exact hnone k u hu hne hk

/-- The lexeme in front is what the text starts with. -/
theorem isPrefix_front (t : Text) : (front t).text <+: t := by
  unfold front
  split
  · exact List.take_prefix _ t
  · exact List.take_prefix _ t

end Lexeme

namespace Scan

open Lexeme
open Text (lit)

/-- `gap` is what is skipped to start a match at `t`: the longest run of blanks, and no lexeme could
    have been taken instead. -/
structure Skips (gap t : Text) : Prop where
  blank : gap = [] ∨ gap ∈ Grammar.blanks.matches'
  all : ∀ u, u <+: t → u ∉ Grammar.blanks.matches'
  idle : gap ≠ [] → ∀ k u, u <+: gap ++ t → ¬ Belongs k u

/-- The longest run of blanks is skipped. -/
theorem skips (t : Text) : Skips (t.takeWhile isGap) (t.dropWhile isGap) where
  blank := by
    by_cases hnil : t.takeWhile isGap = []
    · exact Or.inl hnil
    · exact Or.inr (Grammar.mem_blanks_iff.mpr ⟨hnil, fun b hb => List.mem_takeWhile_imp hb⟩)
  all := by
    intro u hu hmem
    obtain ⟨hne, hgap⟩ := Grammar.mem_blanks_iff.mp hmem
    obtain ⟨b, u, rfl⟩ := List.exists_cons_of_ne_nil hne
    -- what is left does not start with a gap
    obtain ⟨rest, hrest⟩ := hu
    have hb := List.head?_dropWhile_not isGap t
    rw [← hrest] at hb
    have hb : isGap b = false := hb
    rw [hgap b List.mem_cons_self] at hb
    exact nomatch hb
  idle := by
    intro hne k u hu hk
    obtain ⟨b, gap, hgap⟩ := List.exists_cons_of_ne_nil hne
    have hb : isGap b = true := List.mem_takeWhile_imp (hgap ▸ List.mem_cons_self)
    obtain ⟨c, u, rfl⟩ := List.exists_cons_of_ne_nil hk.ne_nil
    rw [hgap] at hu
    obtain ⟨rfl, -⟩ := List.cons_prefix_cons.mp hu
    exact not_belongs_of_isGap hb hk

variable {s s' : Scan} {x : Lexeme}

/-- There is no next lexeme if only blanks are left. -/
theorem next_eq_none_iff : s.next = none ↔ s.rest.dropWhile isGap = [] := by
  unfold next
  simp only
  split
  · rename_i hnil
    exact iff_of_true rfl hnil
  · rename_i hne
    exact iff_of_false nofun hne

/-- The next lexeme is the one in front of what is left after the blanks. -/
theorem next_eq_some (h : s.next = some (x, s')) : s.rest.dropWhile isGap ≠ [] ∧
    x = front (s.rest.dropWhile isGap) ∧ s.rest.dropWhile isGap = x.text ++ s'.rest := by
  unfold next at h
  simp only at h
  split at h
  · exact nomatch h
  · rename_i hne
    obtain ⟨rfl, rfl⟩ := Prod.mk.inj (Option.some.inj h)
    exact ⟨hne, rfl, (List.prefix_iff_eq_append.mp (isPrefix_front _)).symm⟩

/-- **The next lexeme of a line is told by the patterns alone.**  Blanks are skipped, and what is
    left starts with the longest beginning that belongs to a pattern, of the class of that pattern;
    one glyph is taken exactly where no beginning belongs to any.  There is no next lexeme only
    where nothing is left. -/
theorem next_maximal_munch (s : Scan) : ∃ gap t,
    s.rest = gap ++ t ∧ Skips gap t ∧ (s.next = none ↔ t = []) ∧
      ∀ x s', s.next = some (x, s') → t = x.text ++ s'.rest ∧ Munched t x ∧
        (x.kind = .glyph ↔ ∀ k u, Belongs k u → u <+: t → u = []) := by
  refine ⟨s.rest.takeWhile isGap, s.rest.dropWhile isGap, List.takeWhile_append_dropWhile.symm,
    skips s.rest, next_eq_none_iff, fun x s' h => ?_⟩
  obtain ⟨hne, rfl, hcut⟩ := next_eq_some h
  have hmunched := munched_front hne
  exact ⟨hcut, hmunched, hmunched.kind_eq_glyph_iff⟩

/-- A delimiter that seems to be doubled closes the string, if the string closes nowhere later. -/
theorem next_maximal_munch_unclosed :
    next ⟨lit " 'it''s", true⟩ = some (⟨.string, lit "'it'"⟩, ⟨lit "'s", false⟩) ∧
      Munched (lit "'it''s") ⟨.string, lit "'it'"⟩ := by
  have hnext : next ⟨lit " 'it''s", true⟩ = some (⟨.string, lit "'it'"⟩, ⟨lit "'s", false⟩) := by
    decide +kernel
  obtain ⟨gap, t, -, -, -, hsome⟩ := next_maximal_munch ⟨lit " 'it''s", true⟩
  obtain ⟨rfl, hmunched, -⟩ := hsome _ _ hnext
  exact ⟨hnext, hmunched⟩

end Scan
end Pushdown
