/-
  What a token can be.

  State tables are asked for the kind of a token, and there the empty key is the end of the input
  and the wildcard stands for any token.  Kinds come from the input, so it is not clear at once that
  no input spells one of these two.  None does: a kind is one of three words, an operator, or a
  single character, and `Token.Form` says which text goes with it.

  Two things about tokens come from how lines are read, and not from how they are cut.

  * That a character is a whole one, and no line break: a reader delivers characters, so that a line
    has no stray bytes, and cutting lexemes off keeps it so (`Source.Sound`).

  * That nothing is left at the end of the input: a stop that a reader has met too early waits
    behind the bytes of a character that is incomplete, and so it is never what the next line is
    answered with (`Reader.Settled`).  Those bytes are 128 and above, while a line ends at a byte
    below, so that no line ends where a stop waits (`Reader.Waits.next`).

  `Source.Sound` puts both together.  It holds of every new source, and what is done to sources
  keeps it (`Source.lasting_sound`); so it holds of all sources in every session
  (`Lexer.sound_session`).  The main result is `Lexer.kind_of_next`.  One step of a call is told
  from its line (`Lexer.form_of_step`), and what the steps before it took off the stack has nothing
  left (`Lexer.leavesNothing_of_sound`).
-/
import Pushdown.Proofs.Lexer.NumberLiteral
import Pushdown.Proofs.Lexer.Sources
import Pushdown.Proofs.Text.Repair
import Pushdown.Table.Basic

namespace Pushdown

open Text (lit byte)

/-! ## Canonical numerals

  The text of a number token is written by the lexer and not cut from the input, and it is the
  numeral of its value. -/

namespace Numeral

/-- Decimal digits, and no zero in front of others. -/
def IsCanonical (t : Text) : Prop :=
  ∃ b u, t = b :: u ∧ (∀ c ∈ t, isDigit c = true) ∧ (b = byte '0' → u = [])

/-- The last digit stands behind the numeral of the others. -/
theorem ofNat_of_ten_le {n : Nat} (h : 10 ≤ n) :
    ofNat n = ofNat (n / 10) ++ [byte (n % 10).digitChar] := by
  rw [ofNat, Nat.toDigits_of_base_le (by omega) h, List.map_append]
  rfl

/-- Numerals are canonical. -/
theorem isCanonical_ofNat (n : Nat) : IsCanonical (ofNat n) := by
  induction n using Nat.strongRecOn with
  | _ n ih =>
    by_cases hn : n < 10
    · have hone : ofNat n = [byte n.digitChar] := by
        rw [ofNat, Nat.toDigits_of_lt_base hn]
        rfl
      exact ⟨_, [], hone, fun c hc => isDigit_of_mem_ofNat hc, fun _ => rfl⟩
    · have hten : 10 ≤ n := by omega
      obtain ⟨b, u, hb, -, hzero⟩ := ih (n / 10) (by omega)
      have happ := ofNat_of_ten_le hten
      rw [hb, List.cons_append] at happ
      refine ⟨b, _, happ, fun c hc => isDigit_of_mem_ofNat hc, fun h => ?_⟩
      -- only the numeral of zero starts with a zero
      have hnil := hzero h
      subst h hnil
      have hzero : n / 10 = 0 := ofNat_injective hb
      omega

/-- There is no line break in a numeral. -/
theorem isPlain_ofNat (n : Nat) : Line.IsPlain (ofNat n) := by
  intro b hb
  have hdigit := isDigit_of_mem_ofNat hb
  rw [← Bool.not_eq_true, Source.isBreak_iff]
  rintro (rfl | rfl | rfl) <;> exact absurd hdigit (by decide)

/-- Nor in one with a sign. -/
theorem isPlain_ofInt (n : Int) : Line.IsPlain (ofInt n) := by
  cases n with
  | ofNat n => exact isPlain_ofNat n
  | negSucc n => exact List.forall_mem_cons.mpr ⟨by decide, isPlain_ofNat (n + 1)⟩

end Numeral

/-! ## Whole characters

  Lines are put together from characters, each written out with its bytes.  Such a text is valid,
  and its first glyph is a character again. -/

namespace Utf8

variable {t u v : Text} {c : Char} {n : Nat}

/-- Valid texts make a valid text. -/
theorem isValid_append (hu : isValid u = true) (hv : isValid v = true) :
    isValid (u ++ v) = true := by
  induction hlen : u.length using Nat.strongRecOn generalizing u with
  | _ k ih =>
    subst hlen
    by_cases hnil : u = []
    · rwa [hnil]
    · obtain ⟨c, n, hd, hrest⟩ := (isValid_iff_of_ne_nil hnil).mp hu
      obtain ⟨hpos, hle⟩ := decode?_width hd
      have happ := decode?_take_append hd (u.drop n ++ v)
      rw [← List.append_assoc, List.take_append_drop] at happ
      refine (isValid_iff_of_ne_nil (List.append_ne_nil_of_left_ne_nil hnil v)).mpr
        ⟨c, n, happ, ?_⟩
      rw [List.drop_append_of_le_length hle]
      exact ih _ (by rw [List.length_drop]; omega) hrest rfl

/-- What is decoded can be written. -/
theorem isValid_encode_of_decode? (h : decode? t = some (c, n)) : isValid (encode c) = true := by
  have htake := decode?_take_append h []
  rw [List.append_nil, ← encode_of_decode? h] at htake
  refine (isValid_iff_of_ne_nil (encode_ne_nil c)).mpr ⟨c, n, htake, ?_⟩
  rw [encode_of_decode? h, List.drop_take_self]
  exact isValid_nil

/-- The first glyph of a valid text is a character. -/
theorem exists_encode_eq (ht : t ≠ []) (h : isValid t = true) :
    ∃ c, (headGlyph t).bytes = encode c := by
  obtain ⟨c, n, hd, -⟩ := (isValid_iff_of_ne_nil ht).mp h
  refine ⟨c, ?_⟩
  rw [headGlyph, width, hd, encode_of_decode? hd]
  rfl

/-- What more input could complete to a character has no ASCII byte in it. -/
theorem high_of_isPartial (h : isPartial t = true) : ∀ b ∈ t, 0x80 ≤ b := by
  unfold isPartial at h
  split at h
  all_goals simp [leadsTwo, leadsThree, leadsFour, isSecond, isTail] at *
  all_goals grind

end Utf8

/-! ## Readers between two lines

  A reader may have met the end of its feed while it was filling its buffer.  `Waits` holds at any
  time, and `Settled` between two lines; only the second one rules out that the end is reported
  while bytes are left. -/

namespace Reader

variable {d : Disk} {r r' : Reader} {c : Char} {t seen : Text}

/-- A stop that was met early waits behind the bytes of an incomplete character. -/
def Waits (r : Reader) : Prop := r.stop ≠ none → ∀ b ∈ r.buffer, 0x80 ≤ b

/-- Between two lines, some of these bytes are still there. -/
def Settled (r : Reader) : Prop := r.stop ≠ none → r.buffer ≠ [] ∧ ∀ b ∈ r.buffer, 0x80 ≤ b

/-- Between two lines, too, a stop waits. -/
theorem Settled.waits (h : r.Settled) : r.Waits := fun hs => (h hs).2

/-- A reader that has met no stop is settled. -/
theorem settled_of_stop (h : r.stop = none) : r.Settled := fun hs => absurd h hs

/-- A stop is met only when the buffer begins a character that is incomplete. -/
theorem Waits.fillUpTo (h : r.Waits) (n : Nat) : (fillUpTo d n r).Waits := by
  induction n generalizing r with
  | zero => exact h
  | succ n ih =>
    unfold Reader.fillUpTo
    split
    · rename_i hpartial
      rw [Bool.and_eq_true, Option.isNone_iff_eq_none] at hpartial
      split
      · exact ih fun hs => absurd hpartial.2 hs
      · exact fun _ => Utf8.high_of_isPartial hpartial.1
    · exact h

/-- Filling adds to the end of the buffer. -/
theorem prefix_fillUpTo (d : Disk) (n : Nat) (r : Reader) :
    r.buffer <+: (Reader.fillUpTo d n r).buffer := by
  induction n generalizing r with
  | zero => exact List.prefix_rfl
  | succ n ih =>
    unfold Reader.fillUpTo
    split
    · split
      · rename_i b t feed hb
        exact (List.prefix_append r.buffer (b :: t)).trans
          (ih { r with feed, buffer := r.buffer ++ b :: t })
      · exact List.prefix_rfl
    · exact List.prefix_rfl

/-- A character is taken off the buffer. -/
theorem next_char (h : next d r = .char c r') : ∃ b u, (fill d r).buffer = b :: u ∧
    c = (Utf8.headChar? (b :: u)).getD Utf8.replacement ∧ (∀ a ∈ r'.buffer, a ∈ b :: u) ∧
    r'.stop = (fill d r).stop := by
  unfold next at h
  dsimp only at h
  split at h
  · cases h
  · rename_i b u hbuffer
    obtain ⟨rfl, rfl⟩ := Delivery.char.inj h
    exact ⟨b, u, hbuffer, rfl, fun a ha => List.mem_of_mem_drop ha, rfl⟩

/-- A stop is delivered when the buffer is empty, and it does not wait any longer. -/
theorem next_stop {s : Stop} (h : next d r = .stop s r') :
    (fill d r).buffer = [] ∧ s = (fill d r).stop.getD .ended ∧ r'.stop = none := by
  unfold next at h
  dsimp only at h
  split at h
  · rename_i hbuffer
    obtain ⟨rfl, rfl⟩ := Delivery.stop.inj h
    exact ⟨hbuffer, rfl, rfl⟩
  · cases h

/-- What is delivered is a character, the replacement if need be. -/
theorem isValid_encode_of_next (h : next d r = .char c r') :
    Utf8.isValid (Utf8.encode c) = true := by
  obtain ⟨b, u, -, rfl, -⟩ := next_char h
  cases hd : Utf8.decode? (b :: u) with
  | none =>
    rw [Utf8.headChar?, hd]
    decide
  | some p =>
    rw [Utf8.headChar?, hd]
    exact Utf8.isValid_encode_of_decode? hd

/-- No line ends where a stop waits. -/
theorem Waits.next (h : r.Waits) (hn : next d r = .char c r') :
    r'.Waits ∧ (Line.isBreak c = true → r'.stop = none) := by
  obtain ⟨b, u, hbuffer, rfl, hmem, hstop⟩ := next_char hn
  have hfill : (fill d r).Waits := h.fillUpTo 4
  rw [Waits, hbuffer] at hfill
  refine ⟨fun hs a ha => hfill (hstop ▸ hs) a (hmem a ha), fun hbreak => ?_⟩
  rw [hstop]
  by_contra hwaits
  have hhigh : 0x80 ≤ b := hfill hwaits b List.mem_cons_self
  cases hd : Utf8.decode? (b :: u) with
  | none =>
    rw [Utf8.headChar?, hd] at hbreak
    exact absurd hbreak (by decide)
  | some p =>
    rw [Utf8.headChar?, hd] at hbreak
    have hbreak : Line.isBreak p.1 = true := hbreak
    have hbytes := Utf8.encode_of_decode? hd
    obtain ⟨n, hn⟩ := Nat.exists_eq_add_of_le' (Utf8.decode?_width hd).1
    rw [hn, List.take_succ_cons] at hbytes
    -- a line break is a single byte below 128
    rcases Line.isBreak_iff.mp hbreak with hp | hp | hp
    all_goals
      rw [hp] at hbytes
      rw [← (List.cons.inj hbytes).1] at hhigh
      exact absurd hhigh (by decide)

/-- Behind a carriage return a line ends, with a line feed or without. -/
theorem Waits.settled_skipNewline (h : r.Waits) : (skipNewline d r).Settled := by
  unfold skipNewline
  split
  · rename_i c rest hn
    split
    · rename_i hc
      exact settled_of_stop ((h.next hn).2 (Line.isBreak_iff.mpr (.inl hc)))
    · obtain ⟨b, u, hbuffer, -⟩ := next_char hn
      exact fun hs => ⟨hbuffer ▸ List.cons_ne_nil b u, h.fillUpTo 4 hs⟩
  · rename_i s rest hn
    exact settled_of_stop (next_stop hn).2.2

/-- **A line is made of whole characters**, and the reader is settled behind it. -/
theorem Waits.readLineFrom (h : r.Waits) (hr : readLineFrom d seen r = (.text t, r'))
    (hseen : Utf8.isValid seen.reverse = true) : Utf8.isValid t = true ∧ r'.Settled := by
  fun_induction Reader.readLineFrom d seen r with
  | case1 seen r rest hn =>
    split at hr
    · cases hr
    · obtain ⟨ht, rfl⟩ := Prod.mk.inj hr
      obtain rfl := Line.text.inj ht
      exact ⟨hseen, settled_of_stop (next_stop hn).2.2⟩
  | case2 seen r message rest hn => cases hr
  | case3 seen r c rest hn hc =>
    obtain ⟨ht, rfl⟩ := Prod.mk.inj hr
    obtain rfl := Line.text.inj ht
    have hbreak : Line.isBreak c = true := Line.isBreak_iff.mpr (hc.imp_right .inr)
    exact ⟨hseen, settled_of_stop ((h.next hn).2 hbreak)⟩
  | case4 seen r rest hn hc =>
    obtain ⟨ht, rfl⟩ := Prod.mk.inj hr
    obtain rfl := Line.text.inj ht
    exact ⟨hseen, (h.next hn).1.settled_skipNewline⟩
  | case5 seen r c rest hn hc hr' ih =>
    refine ih (h.next hn).1 hr ?_
    rw [List.reverse_append, List.reverse_reverse]
    exact Utf8.isValid_append hseen (isValid_encode_of_next hn)

/-- Behind a character comes a line, or a failure. -/
theorem readLineFrom_ne_ended (hseen : seen ≠ []) :
    Reader.readLineFrom d seen r ≠ (.ended, r') := by
  intro h
  fun_induction Reader.readLineFrom d seen r with
  | case1 seen r rest hn =>
    rw [if_neg hseen] at h
    cases h
  | case2 => cases h
  | case3 => cases h
  | case4 => cases h
  | case5 seen r c rest hn hc hr ih =>
    exact ih (List.append_ne_nil_of_right_ne_nil _ hseen) h

/-- **At its end a settled reader has nothing left**, neither in its buffer nor in its feed. -/
theorem Settled.of_ended (h : r.Settled) (hr : readLine d r = (.ended, r')) :
    r.buffer = [] ∧ r.feed.bytes d = [] ∧ r.feed.finale d = .ended := by
  rw [readLine, Reader.readLineFrom] at hr
  split at hr
  · rename_i rest hn
    obtain ⟨hempty, hended, -⟩ := next_stop hn
    -- filling has only added to the buffer, so it was empty, and no stop waited
    have hbuffer : r.buffer = [] :=
      List.prefix_nil.mp (hempty ▸ prefix_fillUpTo d 4 r)
    have hstop : r.stop = none := by
      by_contra hs
      exact (h hs).1 hbuffer
    -- the stop was met just now, in place of the first portion
    have hcapacity : 0 < capacity := by decide
    have hfetch := Feed.answers_fetch d hcapacity r.feed
    have hasks : (Utf8.isPartial [] && (none : Option Stop).isNone) = true := rfl
    cases hportion : r.feed.fetch d capacity with
    | bytes b u feed =>
      have hfill : fill d r = Reader.fillUpTo d 3 { r with feed, buffer := b :: u } := by
        rw [fill, Reader.fillUpTo, hbuffer, hstop, if_pos hasks, List.length_nil, Nat.sub_zero,
          hportion]
        rfl
      rw [hfill] at hempty
      have hprefix := hempty ▸ prefix_fillUpTo d 3 { r with feed, buffer := b :: u }
      exact absurd (List.prefix_nil.mp hprefix) (List.cons_ne_nil b u)
    | stop s feed =>
      have hfill : fill d r = { r with feed, stop := some s } := by
        rw [fill, Reader.fillUpTo, hbuffer, hstop, if_pos hasks, List.length_nil, Nat.sub_zero,
          hportion]
      rw [hfill] at hended
      rw [hportion] at hfetch
      obtain ⟨hbytes, -, hfinale, -⟩ := hfetch
      exact ⟨hbuffer, hbytes, hfinale.symm.trans hended.symm⟩
  · cases hr
  · rename_i c rest hn
    split at hr
    · cases hr
    · split at hr
      · cases hr
      · rw [List.append_nil] at hr
        exact absurd hr
          (readLineFrom_ne_ended (mt List.reverse_eq_nil_iff.mp (Utf8.encode_ne_nil c)))

end Reader

/-! ## Sources

  The two facts as one property of a source, and a source that has nothing left. -/

namespace Source

variable {d : Disk} {s s' : Source}

/-- What is left of the line is made of whole characters and has no line break in it, and the reader
    is settled. -/
structure Sound (s : Source) : Prop where
  isPlain : ∀ scan, s.scan = some scan → Line.IsPlain scan.rest
  isValid : ∀ scan, s.scan = some scan → Utf8.isValid scan.rest = true
  settled : ∀ r, s.origin = .reading r → r.Settled

/-- Nothing is left of a source: its line is used up, and its reader has come to the end. -/
def IsSpent (d : Disk) (s : Source) : Prop :=
  s.scan = none ∧ ∃ r, s.reader d = .ok r ∧ r.buffer = [] ∧ r.feed.bytes d = [] ∧
    r.feed.finale d = .ended

/-- A new source has no line yet, and its reader has met no stop. -/
theorem sound_source (d : Disk) (i : Input) : (i.source d).Sound := by
  have hscan : (i.source d).scan = none := (at_source d i).scan_eq
  refine ⟨fun scan h => ?_, fun scan h => ?_, fun r h => ?_⟩
  · exact absurd (hscan.symm.trans h) nofun
  · exact absurd (hscan.symm.trans h) nofun
  · cases i with
    | file path => cases h
    | _ =>
      obtain rfl := Origin.reading.inj h
      exact Reader.settled_of_stop rfl

/-- The reader of a sound source is settled, also one that has just been opened. -/
theorem Sound.settled_reader {r : Reader} (h : s.Sound) (hr : s.reader d = .ok r) :
    r.Settled := by
  rcases origin_of_reader hr with horigin | ⟨path, node, rfl⟩
  · exact h.settled r horigin
  · exact Reader.settled_of_stop rfl

/-- A line that was read is sound, and so is what is left of its source. -/
theorem Sound.line (h : s.Sound) (ha : s.advance d = .line s') : s'.Sound := by
  obtain ⟨r, r', t, hr, hread, horigin, hscan⟩ := reads_of_line ha
  obtain ⟨hvalid, hsettled⟩ := (h.settled_reader hr).waits.readLineFrom hread Utf8.isValid_nil
  refine ⟨fun scan hscan' => ?_, fun scan hscan' => ?_, fun r₁ horigin' => ?_⟩
  · obtain rfl := Option.some.inj (hscan.symm.trans hscan')
    exact Reader.isPlain_of_readLine hread
  · obtain rfl := Option.some.inj (hscan.symm.trans hscan')
    exact hvalid
  · obtain rfl := Origin.reading.inj (horigin.symm.trans horigin')
    exact hsettled

/-- A source that is exhausted is spent. -/
theorem Sound.isSpent (h : s.Sound) (hscan : s.scan = none) (ha : s.advance d = .exhausted s') :
    s.IsSpent d := by
  rw [advance_eq] at ha
  cases hr : s.reader d with
  | error f =>
    rw [hr] at ha
    cases ha
  | ok r =>
    rw [hr] at ha
    dsimp only [readLine] at ha
    split at ha
    · cases ha
    · rename_i r' hread
      exact ⟨hscan, r, hr, (h.settled_reader hr).of_ended hread⟩
    · cases ha

/-- Nothing that happens to a source makes it unsound. -/
theorem lasting_sound : Lasting Sound where
  file d path := sound_source d (.file path)
  line := Sound.line
  blank h := ⟨nofun, nofun, h.settled⟩
  cut := by
    intro s scan rest x h hscan hnext name line next
    refine ⟨fun scan' h' => ?_, fun scan' h' => ?_, h.settled⟩
    · obtain rfl := Option.some.inj h'
      exact fun b hb => h.isPlain scan hscan b ((Scan.next_rest hnext).2.mem hb)
    · obtain rfl := Option.some.inj h'
      exact (Scan.isValid_of_some hnext (h.isValid scan hscan)).2

end Source

/-! ## Tokens

  The forms are those of the classes of lexemes, with what a lexer makes of them.  For a single
  character the form says what follows it as well, since it is single only because nothing longer
  fits. -/

/-- `t.Form rest`: what `t` can be if it was cut off in front of `rest`. -/
inductive Token.Form (rest : Text) : Token → Prop
  | number {u : Text} (hu : Numeral.IsCanonical u) : Form rest ⟨Lexer.kindNumber, u⟩
  | string {u : Text} (hu : Lexeme.Word .string u) :
      Form rest ⟨Lexer.kindString, Literal.unquote u⟩
  | name {b : UInt8} {u : Text} (hb : Lexeme.isLetter b = true)
      (hu : ∀ c ∈ u, Lexeme.isNamePart c = true) : Form rest ⟨Lexer.kindName, b :: u⟩
  | operator {u : Text} (hu : u ∈ Lexeme.Grammar.operators) : Form rest ⟨u, u⟩
  /-- A single character, and nothing that starts with it is a lexeme. -/
  | glyph {c : Char}
      (hnone : ∀ k v, v <+: Utf8.encode c ++ rest → v ≠ [] → ¬ Lexeme.Belongs k v) :
      Form rest ⟨Utf8.encode c, Utf8.encode c⟩

namespace Token

variable {t : Token} {rest : Text}

/-- No kind is empty, and so no token is taken for the end of input. -/
theorem Form.kind_ne_nil (h : t.Form rest) : t.kind ≠ [] := by
  cases h with
  | number => exact (by decide : Lexer.kindNumber ≠ [])
  | string => exact (by decide : Lexer.kindString ≠ [])
  | name => exact (by decide : Lexer.kindName ≠ [])
  | operator hu => exact (Lexeme.Word.operator hu).ne_nil
  | @glyph c => exact Utf8.encode_ne_nil c

/-- The wildcard is no word of its own, no operator, and longer than any character. -/
theorem Form.kind_ne_wildcard (h : t.Form rest) : t.kind ≠ wildcard := by
  cases h with
  | number => exact (by decide : Lexer.kindNumber ≠ wildcard)
  | string => exact (by decide : Lexer.kindString ≠ wildcard)
  | name => exact (by decide : Lexer.kindName ≠ wildcard)
  | @operator u hu =>
    have hall : ∀ u ∈ Lexeme.Grammar.operators, u ≠ wildcard := by decide +kernel
    exact hall u hu
  | @glyph c =>
    intro h
    have hlength := Utf8.encode_length_le c
    rw [show Utf8.encode c = wildcard from h] at hlength
    exact absurd hlength (by decide)

end Token

/-- Undoing escapes puts no byte in. -/
theorem Literal.mem_of_mem_unescape {delim b : UInt8} {t : Text} (h : b ∈ unescape delim t) :
    b ∈ t := by
  fun_induction unescape delim t <;> grind

/-- Neither does taking the delimiters off. -/
theorem Literal.mem_of_mem_unquote {b : UInt8} {t : Text} (h : b ∈ unquote t) : b ∈ t := by
  unfold unquote at h
  split at h
  · exact List.mem_cons_of_mem _ (List.mem_of_mem_dropLast (mem_of_mem_unescape h))
  · exact h

namespace Lexer

variable {x : Lexeme} {t : Token} {rest : Text}

/-- A lexeme that maximal munch has taken off a valid line. -/
theorem form_of_token (hm : Lexeme.Munched (x.text ++ rest) x)
    (hvalid : Utf8.isValid (x.text ++ rest) = true) (hx : x.kind ≠ .directive)
    (h : token x = .ok t) : t.Form rest := by
  cases hm with
  | @longest k u hu hk hlongest hclass =>
    have hword := Lexeme.belongs_iff_word.mp hk
    cases k with
    | number =>
      obtain ⟨n, hn⟩ := hword.exists_spells
      obtain rfl := Except.ok.inj (hn.token_eq.symm.trans h)
      exact .number (Numeral.isCanonical_ofNat n)
    | string =>
      obtain rfl := Except.ok.inj h
      exact .string hword
    | name =>
      obtain rfl := Except.ok.inj h
      cases hword with
      | name hb hv => exact .name hb hv
    | operator =>
      obtain rfl := Except.ok.inj h
      exact .operator (Lexeme.word_operator_iff.mp hword)
    | directive => exact absurd rfl hx
    | glyph => exact absurd hk (Lexeme.not_belongs_glyph u)
  | @glyph c u gs hu hnone =>
    obtain rfl := Except.ok.inj h
    obtain ⟨hne, hhead, -⟩ := Utf8.of_glyphs_eq_cons hu
    obtain ⟨a, ha⟩ := Utf8.exists_encode_eq hne hvalid
    rw [hhead] at ha
    obtain rfl : u = Utf8.encode a := ha
    exact .glyph hnone

/-- A token has a line break in it only if its lexeme has. -/
theorem isPlain_of_token (hplain : Line.IsPlain x.text) (h : token x = .ok t) :
    Line.IsPlain t.kind ∧ Line.IsPlain t.text := by
  have hnumber : Line.IsPlain kindNumber := by decide
  have hstring : Line.IsPlain kindString := by decide
  have hname : Line.IsPlain kindName := by decide
  unfold token at h
  split at h
  · split at h
    · rename_i u hu
      obtain rfl := Except.ok.inj h
      obtain ⟨n, -, rfl⟩ := Option.map_eq_some_iff.mp hu
      exact ⟨hnumber, Numeral.isPlain_ofInt n⟩
    · cases h
  · obtain rfl := Except.ok.inj h
    exact ⟨hstring, fun b hb => hplain b (Literal.mem_of_mem_unquote hb)⟩
  · obtain rfl := Except.ok.inj h
    exact ⟨hname, hplain⟩
  · obtain rfl := Except.ok.inj h
    exact ⟨hplain, hplain⟩

/-! ## Lexers

  Here the property of sources becomes one of lexers, and a call is looked at step by step. -/

variable {d : Disk} {l l' m : Lexer} {s : Source} {below : List Source}

/-- Every source that is on the stack or waits is sound. -/
abbrev Sound (l : Lexer) : Prop := l.Each Source.Sound

/-- Every lexer, however it was used, is sound. -/
theorem sound_session (path : SearchPath) (warnUnknown : Bool) (ops : List (Disk × Operation)) :
    ((new path warnUnknown).session ops).Sound :=
  (each_new path warnUnknown).session Source.lasting_sound fun d i _ => Source.sound_source d i

variable {ws : List Diagnostic}

/-- Steps of a call lead to the same outcome. -/
theorem Proceeds.outcome_eq (h : l.Proceeds d ws m) :
    (Lexer.next d m).outcome = (Lexer.next d l).outcome := by
  induction h with
  | here => rfl
  | more h hs ih =>
    rw [← ih, next_of_more hs]
    rfl

/-! ### What is left at the end -/

/-- Whatever source the next call takes off, nothing is left of it. -/
def LeavesNothing (d : Disk) (l : Lexer) : Prop :=
  ∀ ws m s below, l.Proceeds d ws m → m.stack = s :: below → (step d m).lexer.stack = below →
    s.IsSpent d

/-- Work on a line takes no source off. -/
theorem length_lt_cut (hl : l.stack = s :: below) (d : Disk) (scan : Scan) :
    below.length < (l.cut d s scan).lexer.stack.length := by
  have hone := lineStep_cut d l s scan
  generalize l.cut d s scan = st at hone
  have htop (s' : Source) : below.length < (l.withTop s').stack.length := by
    rw [withTop_stack hl, List.length_cons]
    omega
  cases hone with
  | @nest x rest => exact (htop { s with scan := some rest }).trans (Nat.lt_succ_self _)
  | _ => exact htop _

/-- A call that delivers a token takes off only sources of which nothing is left. -/
theorem leavesNothing_of_sound (h : l.Sound) (hn : (next d l).outcome = .ok t) :
    l.LeavesNothing d := by
  intro ws m s below hm hl htaken
  have hs : s.Sound := (h.proceeds Source.lasting_sound hm).stack s (hl ▸ List.mem_cons_self)
  rcases hscan : s.scan with _ | scan
  -- the source has no line: it is read from, and if it is exhausted it is spent
  · cases hstep : step d m with
    | done outcome l' =>
      rw [← hm.outcome_eq, next_of_done hstep] at hn
      -- reading a line delivers no token
      obtain rfl : outcome = .ok t := hn
      rw [step_advance hl hscan, advance] at hstep
      split at hstep <;> cases hstep
    | more m' w =>
      rw [hstep] at htaken
      rw [step_advance hl hscan, advance] at hstep
      split at hstep
      · rename_i s' ha
        obtain ⟨rfl, -⟩ := Step.more.inj hstep
        have hstack := (withTop_stack hl s').symm.trans htaken
        exact absurd hstack (List.cons_ne_self s' below)
      · rename_i s' ha
        exact hs.isSpent hscan ha
      · cases hstep
      · cases hstep
  -- work on a line leaves the source on the stack
  · have hlength := length_lt_cut hl d scan
    rw [← step_cut hl hscan, htaken] at hlength
    exact absurd hlength (Nat.lt_irrefl _)

/-! ### The token of a call -/

/-- A step that delivers a token has cut it off a line, or there was nothing left. -/
theorem form_of_step (h : l.Sound) (hs : step d l = .done (.ok t) l') :
    (t = .eof ∧ l'.IsUsedUp) ∨ (Line.IsPlain t.kind ∧ Line.IsPlain t.text ∧
      ∃ s below rest, l'.stack = s :: below ∧ s.scan = some rest ∧ t.Form rest.rest) := by
  rcases hl : l.stack with _ | ⟨s, below⟩
  -- only a lexer that is used up answers with the end of input
  · rcases hp : l.pending with _ | ⟨s, rest⟩
    · rw [step_of_isUsedUp d ⟨hl, hp⟩] at hs
      obtain ⟨ht, rfl⟩ := Step.done.inj hs
      exact .inl ⟨(Except.ok.inj ht).symm, hl, hp⟩
    · rw [step, hl, hp] at hs
      cases hs
  · right
    have hsound : s.Sound := h.stack s (hl ▸ List.mem_cons_self)
    rcases hscan : s.scan with _ | scan
    -- reading a line delivers no token
    · rw [step_advance hl hscan, advance] at hs
      split at hs <;> cases hs
    · rw [step_cut hl hscan, cut] at hs
      split at hs
      · cases hs
      · rename_i x rest hnext
        obtain ⟨g, hg, hrest, hmunched⟩ := Scan.exists_gap_of_some hnext
        obtain ⟨hx, hvalid⟩ := Scan.isValid_of_some hnext (hsound.isValid scan hscan)
        have hplain : Line.IsPlain x.text := by
          intro b hb
          refine hsound.isPlain scan hscan b ?_
          rw [hrest]
          exact List.mem_append_right g (List.mem_append_left _ hb)
        dsimp only at hs
        split at hs
        · split at hs
          · exact absurd hs (directive_ne_token _ _ _ _ _ _)
          · cases hs
        · rename_i hkind
          split at hs
          · rename_i u htoken
            obtain ⟨ht, rfl⟩ := Step.done.inj hs
            obtain rfl := Except.ok.inj ht
            obtain ⟨hkindPlain, htextPlain⟩ := isPlain_of_token hplain htoken
            exact ⟨hkindPlain, htextPlain, _, below, rest, withTop_stack hl _, rfl,
              form_of_token hmunched (Utf8.isValid_append hx hvalid) hkind htoken⟩
          · cases hs

/-- **A token is no reserved key.**  Let a lexer be used in any way, and let the next call deliver a
    token.  It is the end of the input exactly if no source is on the stack then, none waits, and
    nothing was left of those that the call took off.  The kind of any other token is neither that
    of the end of the input nor the wildcard, and there is no line break in it, nor in the text.  It
    was cut off a line that is still on top of the stack, and it is a number in canonical decimal
    writing, a string, a name, an operator, or one character that starts no lexeme there. -/
theorem kind_of_next (path : SearchPath) (warnUnknown : Bool) (ops : List (Disk × Operation))
    {d : Disk} {t : Token} (h : (next d ((new path warnUnknown).session ops)).outcome = .ok t) :
    let l := (new path warnUnknown).session ops
    let l' := (next d l).lexer
    (t = .eof ↔ l'.stack = [] ∧ l'.pending = [] ∧ l.LeavesNothing d) ∧
      (t ≠ .eof → t.isEof = false ∧ t.kind ≠ wildcard ∧ Line.IsPlain t.kind ∧
        Line.IsPlain t.text ∧ ∃ s below rest, l'.stack = s :: below ∧ s.scan = some rest ∧
          t.Form rest.rest) := by
  intro l l'
  have hsound : l.Sound := sound_session path warnUnknown ops
  -- the last step of the call delivers the token
  obtain ⟨m, hm, hdone⟩ := Proceeds.here (d := d) (l := l).exists_done
  rw [h] at hdone
  rcases form_of_step (hsound.proceeds Source.lasting_sound hm) hdone with
    ⟨rfl, hused⟩ | ⟨hkind, htext, hform⟩
  · refine ⟨iff_of_true rfl ⟨hused.1, hused.2, leavesNothing_of_sound hsound h⟩,
      fun hne => absurd rfl hne⟩
  · obtain ⟨s, below, rest, hstack, hscan, hform⟩ := hform
    have hne : t.isEof = false := decide_eq_false hform.kind_ne_nil
    refine ⟨iff_of_false ?_ fun hempty => ?_, fun _ => ⟨hne, hform.kind_ne_wildcard, hkind, htext,
      s, below, rest, hstack, hscan, hform⟩⟩
    · rintro rfl
      exact absurd hne (by decide)
    · exact absurd (hstack.symm.trans hempty.1) (List.cons_ne_nil s below)

/-- A call that was computed within some steps has the outcome that it shows. -/
theorem outcome_of_nextWithin {n : Nat}
    (h : (nextWithin d n l).map (·.outcome.toOption) = some (some t)) :
    (next d l).outcome = .ok t := by
  obtain ⟨r, hr, htoken⟩ := Option.map_eq_some_iff.mp h
  rw [next_of_nextWithin hr]
  cases houtcome : r.outcome with
  | error e =>
    rw [houtcome] at htoken
    cases htoken
  | ok u =>
    rw [houtcome] at htoken
    exact congrArg Except.ok (Option.some.inj htoken)

/-- A character that starts no lexeme, and the end behind it. -/
theorem kind_of_next_accented :
    let d := Disk.empty []
    let ops := [(d, Operation.add (.text (lit "t") (lit "é")))]
    let l := (new [] false).session ops
    (next d l).outcome = .ok ⟨lit "é", lit "é"⟩ ∧
      (∃ s below rest, (next d l).lexer.stack = s :: below ∧ s.scan = some rest ∧
        Token.Form rest.rest ⟨lit "é", lit "é"⟩) ∧
      (next d (next d l).lexer).outcome = .ok .eof ∧ (next d l).lexer.LeavesNothing d := by
  intro d ops l
  have hfirst : (next d l).outcome = .ok ⟨lit "é", lit "é"⟩ :=
    outcome_of_nextWithin (n := 8) (by decide +kernel)
  have hboth : ((nextWithin d 8 l).bind fun r =>
      (nextWithin d 8 r.lexer).map (·.outcome.toOption)) = some (some .eof) := by decide +kernel
  have hsecond : (next d (next d l).lexer).outcome = .ok .eof := by
    obtain ⟨r, hr, hlast⟩ := Option.bind_eq_some_iff.mp hboth
    rw [next_of_nextWithin hr]
    exact outcome_of_nextWithin hlast
  obtain ⟨-, -, -, -, hform⟩ := (kind_of_next [] false ops hfirst).2 (by decide)
  obtain ⟨-, -, hnothing⟩ := (kind_of_next [] false (ops ++ [(d, .ask)]) hsecond).1.mp rfl
  exact ⟨hfirst, hform, hsecond, hnothing⟩

end Lexer
end Pushdown
