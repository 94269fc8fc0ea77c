/-
  How a text falls into lines.

  A row is a line with the break that ends it, and a text is some rows and what stands behind the
  last break (`Line.Ruled`).  Every text is ruled in this way (`Line.exists_ruled`).  A carriage
  return and the line feed behind it are one break, so a row that ends in a carriage return alone is
  never followed by an empty row that ends in a line feed.

  A reader does not see rows.  It takes one character after the other, with stray bytes replaced,
  and looks one character ahead behind a carriage return.  It answers with the rows all the same,
  each of them repaired (`Reader.answers_rows`): a row is cut off next to an ASCII byte, so no
  character reaches from one row into the next.

  How the bytes come to the reader does not matter, in portions of whatever size or in chunks: its
  lines are a function of the bytes of the feed (`Feed.lines`), and all that is left to show is that
  this function gives the rows (`Line.Ruled.ruled_chars`).

  On valid text nothing is repaired, and the answers are the rows as they are.  On other text a row
  may have other bytes than were written, but there are as many rows as breaks
  (`Line.Ruled.breakCount_eq`), since no stray byte is an ASCII byte.

  Behind its last line, a reader answers with the end however often it is asked
  (`Yields.answer_eq`).  This is not a matter of course: a stop that is reported is forgotten, and
  the feed is asked again.
-/
import Mathlib.Data.List.Chain
import Pushdown.Disk.Edit
import Pushdown.Proofs.Text.Repair

namespace Pushdown

/-! ## Rows

  Rows say how a text was written, with the breaks as they are.  A text could be cut into rows in
  two ways at a carriage return with a line feed behind it; `Fuses` is that case, and it is ruled
  out, so that the break counts once. -/

/-- A plain text does not start with a line feed. -/
theorem Line.ne_newline_of_isPlain {t : Text} (h : Line.IsPlain t) : t.head? ≠ some 10 := by
  intro hhead
  have hmem : 10 ∈ t := List.mem_of_mem_head? hhead
  exact absurd (h 10 hmem) (by decide)

/-- What ends a line. -/
inductive LineBreak where
  | lineFeed
  | carriageReturn
  /-- A carriage return and a line feed. -/
  | pair
  | formFeed
  deriving DecidableEq, Repr

/-- The bytes of a line break. -/
def LineBreak.bytes : LineBreak → Text
  | .lineFeed => [10]
  | .carriageReturn => [13]
  | .pair => [13, 10]
  | .formFeed => [12]

/-- A line and the break that ends it. -/
structure Row where
  text : Text
  ending : LineBreak
  deriving DecidableEq, Repr

namespace Row

/-- The bytes of a row. -/
def bytes (r : Row) : Text := r.text ++ r.ending.bytes

/-- The breaks of two rows, put one behind the other, are one break. -/
def Fuses (r s : Row) : Prop := r.ending = .carriageReturn ∧ s = ⟨[], .lineFeed⟩

/-- Whether the breaks of two rows fuse can be decided. -/
instance (r s : Row) : Decidable (r.Fuses s) := instDecidableAnd

/-- After a carriage return, only a row that fuses with it starts with a line feed. -/
theorem head?_ne_of_not_fuses {r s : Row} (h : ¬ r.Fuses s) (hs : Line.IsPlain s.text)
    (hending : r.ending = .carriageReturn) (rest : Text) : (s.bytes ++ rest).head? ≠ some 10 := by
  obtain ⟨u, b⟩ := s
  cases u with
  | cons a u =>
    have ha := Line.ne_newline_of_isPlain hs
    exact ha
  | nil =>
    cases b with
    | lineFeed => exact absurd ⟨hending, rfl⟩ h
    | carriageReturn | pair | formFeed => exact fun h => absurd (Option.some.inj h) (by decide)

end Row

namespace Line

/-- `Ruled t rows last`: the text `t` is the rows, and then `last`, which no break ends. -/
structure Ruled (t : Text) (rows : List Row) (last : Text) : Prop where
  text_eq : t = rows.flatMap Row.bytes ++ last
  isPlain : ∀ r ∈ rows, IsPlain r.text
  isPlain_last : IsPlain last
  apart : rows.IsChain fun r s => ¬ r.Fuses s

/-- The number of line breaks: a carriage return does not count if a line feed is next. -/
def breakCount : Text → Nat
  | [] => 0
  | b :: t =>
    breakCount t + if b = 10 ∨ b = 12 ∨ b = 13 ∧ t.head? ≠ some 10 then 1 else 0

/-- The lines of a text: those of its rows, and what stands behind the last break, if it is not
    empty. -/
def texts (rows : List Row) (last : Text) : List Text :=
  rows.map Row.text ++ if last = [] then [] else [last]

variable {t last : Text} {r : Row} {rows : List Row}

namespace Ruled

/-- A plain text is ruled without rows. -/
theorem nil (h : IsPlain last) : Ruled last [] last := ⟨rfl, List.forall_mem_nil _, h, .nil⟩

/-- A row in front, unless its break and the one behind it are one. -/
theorem cons (h : Ruled t rows last) (hr : IsPlain r.text)
    (hapart : r.ending = .carriageReturn → t.head? ≠ some 10) :
    Ruled (r.bytes ++ t) (r :: rows) last := by
  obtain ⟨rfl, hplain, hlast, hchain⟩ := h
  refine ⟨(List.append_assoc ..).symm, List.forall_mem_cons.mpr ⟨hr, hplain⟩, hlast, ?_⟩
  cases rows with
  | nil => exact .singleton r
  | cons s rows =>
    refine List.isChain_cons_cons.mpr ⟨?_, hchain⟩
    rintro ⟨hending, rfl⟩
    exact hapart hending rfl

/-- Behind a lone carriage return there is no line feed. -/
theorem head?_ne (h : Ruled t (r :: rows) last) (hending : r.ending = .carriageReturn) :
    (rows.flatMap Row.bytes ++ last).head? ≠ some 10 := by
  obtain ⟨-, hplain, hlast, hchain⟩ := h
  cases rows with
  | nil => exact ne_newline_of_isPlain hlast
  | cons s rows =>
    have hs : IsPlain s.text := hplain s (List.mem_cons_of_mem r List.mem_cons_self)
    rw [List.flatMap_cons, List.append_assoc]
    exact Row.head?_ne_of_not_fuses (List.isChain_cons_cons.mp hchain).1 hs hending _

/-- The first row, taken apart. -/
theorem text_eq_cons (h : Ruled t (r :: rows) last) :
    t = r.text ++ (r.ending.bytes ++ (rows.flatMap Row.bytes ++ last)) := by
  rw [h.text_eq, List.flatMap_cons, Row.bytes, List.append_assoc, List.append_assoc]

/-- What is left behind the first row is ruled by the others. -/
theorem tail (h : Ruled t (r :: rows) last) :
    Ruled (rows.flatMap Row.bytes ++ last) rows last :=
  ⟨rfl, fun s hs => h.isPlain s (List.mem_cons_of_mem r hs), h.isPlain_last, h.apart.tail⟩

end Ruled

/-- A plain byte in front belongs to the first row, or to what no break ends. -/
theorem Ruled.cons_plain {b : UInt8} (h : Ruled t rows last) (hb : Source.isBreak b = false) :
    ∃ rows' last', Ruled (b :: t) rows' last' := by
  obtain ⟨rfl, hplain, hlast, hchain⟩ := h
  have hcons {u : Text} (hu : IsPlain u) : IsPlain (b :: u) := List.forall_mem_cons.mpr ⟨hb, hu⟩
  cases rows with
  | nil => exact ⟨[], b :: last, .nil (hcons hlast)⟩
  | cons r rows =>
    obtain ⟨hr, hrows⟩ := List.forall_mem_cons.mp hplain
    refine ⟨⟨b :: r.text, r.ending⟩ :: rows, last, rfl,
      List.forall_mem_cons.mpr ⟨hcons hr, hrows⟩, hlast, ?_⟩
    cases rows with
    | nil => exact .singleton _
    | cons s rows =>
      -- only the break of a row tells what may follow it
      obtain ⟨hapart, hrest⟩ := List.isChain_cons_cons.mp hchain
      exact List.isChain_cons_cons.mpr ⟨hapart, hrest⟩

/-- **Every text is ruled.** -/
theorem exists_ruled (t : Text) : ∃ rows last, Ruled t rows last := by
  -- by length, since a pair takes two bytes at once
  induction hlen : t.length using Nat.strongRecOn generalizing t with
  | _ k ih =>
    subst hlen
    cases t with
    | nil => exact ⟨[], [], .nil isPlain_nil⟩
    | cons b t =>
      obtain ⟨rows, last, h⟩ := ih t.length (Nat.lt_succ_self _) t rfl
      cases hb : Source.isBreak b with
      | false => exact h.cons_plain hb
      | true =>
        rcases Source.isBreak_iff.mp hb with rfl | rfl | rfl
        · exact ⟨_, _, h.cons (r := ⟨[], .lineFeed⟩) isPlain_nil (absurd · (by decide))⟩
        · by_cases hnext : t.head? = some 10
          · -- the line feed belongs to the carriage return
            obtain ⟨t, rfl⟩ := List.head?_eq_some_iff.mp hnext
            have hlt : t.length < (13 :: 10 :: t).length := by
              rw [List.length_cons, List.length_cons]
              omega
            obtain ⟨rows, last, h⟩ := ih t.length hlt t rfl
            exact ⟨_, _, h.cons (r := ⟨[], .pair⟩) isPlain_nil (absurd · (by decide))⟩
          · exact ⟨_, _, h.cons (r := ⟨[], .carriageReturn⟩) isPlain_nil fun _ => hnext⟩
        · exact ⟨_, _, h.cons (r := ⟨[], .formFeed⟩) isPlain_nil (absurd · (by decide))⟩

/-- A plain text has no breaks in it. -/
theorem breakCount_append_of_isPlain (ht : IsPlain t) (u : Text) :
    breakCount (t ++ u) = breakCount u := by
  induction t with
  | nil => rfl
  | cons b t ih =>
    obtain ⟨hb, ht⟩ := List.forall_mem_cons.mp ht
    have hnone : ¬ (b = 10 ∨ b = 12 ∨ b = 13 ∧ (t ++ u).head? ≠ some 10) := by
      rintro (rfl | rfl | ⟨rfl, -⟩) <;> exact absurd hb (by decide)
    rw [List.cons_append, breakCount, if_neg hnone]
    exact ih ht

/-- The rows of a text are as many as its line breaks. -/
theorem Ruled.breakCount_eq (h : Ruled t rows last) : breakCount t = rows.length := by
  induction rows generalizing t with
  | nil =>
    have hlast := breakCount_append_of_isPlain h.isPlain_last []
    rw [List.append_nil] at hlast
    rw [h.text_eq]
    exact hlast
  | cons r rows ih =>
    have hrest := ih h.tail
    have hplain : IsPlain r.text := h.isPlain r List.mem_cons_self
    rw [h.text_eq_cons, breakCount_append_of_isPlain hplain, List.length_cons, ← hrest]
    cases hending : r.ending with
    | lineFeed | formFeed => rfl
    | pair => rfl
    -- alone, since no line feed is behind it
    | carriageReturn =>
      rw [LineBreak.bytes, List.singleton_append, breakCount,
        if_pos (Or.inr (Or.inr ⟨rfl, h.head?_ne hending⟩))]

/-- There is one line for each row, and one more if the text does not end with a break. -/
theorem length_texts (rows : List Row) (last : Text) :
    (texts rows last).length = rows.length + if last = [] then 0 else 1 := by
  rw [texts, List.length_append, List.length_map]
  split
  · rfl
  · rfl

/-! ## The characters of rows

  The reader sees characters.  A row ends in an ASCII byte, so its characters are those of its text
  and then the break; and a break is never a part of a character. -/

/-- The characters of a text without line breaks are no line breaks. -/
theorem isBreak_eq_false_of_mem_chars {c : Char} (ht : IsPlain t) (hc : c ∈ Utf8.chars t) :
    isBreak c = false := by
  obtain ⟨g, hg, rfl⟩ := List.mem_map.mp hc
  cases hchar : g.char with
  | none => rfl
  | some c =>
    refine isBreak_eq_false_of_isPlain fun b hb => ht b ?_
    have hbytes : Utf8.encode c = g.bytes := Utf8.encode_of_mem_glyphs hg hchar
    rw [← Utf8.glyphs_bytes t]
    exact List.mem_flatMap.mpr ⟨g, hg, hbytes ▸ hb⟩

/-- Characters that are no line breaks stand at the front of the first line. -/
theorem ruled_append {cs : List Char} (hcs : ∀ c ∈ cs, isBreak c = false) (ds : List Char) :
    ruled (cs ++ ds) = prepend (cs.flatMap Utf8.encode) (ruled ds) := by
  induction cs with
  | nil => exact (prepend_nil _).symm
  | cons c cs ih =>
    obtain ⟨hc, hcs⟩ := List.forall_mem_cons.mp hcs
    have hreturn : c ≠ '\r' := by
      rintro rfl
      exact absurd hc (by decide)
    rw [List.cons_append, ruled_of_ne_return hreturn, hc, if_neg (by decide), ih hcs,
      List.flatMap_cons, prepend_append]

/-- A line feed is read from the byte of a line feed only. -/
theorem afterNewline_chars (h : t.head? ≠ some 10) :
    Reader.afterNewline (Utf8.chars t) = Utf8.chars t := by
  cases t with
  | nil => rfl
  | cons b t =>
    rw [Utf8.chars_of_ne_nil (List.cons_ne_nil b t), Reader.afterNewline, if_neg]
    intro hnewline
    -- t) with :: a stray byte is replaced by a character that is no line feed
    cases hd : Utf8.decode? (b :: t) with
    | none =>
      rw [Utf8.headChar?, hd] at hnewline
      exact absurd hnewline (by decide)
    | some p =>
      obtain ⟨c, n⟩ := p
      rw [Utf8.headChar?, hd] at hnewline
      obtain rfl : c = '\n' := hnewline
      have hbytes : Utf8.encode '\n' = (b :: t).take n := Utf8.encode_of_decode? hd
      cases n with
      | zero => exact absurd hbytes (Utf8.encode_ne_nil _)
      | succ n => exact h (congrArg some (List.cons.inj hbytes).1.symm)

/-- A line break ends a line. -/
theorem ruled_break {b : LineBreak} (h : b = .carriageReturn → t.head? ≠ some 10) :
    ruled (Utf8.chars (b.bytes ++ t)) =
      ([] :: (ruled (Utf8.chars t)).1, (ruled (Utf8.chars t)).2) := by
  cases b with
  | lineFeed | formFeed =>
    rw [LineBreak.bytes, List.singleton_append, Utf8.chars_cons_of_ascii (by decide)]
    rfl
  | pair =>
    rw [LineBreak.bytes, List.cons_append, List.singleton_append,
      Utf8.chars_cons_of_ascii (by decide), Utf8.chars_cons_of_ascii (by decide)]
    rfl
  | carriageReturn =>
    rw [LineBreak.bytes, List.singleton_append, Utf8.chars_cons_of_ascii (by decide)]
    rw [show Char.ofNat (13 : UInt8).toNat = '\r' from rfl, ruled_return,
      afterNewline_chars (h rfl)]

/-- **Cut into lines, the characters of a text give its rows**, each of them repaired. -/
theorem Ruled.ruled_chars (h : Ruled t rows last) :
    ruled (Utf8.chars t) = (rows.map fun r => Utf8.repaired r.text, Utf8.repaired last) := by
  induction rows generalizing t with
  | nil =>
    have hlast := ruled_append
      (fun c hc => isBreak_eq_false_of_mem_chars h.isPlain_last hc) []
    rw [List.append_nil, Utf8.flatMap_encode_chars, ruled, prepend, List.append_nil] at hlast
    rw [h.text_eq]
    exact hlast
  | cons r rows ih =>
    have hplain : IsPlain r.text := h.isPlain r List.mem_cons_self
    -- a break starts with an ASCII byte, so no character reaches from a row into its break
    have hcut : Utf8.Clean r.text (r.ending.bytes ++ (rows.flatMap Row.bytes ++ last)) := by
      cases r.ending with
      | lineFeed | carriageReturn | pair | formFeed =>
        exact Utf8.clean_of_ascii_right (by decide) _ _
    rw [h.text_eq_cons, Utf8.chars_append_of_clean hcut,
      ruled_append (fun c hc => isBreak_eq_false_of_mem_chars hplain hc),
      ruled_break h.head?_ne, ih h.tail, Utf8.flatMap_encode_chars, prepend, List.append_nil]
    rfl

/-- The lines of a ruled text, repaired, are what is read up to its end. -/
theorem Ruled.upTo_ended (h : Ruled t rows last) :
    upTo .ended (ruled (Utf8.chars t)) = (texts rows last).map Utf8.repaired := by
  rw [h.ruled_chars, upTo, texts, List.map_append, List.map_map]
  by_cases hlast : last = []
  · rw [if_pos hlast, if_pos (Utf8.repaired_eq_nil_iff.mpr hlast), List.map_nil, List.append_nil]
    rfl
  · rw [if_neg hlast, if_neg (mt Utf8.repaired_eq_nil_iff.mp hlast)]
    rfl

/-- A line as it is written, with a break behind it or without. -/
def written (t : Text) (ending : Option LineBreak) : Text := t ++ ending.elim [] LineBreak.bytes

/-- A line that is written on its own is the only one, unless nothing is written at all. -/
theorem lines_written {d : Disk} (hne : t ≠ []) (ht : IsPlain t) (ending : Option LineBreak) :
    Feed.lines d (.text (written t ending) none) = [Utf8.repaired t] := by
  cases ending with
  | none =>
    have hruled : Ruled (t ++ []) [] t := ⟨List.append_nil t, List.forall_mem_nil _, ht, .nil⟩
    have hlines := hruled.upTo_ended
    rw [texts, if_neg hne] at hlines
    exact hlines
  -- as one row, and nothing behind it
  | some b =>
    have hruled : Ruled (Row.bytes ⟨t, b⟩ ++ []) [⟨t, b⟩] [] :=
      .cons (.nil isPlain_nil) ht fun _ => by decide
    rw [List.append_nil] at hruled
    exact hruled.upTo_ended

end Line

/-! ## Reading line after line

  `answer` counts requests.  A reader may be asked more often than it has lines, and its answers are
  told for every request, those behind the last line included. -/

namespace Reader

/-- What the `n`-th request for a line is answered with, counted from zero. -/
def answer (d : Disk) : Nat → Reader → Line
  | 0, r => (readLine d r).1
  | n + 1, r => answer d n (readLine d r).2

variable {d : Disk} {r : Reader}

/-- At the end of the input a reader stays there. -/
theorem Delivers.ended {cs : List Char} {e : Stop} {seen : Text} {r' : Reader}
    (h : r.Delivers d cs e) (hread : Reader.readLineFrom d seen r = (.ended, r')) :
    r'.Delivers d [] e := by
  -- only the first case ends without a line
  fun_induction Reader.readLineFrom d seen r generalizing cs with
  | case1 seen r rest hn =>
    have hnext := h.next
    rw [hn] at hnext
    obtain ⟨-, -, hrest⟩ := hnext
    rw [← (Prod.mk.inj hread).2]
    exact hrest
  | case2 | case3 | case4 => cases hread
  | case5 seen r c rest hn hc hr ih =>
    have hnext := h.next
    rw [hn] at hnext
    obtain ⟨cs', rfl, hrest⟩ := hnext
    exact ih hrest hread

/-- Asked again and again, a reader answers with its lines, and then always with the end. -/
theorem Yields.answer_eq {ls : List Text} (h : r.Yields d ls .ended) (n : Nat) :
    answer d n r = ls[n]?.elim .ended .text := by
  induction n generalizing r ls with
  | zero =>
    cases ls with
    | nil => exact h.readLine_nil
    | cons l ls =>
      obtain ⟨r', hread, -⟩ := h.readLine_cons
      rw [answer, hread]
      rfl
  | succ n ih =>
    cases ls with
    | nil =>
      have hend : (readLine d r).1 = .ended := h.readLine_nil
      obtain ⟨cs, hcs, -⟩ := h
      have hread : readLineFrom d [] r = (.ended, (readLine d r).2) := Prod.ext hend rfl
      have hrest : (readLine d r).2.Yields d [] .ended := ⟨[], hcs.ended hread, rfl⟩
      exact ih hrest
    | cons l ls =>
      obtain ⟨r', hread, hrest⟩ := h.readLine_cons
      rw [answer, hread]
      exact ih hrest

/-- **A reader answers with the rows of its text**, whatever the breaks that end them.  If the text
    is not valid, every stray byte is replaced. -/
theorem answers_rows (d : Disk) (f : Feed) (hf : f.finale d = .ended) :
    (∀ rows last, Line.Ruled (f.bytes d) rows last →
      (∀ l ∈ Line.texts rows last, Utf8.isValid l = true) →
      ∀ n, answer d n { feed := f } = (Line.texts rows last)[n]?.elim .ended .text) ∧
    ∃ rows last ls, Line.Ruled (f.bytes d) rows last ∧
      ls = (Line.texts rows last).map Utf8.repaired ∧
      (∀ n, answer d n { feed := f } = ls[n]?.elim .ended .text) ∧
      (∀ l ∈ ls, Line.IsPlain l) ∧
      ls.length = Line.breakCount (f.bytes d) + if last = [] then 0 else 1 := by
  have hyields := yields_of_feed d f
  rw [Feed.lines, hf] at hyields
  constructor
  · intro rows last hruled hvalid n
    have hrepaired : (Line.texts rows last).map Utf8.repaired = Line.texts rows last :=
      (List.map_congr_left fun l hl => Utf8.repaired_of_isValid (hvalid l hl)).trans
        (List.map_id' _)
    rw [hruled.upTo_ended, hrepaired] at hyields
    exact hyields.answer_eq n
  -- any bytes: the rows are those of some ruling
  · obtain ⟨rows, last, hruled⟩ := Line.exists_ruled (f.bytes d)
    rw [hruled.upTo_ended] at hyields
    refine ⟨rows, last, _, hruled, rfl, hyields.answer_eq, hyields.isPlain, ?_⟩
    rw [List.length_map, Line.length_texts, hruled.breakCount_eq]

/-- The ends of chunks cut a pair in two and part a carriage return from a form feed. -/
theorem answers_rows_of_chunks :
    let d := Disk.empty []
    let p : Puller :=
      ⟨[Text.lit "a\r", Text.lit "\nb\r", Text.lit "\x0c\r\n"], Text.lit "c"⟩
    Feed.finale d (.chunks p [] false) = .ended ∧
      (List.range 7).map (answer d · { feed := .chunks p [] false }) =
        [.text (Text.lit "a"), .text (Text.lit "b"), .text [], .text [], .text (Text.lit "c"),
          .ended, .ended] := by
  intro d p
  have hruled : Line.Ruled (Feed.bytes d (.chunks p [] false))
      [⟨Text.lit "a", .pair⟩, ⟨Text.lit "b", .carriageReturn⟩, ⟨[], .formFeed⟩, ⟨[], .pair⟩]
      (Text.lit "c") :=
    ⟨by decide, by decide, by decide, by decide⟩
  have hanswer := (answers_rows d (.chunks p [] false) rfl).1 _ _ hruled (by decide)
  refine ⟨rfl, ?_⟩
  rw [List.map_congr_left fun n _ => hanswer n]
  rfl

end Reader
end Pushdown
