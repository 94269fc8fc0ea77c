/-
  Lists of lines as sources.

  The elements of a list are put one behind the other, each with a break of its own or with a line
  feed, and the text is cut into lines again.  Where an element ends in a carriage return and the
  next one is empty, or a line feed alone, the two breaks are one, and the second element is lost
  (`Row.fuse`); every line behind it has a number that is too small (`Lexer.listed_lines_lost`).
  Where this does not happen, the lines are the elements, each with its own number
  (`Lexer.listed_lines`).

  An element is a line with at most one break, at its end.  It is meant to be the row with this
  break, or with a line feed (`Element.row`), and that is what is written for it
  (`terminated_bytes`).  So reading a list is reading rows that need not be apart, and
  `Row.ruled_fuse` says which rows are read: they are gone through from the left, and a row that
  fuses with the one in front of it makes that one end in a pair.

  A row that was lost does not fuse with what is behind it, since the pair that it has become part
  of ends with its line feed.  So no two rows are lost in a row, and the recursion leaves out the
  second of two rows at once.
-/
import Pushdown.Disk.Edit
import Pushdown.Proofs.Lexer.TokenLines

namespace Pushdown

open Text (lit)

/-! ## Rows with breaks that fuse

  Rows are put one after the other, and a break at the end of one can fuse with a break that opens
  the next.  `fuse` leaves out the rows that are lost by it. -/

namespace Row

/-- Rows as they are read: a row that fuses with the one in front of it is lost. -/
def fuse : List Row → List Row
  | r :: s :: rows =>
    if r.Fuses s then ⟨r.text, .pair⟩ :: fuse rows else r :: fuse (s :: rows)
  | rows => rows

variable {rows : List Row}

/-- Rows of which none fuses are read as they are. -/
theorem fuse_eq_self (h : rows.IsChain fun r s => ¬ r.Fuses s) : fuse rows = rows := by
  induction h with
  | nil => rfl
  | singleton r => rfl
  | cons_cons hr _ ih => rw [fuse, if_neg hr, ih]

/-- The lines that are not lost are in order. -/
theorem sublist_fuse (rows : List Row) : ((fuse rows).map text).Sublist (rows.map text) := by
  fun_induction fuse rows with
  | case1 r s rows hr ih => exact (ih.cons s.text).cons_cons r.text
  | case2 r s rows hr ih => exact ih.cons_cons r.text
  | case3 rows => exact .refl _

/-- No row is added. -/
theorem length_fuse_le (rows : List Row) : (fuse rows).length ≤ rows.length := by
  have hle := (sublist_fuse rows).length_le
  rwa [List.length_map, List.length_map] at hle

/-- No row is lost exactly if no two rows fuse. -/
theorem length_fuse_eq_iff :
    (fuse rows).length = rows.length ↔ rows.IsChain fun r s => ¬ r.Fuses s := by
  refine ⟨fun hlen => ?_, fun h => congrArg List.length (fuse_eq_self h)⟩
  fun_induction fuse rows with
  -- one row is lost, and none is added behind it
  | case1 r s rows hr ih =>
    have hle := length_fuse_le rows
    rw [List.length_cons, List.length_cons, List.length_cons] at hlen
    omega
  | case2 r s rows hr ih => exact List.isChain_cons_cons.mpr ⟨hr, ih (Nat.succ_inj.mp hlen)⟩
  | case3 rows hshort =>
    cases rows with
    | nil => exact .nil
    | cons r rows =>
      cases rows with
      | nil => exact .singleton r
      | cons s rows => exact absurd rfl (hshort r s rows)

/-- Put one behind the other, rows are read as they fuse. -/
theorem ruled_fuse (h : ∀ r ∈ rows, Line.IsPlain r.text) :
    Line.Ruled (rows.flatMap bytes) (fuse rows) [] := by
  fun_induction fuse rows with
  | case1 r s rows hr ih =>
    obtain ⟨hending, rfl⟩ := hr
    obtain ⟨hr, hrows⟩ := List.forall_mem_cons.mp h
    have hrest := ih (List.forall_mem_cons.mp hrows).2
    -- ⟨[], .lineFeed⟩ :: rows).flatMap bytes = :: the bytes of the two rows are those of one with a
    -- pair
    have hbytes : (r :: ⟨[], .lineFeed⟩ :: rows).flatMap bytes =
        bytes ⟨r.text, .pair⟩ ++ rows.flatMap bytes := by
      simp only [List.flatMap_cons, bytes, hending, LineBreak.bytes, List.append_assoc,
        List.cons_append, List.nil_append]
    have hpair : LineBreak.pair ≠ .carriageReturn := by decide
    rw [hbytes]
    exact hrest.cons hr (absurd · hpair)
  | case2 r s rows hr ih =>
    obtain ⟨hplain, hrows⟩ := List.forall_mem_cons.mp h
    have hs : Line.IsPlain s.text := hrows s List.mem_cons_self
    exact (ih hrows).cons hplain fun hending =>
      head?_ne_of_not_fuses hr hs hending (rows.flatMap bytes)
  | case3 rows hshort =>
    cases rows with
    | nil => exact .nil Line.isPlain_nil
    | cons r rows =>
      cases rows with
      | nil =>
        have hr : Line.IsPlain r.text := h r List.mem_cons_self
        exact Line.Ruled.cons (.nil Line.isPlain_nil) hr fun _ => by decide
      | cons s rows => exact absurd rfl (hshort r s rows)

end Row

/-! ## Elements

  An element is a line with its break, or without one, which is then supplied. -/

/-- An element of a list of lines: a line, possibly with a break at its end. -/
structure Element where
  text : Text
  ending : Option LineBreak
  deriving DecidableEq, Repr

namespace Element

/-- The text of the element, as it is listed. -/
def bytes (e : Element) : Text := Line.written e.text e.ending

/-- The row that the element is meant to be. -/
def row (e : Element) : Row := ⟨e.text, e.ending.getD .lineFeed⟩

/-- An element keeps its break, or gets a line feed. -/
theorem terminated_bytes {e : Element} (h : Line.IsPlain e.text) :
    Source.terminated e.bytes = e.row.bytes := by
  obtain ⟨t, ending⟩ := e
  cases ending with
  | none =>
    have hopen : t.getLast?.any Source.isBreak = false := by
      cases hlast : t.getLast? with
      | none => rfl
      | some b => exact h b (List.mem_of_getLast? hlast)
    rw [bytes, Line.written, Option.elim_none, List.append_nil, Source.terminated, hopen]
    rfl
  | some b =>
    have hclosed : (t ++ b.bytes).getLast?.any Source.isBreak = true := by
      rw [List.getLast?_append]
      cases b with
      | lineFeed | carriageReturn | pair | formFeed => rfl
    rw [bytes, Line.written, Option.elim_some, Source.terminated, hclosed]
    rfl

/-- The elements one behind the other are their rows. -/
theorem flatMap_terminated {es : List Element} (h : ∀ e ∈ es, Line.IsPlain e.text) :
    (es.map bytes).flatMap Source.terminated = (es.map row).flatMap Row.bytes := by
  rw [List.flatMap_map, List.flatMap_map, List.flatMap_def, List.flatMap_def,
    List.map_congr_left fun e he => terminated_bytes (h e he)]

/-- A row has the text of its element. -/
theorem map_text_row (es : List Element) : (es.map row).map Row.text = es.map text := by
  rw [List.map_map]
  rfl

/-- The lines that are read of some elements. -/
def lines (es : List Element) : List Text := (Row.fuse (es.map row)).map Row.text

/-- Are the elements read as they are? -/
def Apart (es : List Element) : Prop := (es.map row).IsChain fun r s => ¬ r.Fuses s

/-- Elements that are apart are read as they are. -/
theorem lines_eq {es : List Element} (h : Apart es) : lines es = es.map text := by
  rw [lines, Row.fuse_eq_self h, map_text_row]

/-- They are apart if and only if none is lost. -/
theorem length_lines_eq_iff {es : List Element} : (lines es).length = es.length ↔ Apart es := by
  rw [lines, List.length_map, Apart, ← Row.length_fuse_eq_iff, List.length_map]

/-- Each line is that of some element. -/
theorem mem_of_mem_lines {es : List Element} {t : Text} (h : t ∈ lines es) :
    ∃ e ∈ es, e.text = t := by
  have hmem := (Row.sublist_fuse (es.map row)).mem h
  rw [map_text_row] at hmem
  exact List.mem_map.mp hmem

/-- What a source that is made of the elements has ahead. -/
theorem lines_feed {es : List Element} (hplain : ∀ e ∈ es, Line.IsPlain e.text)
    (hvalid : ∀ e ∈ es, Utf8.isValid e.text = true) (d : Disk) :
    Feed.lines d (.text ((es.map bytes).flatMap Source.terminated) none) = lines es := by
  have hruled : Line.Ruled ((es.map row).flatMap Row.bytes) (Row.fuse (es.map row)) [] :=
    Row.ruled_fuse (List.forall_mem_map.mpr hplain)
  -- valid elements are not repaired
  have hrepaired : ∀ t ∈ lines es, Utf8.repaired t = t := by
    intro t ht
    obtain ⟨e, he, rfl⟩ := mem_of_mem_lines ht
    exact Utf8.repaired_of_isValid (hvalid e he)
  have hlines := hruled.upTo_ended
  rw [Line.texts, if_pos rfl, List.append_nil] at hlines
  rw [flatMap_terminated hplain]
  exact hlines.trans ((List.map_congr_left hrepaired).trans (List.map_id' _))

end Element

/-! ## Lists of lines

  What is read are the fused rows, and none is lost if and only if no two of them fuse. -/

namespace Lexer

variable (d : Disk) (path : SearchPath) (warnUnknown : Bool) (name : Text)

/-- **A list of lines is read element by element, except for what fuses.**  There are as many lines
    as elements exactly if no element that ends in a carriage return is in front of one that is just
    a line feed, or nothing; then the lines are the elements.  The tokens of the lines are seen at
    their numbers, unless directives change them. -/
theorem listed_lines {es : List Element} (hplain : ∀ e ∈ es, Line.IsPlain e.text)
    (hvalid : ∀ e ∈ es, Utf8.isValid e.text = true) :
    (∃ r, (Source.ofLines name (es.map Element.bytes)).origin = .reading r ∧
      ∀ n, r.answer d n = (Element.lines es)[n]?.elim .ended .text) ∧
    ((Element.lines es).length = es.length ↔ Element.Apart es) ∧
    (Element.Apart es → Element.lines es = es.map Element.text) ∧
    ((∀ e ∈ es, Line.HoldsTokens e.text) →
      (transcript d ((new path warnUnknown).session
        [(d, .add (.lines name (es.map Element.bytes)))])).view =
          (Line.sightings name 1 (Element.lines es),
            ⟨none, ⟨name, Int64.ofNat (Element.lines es).length⟩, 0⟩)) := by
  have hlines := Element.lines_feed hplain hvalid d
  refine ⟨⟨_, rfl, fun n => ?_⟩, Element.length_lines_eq_iff, Element.lines_eq, fun htokens => ?_⟩
  · have hyields := Reader.yields_of_feed d
      (.text ((es.map Element.bytes).flatMap Source.terminated) none)
    rw [hlines] at hyields
    exact hyields.answer_eq n
  · have hahead : (Input.lines name (es.map Element.bytes)).ahead d =
        .lines (Element.lines es) .ended := by
      rw [Input.ahead, Feed.ahead, hlines]
      rfl
    refine view_of_lines d path warnUnknown hahead fun t ht => ?_
    obtain ⟨e, he, rfl⟩ := Element.mem_of_mem_lines ht
    exact htokens e he

/-- Breaks of all sorts, none of which fuses with the one in front of it. -/
theorem listed_lines_apart :
    let d := Disk.empty []
    let es : List Element := [⟨lit "a", some .carriageReturn⟩, ⟨[], some .pair⟩, ⟨[], none⟩,
      ⟨[], some .formFeed⟩, ⟨lit "b", none⟩]
    es.map Element.bytes = [lit "a\r", lit "\r\n", [], lit "\x0c", lit "b"] ∧
      Element.lines es = [lit "a", [], [], [], lit "b"] ∧
      (transcript d ((new [] false).session
        [(d, .add (.lines (lit "l") (es.map Element.bytes)))])).tokens =
          [⟨⟨lit "NAME", lit "a"⟩, ⟨lit "l", 1⟩, 1⟩, ⟨⟨lit "NAME", lit "b"⟩, ⟨lit "l", 5⟩, 1⟩] := by
  intro d es
  have hplain : ∀ e ∈ es, Line.IsPlain e.text := by decide
  have ha : Lexeme.Word .name (lit "a") := .name (by decide) (List.forall_mem_nil _)
  have hb : Lexeme.Word .name (lit "b") := .name (by decide) (List.forall_mem_nil _)
  obtain ⟨-, -, hlines, hview⟩ := listed_lines d [] false (lit "l") hplain (by decide)
  have hread := hlines (by unfold Element.Apart; decide)
  have hholds : ∀ e ∈ es, Line.HoldsTokens e.text := by
    simp only [es, List.forall_mem_cons]
    exact ⟨Line.holdsTokens_of_word ha (by decide), Line.holdsTokens_nil, Line.holdsTokens_nil,
      Line.holdsTokens_nil, Line.holdsTokens_of_word hb (by decide), List.forall_mem_nil _⟩
  have htokens := congrArg Prod.fst (hview hholds)
  refine ⟨by decide, hread, htokens.trans ?_⟩
  rw [hread]
  simp only [es, Line.sightings, List.map_cons, List.map_nil, List.zipIdx_cons, List.zipIdx_nil,
    List.flatMap_cons, List.flatMap_nil, Line.tokens_nil, Line.tokens_of_word ha (by decide) rfl,
    Line.tokens_of_word hb (by decide) rfl]
  rfl

/-- An empty element behind a carriage return is lost: the third element is read as line two. -/
theorem listed_lines_lost :
    let d := Disk.empty []
    let i : Input := .lines (lit "l") [lit "a\r", [], lit "b"]
    i.ahead d = .lines [lit "a", lit "b"] .ended ∧
      (transcript d ((new [] false).session [(d, .add i)])).tokens =
        [⟨⟨lit "NAME", lit "a"⟩, ⟨lit "l", 1⟩, 1⟩, ⟨⟨lit "NAME", lit "b"⟩, ⟨lit "l", 2⟩, 1⟩] := by
  intro d i
  have ha : Lexeme.Word .name (lit "a") := .name (by decide) (List.forall_mem_nil _)
  have hb : Lexeme.Word .name (lit "b") := .name (by decide) (List.forall_mem_nil _)
  have hahead : i.ahead d = .lines [lit "a", lit "b"] .ended := by
    let es : List Element := [⟨lit "a", some .carriageReturn⟩, ⟨[], none⟩, ⟨lit "b", none⟩]
    have hplain : ∀ e ∈ es, Line.IsPlain e.text := by decide
    have hlines := Element.lines_feed hplain (by decide) d
    exact congrArg (Ahead.lines · .ended) hlines
  have hview := view_of_lines d [] false hahead (List.forall_mem_cons.mpr
    ⟨Line.holdsTokens_of_word ha (by decide), List.forall_mem_singleton.mpr
      (Line.holdsTokens_of_word hb (by decide))⟩)
  refine ⟨hahead, (congrArg Prod.fst hview).trans ?_⟩
  simp only [Line.sightings, List.zipIdx_cons, List.zipIdx_nil, List.flatMap_cons,
    List.flatMap_nil, Line.tokens_of_word ha (by decide) rfl, Line.tokens_of_word hb (by decide) rfl]
  rfl

end Lexer
end Pushdown
