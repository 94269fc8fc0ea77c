/-
  The lexer computes the expansion of its input.

  `Expands` is the expansion of a source by recursion on its lines, as a big-step relation.  The
  tokens of a line are seen at the number of the line.  A `#line` changes the position, and so the
  number and name of what follows.  An `#include` stands for the whole expansion of the file, one
  level deeper; the lines behind it go on at the position that they would have had anyway.
  `ExpandsAll` strings the expansions of all inputs together.

  The lexer has a stack of half-read sources instead, each with its reader, its counters and what is
  left of its line, and delivers one token at a time.  The two agree for all inputs
  (`transcript_iff_expandsAll`):

  * `Expands.shows`: a derivation for the innermost source makes the lexer deliver what it says, and
    leaves everything below that source alone;
  * `hasExpansion`: every lexer at the start of a line has a derivation.  The derivation for an
    included file is found first; running it shows where the lexer goes on.

  The expansion is a relation and not a function.  A recursion on lines and included files would
  have to be justified in the definition, by the very argument that makes the lexer end; as a
  relation it is free of all that, and its rules can be read one by one.  That each input has
  exactly one expansion follows from the two halves: there is one, and it is what the lexer shows.

  Errors are seen at a place too.  A source that fails has left the stack by then, and so the place
  is that of the line around it, or its own if it is an input; everything else is reported at the
  current line, with the source still in use.  These places are part of the rules, as is the depth,
  which is counted from the sources around.

  The induction for `Expands.shows` is on the derivation, for all lexers that match it.  The lexer
  below an included file is another one than that of the line, with one source more; so stack, open
  files and locations around are arguments of the relation, and the two are only said to agree.
-/
import Pushdown.Proofs.Lexer.Content

namespace Pushdown

open Text (lit)

/-! ## The expansion

  The rules follow the lines that are ahead, with one rule for each thing that a line can hold.
  `opened` are the identities of the files being expanded, and `outer` the places of the sources
  around; an `#include` adds to both for the lines of the file alone. -/

/-- Where a source is: its display name, the number of its current line and that of the next. -/
structure Position where
  name : Text
  line : Int64 := 0
  next : Int64 := 1

namespace Position

/-- The place that is seen of a position. -/
def location (p : Position) : Location := ⟨p.name, p.line⟩

/-- One line further. -/
def advanced (p : Position) : Position := { p with line := p.next, next := p.next + 1 }

/-- The position after `#line`; an empty name changes nothing. -/
def renumbered (p : Position) (n : Int) (name : Text) : Position :=
  ⟨if name = [] then p.name else name, Int64.ofInt n, Int64.ofInt n⟩

end Position

/-- What is ahead of a source: a file to be opened, or lines and a stop behind them. -/
inductive Ahead where
  | unopened (path : Text)
  | lines (ls : List Text) (e : Stop)

/-- What a feed has ahead. -/
def Feed.ahead (d : Disk) (f : Feed) : Ahead := .lines (f.lines d) (f.finale d)

/-- `Expands d path opened outer pos ahead out r`: a source at `pos` with `ahead` left expands to
    the sightings `out`.  It comes to its end at the location `r`, or an error `r` ends everything.
    The files being expanded have the identities `opened`; the sources around this one stand at
    `outer`, innermost first. -/
inductive Expands (d : Disk) (path : SearchPath) :
    List Text → List Location → Position → Ahead → List Sighting → Except Halt Location → Prop where
  /-- A file is opened when its first line is needed. -/
  | opened {opened outer pos p i out r} (h : d.lookup p = .ok i)
      (rest : Expands d path opened outer pos (Feed.ahead d (.file p i 0)) out r) :
      Expands d path opened outer pos (.unopened p) out r
  | unopenable {opened outer pos p f} (h : d.lookup p = .error f) :
      Expands d path opened outer pos (.unopened p) []
        (.error ⟨some ⟨.error, ⟨pos.name, 0⟩, lit "open " ++ pos.name ++ lit ": " ++ f.message,
          some .sourceOpen⟩, outer.headD pos.location, outer.length⟩)
  | ended {opened outer pos} :
      Expands d path opened outer pos (.lines [] .ended) [] (.ok pos.location)
  | unreadable {opened outer pos m} :
      Expands d path opened outer pos (.lines [] (.failed m)) []
        (.error ⟨some ⟨.error, pos.location, m, some (.other m)⟩,
          outer.headD pos.location, outer.length⟩)
  /-- The tokens of a line are seen at the number of the line. -/
  | tokens {opened outer pos t ls e ts out r} (h : Content.ofLine t = .tokens ts none)
      (rest : Expands d path opened outer pos.advanced (.lines ls e) out r) :
      Expands d path opened outer pos (.lines (t :: ls) e)
        (ts.map (⟨·, pos.advanced.location, outer.length + 1⟩) ++ out) r
  | malformedNumber {opened outer pos t ls e ts m} (h : Content.ofLine t = .tokens ts (some m)) :
      Expands d path opened outer pos (.lines (t :: ls) e)
        (ts.map (⟨·, pos.advanced.location, outer.length + 1⟩))
        (.error ⟨some ⟨.error, pos.advanced.location, m, none⟩,
          pos.advanced.location, outer.length + 1⟩)
  | malformedDirective {opened outer pos t ls e f} (h : Content.ofLine t = .directive (.error f)) :
      Expands d path opened outer pos (.lines (t :: ls) e) []
        (.error ⟨some ⟨.error, pos.advanced.location, f.message, some .malformedDirective⟩,
          pos.advanced.location, outer.length + 1⟩)
  | comment {opened outer pos t keyword ls e out r}
      (h : Content.ofLine t = .directive (.ok (.comment keyword)))
      (rest : Expands d path opened outer pos.advanced (.lines ls e) out r) :
      Expands d path opened outer pos (.lines (t :: ls) e) out r
  /-- The next line gets the given number and name. -/
  | lineNumber {opened outer pos t name ls e n out r}
      (h : Content.ofLine t = .directive (.ok (.lineNumber n name)))
      (rest : Expands d path opened outer (pos.advanced.renumbered n name) (.lines ls e) out r) :
      Expands d path opened outer pos (.lines (t :: ls) e) out r
  | includeLoop {opened outer pos t name ls e}
      (h : Content.ofLine t = .directive (.ok (.includeFile name)))
      (hmem : d.canonical (path.resolve d name) ∈ opened) :
      Expands d path opened outer pos (.lines (t :: ls) e) []
        (.error ⟨some ⟨.error, pos.advanced.location,
            lit "include loop: " ++ path.resolve d name ++ lit " is already open",
            some .includeLoop⟩, pos.advanced.location, outer.length + 1⟩)
  /-- The file is expanded one level deeper; then the source goes on with its next line. -/
  | includes {opened outer pos t name ls e inner out loc r}
      (h : Content.ofLine t = .directive (.ok (.includeFile name)))
      (hmem : d.canonical (path.resolve d name) ∉ opened)
      (sub : Expands d path (d.canonical (path.resolve d name) :: opened)
        (pos.advanced.location :: outer) { name := path.resolve d name }
        (.unopened (path.resolve d name)) inner (.ok loc))
      (rest : Expands d path opened outer pos.advanced (.lines ls e) out r) :
      Expands d path opened outer pos (.lines (t :: ls) e) (inner ++ out) r
  | includeFails {opened outer pos t name ls e inner halt}
      (h : Content.ofLine t = .directive (.ok (.includeFile name)))
      (hmem : d.canonical (path.resolve d name) ∉ opened)
      (sub : Expands d path (d.canonical (path.resolve d name) :: opened)
        (pos.advanced.location :: outer) { name := path.resolve d name }
        (.unopened (path.resolve d name)) inner (.error halt)) :
      Expands d path opened outer pos (.lines (t :: ls) e) inner (.error halt)

namespace Input

/-- The display name of an input. -/
def name : Input → Text
  | .text name _ | .lines name _ | .failing name _ _ | .chunks name _ => name
  | .file path => path

/-- What an input has ahead. -/
def ahead (d : Disk) : Input → Ahead
  | .text _ t => Feed.ahead d (.text t none)
  | .lines _ ls => Feed.ahead d (.text (ls.flatMap Source.terminated) none)
  | .failing _ t message => Feed.ahead d (.text t (some message))
  | .chunks _ puller => Feed.ahead d (.chunks puller [] false)
  | .file path => .unopened path

/-- The identity of an input that is a file. -/
def identity (d : Disk) : Input → List Text
  | .file path => [d.canonical path]
  | _ => []

end Input

/-- `ExpandsAll d path last inputs out halt`: the inputs expand one after the other to `out`, and
    `halt` is what is seen at the end.  Without any input that is the location `last`. -/
inductive ExpandsAll (d : Disk) (path : SearchPath) :
    Location → List Input → List Sighting → Halt → Prop where
  | nil {last} : ExpandsAll d path last [] [] ⟨none, last, 0⟩
  | cons {last loc i is out out' halt}
      (h : Expands d path (i.identity d) [] { name := i.name } (i.ahead d) out (.ok loc))
      (rest : ExpandsAll d path loc is out' halt) :
      ExpandsAll d path last (i :: is) (out ++ out') halt
  | fails {last i is out halt}
      (h : Expands d path (i.identity d) [] { name := i.name } (i.ahead d) out (.error halt)) :
      ExpandsAll d path last (i :: is) out halt

/-! ## Sources at the start of a line

  `At` says that a source is where a rule begins: at a position, with some lines ahead of it and
  nothing left of the last one.  `OnLine` says it of the innermost source of a lexer, one line
  later. -/

namespace Source

/-- The position of a source. -/
def position (s : Source) : Position := ⟨s.name, s.line, s.next⟩

/-- The reader of a source, which is opened if need be. -/
def reader (d : Disk) (s : Source) : Except Fault Reader :=
  match s.origin with
  | .reading r => .ok r
  | .unopened path => (d.lookup path).map fun i => { feed := .file path i 0 }

/-- What the reader of a source has ahead. -/
def Holds (d : Disk) (s : Source) : Ahead → Prop
  | .unopened path => s.origin = .unopened path
  | .lines ls e => ∃ r, s.reader d = .ok r ∧ r.Yields d ls e

/-- `s.At d pos ahead`: `s` stands at `pos`, between two lines, with `ahead` left. -/
structure At (d : Disk) (s : Source) (pos : Position) (ahead : Ahead) : Prop where
  scan_eq : s.scan = none
  position_eq : s.position = pos
  holds : s.Holds d ahead

variable {d : Disk} {s : Source} {pos : Position}

/-- A source that is asked for a line reads it from its reader, or cannot be opened. -/
theorem advance_eq (d : Disk) (s : Source) :
    s.advance d = match s.reader d with
      | .ok r => s.readLine d r
      | .error f => .unopenable f := by
  unfold advance reader
  cases s.origin with
  | reading r => rfl
  | unopened path => cases hlookup : d.lookup path <;> simp only [hlookup, Except.map]

/-- Opening the file of a source. -/
theorem At.opened {path : Text} {i : Nat} (h : s.At d pos (.unopened path))
    (hlookup : d.lookup path = .ok i) : s.At d pos (Feed.ahead d (.file path i 0)) := by
  obtain ⟨hscan, hpos, horigin⟩ := h
  have hreader : s.reader d = .ok { feed := .file path i 0 } := by
    have horigin' : s.origin = .unopened path := horigin
    simp only [reader, horigin', hlookup, Except.map]
  exact ⟨hscan, hpos, _, hreader, Reader.yields_of_feed d _⟩

/-- A file that is about to be included has all of itself ahead, unopened. -/
theorem at_ofFile (d : Disk) (path : Text) :
    (ofFile d path).At d { name := path } (.unopened path) := ⟨rfl, rfl, rfl⟩

/-- An input that was just added is before its first line, with all of itself ahead. -/
theorem at_source (d : Disk) (i : Input) : (i.source d).At d { name := i.name } (i.ahead d) := by
  cases i with
  | file path => exact at_ofFile d path
  | _ => exact ⟨rfl, rfl, _, rfl, Reader.yields_of_feed d _⟩

end Source

namespace Lexer

variable {d : Disk} {l : Lexer} {s : Source} {below : List Source} {pos : Position}

/-- The lexer after the innermost source, with the identity `key`, has come to its end at `loc`. -/
def leave (l : Lexer) (below : List Source) (key : Option Text) (loc : Location) : Lexer :=
  { l with stack := below, opened := withoutKey l.opened key, last := loc }

/-- After a source was left, the place is that of the line around it, or its own last one. -/
theorem leave_location (l : Lexer) (below : List Source) (key : Option Text) (loc : Location) :
    (l.leave below key loc).location = (below.map Source.location).headD loc := by
  cases below <;> rfl

/-- Without a line in progress, a step asks for the next one. -/
theorem step_advance (hl : l.stack = s :: below) (hscan : s.scan = none) :
    step d l = l.advance d s := by
  rw [step, hl]
  simp only [hscan]

/-- An included file that has come to its end leaves the lexer as it was. -/
theorem leave_push {s' : Source} {path : Text} (hl : l.stack = s :: below)
    (hmem : d.canonical path ∉ l.opened) (loc : Location) :
    ((l.withTop s').push (.ofFile d path)).leave (s' :: below) (some (d.canonical path)) loc =
      { l.withTop s' with last := loc } := by
  have hopened : withoutKey (withKey l.opened (some (d.canonical path))) (some (d.canonical path)) =
      l.opened := by
    rw [withKey, if_neg hmem, withoutKey_cons hmem]
  simp only [leave, push, withTop, hl, Source.ofFile, hopened, List.tail_cons]

/-- `s` has read the line `t`: it stands at `pos` on top of `below`, with the line to be scanned and
    the lines `ls` left. -/
structure OnLine (d : Disk) (l : Lexer) (s : Source) (below : List Source) (key : Option Text)
    (pos : Position) (t : Text) (ls : List Text) (e : Stop) : Prop where
  stack_eq : l.stack = s :: below
  scan_eq : s.scan = some ⟨t, true⟩
  key_eq : s.key = key
  position_eq : s.position = pos
  holds : s.Holds d (.lines ls e)
  isPlain : Line.IsPlain t

namespace OnLine

variable {key : Option Text} {t : Text} {ls : List Text} {e : Stop}

/-- The source is at the number of its line. -/
theorem location_eq (h : OnLine d l s below key pos t ls e) : s.location = pos.location :=
  congrArg Position.location h.position_eq

/-- The depth counts the source and those below it. -/
theorem depth_eq (h : OnLine d l s below key pos t ls e) : l.depth = below.length + 1 :=
  congrArg List.length h.stack_eq

/-- Once the line is used up, the source is ready for the next one. -/
theorem next (h : OnLine d l s below key pos t ls e) :
    Source.At d { s with scan := none } pos (.lines ls e) := ⟨rfl, h.position_eq, h.holds⟩

/-- After a `#line`, the source is ready for the next line at the new position. -/
theorem renumbered (h : OnLine d l s below key pos t ls e) (n : Int) (name : Text) :
    Source.At d
      { s with
        name := if name = [] then s.name else name
        line := Int64.ofInt n, next := Int64.ofInt n, scan := none }
      (pos.renumbered n name) (.lines ls e) := by
  obtain rfl := h.position_eq
  exact ⟨rfl, rfl, h.holds⟩

/-- An included file goes on top of its source, which is not moved by that. -/
theorem nested (h : OnLine d l s below key pos t ls e) {path : Text}
    (hmem : d.canonical path ∉ l.opened) :
    ((l.withTop { s with scan := some ⟨[], false⟩ }).push (.ofFile d path)).stack =
        .ofFile d path :: { s with scan := some ⟨[], false⟩ } :: below ∧
      ((l.withTop { s with scan := some ⟨[], false⟩ }).push (.ofFile d path)).opened =
        d.canonical path :: l.opened ∧
      ({ s with scan := some ⟨[], false⟩ } :: below).map Source.location =
        pos.location :: below.map Source.location := by
  refine ⟨?_, if_neg hmem, ?_⟩
  · rw [push, withTop_stack h.stack_eq]
  · rw [← h.location_eq]
    rfl

/-- When the file has come to its end, the source finds its line used up. -/
theorem resumes (h : OnLine d l s below key pos t ls e) {path : Text}
    (hmem : d.canonical path ∉ l.opened) (loc : Location) :
    (((l.withTop { s with scan := some ⟨[], false⟩ }).push (.ofFile d path)).leave
        ({ s with scan := some ⟨[], false⟩ } :: below) (some (d.canonical path)) loc).Shows d []
      (.ok { l.withTop { s with scan := none } with last := loc }) := by
  rw [leave_push h.stack_eq hmem]
  have hblank := shows_blank (d := d)
    (l := { l.withTop { s with scan := some ⟨[], false⟩ } with last := loc })
    (withTop_stack h.stack_eq { s with scan := some ⟨[], false⟩ }) rfl
  exact hblank

end OnLine

/-- The next line is read. -/
theorem step_line {t : Text} {ls : List Text} {e : Stop} (hl : l.stack = s :: below)
    (h : s.At d pos (.lines (t :: ls) e)) :
    ∃ s', step d l = .more (l.withTop s') none ∧
      OnLine d (l.withTop s') s' below s.key pos.advanced t ls e := by
  obtain ⟨hscan, rfl, r, hreader, hyields⟩ := h
  obtain ⟨r', hread, hyields'⟩ := hyields.readLine_cons
  refine ⟨{ s with
      origin := .reading r', line := s.next, next := s.next + 1, scan := some ⟨t, true⟩ }, ?_,
    withTop_stack hl _, rfl, rfl, rfl, ⟨r', rfl, hyields'⟩,
    hyields.isPlain t List.mem_cons_self⟩
  rw [step_advance hl hscan, advance, Source.advance_eq, hreader]
  simp only [Source.readLine, hread]

/-- At the end of its input, a source is left. -/
theorem step_ended (hl : l.stack = s :: below) (h : s.At d pos (.lines [] .ended)) :
    step d l = .more (l.leave below s.key pos.location) none := by
  obtain ⟨hscan, rfl, r, hreader, hyields⟩ := h
  have hread : r.readLine d = (.ended, (r.readLine d).2) := Prod.ext hyields.readLine_nil rfl
  rw [step_advance hl hscan, advance, Source.advance_eq, hreader]
  simp only [Source.readLine]
  rw [hread]
  simp only [withTop, pop, hl]
  rfl

/-- So is a source that cannot be read on, with an error at its last line. -/
theorem step_unreadable {m : Text} (hl : l.stack = s :: below)
    (h : s.At d pos (.lines [] (.failed m))) :
    step d l = .done (.error ⟨.error, pos.location, m, some (.other m)⟩)
      (l.leave below s.key pos.location) := by
  obtain ⟨hscan, rfl, r, hreader, hyields⟩ := h
  have hread : r.readLine d = (.failed m, (r.readLine d).2) := Prod.ext hyields.readLine_nil rfl
  rw [step_advance hl hscan, advance, Source.advance_eq, hreader]
  simp only [Source.readLine]
  rw [hread]
  simp only [withTop, pop, hl]
  rfl

/-- So is a file that cannot be opened, with an error that has no line. -/
theorem step_unopenable {path : Text} {f : Fault} (hl : l.stack = s :: below)
    (h : s.At d pos (.unopened path)) (hlookup : d.lookup path = .error f) :
    step d l = .done (.error ⟨.error, ⟨pos.name, 0⟩,
      lit "open " ++ pos.name ++ lit ": " ++ f.message, some .sourceOpen⟩)
      (l.leave below s.key pos.location) := by
  obtain ⟨hscan, rfl, horigin⟩ := h
  have horigin' : s.origin = .unopened path := horigin
  rw [step_advance hl hscan, advance, Source.advance]
  simp only [horigin', hlookup, pop, hl]
  rfl

end Lexer

/-! ## Expansions run

  The easy half: a derivation is followed by the lexer, rule by rule.  For an `#include` the
  derivation of the file comes first, and it leaves the lexer where the rest of the line's file goes
  on. -/

/-- **A derivation runs.**  It makes a lexer deliver what it says, and then the innermost source is
    taken off and nothing else has changed. -/
theorem Expands.shows {d : Disk} {path : SearchPath} {opened : List Text} {outer : List Location}
    {pos : Position} {ahead : Ahead} {out : List Sighting} {r : Except Halt Location}
    (h : Expands d path opened outer pos ahead out r) :
    ∀ {l : Lexer} {s : Source} {below : List Source}, l.stack = s :: below → l.path = path →
      l.opened = opened → below.map Source.location = outer → s.At d pos ahead →
      l.Shows d out (r.map (l.leave below s.key)) := by
  induction h with
  | opened hlookup rest ih =>
    intro l s below hl hpath hopened houter hs
    exact ih hl hpath hopened houter (hs.opened hlookup)
  | unopenable hlookup =>
    rintro l s below hl hpath hopened rfl hs
    have hshow := Lexer.Shows.fail (Lexer.step_unopenable hl hs hlookup)
    rw [Lexer.leave_location] at hshow
    rw [List.length_map]
    exact hshow
  | ended =>
    intro l s below hl hpath hopened houter hs
    exact .quiet (Lexer.step_ended hl hs) .arrive
  | unreadable =>
    rintro l s below hl hpath hopened rfl hs
    have hshow := Lexer.Shows.fail (Lexer.step_unreadable hl hs)
    rw [Lexer.leave_location] at hshow
    rw [List.length_map]
    exact hshow
  | tokens h rest ih =>
    rintro l s below hl hpath hopened rfl hs
    obtain ⟨s', hstep, hline⟩ := Lexer.step_line hl hs
    have htokens := Lexer.shows_tokens (d := d) hline.stack_eq hline.scan_eq hline.isPlain h
    rw [hline.location_eq, hline.depth_eq] at htokens
    have hrest := ih (Lexer.withTop_stack hl _) hpath hopened rfl hline.next
    rw [← hline.key_eq, List.length_map]
    exact .quiet hstep (htokens.trans hrest)
  | malformedNumber h =>
    -- the tokens in front of the number are delivered before the lexer halts
    rintro l s below hl hpath hopened rfl hs
    obtain ⟨s', hstep, hline⟩ := Lexer.step_line hl hs
    have htokens := Lexer.shows_tokens (d := d) hline.stack_eq hline.scan_eq hline.isPlain h
    rw [Lexer.afterTokens, hline.location_eq, hline.depth_eq] at htokens
    rw [List.length_map]
    exact .quiet hstep htokens
  | malformedDirective h =>
    rintro l s below hl hpath hopened rfl hs
    obtain ⟨s', hstep, hline⟩ := Lexer.step_line hl hs
    have hfail := Lexer.shows_malformed (d := d) hline.stack_eq hline.scan_eq hline.isPlain h
    rw [hline.location_eq, hline.depth_eq] at hfail
    rw [List.length_map]
    exact .quiet hstep hfail
  | comment h rest ih =>
    rintro l s below hl hpath hopened rfl hs
    obtain ⟨s', hstep, hline⟩ := Lexer.step_line hl hs
    have hquiet := Lexer.shows_comment (d := d) hline.stack_eq hline.scan_eq hline.isPlain h
    have hrest := ih (Lexer.withTop_stack hl _) hpath hopened rfl hline.next
    rw [← hline.key_eq]
    exact .quiet hstep (hquiet.trans hrest)
  | lineNumber h rest ih =>
    rintro l s below hl hpath hopened rfl hs
    obtain ⟨s', hstep, hline⟩ := Lexer.step_line hl hs
    have hquiet := Lexer.shows_lineNumber (d := d) hline.stack_eq hline.scan_eq hline.isPlain h
    -- the lines behind it are those of the same source, under another name and number
    have hrest := ih (Lexer.withTop_stack hl _) hpath hopened rfl (hline.renumbered _ _)
    rw [← hline.key_eq]
    exact .quiet hstep (hquiet.trans hrest)
  | includeLoop h hmem =>
    rintro l s below hl rfl rfl rfl hs
    obtain ⟨s', hstep, hline⟩ := Lexer.step_line hl hs
    have hfail := Lexer.shows_includeLoop (d := d) hline.stack_eq hline.scan_eq hline.isPlain h hmem
    rw [hline.location_eq, hline.depth_eq] at hfail
    rw [List.length_map]
    exact .quiet hstep hfail
  | @includes opened outer pos t name ls e inner out loc r h hmem sub rest ihsub ih =>
    rintro l s below hl rfl rfl rfl hs
    obtain ⟨s', hstep, hline⟩ := Lexer.step_line hl hs
    have hpush := Lexer.step_push (d := d) hline.stack_eq hline.scan_eq hline.isPlain h hmem
    obtain ⟨hl₂, hopened₂, houter₂⟩ := hline.nested hmem
    -- the file runs on top of the source, which then finds its line used up
    have hinner := ihsub hl₂ rfl hopened₂ houter₂ (Source.at_ofFile d _)
    have hresume := hline.resumes hmem loc
    have hrest := ih (l := { l.withTop { s' with scan := none } with last := loc })
      (Lexer.withTop_stack hl _) rfl rfl rfl hline.next
    rw [← hline.key_eq]
    exact .quiet hstep (.quiet hpush (hinner.trans (hresume.trans hrest)))
  | includeFails h hmem sub ih =>
    rintro l s below hl rfl rfl rfl hs
    obtain ⟨s', hstep, hline⟩ := Lexer.step_line hl hs
    have hpush := Lexer.step_push (d := d) hline.stack_eq hline.scan_eq hline.isPlain h hmem
    obtain ⟨hl₂, hopened₂, houter₂⟩ := hline.nested hmem
    have hinner := ih hl₂ rfl hopened₂ houter₂ (Source.at_ofFile d _)
    exact .quiet hstep (.quiet hpush hinner)

/-! ## Every source has an expansion

  The other half goes by the order in which steps descend.  A lexer at the start of a line takes at
  least one step before it is at the start of another one, and so the lines that come later have a
  derivation already.  For an `#include` this is used twice, for the file and for what comes behind
  it. -/

namespace Lexer

/-- The innermost source has an expansion if it is at the start of a line. -/
def HasExpansion (d : Disk) (l : Lexer) : Prop :=
  ∀ {s : Source} {below : List Source} {pos : Position} {ahead : Ahead},
    l.stack = s :: below → s.At d pos ahead →
    ∃ out r, Expands d l.path l.opened (below.map Source.location) pos ahead out r

variable {d : Disk} {l : Lexer} {s : Source} {below : List Source} {key : Option Text}
  {pos : Position} {t : Text} {ls : List Text} {e : Stop}

/-- An `#include` has an expansion if the file has one, and the lines behind it. -/
theorem exists_expands_include {name : Text} (hline : OnLine d l s below key pos.advanced t ls e)
    (hc : Content.ofLine t = .directive (.ok (.includeFile name)))
    (ih : ∀ {out : List Sighting} {l' : Lexer}, l.Shows d out (.ok l') → l'.HasExpansion d) :
    ∃ out r,
      Expands d l.path l.opened (below.map Source.location) pos (.lines (t :: ls) e) out r := by
  by_cases hmem : d.canonical (l.path.resolve d name) ∈ l.opened
  · exact ⟨_, _, .includeLoop hc hmem⟩
  · have hpush := step_push (d := d) hline.stack_eq hline.scan_eq hline.isPlain hc hmem
    obtain ⟨hl, hopened, houter⟩ := hline.nested hmem
    obtain ⟨inner, r, hsub⟩ := ih (.quiet hpush .arrive) hl (Source.at_ofFile d _)
    cases r with
    | error halt =>
      rw [hopened, houter] at hsub
      exact ⟨_, _, .includeFails hc hmem hsub⟩
    | ok loc =>
      -- running the derivation for the file leads to the line behind the directive
      have hinner := hsub.shows hl rfl rfl rfl (Source.at_ofFile d _)
      have hshow := hinner.trans (hline.resumes hmem loc)
      obtain ⟨out, r, hrest⟩ :=
        ih (.quiet hpush hshow) (withTop_stack hline.stack_eq _) hline.next
      rw [hopened, houter] at hsub
      exact ⟨_, _, .includes hc hmem hsub hrest⟩

/-- A line has an expansion if the lines behind it have one. -/
theorem exists_expands_line (hline : OnLine d l s below key pos.advanced t ls e)
    (ih : ∀ {out : List Sighting} {l' : Lexer}, l.Shows d out (.ok l') → l'.HasExpansion d) :
    ∃ out r,
      Expands d l.path l.opened (below.map Source.location) pos (.lines (t :: ls) e) out r := by
  have hl := hline.stack_eq
  have hscan := hline.scan_eq
  have hplain := hline.isPlain
  match hc : Content.ofLine t with
  | .tokens ts none =>
    have hshow := shows_tokens (d := d) hl hscan hplain hc
    obtain ⟨out, r, hrest⟩ := ih hshow (withTop_stack hl _) hline.next
    exact ⟨_, _, .tokens hc hrest⟩
  | .tokens ts (some m) => exact ⟨_, _, .malformedNumber hc⟩
  | .directive (.error f) => exact ⟨_, _, .malformedDirective hc⟩
  | .directive (.ok (.comment keyword)) =>
    have hshow := shows_comment (d := d) hl hscan hplain hc
    obtain ⟨out, r, hrest⟩ := ih hshow (withTop_stack hl _) hline.next
    exact ⟨_, _, .comment hc hrest⟩
  | .directive (.ok (.lineNumber n name)) =>
    have hshow := shows_lineNumber (d := d) hl hscan hplain hc
    obtain ⟨out, r, hrest⟩ := ih hshow (withTop_stack hl _) (hline.renumbered n name)
    exact ⟨_, _, .lineNumber hc hrest⟩
  | .directive (.ok (.includeFile name)) => exact exists_expands_include hline hc ih

/-- **Every lexer at the start of a line has an expansion**, since its steps come to an end. -/
theorem hasExpansion (d : Disk) (l : Lexer) : l.HasExpansion d := by
  induction l using (spends_wellFounded d).transGen.induction with
  | _ l ih =>
    intro s below pos ahead hl hs
    have hlines : ∀ {ls : List Text} {e : Stop}, s.At d pos (.lines ls e) → ∃ out r,
        Expands d l.path l.opened (below.map Source.location) pos (.lines ls e) out r := by
      intro ls e hs
      cases ls with
      | nil =>
        cases e with
        | ended => exact ⟨_, _, .ended⟩
        | failed m => exact ⟨_, _, .unreadable⟩
      | cons t ls =>
        obtain ⟨s', hstep, hline⟩ := step_line hl hs
        -- wherever the line leads, there is less left than before it was read
        have hexpands := exists_expands_line hline fun hshow =>
          ih _ (.tail' hshow.spends (spends_of_more hstep))
        exact hexpands
    cases ahead with
    | lines ls e => exact hlines hs
    | unopened p =>
      cases hlookup : d.lookup p with
      | error f => exact ⟨_, _, .unopenable hlookup⟩
      | ok i =>
        obtain ⟨out, r, h⟩ := hlines (hs.opened hlookup)
        exact ⟨_, _, .opened hlookup h⟩

/-! ## All inputs

  Inputs wait in their order, and the first one is put on the stack when the stack is empty.  Only
  the place where the last one ended is left of an input. -/

/-- A lexer between two inputs: its stack is empty and the inputs wait. -/
structure Awaits (d : Disk) (l : Lexer) (path : SearchPath) (last : Location)
    (inputs : List Input) : Prop where
  stack_eq : l.stack = []
  opened_eq : l.opened = []
  path_eq : l.path = path
  last_eq : l.last = last
  pending_eq : l.pending = inputs.map (Input.source d)

variable {path : SearchPath} {last : Location} {i : Input} {is inputs : List Input}

/-- Starting an input opens its identity if it is a file, and ending it closes it again. -/
theorem withKey_identity (d : Disk) (i : Input) :
    withKey [] (i.source d).key = i.identity d ∧
      withoutKey (i.identity d) (i.source d).key = [] := by
  cases i with
  | file path => exact ⟨rfl, withoutKey_cons List.not_mem_nil⟩
  | _ => exact ⟨rfl, rfl⟩

/-- The first input is started, expands and is taken off. -/
theorem Awaits.shows {out : List Sighting} {r : Except Halt Location}
    (h : l.Awaits d path last (i :: is))
    (hexp : Expands d path (i.identity d) [] { name := i.name } (i.ahead d) out r) :
    ∃ next : Location → Lexer, l.Shows d out (r.map next) ∧
      ∀ loc, (next loc).Awaits d path loc is := by
  obtain ⟨hstack, hopened, rfl, -, hpending⟩ := h
  obtain ⟨hkey, hkey'⟩ := withKey_identity d i
  have hstep : step d l =
      .more ({ l with pending := is.map (Input.source d) }.push (i.source d)) none := by
    rw [step, hstack, hpending]
    rfl
  have hl : ({ l with pending := is.map (Input.source d) }.push (i.source d)).stack =
      [i.source d] := by
    rw [push, hstack]
  have hkeys : ({ l with pending := is.map (Input.source d) }.push (i.source d)).opened =
      i.identity d := by
    rw [← hkey, push, hopened]
  have hshow := hexp.shows hl rfl hkeys rfl (Source.at_source d i)
  refine ⟨_, .quiet hstep hshow, fun loc => ⟨rfl, ?_, rfl, rfl, rfl⟩⟩
  show withoutKey (withKey l.opened (i.source d).key) (i.source d).key = []
  rw [hopened, hkey, hkey']

/-- All inputs have an expansion together. -/
theorem exists_expandsAll (d : Disk) (path : SearchPath) (inputs : List Input) :
    ∀ last, ∃ out halt, ExpandsAll d path last inputs out halt := by
  induction inputs with
  | nil => exact fun last => ⟨_, _, .nil⟩
  | cons i is ih =>
    intro last
    -- an expansion does not depend on the lexer: any one with this input on top will do
    obtain ⟨out, r, h⟩ := hasExpansion d
      { stack := [i.source d], opened := i.identity d, path } rfl (Source.at_source d i)
    cases r with
    | error halt => exact ⟨_, _, .fails h⟩
    | ok loc =>
      obtain ⟨out', halt, hrest⟩ := ih loc
      exact ⟨_, _, .cons h hrest⟩

/-- The expansion of all inputs is what is seen. -/
theorem Awaits.view {out : List Sighting} {halt : Halt} (h : l.Awaits d path last inputs)
    (hexp : ExpandsAll d path last inputs out halt) : (transcript d l).view = (out, halt) := by
  induction hexp generalizing l with
  | @nil last =>
    have husedUp : l.IsUsedUp := ⟨h.stack_eq, h.pending_eq⟩
    rw [view_of_isUsedUp husedUp, h.last_eq]
  | @cons last loc i is out out' halt hexp rest ih =>
    obtain ⟨next, hshow, hnext⟩ := h.shows hexp
    rw [hshow.view]
    show (out ++ (transcript d (next loc)).view.1, (transcript d (next loc)).view.2) = _
    rw [ih (hnext loc)]
  | fails hexp =>
    obtain ⟨next, hshow, -⟩ := h.shows hexp
    rw [hshow.view]
    simp [Except.map, outlook]

/-- Adding inputs makes them wait, in their order. -/
theorem session_add (d : Disk) (l : Lexer) (inputs : List Input) :
    l.session (inputs.map fun i => (d, .add i)) =
      { l with pending := l.pending ++ inputs.map (Input.source d) } := by
  induction inputs generalizing l with
  | nil => simp [session]
  | cons i is ih =>
    have hadd := ih (l.add (i.source d))
    simp only [add, List.append_assoc] at hadd
    exact hadd

/-- A lexer with its inputs is between two of them, before the first one. -/
theorem awaits_session (d : Disk) (path : SearchPath) (warnUnknown : Bool) (inputs : List Input) :
    ((new path warnUnknown).session (inputs.map fun i => (d, .add i))).Awaits d path {} inputs := by
  rw [session_add]
  exact ⟨rfl, rfl, rfl, rfl, rfl⟩

/-- **The lexer computes the expansion of its input**: on an unchanging disk, what is seen of a
    lexer with some inputs is the expansion of these inputs, and nothing else is. -/
theorem transcript_iff_expandsAll (d : Disk) (path : SearchPath) (warnUnknown : Bool)
    (inputs : List Input) (out : List Sighting) (halt : Halt) :
    let t := transcript d ((new path warnUnknown).session (inputs.map fun i => (d, .add i)))
    t.tokens = out ∧ t.halt = halt ↔ ExpandsAll d path {} inputs out halt := by
  intro t
  have hawaits := awaits_session d path warnUnknown inputs
  constructor
  · rintro ⟨rfl, rfl⟩
    obtain ⟨out, halt, hexp⟩ := exists_expandsAll d path inputs {}
    have hview : (t.tokens, t.halt) = (out, halt) := hawaits.view hexp
    obtain ⟨rfl, rfl⟩ := Prod.mk.inj hview
    exact hexp
  · intro hexp
    have hview : (t.tokens, t.halt) = (out, halt) := hawaits.view hexp
    exact Prod.mk.inj hview

end Lexer
end Pushdown
