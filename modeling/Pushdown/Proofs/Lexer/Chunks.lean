/-
  Chunks are read like the text that they make up.

  What a reader reads is told from the bytes of its feed alone (`Reader.Yields`), and the bytes of
  chunks are those of the text.  So a lexer over chunks and a lexer over the text take the same
  steps.  Their sources differ at most in their readers, and such readers have the same lines ahead
  (`Source.Twins`); whatever is done with the two lexers, the same is seen (`Twins.watch_eq`).

  The puller is asked while portions are fetched.  The loop that asks it, `Feed.supply`, keeps each
  answer beside the feed that it leads to, and a fetch delivers from that very feed; so the answers
  of `Feed.calls` are those that the fetch was made with.  `Feed.Asks` collects them over a run of
  fetches.  They are the chunks in their order, and there is no call after the one that delivers the
  last chunk (`Asks.isPrefix`).

  That nothing but fetching is done with a feed is one lemma for each function of the reader, for
  any property that fetches preserve (`Reader.feed_readLine`).  It is used twice:

  * for feeds in memory, which have the same bytes on every disk (`Feed.InMemory`);
  * for feeds that a session has fetched from, and the answers collected on the way
    (`Source.Fetches`).

  Twins are allowed to differ in more than one source, and in sources that are not on the stack yet,
  since a session can add several inputs.  A source that is exhausted or cannot be read leaves the
  stack at once, and so nothing has to be known of its reader behind its last line: the two readers
  may be left with different feeds then.
-/
import Pushdown.Proofs.Lexer.Sources

namespace Pushdown

open Text (lit)

/-! ## Asking for chunks

  A puller answers with a chunk and whether there may be more.  `later` are the answers that are
  still to come from a feed, and a fetch takes some of them off the front, as many as it asks
  for. -/

namespace Puller

/-- All answers of a puller, the last of which says so. -/
def answers (p : Puller) : List (Text × Bool) := p.chunks.map (·, true) ++ [(p.final, false)]

end Puller

namespace Feed

variable {f g : Feed} {d : Disk} {limit : Nat} {log : List (Text × Bool)}

/-- `f.Asks log g`: some portions are fetched from `f`, which leads to `g`, and the puller has given
    the answers `log` to that. -/
inductive Asks (f : Feed) : List (Text × Bool) → Feed → Prop
  | none : Asks f [] f
  | fetch {log : List (Text × Bool)} {g : Feed} (h : Asks f log g) (d : Disk) (limit : Nat) :
      Asks f (log ++ g.calls) (g.fetch d limit).feed

/-- The feed behind a portion is made from how much of the text was taken. -/
theorem exists_feed_portion (limit : Nat) (t : Text) (rest : Nat → Feed) (s : Stop) :
    ∃ n, (portion limit t rest s).feed = rest n := by
  unfold portion
  split
  · exact ⟨0, rfl⟩
  · exact ⟨_, rfl⟩

/-- The answers that are still to come. -/
def later (puller : Puller) (done : Bool) : List (Text × Bool) :=
  if done then [] else puller.answers

/-- **Chunks are asked for** in their order: the answers are the next ones of the puller, and the
    others are still to come.  Nothing is asked for behind the answer that names the last chunk,
    since none is to come then. -/
theorem later_supply (puller : Puller) (current : Text) (done : Bool) :
    ∃ puller' current' done',
      (supply puller current done).2 = .chunks puller' current' done' ∧
        later puller done = (supply puller current done).1 ++ later puller' done' := by
  fun_induction supply puller current done with
  | case1 puller current done h answer rest ih =>
    -- the chunk at hand is used up and more may come, so there is one more answer
    obtain ⟨puller', current', done', hready, hlater⟩ := ih
    refine ⟨puller', current', done', hready, ?_⟩
    have hfirst : later puller done = answer :: later puller.pull.2 (!answer.2) := by
      obtain ⟨_ | ⟨c, cs⟩, final⟩ := puller <;> rw [h.2] <;> rfl
    rw [hfirst, hlater]
    rfl
  | case2 puller current done h => exact ⟨puller, current, done, rfl, rfl⟩

/-- One fetch takes its calls off the answers to come. -/
theorem fetch_chunks (d : Disk) (limit : Nat) (puller : Puller) (current : Text) (done : Bool) :
    ∃ puller' current' done', ((chunks puller current done).fetch d limit).feed =
        .chunks puller' current' done' ∧
      later puller done = (chunks puller current done).calls ++ later puller' done' := by
  obtain ⟨puller', current', done', hready, hlater⟩ := later_supply puller current done
  -- what is delivered is taken off the chunk at hand, and nobody is asked for it
  obtain ⟨n, hn⟩ := exists_feed_portion limit current'
    (fun n => .chunks puller' (current'.drop n) done') .ended
  refine ⟨puller', current'.drop n, done', ?_, hlater⟩
  rw [fetch, ready, hready]
  exact hn

/-- **The answers come in order, and each of them once.** -/
theorem Asks.exists_later {p : Puller} (h : (chunks p [] false).Asks log g) :
    ∃ puller current done, g = .chunks puller current done ∧
      p.answers = log ++ later puller done := by
  induction h with
  | none => exact ⟨p, [], false, rfl, rfl⟩
  | fetch h d limit ih =>
    obtain ⟨puller, current, done, rfl, hanswers⟩ := ih
    obtain ⟨puller', current', done', hfeed, hlater⟩ := fetch_chunks d limit puller current done
    exact ⟨puller', current', done', hfeed, by rw [hanswers, hlater, List.append_assoc]⟩

/-- What a puller was asked for so far is a prefix of all that it answers.  The last of its answers
    is the only one that says so. -/
theorem Asks.isPrefix {p : Puller} (h : (chunks p [] false).Asks log g) : log <+: p.answers := by
  obtain ⟨puller, current, done, -, hanswers⟩ := h.exists_later
  exact ⟨later puller done, hanswers.symm⟩

/-! ## Feeds in memory

  A text and chunks are in memory: what they deliver does not depend on a disk.  A file does, and so
  two feeds of files are only compared when they are the same. -/

/-- The feed does not read from a disk. -/
def InMemory : Feed → Prop
  | .file _ _ _ => False
  | _ => True

/-- Fetching does not bring in a disk. -/
theorem InMemory.fetch (h : f.InMemory) (d : Disk) (limit : Nat) :
    (f.fetch d limit).feed.InMemory := by
  cases f with
  | text t failure =>
    have hfeed : ∃ n, ((text t failure).fetch d limit).feed = .text (t.drop n) failure :=
      exists_feed_portion limit t (fun n => .text (t.drop n) failure) _
    obtain ⟨n, hn⟩ := hfeed
    rw [hn]
    trivial
  | chunks puller current done =>
    obtain ⟨puller', current', done', hfeed, -⟩ := fetch_chunks d limit puller current done
    rw [hfeed]
    trivial
  | file => exact h.elim

/-- What is in memory has the same bytes on all disks. -/
theorem InMemory.bytes_eq (h : f.InMemory) (d d' : Disk) : f.bytes d = f.bytes d' := by
  cases f with
  | file => exact h.elim
  | _ => rfl

/-- It also stops for the same reason on all disks. -/
theorem InMemory.finale_eq (h : f.InMemory) (d d' : Disk) : f.finale d = f.finale d' := by
  cases f with
  | text t failure => cases failure <;> rfl
  | chunks => rfl
  | file => exact h.elim

end Feed

/-! ## Readers

  What a reader does to its feed is to fetch from it, and whatever fetches preserve is preserved by
  reading.  `Holds` says what a reader in memory delivers on every disk. -/

namespace Reader

section Fetching

variable {P : Feed → Prop} (hP : ∀ f d limit, P f → P (f.fetch d limit).feed) {r : Reader}
include hP

/-- Filling the buffer does nothing with the feed but fetch from it. -/
theorem feed_fillUpTo (d : Disk) (n : Nat) (h : P r.feed) : P (fillUpTo d n r).feed := by
  induction n generalizing r with
  | zero => exact h
  | succ n ih =>
    unfold fillUpTo
    split
    · have hfetch := hP r.feed d (capacity - r.buffer.length) h
      split
      · rename_i b t feed hb
        rw [hb] at hfetch
        exact ih hfetch
      · rename_i s feed hs
        rw [hs] at hfetch
        exact hfetch
    · exact h

/-- Nor does taking a character. -/
theorem feed_next {d : Disk} (h : P r.feed) :
    match next d r with
    | .char _ rest => P rest.feed
    | .stop _ rest => P rest.feed := by
  have hfill : P (fill d r).feed := feed_fillUpTo hP d 4 h
  unfold next
  dsimp only
  cases (fill d r).buffer <;> exact hfill

/-- Nor does looking for a line feed. -/
theorem feed_skipNewline (d : Disk) (h : P r.feed) : P (skipNewline d r).feed := by
  have hnext := feed_next hP (d := d) h
  unfold skipNewline
  split
  · rename_i c rest hn
    rw [hn] at hnext
    split
    · exact hnext
    · exact feed_fillUpTo hP d 4 h
  · rename_i s rest hn
    rw [hn] at hnext
    exact hnext

/-- Nor does reading the rest of a line. -/
theorem feed_readLineFrom (d : Disk) (seen : Text) (h : P r.feed) :
    P (readLineFrom d seen r).2.feed := by
  fun_induction readLineFrom d seen r with
  | case1 seen r rest hn =>
    have hnext := feed_next hP (d := d) h
    rwa [hn] at hnext
  | case2 seen r message rest hn =>
    have hnext := feed_next hP (d := d) h
    rwa [hn] at hnext
  | case3 seen r c rest hn hc =>
    have hnext := feed_next hP (d := d) h
    rwa [hn] at hnext
  | case4 seen r rest hn hc =>
    have hnext := feed_next hP (d := d) h
    rw [hn] at hnext
    exact feed_skipNewline hP d hnext
  | case5 seen r c rest hn hc hr ih =>
    have hnext := feed_next hP (d := d) h
    rw [hn] at hnext
    exact ih hnext

/-- **Readers do nothing with a feed but fetch from it.** -/
theorem feed_readLine (d : Disk) (h : P r.feed) : P (readLine d r).2.feed :=
  feed_readLineFrom hP d [] h

end Fetching

variable {d d' : Disk} {r : Reader} {l : Text} {ls : List Text} {e : Stop}

/-- What a reader in memory has ahead does not depend on a disk. -/
theorem Yields.of_inMemory (h : r.Yields d ls e) (hr : r.feed.InMemory) (d' : Disk) :
    r.Yields d' ls e := by
  obtain ⟨cs, ⟨hchars, hfinale, hstop⟩, hls⟩ := h
  rw [hr.bytes_eq d d'] at hchars hstop
  rw [hr.finale_eq d d'] at hfinale
  exact ⟨cs, ⟨hchars, hfinale, hstop⟩, hls⟩

/-- `r.Holds ls e`: the reader has the lines `ls` in memory, and the stop `e` behind them. -/
structure Holds (r : Reader) (ls : List Text) (e : Stop) : Prop where
  inMemory : r.feed.InMemory
  yields : ∀ d, r.Yields d ls e

/-- A reader over a feed in memory holds the lines of the feed. -/
theorem holds_of_feed {f : Feed} (h : f.InMemory) (d : Disk) :
    Holds { feed := f } (f.lines d) (f.finale d) :=
  ⟨h, (yields_of_feed d f).of_inMemory h⟩

/-- Reading a line takes the first one off those that are held. -/
theorem Holds.readLine_cons (h : r.Holds (l :: ls) e) (d : Disk) :
    ∃ r', readLine d r = (.text l, r') ∧ r'.Holds ls e := by
  obtain ⟨r', hr', hyields⟩ := (h.yields d).readLine_cons
  -- the bytes behind the line are in memory like those before
  have hmemory : r'.feed.InMemory := by
    have hread := feed_readLine (P := Feed.InMemory) (fun f d limit hf => hf.fetch d limit) d
      h.inMemory
    rwa [hr'] at hread
  exact ⟨r', hr', hmemory, hyields.of_inMemory hmemory⟩

end Reader

/-! ## Sources with the same lines ahead

  Twins have the same name, the same counters and the same rest of a line.  Only their readers
  differ, and these have the same lines ahead on every disk. -/

/-- Readers that hold the same lines, or else the same origin. -/
inductive Origin.Twins : Origin → Origin → Prop
  | same {o : Origin} : Twins o o
  | held {r r' : Reader} {ls : List Text} {e : Stop} (h : r.Holds ls e) (h' : r'.Holds ls e) :
      Twins (.reading r) (.reading r')

namespace Source

/-- Sources that differ at most in their readers, and these hold the same lines. -/
inductive Twins (s : Source) : Source → Prop
  | mk {o : Origin} (h : s.origin.Twins o) : Twins s { s with origin := o }

/-- Two sources are asked for a line, and the same comes of it.  When no line is left, what has
    become of the readers is not seen any more. -/
inductive Advance.Twins : Advance → Advance → Prop
  | line {s s' : Source} (h : s.Twins s') : Twins (.line s) (.line s')
  | exhausted {s : Source} {o : Origin} : Twins (.exhausted s) (.exhausted { s with origin := o })
  | unopenable {f : Fault} : Twins (.unopenable f) (.unopenable f)
  | unreadable {s : Source} {o : Origin} {m : Text} :
      Twins (.unreadable s m) (.unreadable { s with origin := o } m)

variable {s s' : Source}

/-- A source is its own twin. -/
theorem Twins.refl (s : Source) : s.Twins s := .mk .same

/-- A step of a source is its own twin. -/
theorem Advance.Twins.refl (a : Advance) : a.Twins a := by
  cases a with
  | line s => exact .line (.refl s)
  | exhausted s => exact .exhausted (o := s.origin)
  | unopenable f => exact .unopenable
  | unreadable s m => exact .unreadable (o := s.origin)

/-- Twins that are asked for a line stay twins, or leave the stack for the same reason. -/
theorem Twins.advance (h : s.Twins s') (d : Disk) : (s.advance d).Twins (s'.advance d) := by
  cases h with
  | @mk o ho =>
    obtain ⟨name, line, next, origin, key, scan⟩ := s
    cases ho with
    | same => exact .refl _
    | @held r r' ls e hr hr' =>
      cases ls with
      | cons l ls =>
        obtain ⟨r₁, hread, hr₁⟩ := hr.readLine_cons d
        obtain ⟨r₁', hread', hr₁'⟩ := hr'.readLine_cons d
        simp only [Source.advance, readLine, hread, hread']
        exact .line (.mk (.held hr₁ hr₁'))
      -- no line is left, and the reason is all that is seen
      | nil =>
        have hread : r.readLine d = (.ofStop e, (r.readLine d).2) :=
          Prod.ext (hr.yields d).readLine_nil rfl
        have hread' : r'.readLine d = (.ofStop e, (r'.readLine d).2) :=
          Prod.ext (hr'.yields d).readLine_nil rfl
        simp only [Source.advance, readLine]
        rw [hread, hread']
        cases e with
        | ended => exact .exhausted
        | failed m => exact .unreadable

/-- A feed in memory and a text with the same bytes. -/
theorem twins_ofFeed {f g : Feed} (hf : f.InMemory) (hg : g.InMemory) {d : Disk}
    (hbytes : f.bytes d = g.bytes d) (hfinale : f.finale d = g.finale d) (name : Text) :
    (ofFeed name f).Twins (ofFeed name g) := by
  have hholds := Reader.holds_of_feed hg d
  rw [Feed.lines, ← hbytes, ← hfinale] at hholds
  exact .mk (.held (Reader.holds_of_feed hf d) hholds)

end Source

/-! ## Lexers with the same lines ahead

  A lexer works with its sources in a few ways only, and in each of them twins remain twins.  What a
  step reports comes from what they have in common. -/

namespace Lexer

/-- Lexers whose sources differ at most in their readers, and these hold the same lines. -/
inductive Twins (l : Lexer) : Lexer → Prop
  | mk {stack pending : List Source} (hs : List.Forall₂ Source.Twins l.stack stack)
      (hp : List.Forall₂ Source.Twins l.pending pending) : Twins l { l with stack, pending }

/-- Two steps that do the same, and lead to lexers with the same lines ahead. -/
inductive Step.Twins : Step → Step → Prop
  | more {l l' : Lexer} (h : l.Twins l') (w : Option Diagnostic) : Twins (.more l w) (.more l' w)
  | done {l l' : Lexer} (h : l.Twins l') (outcome : Except Diagnostic Token) :
      Twins (.done outcome l) (.done outcome l')

variable {d : Disk} {l l' : Lexer} {s s' : Source} {below below' : List Source}

/-- A lexer is its own twin. -/
theorem Twins.refl (l : Lexer) : l.Twins l :=
  .mk (List.forall₂_same.mpr fun s _ => .refl s) (List.forall₂_same.mpr fun s _ => .refl s)

/-- The sources in use are twins one by one. -/
theorem Twins.stack (h : l.Twins l') : List.Forall₂ Source.Twins l.stack l'.stack := by
  cases h with
  | mk hs hp => exact hs

/-- So are those to come. -/
theorem Twins.pending (h : l.Twins l') : List.Forall₂ Source.Twins l.pending l'.pending := by
  cases h with
  | mk hs hp => exact hp

/-- Twins have the same files open. -/
theorem Twins.opened_eq (h : l.Twins l') : l'.opened = l.opened := by
  cases h
  rfl

/-- They search the same places. -/
theorem Twins.path_eq (h : l.Twins l') : l'.path = l.path := by
  cases h
  rfl

/-- They warn in the same cases. -/
theorem Twins.warnUnknown_eq (h : l.Twins l') : l'.warnUnknown = l.warnUnknown := by
  cases h
  rfl

/-- Their stacks are equally deep. -/
theorem Twins.depth_eq (h : l.Twins l') : l'.depth = l.depth := h.stack.length_eq.symm

/-- They are at the same place: a location depends on the name and lines of a source only. -/
theorem Twins.location_eq (h : l.Twins l') : l'.location = l.location := by
  cases h with
  | @mk stack pending hs hp =>
    cases hl : l.stack with
    | nil =>
      rw [hl] at hs
      cases hs
      rw [location, location, hl]
    | cons s below =>
      rw [hl] at hs
      cases hs with
      | cons hs =>
        cases hs
        rw [location, location, hl]
        rfl

/-- The same source is put on both stacks. -/
theorem Twins.push (h : l.Twins l') (hs : s.Twins s') : (l.push s).Twins (l'.push s') := by
  cases h with
  | mk hstack hpending =>
    cases hs with
    | mk ho => exact .mk (.cons (.mk ho) hstack) hpending

/-- The same file is included in both, or refused for being open in both. -/
theorem Twins.includeFile (h : l.Twins l') (d : Disk) (name : Text) :
    (l.includeFile d name).Twins (l'.includeFile d name) := by
  by_cases hmem : d.canonical (l.path.resolve d name) ∈ l.opened
  · have hmem' : d.canonical (l'.path.resolve d name) ∈ l'.opened := by
      rw [h.path_eq, h.opened_eq]
      exact hmem
    rw [includeFile_of_mem hmem, includeFile_of_mem hmem', h.path_eq, h.location_eq]
    exact .done h _
  · have hmem' : d.canonical (l'.path.resolve d name) ∉ l'.opened := by
      rw [h.path_eq, h.opened_eq]
      exact hmem
    rw [includeFile_of_not_mem hmem, includeFile_of_not_mem hmem', h.path_eq]
    exact .more (h.push (.refl _)) none

section Steps

variable (h : l.Twins l') (hl : l.stack = s :: below) (hl' : l'.stack = s' :: below')
include h hl hl'

/-- Below the sources on top, the stacks are twins. -/
theorem Twins.tail : List.Forall₂ Source.Twins below below' := by
  have hstack := h.stack
  rw [hl, hl'] at hstack
  cases hstack
  assumption

/-- The sources on top are exchanged for twins. -/
theorem Twins.withTop {t t' : Source} (ht : t.Twins t') : (l.withTop t).Twins (l'.withTop t') := by
  have hbelow := h.tail hl hl'
  cases h with
  | @mk stack pending hs hp =>
    obtain rfl : stack = s' :: below' := hl'
    have htop : l.withTop t = { l with stack := t :: below } := by rw [Lexer.withTop, hl]; rfl
    rw [htop]
    exact .mk (.cons ht hbelow) hp

/-- The sources on top leave the stack. -/
theorem Twins.leave (key : Option Text) (loc : Location) :
    (l.leave below key loc).Twins (l'.leave below' key loc) := by
  have hbelow := h.tail hl hl'
  cases h with
  | mk hs hp => exact .mk hbelow hp

/-- A directive does the same to both: its text is the same, and so is what it says. -/
theorem Twins.directive (hs : s.Twins s') (d : Disk) (text : Text) :
    (l.directive d s text).Twins (l'.directive d s' text) := by
  unfold Lexer.directive
  cases Directive.parse text with
  | error e =>
    rw [h.location_eq]
    exact .done h _
  | ok r =>
    cases r with
    | includeFile name => exact h.includeFile d name
    | lineNumber n name =>
      cases hs with
      | mk ho =>
        have hline : (Source.mk (if name = [] then s.name else name) (Int64.ofInt n) (Int64.ofInt n)
            s.origin s.key s.scan).Twins _ := .mk ho
        exact .more (h.withTop hl hl' hline) none
    | comment keyword =>
      have hwarning : l'.warningHere (lit "unknown directive #" ++ keyword) =
          l.warningHere (lit "unknown directive #" ++ keyword) := by
        rw [warningHere, warningHere, h.location_eq]
      dsimp only
      rw [h.warnUnknown_eq, hwarning]
      exact .more h _

/-- The next lexeme of a line is the same, since the rest of the line is no matter of readers. -/
theorem Twins.cut (hs : s.Twins s') (d : Disk) (scan : Scan) :
    (l.cut d s scan).Twins (l'.cut d s' scan) := by
  have hscan (rest : Option Scan) :
      Source.Twins { s with scan := rest } { s' with scan := rest } := by
    cases hs with
    | mk ho => exact .mk ho
  unfold Lexer.cut
  cases scan.next with
  | none => exact .more (h.withTop hl hl' (hscan none)) none
  | some p =>
    obtain ⟨x, rest⟩ := p
    have htop := h.withTop hl hl' (hscan (some rest))
    dsimp only
    split
    · split
      · exact htop.directive (withTop_stack hl _) (withTop_stack hl' _) (hscan _) d x.text
      · exact .more htop none
    · cases token x with
      | ok t => exact .done htop _
      | error m =>
        have herror : (l'.withTop { s' with scan := some rest }).errorHere m =
            (l.withTop { s with scan := some rest }).errorHere m := by
          rw [errorHere, errorHere, htop.location_eq]
        dsimp only
        rw [herror]
        exact .done htop _

/-- A line used up, both get their next one or leave the source. -/
theorem Twins.advance (hs : s.Twins s') (d : Disk) : (l.advance d s).Twins (l'.advance d s') := by
  have hadvance := hs.advance d
  unfold Lexer.advance
  generalize s.advance d = a, s'.advance d = a' at hadvance
  cases hadvance with
  | line ht => exact .more (h.withTop hl hl' ht) none
  | exhausted =>
    dsimp only
    rw [pop_withTop hl, pop_withTop hl']
    exact .more (h.leave hl hl' _ _) none
  | unopenable =>
    cases hs with
    | mk ho =>
      dsimp only
      rw [pop_eq_leave hl, pop_eq_leave hl']
      exact .done (h.leave hl hl' _ _) _
  | unreadable =>
    dsimp only
    rw [pop_withTop hl, pop_withTop hl']
    exact .done (h.leave hl hl' _ _) _

end Steps

/-- **One step.** -/
theorem Twins.step (h : l.Twins l') (d : Disk) : (Lexer.step d l).Twins (Lexer.step d l') := by
  have hstack := h.stack
  have hpending := h.pending
  rcases hl : l.stack with _ | ⟨s, below⟩ <;> rcases hl' : l'.stack with _ | ⟨s', below'⟩ <;>
    rw [hl, hl'] at hstack
  -- no source is in use: the next one comes from those added, if there is one
  · rcases hp : l.pending with _ | ⟨s, rest⟩ <;> rcases hp' : l'.pending with _ | ⟨s', rest'⟩ <;>
      rw [hp, hp'] at hpending
    · rw [step_of_isUsedUp d ⟨hl, hp⟩, step_of_isUsedUp d ⟨hl', hp'⟩]
      exact .done h _
    · cases hpending
    · cases hpending
    · have hstep : Lexer.step d l = .more ({ l with pending := rest }.push s) none := by
        rw [Lexer.step, hl, hp]
      have hstep' : Lexer.step d l' = .more ({ l' with pending := rest' }.push s') none := by
        rw [Lexer.step, hl', hp']
      cases hpending with
      | cons hs hrest =>
        have htwins : Twins { l with pending := rest } { l' with pending := rest' } := by
          cases h with
          | mk hstack _ => exact .mk hstack hrest
        rw [hstep, hstep']
        exact .more (htwins.push hs) none
  · cases hstack
  · cases hstack
  · cases hstack with
    | cons hs _ =>
      -- the line in progress is the same
      have hscans : s'.scan = s.scan := by
        cases hs
        rfl
      rcases hscan : s.scan with _ | scan
      · rw [step_advance hl hscan, step_advance hl' (hscans.trans hscan)]
        exact h.advance hl hl' hs d
      · rw [step_cut hl hscan, step_cut hl' (hscans.trans hscan)]
        exact h.cut hl hl' hs d scan

/-- Two readings that look the same, and lead to lexers with the same lines ahead. -/
structure Agree (r r' : Reading) : Prop where
  outcome : r'.outcome = r.outcome
  warnings : r'.warnings = r.warnings
  lexer : r.lexer.Twins r'.lexer

/-- **Asking for a token.** -/
theorem Twins.next (h : l.Twins l') (d : Disk) : Agree (Lexer.next d l) (Lexer.next d l') := by
  -- along the steps of the first lexer; those of the other one match them
  induction l using (spends_wellFounded d).induction generalizing l' with
  | _ l ih =>
    have hone := h.step d
    generalize hs : Lexer.step d l = st, hs' : Lexer.step d l' = st' at hone
    cases hone with
    | more h w =>
      rw [next_of_more hs, next_of_more hs']
      obtain ⟨houtcome, hwarnings, hlexer⟩ := ih _ (spends_of_more hs) h
      exact ⟨houtcome, congrArg (w.toList ++ ·) hwarnings, hlexer⟩
    | done h outcome =>
      rw [next_of_done hs, next_of_done hs']
      exact ⟨rfl, rfl, h⟩

/-- Both leave the source on top, if there is one. -/
theorem Twins.pop (h : l.Twins l') : l.pop.Twins l'.pop := by
  have hstack := h.stack
  rcases hl : l.stack with _ | ⟨s, below⟩ <;> rcases hl' : l'.stack with _ | ⟨s', below'⟩ <;>
    rw [hl, hl'] at hstack
  · rw [Lexer.pop, Lexer.pop, hl, hl']
    exact h
  · cases hstack
  · cases hstack
  · cases hstack with
    | cons hs _ =>
      cases hs with
      | mk ho =>
        rw [pop_eq_leave hl, pop_eq_leave hl']
        exact h.leave hl hl' _ _

/-- Both are closed: the sources in use are left one by one, and the others are dropped. -/
theorem Twins.close (h : l.Twins l') : l.close.Twins l'.close := by
  have hpops : ∀ ss ss' : List Source, List.Forall₂ Source.Twins ss ss' → ∀ l l' : Lexer,
      l.Twins l' → (ss.foldl (fun l _ => l.pop) l).Twins (ss'.foldl (fun l _ => l.pop) l') := by
    intro ss ss' hss
    induction hss with
    | nil => exact fun l l' h => h
    | cons _ _ ih => exact fun l l' h => ih l.pop l'.pop h.pop
  rw [Lexer.close, Lexer.close]
  have hall := hpops l.stack l'.stack h.stack l l' h
  generalize l.stack.foldl (fun l _ => l.pop) l = m,
    l'.stack.foldl (fun l _ => l.pop) l' = m' at hall
  cases hall with
  | mk hs hp => exact .mk hs .nil

end Lexer

/-! ## Sessions

  `whole` puts a text in place of the chunks that make it up.  Every operation is done to both
  lexers, and they stay twins. -/

/-- The input with a text in place of the chunks that make it up. -/
def Input.whole : Input → Input
  | .chunks name p => .text name (p.chunks.flatten ++ p.final)
  | i => i

/-- The operation, where a text is added in place of chunks. -/
def Operation.whole : Operation → Operation
  | .add i => .add i.whole
  | op => op

/-- The sources of an input and of its whole text are twins. -/
theorem Input.twins_source (d : Disk) (i : Input) : (i.source d).Twins (i.whole.source d) := by
  cases i with
  | chunks name p =>
    have hchunks : (Feed.chunks p [] false).InMemory := trivial
    have htext : (Feed.text (p.chunks.flatten ++ p.final) none).InMemory := trivial
    exact Source.twins_ofFeed (d := d) hchunks htext rfl rfl name
  | _ => exact .refl _

namespace Lexer

variable {d : Disk} {l l' : Lexer}

/-- An operation leads to twins again and shows the same. -/
theorem Twins.operate (h : l.Twins l') (d : Disk) (op : Operation) :
    (l.operate d op).Twins (l'.operate d op.whole) ∧ l'.glance d op.whole = l.glance d op := by
  cases op with
  | add i =>
    have hadd : (l.operate d (.add i)).Twins (l'.operate d (.add i.whole)) := by
      cases h with
      | mk hs hp => exact .mk hs (List.rel_append hp (.cons (i.twins_source d) .nil))
    exact ⟨hadd, congrArg (Glance.mk none none) hadd.depth_eq⟩
  | ask =>
    obtain ⟨houtcome, hwarnings, hlexer⟩ := h.next d
    refine ⟨hlexer, ?_⟩
    unfold Operation.whole glance
    dsimp only
    unfold Reading.place
    rw [houtcome, hwarnings, hlexer.depth_eq, hlexer.location_eq]
  | close =>
    have hclose : l.close.Twins l'.close := h.close
    exact ⟨hclose, congrArg (Glance.mk none none) hclose.depth_eq⟩

/-- What is seen of a session, and the lexer that it leads to. -/
theorem Twins.session (h : l.Twins l') (ops : List (Disk × Operation)) :
    (l.session ops).Twins (l'.session (ops.map (Prod.map id Operation.whole))) ∧
      l'.watch (ops.map (Prod.map id Operation.whole)) = l.watch ops := by
  induction ops generalizing l l' with
  | nil => exact ⟨h, rfl⟩
  | cons op ops ih =>
    obtain ⟨hone, hglance⟩ := h.operate op.1 op.2
    obtain ⟨hsession, hwatch⟩ := ih hone
    refine ⟨hsession, ?_⟩
    show l'.glance op.1 op.2.whole :: _ = l.glance op.1 op.2 :: _
    rw [hglance]
    exact congrArg (_ :: ·) hwatch

end Lexer

/-! ## The feeds of a session

  What was asked of a puller does not show in a glance, but it is kept by the feeds.  `Fetches` says
  of a source that portions have been fetched from a feed that was given, and that nothing else was
  done with it. -/

/-- A feed that nothing has been fetched from: that of an input, or of a file just opened. -/
def Feed.Given (ops : List (Disk × Operation)) (f : Feed) : Prop :=
  (∃ d i, (d, .add i) ∈ ops ∧ (i.source d).origin = .reading { feed := f }) ∨
    ∃ path node, f = .file path node 0

/-- Portions have been fetched from the feed of the source, and nothing else was done with it. -/
def Source.Fetches (ops : List (Disk × Operation)) (s : Source) : Prop :=
  ∀ r, s.origin = .reading r → ∃ f log, Feed.Given ops f ∧ f.Asks log r.feed

namespace Source

variable {d : Disk} {ops : List (Disk × Operation)}

/-- Stepping through a source keeps that nothing but fetching is done with its feed. -/
theorem lasting_fetches (ops : List (Disk × Operation)) : Lasting (Fetches ops) where
  file _ _ _ h := nomatch h
  line := by
    intro d s s' h ha r' horigin
    obtain ⟨r, r₁, t, hr, hread, horigin', -⟩ := reads_of_line ha
    obtain rfl := Origin.reading.inj (horigin'.symm.trans horigin)
    have hfeed : ∃ f log, Feed.Given ops f ∧ f.Asks log r.feed := by
      rcases origin_of_reader hr with horigin | ⟨path, node, rfl⟩
      · exact h r horigin
      · exact ⟨_, [], .inr ⟨path, node, rfl⟩, .none⟩
    have hafter := Reader.feed_readLine (P := fun g => ∃ f log, Feed.Given ops f ∧ f.Asks log g)
      (fun g d limit ⟨f, log, hf, hlog⟩ => ⟨f, _, hf, hlog.fetch d limit⟩) d hfeed
    rwa [hread] at hafter
  blank h := h
  cut h _ _ _ _ _ := h

/-- A source that was just added has a feed that nothing has been fetched from. -/
theorem fetches_source {i : Input} (hi : (d, .add i) ∈ ops) : (i.source d).Fetches ops := by
  intro r hr
  have hfresh : ∃ f, r = { feed := f } := by
    cases i with
    | file path => cases hr
    | _ =>
      obtain rfl := Origin.reading.inj hr
      exact ⟨_, rfl⟩
  obtain ⟨f, rfl⟩ := hfresh
  exact ⟨f, [], .inl ⟨d, i, hi, hr⟩, .none⟩

end Source

namespace Lexer

/-- **How a text is cut into chunks is not seen.**  Take any session, and add a text in place of
    every list of chunks that make it up.  Then every operation shows the same: the outcome of each
    call, its warnings, its place, and the depth of the stack.  The lexer that the session leads to
    has the same location and depth.

    Lexers do nothing with a feed but fetch portions from it.  However many portions are fetched
    from chunks, the puller answers with the chunks in their order, each of them once, and it is
    not called again behind the answer that says that its chunk was the last one. -/
theorem watch_whole (path : SearchPath) (warnUnknown : Bool) (ops : List (Disk × Operation)) :
    let whole := ops.map (Prod.map id Operation.whole)
    let l := (new path warnUnknown).session ops
    let l' := (new path warnUnknown).session whole
    (new path warnUnknown).watch whole = (new path warnUnknown).watch ops ∧
      l'.location = l.location ∧ l'.depth = l.depth ∧ l.Each (Source.Fetches ops) ∧
      ∀ (p : Puller) log g, (Feed.chunks p [] false).Asks log g → log <+: p.answers := by
  intro whole l l'
  obtain ⟨hsession, hwatch⟩ := (Twins.refl (new path warnUnknown)).session ops
  have hfetches : l.Each (Source.Fetches ops) :=
    (each_new path warnUnknown).session (Source.lasting_fetches ops)
      fun d i hi => Source.fetches_source hi
  exact ⟨hwatch, hsession.location_eq, hsession.depth_eq, hfetches, fun p log g h => h.isPrefix⟩

end Lexer
end Pushdown
