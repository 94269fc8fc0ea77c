/-
  Which includes are loops.

  The lexer looks at identities: an `#include` is a loop if and only if the file has the identity of
  a file that is being read.  What a loop should be is another thing: opening the file would read a
  file that is being read already.  The two agree for faithful paths, and then no file is ever read
  twice at the same time (`includeLoop_iff`).  They do not agree for all paths: a `..` behind a link
  can lead back to the file that holds it without being noticed (`includeLoop_missed`).

  Both need to know what the sources on the stack are.  `Honest` says it of one source, for a disk
  that does not change: its identity is that of its path, and the file that it reads is what opening
  the path yields.

  That a source goes on with the file that it has opened is a property of its feed.  A fetch leaves
  the path and number of the file as they are (`Feed.file?_fetch`), and reading a line only fetches
  (`Reader.file?_readLineFrom`).  A path may lead elsewhere later, if the disk changes; so
  everything here is about one disk, on which a lexer was created, filled and used
  (`Lexer.Visited`).

  What is open is told from what is being read only at an `#include` (`Settled.mem_opened_iff`).  In
  general there can be an identity that is open though nothing is read yet, namely that of a file on
  top that has not been opened.  At an `#include`, the source on top has a line, and those below had
  one when they included what is above them; so all of them have been opened, and each open identity
  is that of a file being read.

  The disk `crossed` is used in both directions.  In it `d/a` is reached by `d/e/../../k/a`, with
  links and `..` but never a `..` behind a link, and by `l/../a`, where `l` leads elsewhere than its
  spelling says.
-/
import Mathlib
import Pushdown.Proofs.Disk.Identity
import Pushdown.Proofs.Lexer.Lines
import Pushdown.Proofs.Lexer.SourceStack

namespace Pushdown

open Text (lit)

/-! ## The file behind a reader

  A reader is good for one file, from when it was opened.  The number of the file is part of its
  feed, and none of the functions of a reader touches it. -/

/-- The reader after a delivery. -/
def Delivery.rest : Delivery → Reader
  | .char _ rest => rest
  | .stop _ rest => rest

namespace Feed

/-- The path and the number of the file that a feed delivers. -/
def file? : Feed → Option (Text × Nat)
  | .file path node _ => some (path, node)
  | _ => none

/-- What a feed delivers from does not depend on how much was taken. -/
theorem file?_portion {limit : Nat} {t : Text} {rest : Nat → Feed} {s : Stop}
    {file : Option (Text × Nat)} (h : ∀ n, (rest n).file? = file) :
    (portion limit t rest s).feed.file? = file := by
  unfold portion
  split
  · exact h 0
  · exact h _

/-- A fetch goes on with the same file. -/
theorem file?_fetch (d : Disk) (limit : Nat) (f : Feed) :
    (f.fetch d limit).feed.file? = f.file? := by
  cases f with
  | text t failure =>
    unfold fetch deliver
    exact file?_portion fun n => rfl
  | chunks puller current done =>
    obtain ⟨puller', current', done', hready, -⟩ := exists_supply puller current done
    rw [fetch, ready, hready, deliver]
    exact file?_portion fun n => rfl
  | file path node offset =>
    unfold fetch deliver
    dsimp only [ready]
    split
    · exact file?_portion fun n => rfl
    · rfl

end Feed

namespace Reader

variable {d : Disk} {r r' : Reader}

/-- So does filling the buffer. -/
theorem file?_fillUpTo (n : Nat) (r : Reader) : (fillUpTo d n r).feed.file? = r.feed.file? := by
  induction n generalizing r with
  | zero => rfl
  | succ n ih =>
    unfold fillUpTo
    split
    · have hfetch := Feed.file?_fetch d (capacity - r.buffer.length) r.feed
      split
      · rename_i b t feed h
        rw [h] at hfetch
        rw [ih]
        exact hfetch
      · rename_i s feed h
        rw [h] at hfetch
        exact hfetch
    · rfl

/-- So does taking a character. -/
theorem file?_next (r : Reader) : (next d r).rest.feed.file? = r.feed.file? := by
  have hfill : (fill d r).feed.file? = r.feed.file? := file?_fillUpTo 4 r
  unfold next
  simp only
  split
  · exact hfill
  · exact hfill

/-- So does looking for a line feed. -/
theorem file?_skipNewline (r : Reader) : (skipNewline d r).feed.file? = r.feed.file? := by
  have hnext := file?_next (d := d) r
  unfold skipNewline
  split
  · rename_i c rest h
    rw [h] at hnext
    split
    · exact hnext
    · exact file?_fillUpTo 4 r
  · rename_i s rest h
    rw [h] at hnext
    exact hnext

/-- Reading a line does not leave the file. -/
theorem file?_readLineFrom (seen : Text) (r : Reader) :
    (readLineFrom d seen r).2.feed.file? = r.feed.file? := by
  have rest_eq {r : Reader} {x : Delivery} (h : next d r = x) :
      x.rest.feed.file? = r.feed.file? := by
    rw [← h]
    exact file?_next r
  fun_induction readLineFrom d seen r with
  | case1 seen r rest h => exact rest_eq h
  | case2 seen r message rest h => exact rest_eq h
  | case3 seen r c rest h hc => exact rest_eq h
  | case4 seen r rest h hn =>
    rw [file?_skipNewline]
    exact rest_eq h
  | case5 seen r c rest h hn hc ih =>
    rw [ih]
    exact rest_eq h

/-- Only a regular file has lines. -/
theorem isFile_of_readLine {path t : Text} {i : Nat}
    (h : readLine d { feed := .file path i 0 } = (.text t, r')) : d.IsFile i := by
  cases hcontent : d.content i with
  | ok content =>
    unfold Disk.content at hcontent
    split at hcontent
    · rename_i c hnode
      exact ⟨c, hnode⟩
    · cases hcontent
  | error f =>
    -- reading anything else fails at once
    have hyields := yields_of_feed d (.file path i 0)
    have hbytes : (Feed.file path i 0).bytes d = [] := by
      rw [Feed.bytes, hcontent]
    have hlines : (Feed.file path i 0).lines d = [] := by
      rw [Feed.lines, hbytes, Feed.finale, hcontent]
      rfl
    rw [hlines] at hyields
    have hstop := hyields.readLine_nil
    rw [h, Feed.finale, hcontent] at hstop
    cases hstop

end Reader

/-! ## Sources on an unchanging disk

  A source has a path, an identity and perhaps a reader.  On a disk that stays they are of the same
  file; if the disk changed, a path could come to lead elsewhere while the reader goes on. -/

namespace Source

/-- The path by which a source has opened the file that it reads, and the number of the file. -/
def file? (s : Source) : Option (Text × Nat) :=
  match s.origin with
  | .unopened _ => none
  | .reading r => r.feed.file?

/-- What a source is, as long as the disk does not change: a file that is not opened yet, a regular
    file that is read, or no file. -/
inductive Honest (d : Disk) (s : Source) : Prop where
  | waiting {path : Text} (ho : s.origin = .unopened path) (hs : s.scan = none)
      (hk : s.key = some (d.canonical path))
  | reading {path : Text} {i : Nat} (hf : s.file? = some (path, i))
      (hk : s.key = some (d.canonical path)) (hl : d.lookup path = .ok i) (hi : d.IsFile i)
  | plain {r : Reader} (ho : s.origin = .reading r) (hf : s.file? = none) (hk : s.key = none)

variable {d : Disk} {s s' : Source}

/-- A source just added is honest: a file is not opened yet, and nothing else has an identity. -/
theorem honest_source (d : Disk) (i : Input) : (i.source d).Honest d := by
  cases i with
  | file path => exact .waiting rfl rfl rfl
  | _ => exact .plain rfl rfl rfl

/-- A source that has read a line goes on with the same file. -/
theorem readLine_eq_line {r : Reader} (h : s.readLine d r = .line s') :
    s'.key = s.key ∧ s'.file? = r.feed.file? ∧ (∃ r', s'.origin = .reading r') ∧
      ∃ t, (r.readLine d).1 = .text t := by
  unfold readLine at h
  split at h
  · rename_i t r' hread
    obtain rfl := Advance.line.inj h
    refine ⟨rfl, ?_, ⟨r', rfl⟩, t, by rw [hread]⟩
    have hfile : (r.readLine d).2.feed.file? = r.feed.file? := Reader.file?_readLineFrom [] r
    rw [hread] at hfile
    exact hfile
  · exact nomatch h
  · exact nomatch h

/-- A source that reads a line stays honest; a file that is opened for it has the identity of its
    path. -/
theorem Honest.advance (h : s.Honest d) (hs : s.advance d = .line s') : s'.Honest d := by
  unfold Source.advance at hs
  split at hs
  · rename_i r ho
    obtain ⟨hkey, hfile, ⟨r', ho'⟩, -⟩ := readLine_eq_line hs
    have hsame : s'.file? = s.file? := by
      rw [hfile, file?, ho]
    cases h with
    | waiting hw => rw [hw] at ho; exact nomatch ho
    | reading hf hk hl hi => exact .reading (hsame.trans hf) (hkey.trans hk) hl hi
    | plain _ hf hk => exact .plain ho' (hsame.trans hf) (hkey.trans hk)
  · rename_i path ho
    cases h with
    | waiting hw _ hk =>
      rw [hw] at ho
      obtain rfl := Origin.unopened.inj ho
      split at hs
      · rename_i i hlookup
        obtain ⟨hkey, hfile, -, t, hread⟩ := readLine_eq_line hs
        have hi := Reader.isFile_of_readLine (Prod.ext hread rfl)
        exact .reading hfile (hkey.trans hk) hlookup hi
      · exact nomatch hs
    | reading hf => rw [file?, ho] at hf; exact nomatch hf
    | plain hr => rw [hr] at ho; exact nomatch ho

/-- Whatever a source goes on as, it stays honest. -/
theorem Honest.becomes (h : s.Honest d) (hs : s.Becomes d s') : s'.Honest d := by
  cases hs with
  | read hs hadvance => exact h.advance hadvance
  | cut hs ho hk =>
    have hfile : s'.file? = s.file? := by rw [file?, file?, ho]
    cases h with
    | waiting ho' hs' hk' =>
      rw [hs'] at hs
      exact nomatch hs
    | reading hf hk' hl hi => exact .reading (hfile.trans hf) (hk.trans hk') hl hi
    | plain ho' hf hk' => exact .plain (ho.trans ho') (hfile.trans hf) (hk.trans hk')

/-- A source with a line to work on has been opened. -/
theorem Honest.exists_reader (h : s.Honest d) (hs : s.scan.isSome = true) :
    ∃ r, s.origin = .reading r := by
  cases h with
  | waiting ho hs' =>
    rw [hs'] at hs
    exact nomatch hs
  | reading hf =>
    unfold file? at hf
    split at hf
    · exact nomatch hf
    · rename_i r ho
      exact ⟨r, ho⟩
  | plain ho => exact ⟨_, ho⟩

/-- A file that is read is a regular one, and opening its path would open it again. -/
theorem Honest.of_file? (h : s.Honest d) {path : Text} {i : Nat} (hf : s.file? = some (path, i)) :
    s.key = some (d.canonical path) ∧ d.lookup path = .ok i ∧ d.IsFile i := by
  cases h with
  | waiting ho =>
    rw [file?, ho] at hf
    exact nomatch hf
  | reading hf' hk hl hi =>
    rw [hf] at hf'
    obtain ⟨rfl, rfl⟩ := Prod.mk.inj (Option.some.inj hf')
    exact ⟨hk, hl, hi⟩
  | plain ho hf' =>
    rw [hf] at hf'
    exact nomatch hf'

/-- A source at an `#include` has a line in progress. -/
theorem Includes.isSome {name : Text} {rest : Scan} (h : s.Includes name rest) :
    s.scan.isSome = true := by
  obtain ⟨scan, x, hscan, -⟩ := h
  rw [hscan]
  rfl

end Source

/-! ## Lexers on an unchanging disk

  `Settled` is the invariant: every source is honest, those that include another one have been
  opened, and the open identities are those of the sources.  It holds of a new lexer, and steps keep
  it. -/

namespace Lexer

variable {d : Disk} {l l' : Lexer} {s : Source} {below : List Source}

/-- What using a lexer on an unchanging disk leads to, also in the middle of looking for a token. -/
inductive Visited (d : Disk) : Lexer → Prop where
  | new (path : SearchPath) (warnUnknown : Bool) : Visited d (new path warnUnknown)
  | add {l : Lexer} (h : Visited d l) (i : Input) : Visited d (l.add (i.source d))
  | step {l : Lexer} (h : Visited d l) : Visited d (step d l).lexer
  | close {l : Lexer} (h : Visited d l) : Visited d l.close

/-- Asking for a token leads there, whatever the outcome. -/
theorem Visited.next (h : l.Visited d) : (next d l).lexer.Visited d :=
  next_induction d (fun _ hl => hl.step) h

/-- All sources are honest, and those that include another one have been opened. -/
structure Settled (d : Disk) (l : Lexer) : Prop where
  keyed : l.Keyed
  stack : ∀ s ∈ l.stack, s.Honest d
  opened : ∀ s ∈ l.stack.tail, ∃ r, s.origin = .reading r
  pending : ∀ s ∈ l.pending, s.Honest d

/-- Taking the innermost source off. -/
theorem Settled.tail (h : l.Settled d) (hk : l'.Keyed) (hstack : l'.stack = l.stack.tail)
    (hpending : l'.pending = l.pending) : l'.Settled d := by
  refine ⟨hk, fun s hs => h.stack s ?_, fun s hs => h.opened s ?_, fun s hs => h.pending s ?_⟩
  · rw [hstack] at hs
    exact List.mem_of_mem_tail hs
  · rw [hstack] at hs
    exact List.mem_of_mem_tail hs
  · rw [hpending] at hs
    exact hs

/-- What one move preserves. -/
theorem Settled.moves (h : l.Settled d) (hm : Moves d l l') : l'.Settled d := by
  have hk := h.keyed.moves hm
  cases hm with
  | idle hu => exact h
  | @start s rest hs hp =>
    have hpending := h.pending
    rw [hp] at hpending
    have hstack : ({ l with pending := rest }.push s).stack = [s] := by rw [push, hs]
    refine ⟨hk, ?_, ?_, fun t ht => hpending t (List.mem_cons_of_mem s ht)⟩
    · intro t ht
      rw [hstack, List.mem_singleton] at ht
      rw [ht]
      exact hpending s List.mem_cons_self
    · intro t ht
      rw [hstack] at ht
      cases ht
  | @goOn s s' below hl hs =>
    have hstack := h.stack
    rw [hl] at hstack
    refine ⟨hk, ?_, h.opened, h.pending⟩
    intro t ht
    rw [withTop, hl] at ht
    -- only the innermost source has gone on
    rcases List.mem_cons.mp ht with rfl | ht
    · exact (hstack s List.mem_cons_self).becomes hs
    · exact hstack t (List.mem_cons_of_mem s ht)
  | takeOff hl hs => exact h.tail hk rfl rfl
  | @nest s below name rest hl hi ho =>
    have hstack := h.stack
    have hopened := h.opened
    rw [hl] at hstack hopened
    have hs := hstack s List.mem_cons_self
    -- the including source has a line to work on, so it has been opened
    have hcut : s.Becomes d { s with scan := some rest } := .cut hi.isSome rfl rfl
    have hstack' : ((l.withTop { s with scan := some rest }).push
        (.ofFile d (l.path.resolve d name))).stack =
        .ofFile d (l.path.resolve d name) :: { s with scan := some rest } :: below := by
      rw [push, withTop, hl]
      rfl
    refine ⟨hk, ?_, ?_, h.pending⟩
    · intro t ht
      rw [hstack'] at ht
      rcases List.mem_cons.mp ht with rfl | ht
      · exact .waiting rfl rfl rfl
      · rcases List.mem_cons.mp ht with rfl | ht
        · exact hs.becomes hcut
        · exact hstack t (List.mem_cons_of_mem s ht)
    · intro t ht
      rw [hstack'] at ht
      rcases List.mem_cons.mp ht with rfl | ht
      -- and those below the including source were opened before
      · exact hs.exists_reader hi.isSome
      · exact hopened t ht

/-- A lexer that is closed has no sources. -/
theorem Settled.close (h : l.Settled d) : l.close.Settled d := by
  refine ⟨h.keyed.close, ?_, ?_, nofun⟩
  · rw [close_stack]
    exact nofun
  · rw [close_stack]
    exact nofun

/-- So it holds of every lexer that is used on an unchanging disk. -/
theorem Visited.settled (h : l.Visited d) : l.Settled d := by
  induction h with
  | new path warnUnknown => exact ⟨keyed_new path warnUnknown, nofun, nofun, nofun⟩
  | add h i ih =>
    refine ⟨ih.keyed.add _, ih.stack, ih.opened, ?_⟩
    intro t ht
    rcases List.mem_append.mp ht with ht | ht
    · exact ih.pending t ht
    · rw [List.mem_singleton.mp ht]
      exact Source.honest_source d i
  | step h ih => exact ih.moves (step_moves d _)
  | close h ih => exact ih.close

/-! ## Loops

  What the lexer reports and what there is to report, each in its own terms, and how they come
  together at an `#include`. -/

/-- The next step reports an include loop. -/
def ReportsLoop (d : Disk) (l : Lexer) : Prop :=
  ∃ e l', step d l = .done (.error e) l' ∧ e.cause = some .includeLoop

/-- A file on the stack is being read: it was opened by `path` and has the number `i`. -/
def Reads (l : Lexer) (path : Text) (i : Nat) : Prop := ∃ s ∈ l.stack, s.file? = some (path, i)

/-- The innermost source is at an `#include` for a file of the given name. -/
def AtInclude (l : Lexer) (name : Text) : Prop :=
  ∃ s below rest, l.stack = s :: below ∧ s.Includes name rest

variable {name : Text}

/-- At an `#include`, a loop is reported if the identity is open. -/
theorem reportsLoop_iff_mem (h : l.AtInclude name) :
    l.ReportsLoop d ↔ d.canonical (l.path.resolve d name) ∈ l.opened := by
  obtain ⟨s, below, rest, hl, hi⟩ := h
  have hstep := step_of_includes (d := d) hl hi
  constructor
  · rintro ⟨e, l', hdone, -⟩
    by_contra hmem
    have hpush := hstep.trans (includeFile_of_not_mem hmem)
    rw [hpush] at hdone
    exact nomatch hdone
  · intro hmem
    exact ⟨_, _, hstep.trans (includeFile_of_mem hmem), rfl⟩

/-- An `#include` that is no loop puts the file on the stack. -/
theorem step_of_not_reportsLoop {rest : Scan} (hl : l.stack = s :: below)
    (hi : s.Includes name rest) (h : ¬ l.ReportsLoop d) :
    step d l = .more ((l.withTop { s with scan := some rest }).push
      (.ofFile d (l.path.resolve d name))) none := by
  rw [reportsLoop_iff_mem ⟨s, below, rest, hl, hi⟩] at h
  rw [step_of_includes hl hi]
  exact includeFile_of_not_mem h

/-- At an `#include` the open identities are those of the files that are being read. -/
theorem Settled.mem_opened_iff (h : l.Settled d) (hi : l.AtInclude name) {k : Text} :
    k ∈ l.opened ↔ ∃ path i, l.Reads path i ∧ d.canonical path = k := by
  obtain ⟨s, below, rest, hl, hi⟩ := hi
  -- no source waits to be opened: the innermost one has a line, and the others include another
  have hreader : ∀ t ∈ l.stack, ∃ r, t.origin = .reading r := by
    intro t ht
    have hopened := h.opened
    rw [hl] at ht hopened
    rcases List.mem_cons.mp ht with rfl | ht
    · refine (h.stack t ?_).exists_reader hi.isSome
      rw [hl]
      exact List.mem_cons_self
    · exact hopened t ht
  rw [h.keyed.opened_iff]
  constructor
  · rintro ⟨t, ht, hk⟩
    obtain ⟨r, ho⟩ := hreader t ht
    cases h.stack t ht with
    | waiting ho' =>
      rw [ho] at ho'
      exact nomatch ho'
    | @reading path i hf hk' =>
      rw [hk'] at hk
      exact ⟨path, i, ⟨t, ht, hf⟩, Option.some.inj hk⟩
    | plain ho' hf hk' =>
      rw [hk'] at hk
      exact nomatch hk
  · rintro ⟨path, i, ⟨t, ht, hf⟩, rfl⟩
    exact ⟨t, ht, ((h.stack t ht).of_file? hf).1⟩

/-- Opening the path of a file that is being read leads to this file again. -/
theorem Settled.lookup_of_reads (h : l.Settled d) {path : Text} {i : Nat} (hr : l.Reads path i) :
    d.lookup path = .ok i ∧ d.IsFile i := by
  obtain ⟨t, ht, hf⟩ := hr
  exact ((h.stack t ht).of_file? hf).2

/-- The numbers of the files that are being read, innermost first. -/
def reading (l : Lexer) : List Nat := l.stack.filterMap fun s => s.file?.map Prod.snd

/-- No file is read twice, if all paths are faithful. -/
theorem Settled.nodup_reading (h : l.Settled d) (ht : d.IsTree)
    (hf : ∀ path i, l.Reads path i → d.Faithful path) : l.reading.Nodup := by
  have hkeys := h.keyed.nodup
  rw [List.Nodup, List.pairwise_filterMap] at hkeys
  rw [reading, List.Nodup, List.pairwise_filterMap]
  refine hkeys.imp_of_mem ?_
  intro s t hs ht' hne i hi j hj hij
  obtain ⟨⟨path, i'⟩, hsfile, rfl⟩ := Option.map_eq_some_iff.mp hi
  obtain ⟨⟨path', j'⟩, htfile, rfl⟩ := Option.map_eq_some_iff.mp hj
  obtain ⟨hskey, hslookup, hsi⟩ := (h.stack s hs).of_file? hsfile
  obtain ⟨htkey, htlookup, -⟩ := (h.stack t ht').of_file? htfile
  -- the same file would have the same identity
  have hsame := ((hf path i' ⟨s, hs, hsfile⟩).canonical_eq_iff ht (hf path' j' ⟨t, ht', htfile⟩)
    hslookup hsi).mpr (by rw [htlookup]; exact congrArg _ hij.symm)
  exact hne _ hskey _ htkey hsame

/-! ## A disk with links

  One disk for both directions.  It is small enough to be computed with, so that its places can be
  listed, and whether it is a tree can be decided. -/

/-- In the directory `w` the name `k` is a link to `d`, and `l` is one to `d/e`.  The only file is
    `d/a`, and it includes the given name. -/
def crossed (name : Text) : Disk where
  nodes := #[.directory [(lit "w", 1)],
    .directory [(lit "d", 2), (lit "k", 5), (lit "l", 6)],
    .directory [(lit "a", 3), (lit "e", 4)],
    .file (lit "#include " ++ name), .directory [], .link (lit "d"), .link (lit "d/e")]
  cwd := [(lit "w", 1)]

/-- The names on the disk, each with the directory that it is in. -/
theorem listing_crossed (name : Text) : (crossed name).listing = [(0, lit "w", 1),
    (1, lit "d", 2), (1, lit "k", 5), (1, lit "l", 6), (2, lit "a", 3), (2, lit "e", 4)] := rfl

/-- There are no hard links on it. -/
theorem isTree_crossed (name : Text) : (crossed name).IsTree where
  names := by
    rw [listing_crossed]
    decide
  unique := by
    rw [listing_crossed]
    decide
  unlisted := by
    rw [listing_crossed]
    decide
  root := ⟨_, rfl⟩
  cwd := .entry .root rfl rfl (by decide) nofun

/-- The places that can be reached without following links are these five. -/
theorem stands_crossed {p : Place} (h : (crossed name).Stands p) :
    p ∈ [[], [(lit "w", 1)], [(lit "d", 2), (lit "w", 1)],
      [(lit "a", 3), (lit "d", 2), (lit "w", 1)],
      [(lit "e", 4), (lit "d", 2), (lit "w", 1)]] := by
  induction h with
  | root => exact List.mem_cons_self
  | @entry place c i entries h hdir hname hshort hnode ih =>
    have hmem := Disk.mem_of_nodeOf? hname
    simp only [List.mem_cons, List.not_mem_nil, or_false] at ih
    -- the root, `w`, `d`, `d/a` and `d/e`, one after the other
    rcases ih with rfl | rfl | rfl | rfl | rfl
    · obtain rfl := Node.directory.inj hdir
      obtain ⟨rfl, rfl⟩ := Prod.mk.inj (List.mem_singleton.mp hmem)
      decide
    · obtain rfl := Node.directory.inj hdir
      simp only [List.mem_cons, List.not_mem_nil, or_false, Prod.mk.injEq] at hmem
      rcases hmem with ⟨rfl, rfl⟩ | ⟨rfl, rfl⟩ | ⟨rfl, rfl⟩
      · decide
      · -- no place leads over a link
        exact absurd rfl (hnode _)
      · exact absurd rfl (hnode _)
    · obtain rfl := Node.directory.inj hdir
      simp only [List.mem_cons, List.not_mem_nil, or_false, Prod.mk.injEq] at hmem
      rcases hmem with ⟨rfl, rfl⟩ | ⟨rfl, rfl⟩
      · decide
      · decide
    · exact nomatch hdir
    · obtain rfl := Node.directory.inj hdir
      exact nomatch hmem

/-- No path is too long to be opened. -/
theorem isShallow_crossed (name : Text) : (crossed name).IsShallow := by
  intro place c i h hc
  have hlisted : (place.node, c, i) ∈ (crossed name).listing := by
    unfold Disk.child? at hc
    split at hc
    · rename_i hdir
      exact Disk.mem_listing hdir hc
    · exact nomatch hc
  have hlength : ∀ e ∈ (crossed name).listing, e.2.1.length = 1 := by
    rw [listing_crossed]
    decide
  have hplaces := stands_crossed h
  simp only [List.mem_cons, List.not_mem_nil, or_false] at hplaces
  rw [Place.lengthOf, hlength _ hlisted]
  rcases hplaces with rfl | rfl | rfl | rfl | rfl
  all_goals decide

/-- The source that has read the only line of `d/a`, with what is left of the line. -/
def includer (name : Text) (line : Scan) : Source where
  name := lit "d/a"
  line := 1
  next := 2
  origin := .reading { feed := .file (lit "d/a") 3 (9 + name.length) }
  key := some (lit "/w/d/a")
  scan := some line

/-- The lexer at the `#include` in `d/a`. -/
def atLine (name : Text) : Lexer where
  stack := [includer name { rest := lit "#include " ++ name }]
  opened := [lit "/w/d/a"]

/-- It has been added and taken two steps: one to begin with the file and one to read the line. -/
theorem visited_atLine {d : Disk}
    (h : (step d (step d ((new [] false).add ((Input.file (lit "d/a")).source d))).lexer).lexer =
      atLine name) : (atLine name).Visited d := by
  have hadd := (Visited.new (d := d) [] false).add (.file (lit "d/a"))
  have hstep := hadd.step.step
  rw [h] at hstep
  exact hstep

/-- The line is an `#include` of the name, if that is how the name is read. -/
theorem includes_includer
    (hnext : Scan.next { rest := lit "#include " ++ name } =
      some (⟨.directive, lit "#include " ++ name⟩, { rest := [], first := false }))
    (hparse : Directive.parse (lit "#include " ++ name) = .ok (.includeFile name)) :
    (includer name { rest := lit "#include " ++ name }).Includes name
      { rest := [], first := false } :=
  ⟨_, _, rfl, rfl, hnext, rfl, hparse⟩

/-- The only file that is being read is `d/a`. -/
theorem reads_atLine {path : Text} {i : Nat} :
    (atLine name).Reads path i ↔ path = lit "d/a" ∧ i = 3 := by
  constructor
  · rintro ⟨s, hs, hf⟩
    obtain rfl := List.mem_singleton.mp hs
    obtain ⟨rfl, rfl⟩ := Prod.mk.inj (Option.some.inj hf)
    exact ⟨rfl, rfl⟩
  · rintro ⟨rfl, rfl⟩
    exact ⟨_, List.mem_cons_self, rfl⟩

/-- Without a search path, a name is its path. -/
theorem resolve_atLine (d : Disk) (file : Text) : (atLine name).path.resolve d file = file := by
  show SearchPath.resolve [] d file = file
  unfold SearchPath.resolve
  split
  · rfl
  · rfl

/-- The file `d/a` by way of `..` and a link. -/
def direct : Text := lit "d/e/../../k/a"

/-- The file `d/a` by way of `..` behind a link. -/
def devious : Text := lit "l/../a"

set_option maxRecDepth 10000 in
/-- The lexer gets there on this disk. -/
theorem visited_direct : (atLine direct).Visited (crossed direct) := visited_atLine (by cbv)

set_option maxRecDepth 10000 in
/-- So it does with the other name. -/
theorem visited_devious : (atLine devious).Visited (crossed devious) := visited_atLine (by cbv)

/-- `d/a` is found where it is. -/
theorem locate_file (name : Text) : (crossed name).locate (lit "d/a") =
    .ok (.found [(lit "a", 3), (lit "d", 2), (lit "w", 1)]) := by cbv

/-- The path by way of `..` and a link leads there. -/
theorem locate_direct : (crossed direct).locate direct =
    .ok (.found [(lit "a", 3), (lit "d", 2), (lit "w", 1)]) := by cbv

/-- Opening the path by way of `..` behind a link leads to the file with the number 3, which is
    `d/a`. -/
theorem lookup_devious : (crossed devious).lookup devious = .ok 3 := by cbv

set_option maxRecDepth 10000 in
/-- But its identity is that of a file `a` in the directory `w`, which does not exist. -/
theorem canonical_devious : (crossed devious).canonical devious = lit "/w/a" := by cbv

set_option maxRecDepth 10000 in
/-- Once it is opened and has read a line, the file is being read twice. -/
theorem reading_devious :
    (step (crossed devious) (((atLine devious).withTop (includer devious ⟨[], false⟩)).push
      { name := devious, origin := .unopened devious, key := some (lit "/w/a") })).lexer.reading =
    [3, 3] := by cbv

/-! ## Which includes are loops

  Faithful paths are the condition under which identities are files.  That the condition is met is
  shown of one path through links, and that it cannot be dropped of another one. -/

/-- **Which includes are loops.**  At every `#include` that a lexer comes to on an unchanging disk,
    a loop is reported if and only if the file has the identity of a file that is being read.  On a
    disk without hard links, for faithful paths, this is so if and only if opening the file would
    read a regular file that is being read already, and no file is being read twice.  No other path
    is taken for the file that it opens.  A path that can be opened is faithful if no `..` stands
    behind a link in it. -/
theorem includeLoop_iff {d : Disk} {l : Lexer} (h : l.Visited d) :
    (∀ name, l.AtInclude name → (l.ReportsLoop d ↔
      ∃ path i, l.Reads path i ∧ d.canonical path = d.canonical (l.path.resolve d name))) ∧
    (d.IsTree → (∀ path i, l.Reads path i → d.Faithful path) →
      l.reading.Nodup ∧
      (∀ name, l.AtInclude name → d.Faithful (l.path.resolve d name) → (l.ReportsLoop d ↔
        ∃ path i, l.Reads path i ∧ d.IsFile i ∧ d.lookup (l.path.resolve d name) = .ok i)) ∧
      ∀ path i file, l.Reads path i → d.lookup file = .ok i →
        (d.canonical path = d.canonical file ↔ d.Faithful file)) ∧
    (d.IsTree → d.IsShallow → ∀ path p, d.locate path = .ok (.found p) →
      d.isDirect (d.origin path) (Path.components path) = true → d.Faithful path) := by
  have hs := h.settled
  have hloop : ∀ name, l.AtInclude name → (l.ReportsLoop d ↔
      ∃ path i, l.Reads path i ∧ d.canonical path = d.canonical (l.path.resolve d name)) := by
    intro name hi
    rw [reportsLoop_iff_mem hi, hs.mem_opened_iff hi]
  refine ⟨hloop, ?_, ?_⟩
  · intro ht hf
    -- for faithful paths, identities are the same if and only if the files are
    refine ⟨hs.nodup_reading ht hf, ?_, ?_⟩
    · intro name hi hname
      rw [hloop name hi]
      constructor
      · rintro ⟨path, i, hr, hcanonical⟩
        obtain ⟨hlookup, hi⟩ := hs.lookup_of_reads hr
        exact ⟨path, i, hr, hi,
          ((hf path i hr).canonical_eq_iff ht hname hlookup hi).mp hcanonical⟩
      · rintro ⟨path, i, hr, hi, hopen⟩
        obtain ⟨hlookup, -⟩ := hs.lookup_of_reads hr
        exact ⟨path, i, hr, ((hf path i hr).canonical_eq_iff ht hname hlookup hi).mpr hopen⟩
    · intro path i file hr hopen
      obtain ⟨hlookup, -⟩ := hs.lookup_of_reads hr
      exact (hf path i hr).canonical_eq_iff_faithful ht hlookup hopen
  · intro ht hshallow path p hlocate hdirect
    exact Disk.faithful_of_isDirect ht hshallow hlocate hdirect

set_option maxRecDepth 10000 in
/-- The file `d/a` is noticed by way of `..` and a link. -/
theorem includeLoop_iff_crossed :
    (atLine direct).Visited (crossed direct) ∧ (crossed direct).IsTree ∧
    (crossed direct).IsShallow ∧ (atLine direct).AtInclude direct ∧
    (atLine direct).ReportsLoop (crossed direct) ∧ (atLine direct).reading.Nodup := by
  have ht := isTree_crossed direct
  have hshallow := isShallow_crossed direct
  have hinclude : (atLine direct).AtInclude direct :=
    ⟨_, _, _, rfl, includes_includer (by cbv) (by cbv)⟩
  obtain ⟨-, hloop, hfaithful⟩ := includeLoop_iff visited_direct
  have hread : ∀ path i, (atLine direct).Reads path i → (crossed direct).Faithful path := by
    intro path i hr
    obtain ⟨rfl, rfl⟩ := reads_atLine.mp hr
    exact hfaithful ht hshallow _ _ (locate_file direct) (by cbv)
  have hname : (crossed direct).Faithful
      ((atLine direct).path.resolve (crossed direct) direct) := by
    rw [resolve_atLine]
    exact hfaithful ht hshallow _ _ locate_direct (by cbv)
  obtain ⟨hnodup, hiff, -⟩ := hloop ht hread
  refine ⟨visited_direct, ht, hshallow, hinclude, (hiff _ hinclude hname).mpr ?_, hnodup⟩
  refine ⟨lit "d/a", 3, reads_atLine.mpr ⟨rfl, rfl⟩, ⟨_, rfl⟩, ?_⟩
  rw [resolve_atLine, Disk.lookup, locate_direct]
  rfl

set_option maxRecDepth 10000 in
/-- **A loop that is not noticed.**  By way of `..` behind a link the file `d/a` includes itself, no
    loop is reported, and after two more steps it is read twice. -/
theorem includeLoop_missed :
    (atLine devious).Visited (crossed devious) ∧ (crossed devious).IsTree ∧
    (atLine devious).AtInclude devious ∧
    (∃ path i, (atLine devious).Reads path i ∧ (crossed devious).IsFile i ∧
      (crossed devious).lookup ((atLine devious).path.resolve (crossed devious) devious) = .ok i) ∧
    ¬ (atLine devious).ReportsLoop (crossed devious) ∧
    ∃ l, Visited (crossed devious) l ∧ l.reading = [3, 3] := by
  have hincludes : (includer devious { rest := lit "#include " ++ devious }).Includes devious
      { rest := [], first := false } := includes_includer (by cbv) (by cbv)
  have hinclude : (atLine devious).AtInclude devious := ⟨_, _, _, rfl, hincludes⟩
  have hnot : ¬ (atLine devious).ReportsLoop (crossed devious) := by
    rw [reportsLoop_iff_mem hinclude, resolve_atLine, canonical_devious]
    decide
  refine ⟨visited_devious, isTree_crossed devious, hinclude, ?_, hnot, ?_⟩
  · refine ⟨lit "d/a", 3, reads_atLine.mpr ⟨rfl, rfl⟩, ⟨_, rfl⟩, ?_⟩
    rw [resolve_atLine]
    exact lookup_devious
  · refine ⟨_, visited_devious.step.step, ?_⟩
    rw [step_of_not_reportsLoop rfl hincludes hnot, resolve_atLine, Source.ofFile,
      canonical_devious]
    exact reading_devious

end Lexer
end Pushdown
