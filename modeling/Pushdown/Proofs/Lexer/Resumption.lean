/-
  How a lexer goes on after an error.

  A call that fails on a directive has used up its line, and nothing else has come of it: the names
  and numbers, the stack and the open identities are what they were (`Fails.onLine`).  A file that
  cannot be opened was put on the stack and is off it again.  So the next call does what the failing
  call would have done with a comment in place of the line, which is to put the line away and to go
  on.  Where reading fails, the source is taken off as at its end (`Fails.reading`).

  To say which line a call has failed on takes its steps apart (`Proceeds`).  What is true right
  before the last of them follows from what is true between two steps (`Orderly`): every source but
  the innermost is in the middle of a line, and no line has a line break in it, so that a directive
  is all that its line holds.

  The place where the last source has ended is not what it would have been without the error.  It is
  not seen as long as there is a source, and the next source that ends takes its place (`Recalls`).

  Comparing with a comment needs a lexer that does not exist in the run.  It is the one before the
  last step of the call, with `#` as the line of its innermost source; a step of it leads to where
  the failing call has led, up to the place recalled (`step_lone_hash`).  A file that cannot be
  opened fails one step later than the directive that names it, so there the last step but one is
  meant, and the file that it put on the stack is accounted for (`Orderly.opening`).

  A call begins with every source in the middle of a line (`Rested`), which is stronger than what
  holds between its steps.  It excludes that a call begins with a file that is about to be opened:
  such a file is never on top between two calls, and so a step of this very call has put it there.
-/
import Pushdown.Proofs.Lexer.Renewal

namespace Pushdown

open Text (lit)

/-! ## Lines have no line break in them

  Since a reader cuts a line at its break, none is left in it.  A directive reaches up to a line
  break, and so to the end of its line. -/

namespace Reader

variable {d : Disk} {r r' : Reader} {t : Text}

/-- The rest of a line has no line break in it, if what was seen of it has none. -/
theorem isPlain_of_readLineFrom {seen : Text} (h : readLineFrom d seen r = (.text t, r'))
    (hseen : Line.IsPlain seen) : Line.IsPlain t := by
  have hreverse {u : Text} (hu : Line.IsPlain u) : Line.IsPlain u.reverse :=
    fun b hb => hu b (List.mem_reverse.mp hb)
  fun_induction readLineFrom d seen r with
  | case1 seen r rest hn =>
    split at h
    · cases h
    · obtain rfl := Line.text.inj (Prod.mk.inj h).1
      exact hreverse hseen
  | case2 seen r message rest hn => cases h
  | case3 seen r c rest hn hc =>
    obtain rfl := Line.text.inj (Prod.mk.inj h).1
    exact hreverse hseen
  | case4 seen r rest hn hc =>
    obtain rfl := Line.text.inj (Prod.mk.inj h).1
    exact hreverse hseen
  | case5 seen r c rest hn hc hr ih =>
    have hbreak : Line.isBreak c = false := by
      rw [not_or] at hc
      simp [Line.isBreak, hc, hr]
    exact ih h ((hreverse (Line.isPlain_encode hbreak)).append hseen)

/-- Whatever happens to the disk between two lines, no line has a line break in it. -/
theorem isPlain_of_readLine (h : r.readLine d = (.text t, r')) : Line.IsPlain t :=
  isPlain_of_readLineFrom h fun _ hb => absurd hb List.not_mem_nil

end Reader

/-! ## Sources in the middle of a line

  A source is in the middle of a line from when it has read it until it looks for the next one, and
  so also at its start and at its end.  What is left of the line has no line break in it, so that a
  directive at the start is all that the line holds. -/

namespace Source

variable {d : Disk} {s s' : Source}

/-- A reader has read a line, and the source is in the middle of it. -/
def InLine (s : Source) : Prop :=
  ∃ scan r, s.scan = some scan ∧ Line.IsPlain scan.rest ∧ s.origin = .reading r

/-- A source that has read a line is in the middle of it, at its start. -/
theorem readLine_inLine {r : Reader} (h : s.readLine d r = .line s') : s'.InLine := by
  unfold readLine at h
  split at h
  · rename_i t r' hread
    obtain rfl := Advance.line.inj h
    exact ⟨_, r', rfl, Reader.isPlain_of_readLine hread, rfl⟩
  · cases h
  · cases h

/-- So is a source that was opened for its first line. -/
theorem advance_inLine (h : s.advance d = .line s') : s'.InLine := by
  rw [advance_eq] at h
  cases hr : s.reader d with
  | ok r =>
    rw [hr] at h
    exact readLine_inLine h
  | error f =>
    rw [hr] at h
    cases h

/-- A lexeme that is cut off leaves the source in the middle of its line. -/
theorem InLine.cut {scan rest : Scan} {x : Lexeme} (h : s.InLine) (hscan : s.scan = some scan)
    (hnext : scan.next = some (x, rest)) : InLine { s with scan := some rest } := by
  obtain ⟨scan', r, hscan', hplain, horigin⟩ := h
  obtain rfl := Option.some.inj (hscan.symm.trans hscan')
  exact ⟨rest, r, rfl, fun b hb => hplain b ((Scan.next_rest hnext).2.mem hb), horigin⟩

/-- A source in the middle of a line has a line in progress. -/
theorem InLine.scan_ne_none (h : s.InLine) : s.scan ≠ none := by
  obtain ⟨scan, r, hscan, -⟩ := h
  rw [hscan]
  exact Option.some_ne_none scan

/-- It has been opened. -/
theorem InLine.origin_ne_unopened (h : s.InLine) (path : Text) : s.origin ≠ .unopened path := by
  obtain ⟨scan, r, -, -, horigin⟩ := h
  rw [horigin]
  intro h
  cases h

/-- A directive is all that its line holds, and nothing is left behind it. -/
theorem InLine.directive {scan rest : Scan} {x : Lexeme} (h : s.InLine)
    (hscan : s.scan = some scan) (hfirst : scan.first = true) (hnext : scan.next = some (x, rest))
    (hx : x.kind = .directive) :
    ∃ t, s.scan = some ⟨t, true⟩ ∧ rest = ⟨[], false⟩ ∧
      Content.ofLine t = .directive (Directive.parse x.text) := by
  obtain ⟨scan', r, hscan', hplain, -⟩ := h
  obtain rfl := Option.some.inj (hscan.symm.trans hscan')
  obtain ⟨t, first⟩ := scan
  obtain rfl : first = true := hfirst
  exact ⟨t, hscan, Scan.rest_of_directive hnext hx hplain, Content.ofLine_of_next hnext hx⟩

/-- What cannot be opened is a file that was not opened before. -/
theorem advance_unopenable {f : Fault} (h : s.advance d = .unopenable f) :
    ∃ path, s.origin = .unopened path ∧ d.lookup path = .error f := by
  unfold advance at h
  split at h
  · unfold readLine at h
    split at h <;> cases h
  · rename_i path horigin
    split at h
    · unfold readLine at h
      split at h <;> cases h
    · rename_i f' hlookup
      obtain rfl := Advance.unopenable.inj h
      exact ⟨path, horigin, hlookup⟩

/-- A source that cannot be read has not moved. -/
theorem location_of_unreadable {message : Text} (h : s.advance d = .unreadable s' message) :
    s'.location = s.location := by
  rw [advance_eq] at h
  cases hr : s.reader d with
  | ok r =>
    rw [hr] at h
    dsimp only [readLine] at h
    split at h
    · cases h
    · cases h
    · obtain rfl := (Advance.unreadable.inj h).1
      rfl
  | error f =>
    rw [hr] at h
    cases h

end Source

namespace Lexer

variable {d : Disk} {l l' m m' : Lexer} {s s' : Source} {below : List Source}

/-! ## Lexers in the middle of a call, and between two calls

  Two invariants.  `Orderly` holds between two steps, when a file may have been put on the stack
  that nothing was read of yet; `Rested` holds between two calls, when that is not so. -/

/-- Between two steps of a call: an `#include` has interrupted every source but the innermost, and
    the sources that wait have not been read. -/
structure Orderly (l : Lexer) : Prop where
  top : ∀ s ∈ l.stack.head?, s.scan = none ∨ s.InLine
  below : ∀ s ∈ l.stack.tail, s.InLine
  pending : ∀ s ∈ l.pending, s.scan = none

/-- Between two calls: the innermost source is in the middle of a line as well. -/
structure Rested (l : Lexer) : Prop where
  stack : ∀ s ∈ l.stack, s.InLine
  pending : ∀ s ∈ l.pending, s.scan = none

/-- What holds between two calls holds between two steps. -/
theorem Rested.orderly (h : l.Rested) : l.Orderly :=
  ⟨fun s hs => .inr (h.stack s (List.mem_of_mem_head? hs)),
    fun s hs => h.stack s (List.mem_of_mem_tail hs), h.pending⟩

/-- Below the innermost source, all are in the middle of a line. -/
theorem Orderly.inLine_of_mem_below (h : l.Orderly) (hl : l.stack = s :: below) {t : Source}
    (ht : t ∈ below) : t.InLine := by
  refine h.below t ?_
  rw [hl]
  exact ht

/-- So is the innermost one, if it has a line in progress. -/
theorem Orderly.inLine (h : l.Orderly) (hl : l.stack = s :: below) (hs : s.scan ≠ none) :
    s.InLine := by
  rcases h.top s (by rw [hl]; rfl) with hnone | hline
  · exact absurd hnone hs
  · exact hline

/-- Taking the innermost source off, written out. -/
theorem pop_eq_leave (hl : l.stack = s :: below) : l.pop = l.leave below s.key s.location := by
  rw [pop, hl]
  rfl

/-- The same for a source that was worked on first. -/
theorem pop_withTop (hl : l.stack = s :: below) (s' : Source) :
    (l.withTop s').pop = l.leave below s'.key s'.location := by
  rw [pop_eq_leave (withTop_stack hl s')]
  rfl

/-- An included file that is taken off again leaves nothing behind, since its identity was not open
    before. -/
theorem pop_push {path : Text} (hl : l.stack = s :: below) (s' : Source)
    (hmem : d.canonical path ∉ l.opened) :
    ((l.withTop s').push (.ofFile d path)).pop =
      (l.withTop s').recalling (Source.ofFile d path).location := by
  have hstack : ((l.withTop s').push (.ofFile d path)).stack = .ofFile d path :: s' :: below := by
    rw [push, withTop_stack hl]
  rw [pop_eq_leave hstack]
  exact leave_push hl hmem _

/-- What a step leads to is in order. -/
def Step.Orderly : Step → Prop
  | .more l _ => l.Orderly
  | .done _ l => l.Rested

section Keeping

variable (h : l.Orderly) (hl : l.stack = s :: below)
include h hl

/-- Below a source that is taken off, all are in the middle of a line. -/
theorem Orderly.leave (key : Option Text) (loc : Location) : (l.leave below key loc).Rested :=
  ⟨fun _ ht => h.inLine_of_mem_below hl ht, h.pending⟩

/-- The innermost source may be between two lines. -/
theorem Orderly.withTop (hs' : s'.scan = none ∨ s'.InLine) : (l.withTop s').Orderly := by
  refine ⟨fun t ht => ?_, fun t ht => ?_, h.pending⟩
  · rw [withTop_stack hl] at ht
    obtain rfl := Option.some.inj ht
    exact hs'
  · rw [withTop_stack hl] at ht
    exact h.inLine_of_mem_below hl ht

/-- If it is in the middle of one, the call may end here. -/
theorem Orderly.rested (hs' : s'.InLine) : (l.withTop s').Rested := by
  refine ⟨fun t ht => ?_, h.pending⟩
  rw [withTop_stack hl] at ht
  rcases List.mem_cons.mp ht with rfl | ht
  · exact hs'
  · exact h.inLine_of_mem_below hl ht

/-- Reading a line or taking the source off keeps the order. -/
theorem Orderly.advance : (l.advance d s).Orderly := by
  unfold Lexer.advance
  split
  · rename_i s' hadvance
    exact h.withTop hl (.inr (Source.advance_inLine hadvance))
  · rw [pop_withTop hl]
    exact (h.leave hl _ _).orderly
  · rw [pop_eq_leave hl]
    exact h.leave hl _ _
  · rw [pop_withTop hl]
    exact h.leave hl _ _

/-- So does work on a line. -/
theorem Orderly.cut {scan : Scan} (hscan : s.scan = some scan) : (l.cut d s scan).Orderly := by
  have hline : s.InLine := h.inLine hl (by rw [hscan]; exact Option.some_ne_none scan)
  have hone := lineStep_cut d l s scan
  generalize l.cut d s scan = st at hone
  cases hone with
  | blank => exact h.withTop hl (.inl rfl)
  | skip hnext => exact (h.rested hl (hline.cut hscan hnext)).orderly
  | lineNumber hnext => exact h.withTop hl (.inr (hline.cut hscan hnext))
  | nest hnext =>
    -- the file that is put on top has not been read
    refine ⟨fun t ht => .inl ?_, (h.rested hl (hline.cut hscan hnext)).stack, h.pending⟩
    obtain rfl := Option.some.inj ht
    rfl
  | deliver hnext => exact h.rested hl (hline.cut hscan hnext)
  | fail hfirst hnext => exact h.rested hl (hline.cut hscan hnext)

end Keeping

/-- **One step.** -/
theorem Orderly.step (h : l.Orderly) (d : Disk) : (Lexer.step d l).Orderly := by
  rcases hl : l.stack with _ | ⟨s, below⟩
  · rcases hp : l.pending with _ | ⟨s, rest⟩
    · rw [step_of_isUsedUp d ⟨hl, hp⟩]
      exact ⟨fun t ht => by rw [hl] at ht; exact absurd ht List.not_mem_nil, h.pending⟩
    · have hpending := h.pending
      rw [hp, List.forall_mem_cons] at hpending
      rw [Lexer.step, hl, hp]
      refine ⟨fun t ht => .inl ?_, fun t ht => absurd ht List.not_mem_nil, hpending.2⟩
      obtain rfl := Option.some.inj ht
      exact hpending.1
  · rcases hscan : s.scan with _ | scan
    · rw [step_advance hl hscan]
      exact h.advance hl
    · rw [step_cut hl hscan]
      exact h.cut hl hscan

/-! ## The steps of one call

  A call is taken apart into the steps that go on and the last one, which has an outcome.
  `Proceeds` keeps the diagnostics of the steps, since the call reports them all. -/

/-- `l.Proceeds d ws m`: steps of one call lead from `l` to `m` and give the warnings `ws`. -/
inductive Proceeds (d : Disk) (l : Lexer) : List Diagnostic → Lexer → Prop where
  | here : Proceeds d l [] l
  | more {ws : List Diagnostic} {m m' : Lexer} {w : Option Diagnostic} (h : Proceeds d l ws m)
      (hs : step d m = .more m' w) : Proceeds d l (ws ++ w.toList) m'

/-- The steps of a call keep the order. -/
theorem Proceeds.orderly {ws : List Diagnostic} (h : l.Proceeds d ws m) (hl : l.Orderly) :
    m.Orderly := by
  induction h with
  | here => exact hl
  | more h hs ih =>
    have hone := ih.step d
    rw [hs] at hone
    exact hone

/-- The last step of a call gives its outcome, and the steps before it its warnings. -/
theorem Proceeds.exists_done {ws : List Diagnostic} (h : l.Proceeds d ws m) :
    ∃ m', l.Proceeds d (ws ++ (next d m).warnings) m' ∧
      step d m' = .done (next d m).outcome (next d m).lexer := by
  -- along the steps that are left; those already taken are in `h`
  induction m using (spends_wellFounded d).induction generalizing ws with
  | _ m ih =>
    cases hs : step d m with
    | done outcome l' =>
      rw [next_of_done hs, List.append_nil]
      exact ⟨m, h, hs⟩
    | more m₁ w =>
      obtain ⟨m', hm', hdone⟩ := ih m₁ (spends_of_more hs) (h.more hs)
      rw [List.append_assoc] at hm'
      rw [next_of_more hs]
      exact ⟨m', hm', hdone⟩

/-- A call ends with all sources in the middle of a line. -/
theorem Rested.next (h : l.Rested) (d : Disk) : (next d l).lexer.Rested := by
  obtain ⟨m, hm, hdone⟩ := Proceeds.here (d := d) (l := l).exists_done
  have hone := (hm.orderly h.orderly).step d
  rw [hdone] at hone
  exact hone

/-- So does any other operation. -/
theorem Rested.operate (h : l.Rested) (d : Disk) (op : Operation) : (l.operate d op).Rested := by
  cases op with
  | add i =>
    refine ⟨h.stack, fun s hs => ?_⟩
    rcases List.mem_append.mp hs with hs | hs
    · exact h.pending s hs
    · rw [List.mem_singleton.mp hs]
      exact (Source.at_source d i).scan_eq
  | ask => exact h.next d
  | close =>
    have hstack : (l.operate d .close).stack = [] := close_stack l
    refine ⟨fun s hs => ?_, fun s hs => absurd hs List.not_mem_nil⟩
    rw [hstack] at hs
    exact absurd hs List.not_mem_nil

/-- **A session.** -/
theorem Rested.session (h : l.Rested) (ops : List (Disk × Operation)) : (l.session ops).Rested := by
  induction ops generalizing l with
  | nil => exact h
  | cons op ops ih => exact ih (h.operate op.1 op.2)

/-- A new lexer has no sources. -/
theorem rested_new (path : SearchPath) (warnUnknown : Bool) : (new path warnUnknown).Rested :=
  ⟨fun _ hs => absurd hs List.not_mem_nil, fun _ hs => absurd hs List.not_mem_nil⟩

/-! ## How a call fails

  `Fails` lists the ways in which a call fails on a directive, on reading and on opening, each with
  what is left.  After a directive that is the lexer before the last step with its line used up, but
  for the place where the last source has ended. -/

/-- A directive never fails for a reason of its own. -/
theorem Faulty.ne_other {content : Content} {cause : Cause} (h : Faulty d l content cause)
    (message : Text) : cause ≠ .other message := by
  rintro rfl
  cases h

/-- `m.Fails d cause l'`: the source that `m` is at fails with `cause`, which leaves `l'`. -/
inductive Fails (d : Disk) (m : Lexer) : Cause → Lexer → Prop where
  /-- The innermost source has read a line, and the directive in it fails.  The line is used up, and
      nothing else has changed. -/
  | onLine {s : Source} {below : List Source} {t : Text} {cause : Cause} {loc : Location}
      (hl : m.stack = s :: below) (hscan : s.scan = some ⟨t, true⟩)
      (hfault : Faulty d m (Content.ofLine t) cause) :
      Fails d m cause ((m.withTop { s with scan := some ⟨[], false⟩ }).recalling loc)
  /-- The innermost source is between two lines and cannot read the next one. -/
  | reading {s s' : Source} {below : List Source} {message : Text} (hl : m.stack = s :: below)
      (hscan : s.scan = none) (h : s.advance d = .unreadable s' message) :
      Fails d m (.other message) (m.leave below s.key s.location)
  /-- The first of the sources that wait is a file that cannot be opened. -/
  | waiting {s : Source} {rest : List Source} {path : Text} {f : Fault} {l' : Lexer}
      (hl : m.stack = []) (hp : m.pending = s :: rest) (horigin : s.origin = .unopened path)
      (h : d.lookup path = .error f) (hleft : l'.stack = []) : Fails d m .sourceOpen l'

variable {e : Diagnostic} {cause : Cause} {w : Option Diagnostic} {ws : List Diagnostic}

/-- A step that works on a line fails on the directive in it. -/
theorem Orderly.fails_of_cut {scan : Scan} (h : m.Orderly) (hl : m.stack = s :: below)
    (hscan : s.scan = some scan) (hs : m.cut d s scan = .done (.error e) l')
    (hcause : e.cause = some cause) : m.Fails d cause l' := by
  have hline : s.InLine := h.inLine hl (by rw [hscan]; exact Option.some_ne_none scan)
  have hone := lineStep_cut d m s scan
  rw [hs] at hone
  generalize hst : Step.done (.error e) l' = st at hone
  cases hone with
  | blank => cases hst
  | skip => cases hst
  | lineNumber => cases hst
  | nest => cases hst
  | deliver hnext hnone =>
    obtain ⟨he, -⟩ := Step.done.inj hst
    rw [hnone e he.symm] at hcause
    cases hcause
  | fail hfirst hnext hx hcause' hfault =>
    obtain ⟨he, rfl⟩ := Step.done.inj hst
    obtain rfl := Except.error.inj he
    obtain rfl := Option.some.inj (hcause'.symm.trans hcause)
    obtain ⟨t, hscan', rfl, hcontent⟩ := hline.directive hscan hfirst hnext hx
    rw [← hcontent] at hfault
    have hfails : m.Fails d _ ((m.withTop { s with scan := some ⟨[], false⟩ }).recalling m.last) :=
      .onLine hl hscan' hfault
    exact hfails

/-- A file that is about to be opened was put on the stack by the step before: it was the first of
    those that waited, or there was an `#include` of it. -/
theorem Orderly.opening {path : Text} (h : m.Orderly) (hs : Lexer.step d m = .more m' w)
    (hl : m'.stack = s :: below) (hscan : s.scan = none) (horigin : s.origin = .unopened path) :
    w = none ∧ ((below = [] ∧ m.stack = [] ∧ ∃ rest, m.pending = s :: rest) ∨
      ∃ s₁ below₁ t, m.stack = s₁ :: below₁ ∧ s₁.scan = some ⟨t, true⟩ ∧
        ∃ name, Content.ofLine t = .directive (.ok (.includeFile name)) ∧
          d.canonical (m.path.resolve d name) ∉ m.opened ∧
          m' = (m.withTop { s₁ with scan := some ⟨[], false⟩ }).push
            (.ofFile d (m.path.resolve d name))) := by
  have hm := step_moves d m
  rw [hs] at hm
  generalize hm' : (Step.more m' w).lexer = m₁ at hm
  obtain rfl : m' = m₁ := hm'
  cases hm with
  | idle hu =>
    rw [hu.1] at hl
    cases hl
  | @start s₁ rest hempty hp =>
    have hstep : Lexer.step d m = .more ({ m with pending := rest }.push s₁) none := by
      rw [Lexer.step, hempty, hp]
    obtain ⟨-, rfl⟩ := Step.more.inj (hs.symm.trans hstep)
    obtain ⟨rfl, rfl⟩ : s₁ = s ∧ m.stack = below := List.cons.inj hl
    exact ⟨rfl, .inl ⟨hempty, hempty, rest, hp⟩⟩
  | @goOn s₁ s' below₁ hl₁ hbecomes =>
    rw [withTop_stack hl₁] at hl
    obtain rfl := (List.cons.inj hl).1
    -- the source has read a line, or goes on with one
    cases hbecomes with
    | read hs₁ hadvance => exact absurd hscan (Source.advance_inLine hadvance).scan_ne_none
    | cut hs₁ ho hk =>
      have hline : s₁.InLine := h.inLine hl₁ (Option.isSome_iff_ne_none.mp hs₁)
      exact absurd (ho.symm.trans horigin) (hline.origin_ne_unopened path)
  -- what comes to the top then is in the middle of a line
  | @takeOff s₁ s' below₁ hl₁ hk =>
    rw [pop_withTop hl₁] at hl
    obtain rfl : below₁ = s :: below := hl
    exact absurd hscan (h.inLine_of_mem_below hl₁ List.mem_cons_self).scan_ne_none
  | @nest s₁ below₁ name rest hl₁ hi hopened =>
    have hstep := (step_of_includes (d := d) hl₁ hi).trans (includeFile_of_not_mem hopened)
    obtain ⟨-, rfl⟩ := Step.more.inj (hs.symm.trans hstep)
    obtain ⟨scan, x, hscan₁, hfirst, hnext, hx, hparse⟩ := hi
    have hline : s₁.InLine := h.inLine hl₁ (by rw [hscan₁]; exact Option.some_ne_none scan)
    obtain ⟨t, hscan', rfl, hcontent⟩ := hline.directive hscan₁ hfirst hnext hx
    rw [hparse] at hcontent
    exact ⟨rfl, .inr ⟨s₁, below₁, t, hl₁, hscan', name, hcontent, hopened, rfl⟩⟩

/-- A file that cannot be opened.  The call has not begun with it, since it is between two lines, so
    there was a step that put it on the stack. -/
theorem Rested.fails_of_unopenable {f : Fault} (h : l.Rested) (hm : l.Proceeds d ws m)
    (hl : m.stack = s :: below) (hscan : s.scan = none) (hadvance : s.advance d = .unopenable f) :
    ∃ m₁, l.Proceeds d ws m₁ ∧ m₁.Fails d .sourceOpen m.pop := by
  obtain ⟨path, horigin, hlookup⟩ := Source.advance_unopenable hadvance
  cases hm with
  | here =>
    have hline : s.InLine := h.stack s (by rw [hl]; exact List.mem_cons_self)
    exact absurd hscan hline.scan_ne_none
  | @more ws m₁ m w hm₁ hstep =>
    obtain ⟨rfl, hopening⟩ := (hm₁.orderly h.orderly).opening hstep hl hscan horigin
    rw [Option.toList_none, List.append_nil]
    refine ⟨m₁, hm₁, ?_⟩
    rcases hopening with ⟨rfl, hempty, rest, hp⟩ |
      ⟨s₁, below₁, t, hl₁, hscan₁, name, hcontent, hopened, rfl⟩
    -- it was the first of those that waited, or an `#include` has put it there
    · have hpop : m.pop.stack = [] := by rw [pop, hl]
      exact .waiting hempty hp horigin hlookup hpop
    · have hpush := hl
      rw [push] at hpush
      obtain rfl := (List.cons.inj hpush).1
      obtain rfl := Origin.unopened.inj horigin
      rw [pop_push hl₁ _ hopened]
      exact .onLine hl₁ hscan₁ (hcontent ▸ .unopenable hopened hlookup)

/-- **How a call fails.**  The source that it fails on is where some steps of the call lead. -/
theorem Rested.exists_fails (h : l.Rested) (hs : Lexer.next d l = ⟨.error e, ws, l'⟩)
    (hcause : e.cause = some cause) : ∃ m, l.Proceeds d ws m ∧ m.Fails d cause l' := by
  obtain ⟨m, hm, hdone⟩ := Proceeds.here (d := d) (l := l).exists_done
  rw [hs, List.nil_append] at hm
  rw [hs] at hdone
  dsimp only at hm hdone
  have horderly := hm.orderly h.orderly
  rcases hl : m.stack with _ | ⟨s, below⟩
  · rcases hp : m.pending with _ | ⟨s, rest⟩
    · rw [step_of_isUsedUp d ⟨hl, hp⟩] at hdone
      cases hdone
    · rw [step, hl, hp] at hdone
      cases hdone
  · rcases hscan : s.scan with _ | scan
    · rw [step_advance hl hscan, Lexer.advance] at hdone
      split at hdone
      · cases hdone
      · cases hdone
      · rename_i f hadvance
        obtain ⟨he, rfl⟩ := Step.done.inj hdone
        obtain rfl := Except.error.inj he
        obtain rfl := Option.some.inj hcause
        exact h.fails_of_unopenable hm hl hscan hadvance
      · rename_i s' message hadvance
        obtain ⟨he, rfl⟩ := Step.done.inj hdone
        obtain rfl := Except.error.inj he
        obtain rfl := Option.some.inj hcause
        rw [pop_withTop hl, Source.advance_unreadable hadvance,
          Source.location_of_unreadable hadvance]
        exact ⟨m, hm, .reading hl hscan hadvance⟩
    · rw [step_cut hl hscan] at hdone
      exact ⟨m, hm, horderly.fails_of_cut hl hscan hdone hcause⟩

/-! ## The place where the last source has ended

  A file that could not be opened has been on the stack for one step, and the place that is
  remembered is its own.  Nobody sees it while there is a source, and when that ends its place is
  remembered instead. -/

/-- `l.Recalls l'`: the two differ at most in where the last source has ended, and that only as long
    as there is a source whose end will be the last. -/
inductive Recalls (l : Lexer) : Lexer → Prop where
  | same : Recalls l l
  | place (hl : l.stack ≠ []) (loc : Location) : Recalls l (l.recalling loc)

/-- Work on a line takes no source off. -/
theorem cut_stack_ne_nil (d : Disk) (l : Lexer) (s : Source) (scan : Scan) :
    (l.cut d s scan).lexer.stack ≠ [] := by
  have hone := lineStep_cut d l s scan
  generalize l.cut d s scan = st at hone
  cases hone <;> exact List.cons_ne_nil _ _

/-- A step that takes the only source off forgets the place. -/
theorem step_recalling_of_emptied (hl : l.stack = s :: below)
    (hempty : (step d l).lexer.stack = []) (loc : Location) :
    step d (l.recalling loc) = step d l := by
  have hl' : (l.recalling loc).stack = s :: below := hl
  rcases hscan : s.scan with _ | scan
  · rw [step_advance hl hscan] at hempty
    rw [step_advance hl hscan, step_advance hl' hscan]
    unfold advance at hempty ⊢
    split at hempty
    · exact absurd hempty (List.cons_ne_nil _ _)
    · rename_i s' hadvance
      rw [pop_withTop hl', pop_withTop hl]
      rfl
    · rw [pop_recalling hl]
    · rename_i s' message hadvance
      rw [pop_withTop hl', pop_withTop hl]
      rfl
  · rw [step_cut hl hscan] at hempty
    exact absurd hempty (cut_stack_ne_nil d l s scan)

/-- If the next step is the same, so is the call. -/
theorem next_congr (h : step d l = step d l') : next d l = next d l' := by
  cases hs : step d l' with
  | done outcome m => rw [next_of_done hs, next_of_done (h.trans hs)]
  | more m w => rw [next_of_more hs, next_of_more (h.trans hs)]

/-- A call keeps the two alike, or forgets the place. -/
theorem Recalls.next (h : l.Recalls l') (d : Disk) :
    (Lexer.next d l).lexer.Recalls (Lexer.next d l').lexer := by
  induction l using (spends_wellFounded d).induction generalizing l' with
  | _ l ih =>
    cases h with
    | same => exact .same
    | place hne loc =>
      obtain ⟨s, below, hl⟩ := List.exists_cons_of_ne_nil hne
      by_cases hempty : (step d l).lexer.stack = []
      · rw [next_congr (step_recalling_of_emptied hl hempty loc)]
        exact .same
      · have hone := step_recalling d l loc
        generalize hs : step d l = st, hs' : step d (l.recalling loc) = st' at hone hempty
        cases hone with
        | more l₁ w loc₁ =>
          rw [next_of_more hs, next_of_more hs']
          exact ih l₁ (spends_of_more hs) (.place hempty loc₁)
        | @done outcome l₁ loc₁ hplace =>
          rw [next_of_done hs, next_of_done hs']
          exact .place hempty loc₁

/-- So does any operation; closing forgets the place. -/
theorem Recalls.operate (h : l.Recalls l') (d : Disk) (op : Operation) :
    (l.operate d op).Recalls (l'.operate d op) := by
  cases op with
  | add i =>
    cases h with
    | same => exact .same
    | place hne loc => exact .place (l := l.add (i.source d)) hne loc
  | ask => exact h.next d
  | close =>
    cases h with
    | same => exact .same
    | place hne loc =>
      obtain ⟨s, below, hl⟩ := List.exists_cons_of_ne_nil hne
      have hclose : (l.recalling loc).close = l.close := close_recalling_of_cons hl loc
      show l.close.Recalls (l.recalling loc).close
      rw [hclose]
      exact .same

/-- So does a session. -/
theorem Recalls.session (h : l.Recalls l') (ops : List (Disk × Operation)) :
    (l.session ops).Recalls (l'.session ops) := by
  induction ops generalizing l l' with
  | nil => exact h
  | cons op ops ih => exact ih (h.operate op.1 op.2)

/-- The two show the same location. -/
theorem Recalls.location_eq (h : l.Recalls l') : l'.location = l.location := by
  cases h with
  | same => rfl
  | place hne loc =>
    obtain ⟨s, below, hl⟩ := List.exists_cons_of_ne_nil hne
    exact location_recalling hl loc

/-- The two show the same in every session. -/
theorem Recalls.watch_eq (h : l.Recalls l') (ops : List (Disk × Operation)) :
    l'.watch ops = l.watch ops := by
  cases h with
  | same => rfl
  | place hne loc => exact watch_recalling l loc ops

/-! ## What is seen after an error

  Two lexers are alike if the same is seen of them when they are asked for a token, and whatever is
  done with them then.  The one after the error is like the one that had a comment on its line. -/

/-- `l.Alike d l'`: asked for a token, and then for anything else, the two show the same outcomes,
    warnings, places and depths, and the same location after every operation. -/
def Alike (d : Disk) (l l' : Lexer) : Prop :=
  ∀ later : List (Disk × Operation),
    l'.watch ((d, .ask) :: later) = l.watch ((d, .ask) :: later) ∧
      (l'.session ((d, .ask) :: later)).location = (l.session ((d, .ask) :: later)).location

/-- A step without a warning is not seen by who asks. -/
theorem alike_of_step (hs : step d l = .more m none) (h : m.Recalls l') : l.Alike d l' := by
  have hnext : next d l = next d m := next_of_more hs
  intro later
  have hwatch : l.watch ((d, .ask) :: later) = m.watch ((d, .ask) :: later) := by
    show l.glance d .ask :: (next d l).lexer.watch later = _
    rw [glance, hnext]
    rfl
  have hsession : l.session ((d, .ask) :: later) = m.session ((d, .ask) :: later) := by
    show (next d l).lexer.session later = _
    rw [hnext]
    rfl
  rw [hwatch, hsession]
  exact ⟨h.watch_eq _, (h.session _).location_eq⟩

/-- An empty comment uses its line up, and does nothing else. -/
theorem step_lone_hash (hl : m.stack = s :: below) :
    step d (m.withTop { s with scan := some ⟨lit "#", true⟩ }) =
      .more (m.withTop { s with scan := some ⟨[], false⟩ }) none := by
  have hnext : Scan.next ⟨lit "#", true⟩ = some (⟨.directive, lit "#"⟩, ⟨[], false⟩) := by
    decide +kernel
  have hparse : Directive.parse (lit "#") = .ok (.comment []) := by decide +kernel
  rw [step_cut (withTop_stack hl _) rfl, cut, hnext]
  -- the keyword is empty, and so there is no warning
  simp only [↓reduceIte, directive, hparse, ne_eq, not_true_eq_false, decide_false, Bool.and_false,
    Bool.false_eq_true]
  rfl

/-- A source that has nothing left is taken off. -/
theorem step_nothing_left (hl : m.stack = s :: below) (hscan : s.scan = none) :
    step d (m.withTop { s with origin := .reading { feed := .text [] none } }) =
      .more (m.leave below s.key s.location) none := by
  have hat : Source.At d { s with origin := .reading { feed := .text [] none } } s.position
      (.lines [] .ended) := ⟨hscan, rfl, _, rfl, Reader.yields_of_feed d _⟩
  exact step_ended (withTop_stack hl _) hat

/-- A call that is followed for some steps only. -/
theorem exists_failure {n depth : Nat}
    (h : (nextWithin d n l).map (fun r => (r.outcome.mapError Diagnostic.cause, r.lexer.depth)) =
      some (.error (some cause), depth)) :
    ∃ e ws l', next d l = ⟨.error e, ws, l'⟩ ∧ e.cause = some cause ∧ l'.depth = depth := by
  obtain ⟨⟨outcome, ws, l'⟩, hr, hlook⟩ := Option.map_eq_some_iff.mp h
  obtain ⟨hcause, hdepth⟩ := Prod.mk.inj hlook
  cases outcome with
  | error e => exact ⟨e, ws, l', next_of_nextWithin hr, Except.error.inj hcause, hdepth⟩
  | ok t => cases hcause

/-- **A failing directive is an empty comment to what follows.**  Let a lexer be used in any way,
    and let the next call fail, after the warnings `ws`.

    If that is for a malformed directive, a loop, or a file of an `#include` that cannot be opened,
    then the call has come to a line with this directive in it, after these warnings.  The line is
    used up, and nothing else is left of the attempt.  From the next call on, the lexer shows what
    it would have shown with a lone `#` as the line: in the call that failed, from that line on, and
    in those after it.

    If reading has failed, then the call has come to a source whose complete lines are used up.  The
    lexer has taken it off, and shows what it would have shown if the source had ended there.

    A file that cannot be opened, with nothing below it, is one that was added. -/
theorem watch_after_failure (path : SearchPath) (warnUnknown : Bool)
    (ops : List (Disk × Operation)) {d : Disk} {e : Diagnostic} {ws : List Diagnostic} {l' : Lexer}
    (h : next d ((new path warnUnknown).session ops) = ⟨.error e, ws, l'⟩) :
    (e.cause = some .malformedDirective ∨ e.cause = some .includeLoop ∨
        e.cause = some .sourceOpen ∧ l'.stack ≠ [] →
      ∃ m s below t loc, ((new path warnUnknown).session ops).Proceeds d ws m ∧
        m.stack = s :: below ∧ s.scan = some ⟨t, true⟩ ∧
        (∃ cause, e.cause = some cause ∧ Faulty d m (Content.ofLine t) cause) ∧
        l' = (m.withTop { s with scan := some ⟨[], false⟩ }).recalling loc ∧
        (m.withTop { s with scan := some ⟨lit "#", true⟩ }).Alike d l') ∧
    (∀ message, e.cause = some (.other message) →
      ∃ m s below, ((new path warnUnknown).session ops).Proceeds d ws m ∧
        m.stack = s :: below ∧ s.scan = none ∧ (∃ s', s.advance d = .unreadable s' message) ∧
        l' = m.leave below s.key s.location ∧
        (m.withTop { s with origin := .reading { feed := .text [] none } }).Alike d l') ∧
    (e.cause = some .sourceOpen → l'.stack = [] →
      ∃ m s rest file f, ((new path warnUnknown).session ops).Proceeds d ws m ∧
        m.stack = [] ∧ m.pending = s :: rest ∧ s.origin = .unopened file ∧
        d.lookup file = .error f) := by
  have hrested := (rested_new path warnUnknown).session ops
  cases hcause : e.cause with
  | none =>
    refine ⟨?_, fun message h => ?_, fun h => ?_⟩
    · rintro (h | h | ⟨h, -⟩) <;> cases h
    · cases h
    · cases h
  | some cause =>
    -- the three ways to fail are the three cases of the statement
    obtain ⟨m, hm, hfails⟩ := hrested.exists_fails h hcause
    cases hfails with
    | @onLine s below t cause loc hl hscan hfault =>
      refine ⟨fun _ => ?_, fun message h => ?_, fun _ hempty => ?_⟩
      · exact ⟨m, s, below, t, loc, hm, hl, hscan, ⟨cause, rfl, hfault⟩, rfl,
          alike_of_step (step_lone_hash hl) (.place (List.cons_ne_nil _ _) loc)⟩
      · exact absurd (Option.some.inj h) (hfault.ne_other message)
      · exact absurd hempty (List.cons_ne_nil _ _)
    | @reading s s' below message hl hscan hadvance =>
      refine ⟨?_, fun message' h => ?_, fun h => ?_⟩
      · rintro (h | h | ⟨h, -⟩) <;> cases h
      · obtain rfl := Cause.other.inj (Option.some.inj h)
        exact ⟨m, s, below, hm, hl, hscan, ⟨s', hadvance⟩, rfl,
          alike_of_step (step_nothing_left hl hscan) .same⟩
      · cases h
    | @waiting s rest file f _ hl hp horigin hlookup hleft =>
      refine ⟨?_, fun message h => ?_, fun _ _ => ?_⟩
      · rintro (h | h | ⟨-, hne⟩)
        · cases h
        · cases h
        · exact absurd hleft hne
      · cases h
      · exact ⟨m, s, rest, file, f, hm, hl, hp, horigin, hlookup⟩

/-- An `#include` of a file that is not there, and a reader that fails in the middle of its second
    line. -/
theorem watch_after_failure_missing :
    let d := Disk.empty []
    let l := (new [] false).session [(d, .add (.text (lit "t") (lit "#include f")))]
    let k := (new [] false).session [(d, .add (.failing (lit "t") (lit "\nb") (lit "m")))]
    (∃ e ws l', next d l = ⟨.error e, ws, l'⟩ ∧ e.cause = some .sourceOpen ∧ l'.stack ≠ [] ∧
      ∃ m s below t, l.Proceeds d ws m ∧ m.stack = s :: below ∧ s.scan = some ⟨t, true⟩ ∧
        (m.withTop { s with scan := some ⟨lit "#", true⟩ }).Alike d l') ∧
    ∃ e ws k', next d k = ⟨.error e, ws, k'⟩ ∧ e.cause = some (.other (lit "m")) ∧
      ∃ m s below, k.Proceeds d ws m ∧ m.stack = s :: below ∧ k'.stack = below ∧
        (m.withTop { s with origin := .reading { feed := .text [] none } }).Alike d k' := by
  intro d l k
  constructor
  · have hmissing : (nextWithin d 8 l).map
        (fun r => (r.outcome.mapError Diagnostic.cause, r.lexer.depth)) =
        some (.error (some .sourceOpen), 1) := by decide +kernel
    obtain ⟨e, ws, l', hnext, hcause, hdepth⟩ := exists_failure hmissing
    have hne : l'.stack ≠ [] := by
      intro hempty
      rw [depth, hempty] at hdepth
      cases hdepth
    obtain ⟨m, s, below, t, -, hm, hl, hscan, -, -, halike⟩ :=
      (watch_after_failure [] false [(d, .add (.text (lit "t") (lit "#include f")))] hnext).1
        (.inr (.inr ⟨hcause, hne⟩))
    exact ⟨e, ws, l', hnext, hcause, hne, m, s, below, t, hm, hl, hscan, halike⟩
  · have hunreadable : (nextWithin d 8 k).map
        (fun r => (r.outcome.mapError Diagnostic.cause, r.lexer.depth)) =
        some (.error (some (.other (lit "m"))), 0) := by decide +kernel
    obtain ⟨e, ws, k', hnext, hcause, -⟩ := exists_failure hunreadable
    obtain ⟨m, s, below, hm, hl, -, -, rfl, halike⟩ :=
      (watch_after_failure [] false [(d, .add (.failing (lit "t") (lit "\nb") (lit "m")))]
        hnext).2.1 _ hcause
    exact ⟨e, ws, _, hnext, hcause, m, s, below, hm, hl, rfl, halike⟩

end Lexer
end Pushdown
