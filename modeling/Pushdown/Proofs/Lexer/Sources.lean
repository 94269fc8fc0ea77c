/-
  What holds of every source of a lexer.

  A step opens files, reads lines and cuts lexemes off, and all of that happens to a single source.
  A property of sources that survives it (`Source.Lasting`) and that every source has when it is
  added holds of all sources, on the stack or waiting, whatever is done with the lexer
  (`Each.session`).

  The moves of a lexer are not enough here, since they do not say how a source goes on behind a
  `#line`.  So the steps are taken apart as in the module on contents, and the property has to
  survive four things: that a line is read, that a line is put away, that a lexeme is cut off, and
  that a file is begun.  The numbers and the name of a source may change with a lexeme that is cut
  off, and a property that speaks of them is not lasting.

  Two properties are proved in this way elsewhere: that nothing but fetching is done with a feed,
  and that what is left of a source has only characters of valid texts in it.
-/
import Pushdown.Proofs.Lexer.Resumption

namespace Pushdown

/-! ## One source

  `Lasting` lists what can happen to a source: it is made for a file, it reads a line, it puts a
  line away, or a lexeme is cut off its line. -/

namespace Source

variable {d : Disk} {s s' : Source}

/-- The reader of a source is its own, or that of a file just opened. -/
theorem origin_of_reader {r : Reader} (h : s.reader d = .ok r) :
    s.origin = .reading r ∨ ∃ path node, r = { feed := .file path node 0 } := by
  unfold reader at h
  split at h
  · rename_i r' horigin
    obtain rfl := Except.ok.inj h
    exact .inl horigin
  · rename_i path horigin
    cases hlookup : d.lookup path with
    | error f =>
      rw [hlookup] at h
      cases h
    | ok i =>
      rw [hlookup] at h
      exact .inr ⟨path, i, (Except.ok.inj h).symm⟩

/-- A line comes from the reader, which is at the next one afterwards. -/
theorem reads_of_line (h : s.advance d = .line s') : ∃ r r' t, s.reader d = .ok r ∧
    r.readLine d = (.text t, r') ∧ s'.origin = .reading r' ∧ s'.scan = some ⟨t, true⟩ := by
  rw [advance_eq] at h
  cases hr : s.reader d with
  | error f =>
    rw [hr] at h
    cases h
  | ok r =>
    rw [hr] at h
    dsimp only [readLine] at h
    split at h
    · rename_i t r' hread
      obtain rfl := Advance.line.inj h
      exact ⟨r, r', t, rfl, hread, rfl, rfl⟩
    · cases h
    · cases h

end Source

/-- A property of sources that work on them keeps, and that included files have. -/
structure Source.Lasting (P : Source → Prop) : Prop where
  file : ∀ d path, P (.ofFile d path)
  line : ∀ {d : Disk} {s s' : Source}, P s → s.advance d = .line s' → P s'
  blank : ∀ {s : Source}, P s → P { s with scan := none }
  /-- A lexeme is cut off; if it is a `#line`, the name and the numbers change as well. -/
  cut : ∀ {s : Source} {scan rest : Scan} {x : Lexeme}, P s → s.scan = some scan →
    scan.next = some (x, rest) → ∀ name line next, P { s with name, line, next, scan := some rest }

/-! ## All sources

  The sources of a lexer are those on its stack and those that wait.  No step makes sources in other
  ways, so that what lasts is true of all of them. -/

namespace Lexer

variable {P : Source → Prop} {d : Disk} {l : Lexer} {s s' : Source} {below : List Source}

/-- `P` holds of the sources on the stack and of those that wait. -/
structure Each (P : Source → Prop) (l : Lexer) : Prop where
  stack : ∀ s ∈ l.stack, P s
  pending : ∀ s ∈ l.pending, P s

/-- A new lexer has no sources. -/
theorem each_new (path : SearchPath) (warnUnknown : Bool) : (new path warnUnknown).Each P :=
  ⟨List.forall_mem_nil _, List.forall_mem_nil _⟩

section Keeping

variable (h : l.Each P)
include h

/-- A source is put on top that has the property. -/
theorem Each.push (hs : P s) : (l.push s).Each P :=
  ⟨List.forall_mem_cons.mpr ⟨hs, h.stack⟩, h.pending⟩

/-- The source on top is exchanged for one that has the property. -/
theorem Each.withTop (hl : l.stack = s :: below) (hs' : P s') : (l.withTop s').Each P := by
  refine ⟨fun t ht => ?_, h.pending⟩
  rw [withTop_stack hl] at ht
  rcases List.mem_cons.mp ht with rfl | ht
  · exact hs'
  · exact h.stack t (hl ▸ List.mem_cons_of_mem s ht)

/-- Taking a source off keeps it of the others. -/
theorem Each.leave (hl : l.stack = s :: below) (key : Option Text) (loc : Location) :
    (l.leave below key loc).Each P :=
  ⟨fun t ht => h.stack t (hl ▸ List.mem_cons_of_mem s ht), h.pending⟩

/-- A source reads a line, or is taken off. -/
theorem Each.advance (hP : Source.Lasting P) (hl : l.stack = s :: below) :
    (l.advance d s).lexer.Each P := by
  have hs : P s := h.stack s (hl ▸ List.mem_cons_self)
  unfold Lexer.advance
  split
  · rename_i s' ha
    exact h.withTop hl (hP.line hs ha)
  · show (l.withTop _).pop.Each P
    rw [pop_withTop hl]
    exact h.leave hl _ _
  · show l.pop.Each P
    rw [pop_eq_leave hl]
    exact h.leave hl _ _
  · show (l.withTop _).pop.Each P
    rw [pop_withTop hl]
    exact h.leave hl _ _

/-- A lexeme is cut off; a file that is included has the property from the start. -/
theorem Each.cut {scan : Scan} (hP : Source.Lasting P) (hl : l.stack = s :: below)
    (hscan : s.scan = some scan) : (l.cut d s scan).lexer.Each P := by
  have hs : P s := h.stack s (hl ▸ List.mem_cons_self)
  have hcut {x : Lexeme} {rest : Scan} (hnext : scan.next = some (x, rest)) :
      (l.withTop { s with scan := some rest }).Each P :=
    h.withTop hl (hP.cut hs hscan hnext s.name s.line s.next)
  have hone := lineStep_cut d l s scan
  generalize l.cut d s scan = st at hone
  cases hone with
  | blank => exact h.withTop hl (hP.blank hs)
  | skip hnext => exact hcut hnext
  | lineNumber hnext => exact h.withTop hl (hP.cut hs hscan hnext _ _ _)
  | nest hnext => exact (hcut hnext).push (hP.file d _)
  | deliver hnext => exact hcut hnext
  | fail hfirst hnext => exact hcut hnext

/-- **One step.** -/
theorem Each.step (hP : Source.Lasting P) (d : Disk) : (Lexer.step d l).lexer.Each P := by
  rcases hl : l.stack with _ | ⟨s, below⟩
  · rcases hp : l.pending with _ | ⟨s, rest⟩
    · rw [step_of_isUsedUp d ⟨hl, hp⟩]
      exact h
    · have hpending := h.pending
      rw [hp, List.forall_mem_cons] at hpending
      have hstep : Lexer.step d l = .more ({ l with pending := rest }.push s) none := by
        rw [Lexer.step, hl, hp]
      have hrest : Each P { l with pending := rest } := ⟨h.stack, hpending.2⟩
      rw [hstep]
      exact hrest.push hpending.1
  · rcases hscan : s.scan with _ | scan
    · rw [step_advance hl hscan]
      exact h.advance hP hl
    · rw [step_cut hl hscan]
      exact h.cut hP hl hscan

/-- What one operation keeps. -/
theorem Each.operate (hP : Source.Lasting P) {op : Operation}
    (hadd : ∀ i, op = .add i → P (i.source d)) : (l.operate d op).Each P := by
  cases op with
  | add i =>
    refine ⟨h.stack, fun s hs => ?_⟩
    rcases List.mem_append.mp hs with hs | hs
    · exact h.pending s hs
    · rw [List.mem_singleton.mp hs]
      exact hadd i rfl
  | ask => exact next_induction d (fun l hl => hl.step hP d) h
  | close =>
    have hstack : (l.operate d .close).stack = [] := close_stack l
    refine ⟨fun s hs => ?_, List.forall_mem_nil _⟩
    rw [hstack] at hs
    exact absurd hs List.not_mem_nil

end Keeping

/-- **A session.** -/
theorem Each.session {ops : List (Disk × Operation)} (h : l.Each P) (hP : Source.Lasting P)
    (hadd : ∀ d i, (d, .add i) ∈ ops → P (i.source d)) : (l.session ops).Each P := by
  induction ops generalizing l with
  | nil => exact h
  | cons op ops ih =>
    refine ih (h.operate hP fun i hi => ?_) fun d i hi => hadd d i (List.mem_cons_of_mem op hi)
    exact hadd op.1 i (hi ▸ List.mem_cons_self)

/-- **The steps of one call.** -/
theorem Each.proceeds {ws : List Diagnostic} {m : Lexer} (h : l.Each P) (hP : Source.Lasting P)
    (hm : l.Proceeds d ws m) : m.Each P := by
  induction hm with
  | here => exact h
  | more _ hs ih =>
    have hone := ih.step hP d
    rwa [hs] at hone

end Lexer
end Pushdown
