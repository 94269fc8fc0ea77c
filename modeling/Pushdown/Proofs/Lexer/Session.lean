/-
  What can be done with a lexer, and what one step of it can do.

  A session adds sources of any kind, asks for tokens and closes the lexer, in any order.  Each
  operation finds the disk in a state of its own, so files may come and go in between.

  `Moves` lists what one step does to a lexer: nothing once it is used up, or it starts a waiting
  source, works on the innermost source, takes that off the stack, or puts an included file on top
  of it.  Every step is one of these (`step_moves`); whatever holds of all lexers that a session
  leads to is proved for the five moves, for adding and for closing.

  The moves say what becomes of the sources and their identities, and leave out what is delivered.
  That a source goes on is told by `Source.Becomes`, as far as an invariant may need it: its reader
  has read a line, or its reader is what it was; the identity stays in either case.  Where the
  contents of the line matter, `Content.LineStep` is the finer list.

  From the moves to a session there are two inductions, which are made once.  Asking for a token
  repeats steps until there is an outcome, and keeps what each of them keeps (`next_induction`);
  closing takes off the sources one by one (`close_induction`).
-/
import Pushdown.Lexer.Next

namespace Pushdown

open Text (lit)

/-- What can be added to a lexer. -/
inductive Input where
  /-- A text in memory, or a reader that delivers it. -/
  | text (name text : Text)
  /-- A list of lines. -/
  | lines (name : Text) (lines : List Text)
  /-- A reader that delivers a text and then fails with a message. -/
  | failing (name text message : Text)
  /-- Chunks that are pulled one by one. -/
  | chunks (name : Text) (puller : Puller)
  /-- A file. -/
  | file (path : Text)

/-- The source that is added for an input. -/
def Input.source (d : Disk) : Input → Source
  | .text name t => .ofText name t
  | .lines name ls => .ofLines name ls
  | .failing name t message => .ofFailing name t message
  | .chunks name puller => .ofPuller name puller
  | .file path => .ofFile d path

/-- What can be done with a lexer. -/
inductive Operation where
  | add (i : Input)
  | ask
  | close

namespace Lexer

/-- A lexer without any input. -/
def new (path : SearchPath) (warnUnknown : Bool) : Lexer := { path, warnUnknown }

/-- The lexer after an operation. -/
def operate (d : Disk) (l : Lexer) : Operation → Lexer
  | .add i => l.add (i.source d)
  | .ask => (l.next d).lexer
  | .close => l.close

/-- The lexer after some operations, each with the disk that it finds. -/
def session (l : Lexer) (ops : List (Disk × Operation)) : Lexer :=
  ops.foldl (fun l op => l.operate op.1 op.2) l

end Lexer

/-! ## Steps

  A step does one of a few things to the sources: it works on the innermost one, puts a file on top
  of it, takes it off, or fetches the first one that waits. -/

namespace Source

/-- What a step makes of a source that stays on the stack: it reads a line, or it goes on with the
    current one. -/
inductive Becomes (d : Disk) (s : Source) : Source → Prop where
  | read {s' : Source} (hs : s.scan = none) (h : s.advance d = .line s') : Becomes d s s'
  | cut {s' : Source} (hs : s.scan.isSome = true) (ho : s'.origin = s.origin)
      (hk : s'.key = s.key) : Becomes d s s'

/-- The next lexeme of the source is an `#include` at the start of its line, for a file of the
    given name; `rest` is what the line has left behind it. -/
def Includes (s : Source) (name : Text) (rest : Scan) : Prop :=
  ∃ scan x, s.scan = some scan ∧ scan.first = true ∧ scan.next = some (x, rest) ∧
    x.kind = .directive ∧ Directive.parse x.text = .ok (.includeFile name)

/-- A source that goes on keeps its identity. -/
theorem Becomes.key_eq {d : Disk} {s s' : Source} (h : s.Becomes d s') : s'.key = s.key := by
  cases h with
  | read hs h => exact (advance_line hs h).1
  | cut hs ho hk => exact hk

end Source

namespace Lexer

/-- What one step does to a lexer. -/
inductive Moves (d : Disk) (l : Lexer) : Lexer → Prop where
  | idle (h : l.IsUsedUp) : Moves d l l
  | start {s : Source} {rest : List Source} (hs : l.stack = []) (hp : l.pending = s :: rest) :
      Moves d l ({ l with pending := rest }.push s)
  | goOn {s s' : Source} {below : List Source} (hl : l.stack = s :: below) (hs : s.Becomes d s') :
      Moves d l (l.withTop s')
  | takeOff {s s' : Source} {below : List Source} (hl : l.stack = s :: below)
      (hk : s'.key = s.key) : Moves d l (l.withTop s').pop
  | nest {s : Source} {below : List Source} {name : Text} {rest : Scan}
      (hl : l.stack = s :: below) (hi : s.Includes name rest)
      (ho : d.canonical (l.path.resolve d name) ∉ l.opened) :
      Moves d l ((l.withTop { s with scan := some rest }).push
        (.ofFile d (l.path.resolve d name)))

variable {d : Disk} {l : Lexer} {s : Source} {below : List Source}

/-- Including a file whose identity is open is a loop. -/
theorem includeFile_of_mem {name : Text} (h : d.canonical (l.path.resolve d name) ∈ l.opened) :
    l.includeFile d name = .done (.error ⟨.error, l.location,
      lit "include loop: " ++ l.path.resolve d name ++ lit " is already open",
      some .includeLoop⟩) l := by
  have hany : (Source.ofFile d (l.path.resolve d name)).key.any (· ∈ l.opened) = true :=
    decide_eq_true h
  exact if_pos hany

/-- Any other file is put on the stack. -/
theorem includeFile_of_not_mem {name : Text}
    (h : d.canonical (l.path.resolve d name) ∉ l.opened) :
    l.includeFile d name = .more (l.push (.ofFile d (l.path.resolve d name))) none := by
  have hany : ¬ (Source.ofFile d (l.path.resolve d name)).key.any (· ∈ l.opened) = true :=
    fun hany => h (of_decide_eq_true hany)
  exact if_neg hany

/-- At an `#include` a step puts the file on the stack, or reports a loop. -/
theorem step_of_includes {name : Text} {rest : Scan} (hl : l.stack = s :: below)
    (hi : s.Includes name rest) :
    step d l = (l.withTop { s with scan := some rest }).includeFile d name := by
  obtain ⟨scan, x, hscan, hfirst, hnext, hx, hparse⟩ := hi
  rw [step, hl]
  simp only [hscan, cut, hnext, hx, ↓reduceIte, hfirst, directive, hparse]

/-- Exchanging the source on top for itself changes nothing. -/
theorem withTop_self (hl : l.stack = s :: below) : l.withTop s = l := by
  unfold withTop
  rw [hl, List.tail_cons, ← hl]

/-- Asking for a line is a move: the source has read one, or it is taken off. -/
theorem advance_moves (hl : l.stack = s :: below) (hs : s.scan = none) :
    Moves d l (l.advance d s).lexer := by
  unfold advance
  split
  · rename_i s' h
    exact .goOn hl (.read hs h)
  · rename_i s' h
    exact .takeOff hl (Source.advance_exhausted h)
  · have htop : Moves d l (l.withTop s).pop := .takeOff hl rfl
    rw [withTop_self hl] at htop
    exact htop
  · rename_i s' m h
    exact .takeOff hl (Source.advance_unreadable h)

/-- A directive at the start of a line is a move: an `#include` puts a file on top, and with
    anything else the source goes on. -/
theorem directive_moves {scan rest : Scan} {x : Lexeme} (hl : l.stack = s :: below)
    (hscan : s.scan = some scan) (hfirst : scan.first = true) (hnext : scan.next = some (x, rest))
    (hx : x.kind = .directive) :
    Moves d l ((l.withTop { s with scan := some rest }).directive d
      { s with scan := some rest } x.text).lexer := by
  have hsome : s.scan.isSome = true := by rw [hscan]; rfl
  have stays : Moves d l (l.withTop { s with scan := some rest }) := .goOn hl (.cut hsome rfl rfl)
  unfold directive
  split
  · exact stays
  · rename_i name hparse
    by_cases hmem : d.canonical (l.path.resolve d name) ∈ l.opened
    · have hloop := includeFile_of_mem (l := l.withTop { s with scan := some rest }) hmem
      rw [hloop]
      exact stays
    · have hpush := includeFile_of_not_mem (l := l.withTop { s with scan := some rest }) hmem
      rw [hpush]
      exact .nest hl ⟨scan, x, hscan, hfirst, hnext, hx, hparse⟩ hmem
  · rename_i n name hparse
    exact .goOn hl (.cut hsome rfl rfl)
  · exact stays

/-- Cutting off a lexeme is a move. -/
theorem cut_moves {scan : Scan} (hl : l.stack = s :: below) (hscan : s.scan = some scan) :
    Moves d l (l.cut d s scan).lexer := by
  have hsome : s.scan.isSome = true := by rw [hscan]; rfl
  unfold cut
  split
  · exact .goOn hl (.cut hsome rfl rfl)
  · rename_i x rest hnext
    have stays : Moves d l (l.withTop { s with scan := some rest }) :=
      .goOn hl (.cut hsome rfl rfl)
    simp only
    split
    · rename_i hx
      split
      · rename_i hfirst
        exact directive_moves hl hscan hfirst hnext hx
      · exact stays
    · split
      · exact stays
      · exact stays

/-- Every step is a move. -/
theorem step_moves (d : Disk) (l : Lexer) : Moves d l (step d l).lexer := by
  unfold step
  split
  · rename_i hs
    split
    · rename_i hp
      exact .idle ⟨hs, hp⟩
    · rename_i s rest hp
      exact .start hs hp
  · rename_i s below hl
    split
    · rename_i hscan
      exact advance_moves hl hscan
    · rename_i scan hscan
      exact cut_moves hl hscan

/-- **What every step keeps, asking for a token keeps.** -/
theorem next_induction (d : Disk) {P : Lexer → Prop}
    (hstep : ∀ l, P l → P (step d l).lexer) {l : Lexer} (hl : P l) : P (next d l).lexer := by
  induction l using (spends_wellFounded d).induction with
  | _ l ih =>
    have hone := hstep l hl
    cases hs : step d l with
    | done outcome l' =>
      rw [next_of_done hs]
      rw [hs] at hone
      exact hone
    | more l' w =>
      rw [next_of_more hs]
      rw [hs] at hone
      exact ih l' (spends_of_more hs) hone

/-- **What taking a source off keeps, closing keeps.**  What closing does besides is to forget the
    sources that wait. -/
theorem close_induction {P : Lexer → Prop} (hpop : ∀ l, P l → P l.pop) (hl : P l) :
    ∃ l', P l' ∧ l.close = { l' with pending := [] } :=
  ⟨_, List.foldlRecOn l.stack (fun l _ => l.pop) hl fun l hl _ _ => hpop l hl, rfl⟩

/-- Closing a lexer takes every source off. -/
theorem close_stack (l : Lexer) : l.close.stack = [] := by
  -- as many sources are taken off as there are at the start
  have hpops : ∀ (ss : List Source) (l : Lexer), l.stack = ss →
      (ss.foldl (fun l _ => l.pop) l).stack = [] := by
    intro ss
    induction ss with
    | nil => exact fun l hl => hl
    | cons s ss ih =>
      intro l hl
      have hpop : l.pop.stack = ss := by rw [pop, hl]
      exact ih l.pop hpop
  exact hpops l.stack l rfl

end Lexer
end Pushdown
