/-
  A lexer that has come to the end of its input, or was closed, is as good as new.

  Either way no source is left on the stack and none waits.  The set of open identities is then
  empty too, since it is that of the files on the stack (`Keyed`), and nothing that is done with a
  lexer changes its search path or its options.  So all that is left of the past is the place where
  the last source ended.

  That place goes unnoticed.  Lexers that differ in nothing else (`recalling`) do the same at every
  step, and they show the same location unless their stacks are empty (`step_recalling`).  Asking
  for tokens is many steps (`next_recalling`), and a session is asked, fed and closed many times
  (`watch_recalling`).  A step that takes a source off the stack forgets the place.

  What is seen of a session is listed in `Glance`.  The place of a token is part of it, but not that
  of the end of the input: there is no source then, and a lexer would show where the last one ended,
  which is the one thing that a new lexer cannot know.  So the two sessions agree on all that is
  said about tokens and errors, and on the depth after every operation.

  Closing is not a step like the others.  It takes the sources off one by one and drops those that
  wait, without looking at anything; so it has its own small lemmas (`close_recalling`,
  `Descends.close`), and it always uses the lexer up (`isUsedUp_close`).

  That the end of the input is only signalled by a lexer that is used up has to be shown from the
  steps (`isUsedUp_of_step`): a token could signal it too, if its kind were empty, and none is.
-/
import Pushdown.Disk.Edit
import Pushdown.Proofs.Lexer.Ending

namespace Pushdown

open Text (lit)

/-! ## What is seen of a session

  A glance is taken at the lexer at each operation.  It shows the outcome of a call with its
  warnings and its place, and after every operation the depth. -/

/-- Where a token or an error was found.  The end of the input has no place. -/
def Reading.place (r : Reading) : Option Location :=
  match r.outcome with
  | .ok t => if t.isEof then none else some r.lexer.location
  | .error _ => some r.lexer.location

/-- What is seen of an operation. -/
structure Glance where
  /-- The outcome and the warnings, if a token was asked for. -/
  answer : Option (Except Diagnostic Token × List Diagnostic) := none
  place : Option Location := none
  depth : Nat

namespace Lexer

/-- What is seen of an operation on a lexer. -/
def glance (d : Disk) (l : Lexer) : Operation → Glance
  | .ask =>
    let r := next d l
    { answer := some (r.outcome, r.warnings), place := r.place, depth := r.lexer.depth }
  | op => { depth := (l.operate d op).depth }

/-- What is seen of a session, operation by operation. -/
def watch (l : Lexer) : List (Disk × Operation) → List Glance
  | [] => []
  | (d, op) :: ops => l.glance d op :: watch (l.operate d op) ops

/-! ## The place where the last source ended

  `recalling` changes this place and nothing else.  Two lexers that differ in it take steps that
  differ in it, or in nothing any more. -/

/-- The lexer with another place at which the last source has ended. -/
def recalling (l : Lexer) (loc : Location) : Lexer := { l with last := loc }

variable {d : Disk} {l : Lexer} {s : Source} {below : List Source} {loc : Location}

/-- As long as there is a source, the location is its own. -/
theorem location_recalling (hl : l.stack = s :: below) (loc : Location) :
    (l.recalling loc).location = l.location := by
  have hl' : (l.recalling loc).stack = s :: below := hl
  rw [location, location, hl, hl']

/-- Taking a source off the stack forgets the place. -/
theorem pop_recalling (hl : l.stack = s :: below) (loc : Location) :
    (l.recalling loc).pop = l.pop := by
  have hl' : (l.recalling loc).stack = s :: below := hl
  rw [pop, pop, hl, hl']
  rfl

/-- As long as there is a source, the place of an outcome is its own too. -/
theorem place_recalling (hl : l.stack = s :: below) (loc : Location)
    (outcome : Except Diagnostic Token) (ws : List Diagnostic) :
    (Reading.mk outcome ws (l.recalling loc)).place = (Reading.mk outcome ws l).place := by
  unfold Reading.place
  dsimp only
  rw [location_recalling hl]

/-- The second step does what the first one does, to a lexer that may recall another place. -/
inductive Step.Follows : Step → Step → Prop where
  | more (l : Lexer) (w : Option Diagnostic) (loc : Location) :
      Follows (.more l w) (.more (l.recalling loc) w)
  | done {outcome : Except Diagnostic Token} {l : Lexer} {loc : Location}
      (h : (Reading.mk outcome [] (l.recalling loc)).place = (Reading.mk outcome [] l).place) :
      Follows (.done outcome l) (.done outcome (l.recalling loc))

/-- A step follows itself. -/
theorem Step.Follows.refl (st : Step) : st.Follows st := by
  cases st with
  | more l w => exact .more l w l.last
  | done outcome l =>
    have h : (Step.done outcome l).Follows (.done outcome (l.recalling l.last)) := .done rfl
    exact h

/-- Including a file does not depend on the place. -/
theorem includeFile_recalling (hl : l.stack = s :: below) (loc : Location) (name : Text) :
    (l.includeFile d name).Follows ((l.recalling loc).includeFile d name) := by
  by_cases hmem : d.canonical (l.path.resolve d name) ∈ l.opened
  · have hmem' : d.canonical ((l.recalling loc).path.resolve d name) ∈ (l.recalling loc).opened :=
      hmem
    rw [includeFile_of_mem hmem, includeFile_of_mem hmem', location_recalling hl]
    exact .done (place_recalling hl loc _ _)
  · have hmem' : d.canonical ((l.recalling loc).path.resolve d name) ∉ (l.recalling loc).opened :=
      hmem
    rw [includeFile_of_not_mem hmem, includeFile_of_not_mem hmem']
    exact .more _ none loc

/-- Nor does a directive. -/
theorem directive_recalling (hl : l.stack = s :: below) (loc : Location) (text : Text) :
    (l.directive d s text).Follows ((l.recalling loc).directive d s text) := by
  unfold directive
  split
  · rw [location_recalling hl]
    exact .done (place_recalling hl loc _ _)
  · exact includeFile_recalling hl loc _
  · exact .more _ none loc
  · rw [warningHere, warningHere, location_recalling hl]
    exact .more l _ loc

/-- Nor does cutting off a lexeme. -/
theorem cut_recalling (hl : l.stack = s :: below) (loc : Location) (scan : Scan) :
    (l.cut d s scan).Follows ((l.recalling loc).cut d s scan) := by
  unfold cut
  split
  · exact .more _ none loc
  · rename_i x rest hnext
    have htop : (l.withTop { s with scan := some rest }).stack =
        { s with scan := some rest } :: below := withTop_stack hl _
    dsimp only
    split
    · split
      · exact directive_recalling htop loc x.text
      · exact .more _ none loc
    · split
      · exact .done (place_recalling htop loc _ _)
      · rename_i m htoken
        have herror : ((l.recalling loc).withTop { s with scan := some rest }).errorHere m =
            (l.withTop { s with scan := some rest }).errorHere m :=
          congrArg (Diagnostic.mk .error · m none) (location_recalling htop loc)
        rw [herror]
        exact .done (place_recalling htop loc _ _)

/-- Nor does reading a line; a source that ends leaves its own place. -/
theorem advance_recalling (hl : l.stack = s :: below) (loc : Location) :
    (l.advance d s).Follows ((l.recalling loc).advance d s) := by
  unfold advance
  split
  · exact .more _ none loc
  · rename_i s' hadvance
    have htop : (l.withTop s').stack = s' :: below := withTop_stack hl _
    have hpop : ((l.recalling loc).withTop s').pop = (l.withTop s').pop := pop_recalling htop loc
    rw [hpop]
    exact .refl _
  · rw [pop_recalling hl]
    exact .refl _
  · rename_i s' m hadvance
    have htop : (l.withTop s').stack = s' :: below := withTop_stack hl _
    have hpop : ((l.recalling loc).withTop s').pop = (l.withTop s').pop := pop_recalling htop loc
    rw [hpop]
    exact .refl _

/-- **One step** does not depend on where the last source has ended. -/
theorem step_recalling (d : Disk) (l : Lexer) (loc : Location) :
    (step d l).Follows (step d (l.recalling loc)) := by
  rcases hl : l.stack with _ | ⟨s, below⟩
  · rcases hp : l.pending with _ | ⟨s, rest⟩
    · rw [step_of_isUsedUp d ⟨hl, hp⟩, step_of_isUsedUp d (l := l.recalling loc) ⟨hl, hp⟩]
      exact .done rfl
    · have hl' : (l.recalling loc).stack = [] := hl
      have hp' : (l.recalling loc).pending = s :: rest := hp
      rw [step, step, hl, hl', hp, hp']
      exact .more _ none loc
  · have hl' : (l.recalling loc).stack = s :: below := hl
    rcases hscan : s.scan with _ | scan
    · rw [step, step, hl, hl']
      simp only [hscan]
      exact advance_recalling hl loc
    · rw [step_cut hl hscan, step_cut hl' hscan]
      exact cut_recalling hl loc scan

/-- Two readings that look the same; the lexer may recall another place afterwards. -/
structure Matches (r r' : Reading) : Prop where
  outcome : r'.outcome = r.outcome
  warnings : r'.warnings = r.warnings
  place : r'.place = r.place
  lexer : ∃ loc, r'.lexer = r.lexer.recalling loc

/-- Warnings that were given before do not make a difference. -/
theorem Matches.after {r r' : Reading} (h : Matches r r') (ws : List Diagnostic) :
    Matches (r.after ws) (r'.after ws) :=
  ⟨h.outcome, congrArg (ws ++ ·) h.warnings, h.place, h.lexer⟩

/-- **Asking for a token** does not depend on where the last source has ended. -/
theorem next_recalling (d : Disk) (l : Lexer) (loc : Location) :
    Matches (next d l) (next d (l.recalling loc)) := by
  -- along the steps; the place that is recalled can change with each of them
  induction l using (spends_wellFounded d).induction generalizing loc with
  | _ l ih =>
    have hone := step_recalling d l loc
    generalize hs : step d l = st, hs' : step d (l.recalling loc) = st' at hone
    cases hone with
    | more l₁ w loc₁ =>
      rw [next_of_more hs, next_of_more hs']
      exact (ih l₁ (spends_of_more hs) loc₁).after w.toList
    | @done outcome l₁ loc₁ hplace =>
      rw [next_of_done hs, next_of_done hs']
      exact ⟨rfl, rfl, hplace, loc₁, rfl⟩

/-- Closing takes every source off, and so it forgets the place if there is a source. -/
theorem close_recalling_of_cons (hl : l.stack = s :: below) (loc : Location) :
    (l.recalling loc).close = l.close := by
  have hl' : (l.recalling loc).stack = s :: below := hl
  rw [close, close, hl, hl', List.foldl_cons, List.foldl_cons, pop_recalling hl]

/-- A lexer that was closed may only recall another place. -/
theorem close_recalling (l : Lexer) (loc : Location) :
    ∃ loc', (l.recalling loc).close = l.close.recalling loc' := by
  rcases hl : l.stack with _ | ⟨s, below⟩
  · have hl' : (l.recalling loc).stack = [] := hl
    refine ⟨loc, ?_⟩
    rw [close, close, hl, hl']
    rfl
  · exact ⟨l.close.last, close_recalling_of_cons hl loc⟩

/-- One operation. -/
theorem operate_recalling (d : Disk) (l : Lexer) (loc : Location) (op : Operation) :
    (l.recalling loc).glance d op = l.glance d op ∧
      ∃ loc', (l.recalling loc).operate d op = (l.operate d op).recalling loc' := by
  cases op with
  | add i => exact ⟨rfl, loc, rfl⟩
  | ask =>
    obtain ⟨houtcome, hwarnings, hplace, loc', hlexer⟩ := next_recalling d l loc
    refine ⟨?_, loc', hlexer⟩
    unfold glance
    dsimp only
    rw [houtcome, hwarnings, hplace, hlexer]
    rfl
  | close =>
    obtain ⟨loc', hclose⟩ := close_recalling l loc
    refine ⟨?_, loc', hclose⟩
    show Glance.mk none none (l.recalling loc).close.depth = _
    rw [hclose]
    rfl

/-- **A session** does not depend on where the last source before it has ended. -/
theorem watch_recalling (l : Lexer) (loc : Location) (ops : List (Disk × Operation)) :
    (l.recalling loc).watch ops = l.watch ops := by
  induction ops generalizing l loc with
  | nil => rfl
  | cons op ops ih =>
    obtain ⟨hglance, loc', hoperate⟩ := operate_recalling op.1 l loc op.2
    show (l.recalling loc).glance op.1 op.2 :: ((l.recalling loc).operate op.1 op.2).watch ops = _
    rw [hglance, hoperate, ih]
    rfl

/-! ## What is left of the past

  `Descends` is what every lexer of a session has in common with the new lexer that it was: the
  path, the options, and that the open identities are those of the files on the stack.  Without
  sources nothing of the rest is left. -/

/-- The lexer was made with these settings, and its open identities are those of the files on its
    stack. -/
structure Descends (path : SearchPath) (warnUnknown : Bool) (l : Lexer) : Prop where
  keyed : l.Keyed
  path : l.path = path
  warnUnknown : l.warnUnknown = warnUnknown

section Descent

variable {path : SearchPath} {warnUnknown : Bool}

/-- A new lexer was made with its settings and has nothing open. -/
theorem descends_new (path : SearchPath) (warnUnknown : Bool) :
    (new path warnUnknown).Descends path warnUnknown := ⟨keyed_new path warnUnknown, rfl, rfl⟩

/-- No move changes the settings. -/
theorem Moves.settings {l l' : Lexer} (h : Moves d l l') :
    l'.path = l.path ∧ l'.warnUnknown = l.warnUnknown := by
  cases h <;> exact ⟨rfl, rfl⟩

/-- Nor does closing. -/
theorem close_settings (l : Lexer) :
    l.close.path = l.path ∧ l.close.warnUnknown = l.warnUnknown := by
  have hpop : ∀ l' : Lexer, l'.path = l.path ∧ l'.warnUnknown = l.warnUnknown →
      l'.pop.path = l.path ∧ l'.pop.warnUnknown = l.warnUnknown := by
    intro l' hl'
    unfold pop
    split <;> exact hl'
  obtain ⟨l', hl', hclose⟩ := close_induction hpop (l := l) ⟨rfl, rfl⟩
  rw [hclose]
  exact hl'

/-- Closing keeps this. -/
theorem Descends.close (h : l.Descends path warnUnknown) : l.close.Descends path warnUnknown := by
  obtain ⟨hpath, hwarn⟩ := close_settings l
  exact ⟨h.keyed.close, hpath.trans h.path, hwarn.trans h.warnUnknown⟩

/-- So does any other operation. -/
theorem Descends.operate (h : l.Descends path warnUnknown) (d : Disk) (op : Operation) :
    (l.operate d op).Descends path warnUnknown := by
  cases op with
  | add i => exact ⟨h.keyed.add _, h.path, h.warnUnknown⟩
  | ask =>
    refine next_induction d (fun l hl => ?_) h
    obtain ⟨hpath, hwarn⟩ := (step_moves d l).settings
    exact ⟨hl.keyed.moves (step_moves d l), hpath.trans hl.path, hwarn.trans hl.warnUnknown⟩
  | close => exact h.close

/-- So it holds after every session. -/
theorem Descends.session (h : l.Descends path warnUnknown) (ops : List (Disk × Operation)) :
    (l.session ops).Descends path warnUnknown := by
  induction ops generalizing l with
  | nil => exact h
  | cons op ops ih => exact ih (h.operate op.1 op.2)

/-- With no source left there are no open identities, and the lexer is as good as new. -/
theorem Descends.renewed (h : l.Descends path warnUnknown) (hu : l.IsUsedUp) :
    l.opened = [] ∧ l = (new path warnUnknown).recalling l.last := by
  -- an identity that is open is that of a source on the stack
  have hopened : l.opened = [] := by
    refine List.eq_nil_iff_forall_not_mem.mpr fun k hk => ?_
    obtain ⟨s, hs, -⟩ := (h.keyed.opened_iff k).mp hk
    rw [hu.1] at hs
    exact nomatch hs
  refine ⟨hopened, ?_⟩
  obtain ⟨-, hpath, hwarn⟩ := h
  obtain ⟨hstack, hpending⟩ := hu
  cases l
  subst hstack hpending hopened hpath hwarn
  rfl

end Descent

/-! ## The end of the input

  A call can say that the input has ended only when there is nothing on the stack and nothing
  waits. -/

/-- No directive delivers a token. -/
theorem directive_ne_token (l l' : Lexer) (d : Disk) (s : Source) (text : Text) (t : Token) :
    l.directive d s text ≠ .done (.ok t) l' := by
  intro h
  unfold directive at h
  split at h
  · cases h
  · rename_i name hparse
    by_cases hmem : d.canonical (l.path.resolve d name) ∈ l.opened
    · rw [includeFile_of_mem hmem] at h
      cases h
    · rw [includeFile_of_not_mem hmem] at h
      cases h
  · cases h
  · cases h

/-- A step that signals the end of the input leaves the lexer used up. -/
theorem isUsedUp_of_step {l' : Lexer} {t : Token} (h : step d l = .done (.ok t) l')
    (ht : t.isEof = true) : l'.IsUsedUp := by
  rcases hl : l.stack with _ | ⟨s, below⟩
  · rcases hp : l.pending with _ | ⟨s, rest⟩
    · rw [step_of_isUsedUp d ⟨hl, hp⟩] at h
      obtain ⟨-, rfl⟩ := Step.done.inj h
      exact ⟨hl, hp⟩
    · rw [step, hl, hp] at h
      cases h
  · rcases hscan : s.scan with _ | scan
    · -- reading a line delivers no token
      rw [step, hl] at h
      simp only [hscan, advance] at h
      split at h <;> cases h
    · rw [step_cut hl hscan, cut] at h
      split at h
      · cases h
      · rename_i x rest hnext
        dsimp only at h
        split at h
        · split at h
          · exact absurd h (directive_ne_token _ _ _ _ _ _)
          · cases h
        · split at h
          · -- a lexeme has a text, and so its token is not the end of the input
            rename_i u htoken
            obtain ⟨hok, -⟩ := Step.done.inj h
            obtain rfl := Except.ok.inj hok
            rw [isEof_of_token (Scan.next_text_ne_nil hnext) htoken] at ht
            cases ht
          · cases h

/-- So does a call that delivers the end of the input. -/
theorem isUsedUp_of_next {t : Token} (h : (next d l).outcome = .ok t) (ht : t.isEof = true) :
    (next d l).lexer.IsUsedUp := by
  induction l using (spends_wellFounded d).induction with
  | _ l ih =>
    cases hs : step d l with
    | done outcome l' =>
      rw [next_of_done hs] at h ⊢
      obtain rfl : outcome = .ok t := h
      exact isUsedUp_of_step hs ht
    | more l' w =>
      rw [next_of_more hs] at h ⊢
      exact ih l' (spends_of_more hs) h

/-- A lexer that was closed has nothing left. -/
theorem isUsedUp_close (l : Lexer) : l.close.IsUsedUp := ⟨close_stack l, rfl⟩

/-- **Nothing of an earlier input survives.**  Let a lexer be used in any way, with errors or not,
    and then be closed, or give the end of its input.  Then no source is left and no identity is
    open.  Whatever is done with it from then on, what is seen is what is seen of a new lexer with
    the same settings: the tokens and errors, the warnings, the depths, and the places where tokens
    and errors are found. -/
theorem watch_renewed (path : SearchPath) (warnUnknown : Bool) (ops : List (Disk × Operation))
    {l : Lexer} (h : l = ((new path warnUnknown).session ops).close ∨
      ∃ d t, (next d ((new path warnUnknown).session ops)).outcome = .ok t ∧ t.isEof = true ∧
        l = (next d ((new path warnUnknown).session ops)).lexer) :
    l.stack = [] ∧ l.pending = [] ∧ l.opened = [] ∧
      ∀ later, l.watch later = (new path warnUnknown).watch later := by
  have hsession := (descends_new path warnUnknown).session ops
  have hend : l.Descends path warnUnknown ∧ l.IsUsedUp := by
    rcases h with rfl | ⟨d, t, houtcome, ht, rfl⟩
    · exact ⟨hsession.close, isUsedUp_close _⟩
    · exact ⟨hsession.operate d .ask, isUsedUp_of_next houtcome ht⟩
  obtain ⟨hdescends, hu⟩ := hend
  obtain ⟨hopened, hnew⟩ := hdescends.renewed hu
  refine ⟨hu.1, hu.2, hopened, fun later => ?_⟩
  rw [hnew]
  exact watch_recalling _ _ later

/-- A lexer that is closed in the middle of an included file, and one that has read a text to its
    end. -/
theorem watch_renewed_nested :
    let d := (Disk.empty []).write (lit "f") (lit "y z")
    let nested := (new [] false).session [(d, .add (.text (lit "t") (lit "#include f"))), (d, .ask)]
    let ended := (new [] false).session [(d, .add (.text (lit "t") (lit "x"))), (d, .ask), (d, .ask)]
    nested.depth = 2 ∧ nested.close.opened = [] ∧ ended.opened = [] ∧
      ∀ later, nested.close.watch later = (new [] false).watch later ∧
        ended.watch later = (new [] false).watch later := by
  intro d nested ended
  have hdepth : (nextWithin d 8 ((new [] false).add (.ofText (lit "t") (lit "#include f")))).map
      (·.lexer.depth) = some 2 := by decide +kernel
  obtain ⟨r, hr, hdepth⟩ := Option.map_eq_some_iff.mp hdepth
  have heof : ((nextWithin d 8 ((new [] false).add (.ofText (lit "t") (lit "x")))).bind fun r =>
      (nextWithin d 8 r.lexer).map (·.outcome.toOption)) = some (some .eof) := by decide +kernel
  obtain ⟨r₁, hr₁, heof⟩ := Option.bind_eq_some_iff.mp heof
  obtain ⟨r₂, hr₂, heof⟩ := Option.map_eq_some_iff.mp heof
  have hnested : nested.depth = 2 := by
    show (next d ((new [] false).add (.ofText (lit "t") (lit "#include f")))).lexer.depth = 2
    rw [next_of_nextWithin hr]
    exact hdepth
  have hone : next d ((new [] false).add (.ofText (lit "t") (lit "x"))) = r₁ :=
    next_of_nextWithin hr₁
  have hended : (next d ((new [] false).session
      [(d, .add (.text (lit "t") (lit "x"))), (d, .ask)])).outcome = .ok .eof := by
    show (next d (next d ((new [] false).add (.ofText (lit "t") (lit "x")))).lexer).outcome = _
    rw [hone, next_of_nextWithin hr₂]
    rcases houtcome : r₂.outcome with e | t
    · rw [houtcome] at heof
      cases heof
    · rw [houtcome] at heof
      exact congrArg Except.ok (Option.some.inj heof)
  obtain ⟨-, -, hopened, hwatch⟩ := watch_renewed [] false
    [(d, .add (.text (lit "t") (lit "#include f"))), (d, .ask)] (Or.inl rfl)
  obtain ⟨-, -, hopened', hwatch'⟩ := watch_renewed [] false
    [(d, .add (.text (lit "t") (lit "x"))), (d, .ask)] (Or.inr ⟨d, .eof, hended, rfl, rfl⟩)
  exact ⟨hnested, hopened, hopened', fun later => ⟨hwatch later, hwatch' later⟩⟩

end Lexer
end Pushdown
