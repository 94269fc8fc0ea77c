/-
  What is seen of a lexer.

  A transcript shows the tokens of a lexer, each with the location and the depth right after it, and
  how they end (`Transcript.view`).  `Shows` collects the same from single steps, so that runs can
  be put together: steps that deliver nothing are passed over, and a run leads to a lexer or to an
  error.  A transcript shows what its first run shows, and then the transcript of the lexer that the
  run leads to (`Shows.view`).

  A transcript is made by a loop over calls, and each of these is a loop over steps.  `Shows` has
  only one level, that of the steps, and a token is one of the things that a step can deliver; that
  is why runs can be cut and joined anywhere (`Shows.trans`), also within a call.  A run that leads
  to a lexer takes steps that come to an end (`Shows.spends`), and an induction over what is left
  may follow it.

  Warnings are not part of what is seen here, and steps that give one are quiet.
-/
import Mathlib.Logic.Relation
import Pushdown.Lexer.Transcript

namespace Pushdown

/-- The end of a transcript: an error or the end of input, with the location and the depth that
    the lexer shows then. -/
structure Halt where
  error : Option Diagnostic
  location : Location
  depth : Nat

/-- How a transcript ends. -/
def Transcript.halt (t : Transcript) : Halt := ⟨t.error, t.lexer.location, t.lexer.depth⟩

/-- The tokens of a transcript and how it ends. -/
def Transcript.view (t : Transcript) : List Sighting × Halt := (t.tokens, t.halt)

/-- What is seen of a lexer that is asked once, where `rest` is seen of it afterwards. -/
def Reading.view (r : Reading) (rest : List Sighting × Halt) : List Sighting × Halt :=
  match r.outcome with
  | .error e => ([], ⟨some e, r.lexer.location, r.lexer.depth⟩)
  | .ok t =>
    if t.isEof then ([], ⟨none, r.lexer.location, r.lexer.depth⟩)
    else (⟨t, r.lexer.location, r.lexer.depth⟩ :: rest.1, rest.2)

namespace Lexer

variable {d : Disk} {l l' l'' : Lexer} {out out' : List Sighting}

/-- Tokens that were seen before come first. -/
theorem view_transcriptFrom (d : Disk) (seen : List Sighting) (given : List Diagnostic)
    (l : Lexer) :
    (transcriptFrom d seen given l).view =
      (seen.reverse ++ (transcript d l).view.1, (transcript d l).view.2) := by
  induction l using (spends_wellFounded d).transGen.induction generalizing seen given with
  | _ l ih =>
    unfold transcript
    rw [transcriptFrom, transcriptFrom.eq_def d [] []]
    split
    · simp [Transcript.view, Transcript.halt]
    · rename_i t ws l' h
      split
      · simp [Transcript.view, Transcript.halt]
      · rename_i ht
        have hless := spends_of_token h (by simpa using ht)
        rw [ih l' hless, ih l' hless [_]]
        simp

/-- One token at a time. -/
theorem view_transcript (d : Disk) (l : Lexer) :
    (transcript d l).view = (next d l).view (transcript d (next d l).lexer).view := by
  show (transcriptFrom d [] [] l).view = _
  rw [transcriptFrom]
  split
  · rename_i e ws l' h
    rw [h]
    rfl
  · rename_i t ws l' h
    rw [h]
    split
    · rename_i ht
      simp only [Reading.view, ht, ↓reduceIte]
      rfl
    · rename_i ht
      rw [view_transcriptFrom]
      simp only [Reading.view, ht]
      rfl

/-- `l.Shows d out r`: steps from `l` deliver the sightings `out` and lead to the lexer `r`, or to
    an error that `r` shows. -/
inductive Shows (d : Disk) : Lexer → List Sighting → Except Halt Lexer → Prop where
  | arrive {l : Lexer} : Shows d l [] (.ok l)
  | fail {l l' : Lexer} {e : Diagnostic} (h : step d l = .done (.error e) l') :
      Shows d l [] (.error ⟨some e, l'.location, l'.depth⟩)
  | quiet {l l' : Lexer} {w : Option Diagnostic} {out : List Sighting} {r : Except Halt Lexer}
      (h : step d l = .more l' w) (rest : Shows d l' out r) : Shows d l out r
  | token {l l' : Lexer} {t : Token} {out : List Sighting} {r : Except Halt Lexer}
      (h : step d l = .done (.ok t) l') (ht : t.isEof = false) (rest : Shows d l' out r) :
      Shows d l (⟨t, l'.location, l'.depth⟩ :: out) r

/-- A run is followed by another one from where it leads. -/
theorem Shows.trans {r : Except Halt Lexer} (h : l.Shows d out (.ok l')) (h' : l'.Shows d out' r) :
    l.Shows d (out ++ out') r := by
  generalize hr : Except.ok l' = r' at h
  induction h with
  | arrive =>
    obtain rfl := Except.ok.inj hr
    exact h'
  | fail h => exact nomatch hr
  | quiet h rest ih => exact .quiet h (ih hr)
  | token h ht rest ih => exact .token h ht (ih hr)

/-- A run that leads to a lexer has less left afterwards, or has not done anything. -/
theorem Shows.spends (h : l.Shows d out (.ok l')) : Relation.ReflTransGen (Spends d) l' l := by
  generalize hr : Except.ok l' = r at h
  induction h with
  | arrive =>
    obtain rfl := Except.ok.inj hr
    exact .refl
  | fail h => exact nomatch hr
  | quiet h rest ih => exact (ih hr).tail (spends_of_more h)
  | @token l l₁ t out r h ht rest ih =>
    refine (ih hr).tail ⟨fun hu => ?_, by rw [h]; rfl⟩
    -- a lexer that is used up delivers nothing but the end of input
    rw [step_of_isUsedUp d hu] at h
    obtain ⟨ht', -⟩ : Token.eof = t ∧ l = l₁ := by simpa using h
    rw [← ht'] at ht
    exact nomatch ht

/-- What is seen after steps that lead to a lexer or an error. -/
def outlook (d : Disk) : Except Halt Lexer → List Sighting × Halt
  | .ok l => (transcript d l).view
  | .error halt => ([], halt)

/-- A transcript shows a run, and then what is seen from where the run leads. -/
theorem Shows.view {r : Except Halt Lexer} (h : l.Shows d out r) :
    (transcript d l).view = (out ++ (outlook d r).1, (outlook d r).2) := by
  induction h with
  | arrive => rfl
  | fail h =>
    rw [view_transcript, next_of_done h]
    rfl
  | @quiet l l₁ w out r h rest ih =>
    rw [← ih, view_transcript, next_of_more h, view_transcript d l₁]
    rfl
  | token h ht rest ih =>
    rw [view_transcript, next_of_done h]
    simp only [Reading.view, ht, ih]
    rfl

/-- If nothing is left, the end of the input is seen, at the place where the last source has
    ended. -/
theorem view_of_isUsedUp (h : l.IsUsedUp) :
    (transcript d l).view = ([], ⟨none, l.last, 0⟩) := by
  rw [view_transcript, next_of_done (step_of_isUsedUp d h)]
  simp [Reading.view, location, depth, h.1]

end Lexer

end Pushdown
