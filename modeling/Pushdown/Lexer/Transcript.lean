/-
  All tokens of a lexer, as they are seen by asking for one after the other.

  A transcript ends with the end of input or the first error; the lexer after it can be asked
  again.
-/
import Pushdown.Lexer.Next

namespace Pushdown

/-- A token with the location and the depth of the lexer right after it. -/
structure Sighting where
  token : Token
  location : Location
  depth : Nat
  deriving DecidableEq, Repr

/-- What is seen of a lexer up to the end of input or an error. -/
structure Transcript where
  tokens : List Sighting
  error : Option Diagnostic
  warnings : List Diagnostic
  lexer : Lexer

namespace Lexer

/-- A token is delivered by steps, since nothing but the end of input is delivered without one. -/
theorem spends_of_token {d : Disk} {l l' : Lexer} {t : Token} {ws : List Diagnostic}
    (h : next d l = ⟨.ok t, ws, l'⟩) (ht : t.isEof = false) :
    Relation.TransGen (Spends d) l' l := by
  have hu : ¬ l.IsUsedUp := fun hu => by
    rw [next_of_done (step_of_isUsedUp d hu)] at h
    simp only [Reading.mk.injEq, Except.ok.injEq] at h
    simp [← h.1] at ht
  have := next_spends d hu
  rwa [h] at this

/-- Asks for tokens; `seen` and `given` hold the tokens and warnings so far, last one first. -/
def transcriptFrom (d : Disk) (seen : List Sighting) (given : List Diagnostic) (l : Lexer) :
    Transcript :=
  match _h : next d l with
  | ⟨.error e, ws, l'⟩ => ⟨seen.reverse, some e, given.reverse ++ ws, l'⟩
  | ⟨.ok t, ws, l'⟩ =>
    if _ht : t.isEof = true then ⟨seen.reverse, none, given.reverse ++ ws, l'⟩
    else transcriptFrom d (⟨t, l'.location, l'.depth⟩ :: seen) (ws.reverse ++ given) l'
termination_by (spends_wellFounded d).transGen.wrap l
decreasing_by exact spends_of_token _h (by simpa using _ht)

/-- The tokens of a lexer up to the end of input or the first error. -/
def transcript (d : Disk) (l : Lexer) : Transcript := transcriptFrom d [] [] l

end Lexer
end Pushdown
