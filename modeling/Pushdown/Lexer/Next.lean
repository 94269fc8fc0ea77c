/-
  The next token of a lexer.

  `next` repeats `step` until there is an outcome.  It needs no fuel, since the steps that ask to
  go on come to an end (`spends_wellFounded`), whatever the files include.  The two lemmas at the
  end say what one step contributes.
-/
import Pushdown.Lexer.Termination

namespace Pushdown

/-- The outcome of asking a lexer for a token. -/
structure Reading where
  /-- The token, which is that of the end of input once nothing is left, or an error. -/
  outcome : Except Diagnostic Token
  /-- The warnings given on the way, in order. -/
  warnings : List Diagnostic := []
  /-- The lexer to go on with, also after an error. -/
  lexer : Lexer

/-- The same outcome with earlier warnings in front. -/
def Reading.after (earlier : List Diagnostic) (r : Reading) : Reading :=
  ⟨r.outcome, earlier ++ r.warnings, r.lexer⟩

namespace Lexer

/-- Repeats steps until there is an outcome; `seen` holds the warnings so far, last one first. -/
def nextFrom (d : Disk) (seen : List Diagnostic) (l : Lexer) : Reading :=
  match _h : step d l with
  | .done outcome l' => { outcome, warnings := seen.reverse, lexer := l' }
  | .more l' w => nextFrom d (w.toList ++ seen) l'
termination_by (spends_wellFounded d).wrap l
decreasing_by exact spends_of_more _h

/-- The next token, the warnings on the way to it and the lexer after it. -/
def next (d : Disk) (l : Lexer) : Reading := nextFrom d [] l

/-- Warnings that were seen before come first, and change nothing else. -/
theorem nextFrom_eq (d : Disk) (seen : List Diagnostic) (l : Lexer) :
    nextFrom d seen l = (next d l).after seen.reverse := by
  induction l using (spends_wellFounded d).induction generalizing seen with
  | _ l ih =>
    unfold next
    rw [nextFrom, nextFrom.eq_def d []]
    split
    · simp [Reading.after]
    · rename_i l' w h
      rw [ih l' (spends_of_more h) (w.toList ++ seen), ih l' (spends_of_more h) (w.toList ++ [])]
      cases w <;> simp [Reading.after]

/-- A step with an outcome is all there is. -/
theorem next_of_done {d : Disk} {l l' : Lexer} {outcome : Except Diagnostic Token}
    (h : step d l = .done outcome l') : next d l = { outcome, lexer := l' } := by
  rw [next, nextFrom]
  split <;> simp_all

/-- A step that asks to go on contributes its warning. -/
theorem next_of_more {d : Disk} {l l' : Lexer} {w : Option Diagnostic}
    (h : step d l = .more l' w) :
    next d l = (next d l').after w.toList := by
  rw [next, nextFrom]
  split
  · simp_all
  · rename_i l'' w' h'
    obtain ⟨rfl, rfl⟩ : l' = l'' ∧ w = w' := by simpa [h] using h'
    -- the warning of this step is seen before all others
    rw [nextFrom_eq]
    cases w <;> simp

/-- Unless nothing is left, asking for a token takes at least one step. -/
theorem next_spends (d : Disk) {l : Lexer} (h : ¬ l.IsUsedUp) :
    Relation.TransGen (Spends d) (next d l).lexer l := by
  induction l using (spends_wellFounded d).induction with
  | _ l ih =>
    cases hs : step d l with
    | done outcome l' =>
      rw [next_of_done hs]
      exact .single ⟨h, by rw [hs]; rfl⟩
    | more l' w =>
      have hl := spends_of_more hs
      rw [next_of_more hs]
      by_cases hu : l'.IsUsedUp
      · rw [next_of_done (step_of_isUsedUp d hu)]
        exact .single hl
      · exact (ih l' hl hu).tail hl

end Lexer
end Pushdown
