/-
  What a line holds, and how a lexer works through it.

  A line holds tokens or a directive, which is told from its lexemes (`Content.ofLine`).  A lexer
  that has read the line cuts off one lexeme after the other instead: it delivers the tokens
  (`shows_tokens`), carries out the directive, or reports what is malformed.  Lines have no line
  breaks in them, so a directive is the last lexeme of its line.  What one step of this can do is
  listed in `LineStep`.

  A `#` that is not the first lexeme of a line starts a directive that does not count.  It hides the
  rest of the line all the same, and so the tokens of a line end there (`Content.tokensOf`).  A
  number that is none ends them too, since an error leaves the source where it is and the line is
  shown up to it.

  There are two kinds of results here.  `LineStep` is about any lexer at all and says what one step
  can lead to; invariants are proved with it, case by case.  The lemmas `shows_tokens`,
  `shows_malformed`, `shows_comment`, `shows_lineNumber` and `step_push` are about a lexer at the
  start of a line and say what becomes of the whole line; there is one for each thing that a line
  can hold.
-/
import Mathlib.Data.List.TakeWhile
import Pushdown.Proofs.Lexer.Lines
import Pushdown.Proofs.Lexer.Session
import Pushdown.Proofs.Lexer.View

namespace Pushdown

open Text (lit)

/-! ## What a line holds

  All lexemes of a line are cut first, and then the line is judged as a whole.  A lexer never does
  this; it is what a reader of the line would do. -/

/-- What a line contributes. -/
inductive Content where
  /-- Tokens, and a message if they end in a number that is none. -/
  | tokens (ts : List Token) (fault : Option Text)
  /-- A directive, possibly a malformed one. -/
  | directive (r : Except DirectiveError Directive)

namespace Content

/-- The tokens of lexemes up to the first directive, which hides the rest of the line, or up to the
    first malformed number. -/
def tokensOf : List Lexeme → List Token × Option Text
  | [] => ([], none)
  | x :: xs =>
    if x.kind = .directive then ([], none)
    else match Lexer.token x with
      | .ok t => (t :: (tokensOf xs).1, (tokensOf xs).2)
      | .error m => ([], some m)

/-- What lexemes at the start of a line contribute: only the first of them is a directive that
    counts. -/
def ofLexemes : List Lexeme → Content
  | [] => .tokens [] none
  | x :: xs =>
    if x.kind = .directive then .directive (Directive.parse x.text)
    else .tokens (tokensOf (x :: xs)).1 (tokensOf (x :: xs)).2

/-- What a line contributes. -/
def ofLine (t : Text) : Content := ofLexemes ((Scan.lexemes ⟨t, true⟩).map Prod.fst)

end Content

/-! ## Lexemes of a line

  Cutting is unrolled here one lexeme at a time.  The one fact about a particular class is on
  directives: a directive goes on to the end of its line, so that nothing is left behind it. -/

namespace Lexeme

/-- On a line without line breaks, a directive is as long as the text that is left. -/
theorem longest?_directive {t : Text} {n : Nat} (h : longest? t = some (.directive, n))
    (hplain : Line.IsPlain t) : n = t.length := by
  unfold longest? at h
  split at h
  · exact nomatch h
  · rename_i b t
    repeat' split at h
    all_goals simp at h
    -- it runs up to the next newline, and there is none
    have hrun : t.takeWhile (fun b => decide (b ≠ Text.newline)) = t := by
      rw [List.takeWhile_eq_self_iff]
      intro b hb
      rw [decide_eq_true_eq]
      rintro rfl
      exact absurd (hplain _ (List.mem_cons_of_mem _ hb)) (by decide)
    rw [← h, List.length_cons, run]
    simp only [ne_eq, decide_not] at hrun ⊢
    rw [hrun]
    omega

/-- So it is all of the text that is left. -/
theorem front_directive {t : Text} (h : (front t).kind = .directive)
    (hplain : Line.IsPlain t) : (front t).text = t := by
  unfold front at h ⊢
  split
  · rename_i kind n hl
    rw [hl] at h
    obtain rfl : kind = .directive := h
    rw [longest?_directive hl hplain]
    exact List.take_length
  · rename_i hl
    rw [hl] at h
    exact nomatch h

end Lexeme

namespace Scan

variable {s s' : Scan} {x : Lexeme}

/-- A line without a next lexeme has none left. -/
theorem lexemes_of_none (h : s.next = none) : s.lexemes = [] := by
  rw [lexemes]
  split
  · rfl
  · rename_i h'
    rw [h] at h'
    cases h'

/-- Otherwise the next one comes before those of the rest. -/
theorem lexemes_of_some (h : s.next = some (x, s')) : s.lexemes = (x, s.first) :: s'.lexemes := by
  rw [lexemes]
  split
  · rename_i h'
    rw [h] at h'
    cases h'
  · rename_i y t h'
    obtain ⟨rfl, rfl⟩ : x = y ∧ s' = t := by simpa [h] using h'
    rfl

/-- No lexeme is empty. -/
theorem next_text_ne_nil (h : s.next = some (x, s')) : x.text ≠ [] := by
  unfold next at h
  simp only at h
  split at h
  · exact nomatch h
  · rename_i hne
    obtain ⟨rfl, -⟩ : Lexeme.front _ = x ∧ _ = s' := by simpa using h
    exact List.ne_nil_of_length_pos (Lexeme.front_length_pos hne)

/-- What is left is the end of what there was, and not the start of the line any more. -/
theorem next_rest (h : s.next = some (x, s')) : s'.first = false ∧ s'.rest <:+ s.rest := by
  unfold next at h
  simp only at h
  split at h
  · exact nomatch h
  · obtain ⟨-, rfl⟩ : _ = x ∧ _ = s' := by simpa using h
    exact ⟨rfl, (List.drop_suffix _ _).trans (List.dropWhile_suffix _)⟩

/-- A directive takes the rest of the line. -/
theorem rest_of_directive (h : s.next = some (x, s')) (hx : x.kind = .directive)
    (hplain : Line.IsPlain s.rest) : s' = ⟨[], false⟩ := by
  unfold next at h
  simp only at h
  split at h
  · exact nomatch h
  · obtain ⟨hfront, rfl⟩ : Lexeme.front _ = x ∧ _ = s' := by simpa using h
    have hplain' : Line.IsPlain (s.rest.dropWhile Lexeme.isGap) :=
      fun b hb => hplain b ((List.dropWhile_sublist _).mem hb)
    rw [← hfront] at hx
    rw [Lexeme.front_directive hx hplain', List.drop_length]

end Scan

namespace Content

variable {t : Text}

/-- A directive at the start of a line is what the line holds. -/
theorem ofLine_of_next {x : Lexeme} {rest : Scan} (h : Scan.next ⟨t, true⟩ = some (x, rest))
    (hx : x.kind = .directive) : ofLine t = .directive (Directive.parse x.text) := by
  rw [ofLine, Scan.lexemes_of_some h, List.map_cons, ofLexemes, if_pos hx]

/-- A line with a directive holds nothing else. -/
theorem next_of_ofLine {r : Except DirectiveError Directive} (h : ofLine t = .directive r)
    (hplain : Line.IsPlain t) :
    ∃ x, Scan.next ⟨t, true⟩ = some (x, ⟨[], false⟩) ∧ x.kind = .directive ∧
      Directive.parse x.text = r := by
  cases hnext : Scan.next ⟨t, true⟩ with
  | none =>
    rw [ofLine, Scan.lexemes_of_none hnext] at h
    exact nomatch h
  | some p =>
    obtain ⟨x, rest⟩ := p
    rw [ofLine, Scan.lexemes_of_some hnext, List.map_cons, ofLexemes] at h
    split at h
    · rename_i hx
      rw [Scan.rest_of_directive hnext hx hplain]
      exact ⟨x, rfl, hx, Content.directive.inj h⟩
    · exact nomatch h

/-- A line with tokens does not start with a directive. -/
theorem tokensOf_of_ofLine {ts : List Token} {fault : Option Text}
    (h : ofLine t = .tokens ts fault) :
    tokensOf ((Scan.lexemes ⟨t, true⟩).map Prod.fst) = (ts, fault) ∧
      ∀ x rest, Scan.next ⟨t, true⟩ = some (x, rest) → x.kind ≠ .directive := by
  cases hnext : Scan.next ⟨t, true⟩ with
  | none =>
    rw [ofLine, Scan.lexemes_of_none hnext] at h
    rw [Scan.lexemes_of_none hnext]
    obtain ⟨rfl, rfl⟩ := Content.tokens.inj h
    exact ⟨rfl, nofun⟩
  | some p =>
    obtain ⟨x, rest⟩ := p
    rw [ofLine, Scan.lexemes_of_some hnext, List.map_cons, ofLexemes] at h
    split at h
    · exact nomatch h
    · rename_i hx
      obtain ⟨rfl, rfl⟩ := Content.tokens.inj h
      rw [Scan.lexemes_of_some hnext]
      refine ⟨rfl, ?_⟩
      rintro y rest' hy
      obtain ⟨rfl, rfl⟩ : x = y ∧ rest = rest' := by simpa using hy
      exact hx

end Content

namespace Lexer

variable {d : Disk} {l : Lexer} {s : Source} {below : List Source} {t : Text}

/-! ## What work on a line does

  `LineStep` lists what a step can lead to, with what it leaves of the source in each case.  The
  cases are those of the lexeme that comes next: none, a token, a number that is none, or a
  directive, which may be carried out, be ignored, or fail. -/

/-- What is wrong with a line, given what it holds, if the directive in it fails with `cause`. -/
inductive Faulty (d : Disk) (l : Lexer) : Content → Cause → Prop where
  | malformed {f : DirectiveError} : Faulty d l (.directive (.error f)) .malformedDirective
  | loop {name : Text} (h : d.canonical (l.path.resolve d name) ∈ l.opened) :
      Faulty d l (.directive (.ok (.includeFile name))) .includeLoop
  | unopenable {name : Text} {f : Fault} (ho : d.canonical (l.path.resolve d name) ∉ l.opened)
      (h : d.lookup (l.path.resolve d name) = .error f) :
      Faulty d l (.directive (.ok (.includeFile name))) .sourceOpen

/-- What a step makes of a lexer whose innermost source has `scan` left of its line. -/
inductive LineStep (d : Disk) (l : Lexer) (s : Source) (scan : Scan) : Step → Prop where
  /-- The line is used up. -/
  | blank : LineStep d l s scan (.more (l.withTop { s with scan := none }) none)
  /-- A comment is passed over. -/
  | skip {x : Lexeme} {rest : Scan} {w : Option Diagnostic} (hnext : scan.next = some (x, rest)) :
      LineStep d l s scan (.more (l.withTop { s with scan := some rest }) w)
  | lineNumber {x : Lexeme} {rest : Scan} {line next : Int64} {name : Text}
      (hnext : scan.next = some (x, rest)) :
      LineStep d l s scan
        (.more (l.withTop { s with name, line, next, scan := some rest }) none)
  | nest {x : Lexeme} {rest : Scan} {path : Text} (hnext : scan.next = some (x, rest)) :
      LineStep d l s scan
        (.more ((l.withTop { s with scan := some rest }).push (.ofFile d path)) none)
  /-- A token, or an error without a cause. -/
  | deliver {x : Lexeme} {rest : Scan} {outcome : Except Diagnostic Token}
      (hnext : scan.next = some (x, rest)) (h : ∀ e, outcome = .error e → e.cause = none) :
      LineStep d l s scan (.done outcome (l.withTop { s with scan := some rest }))
  /-- A directive at the start of the line fails. -/
  | fail {x : Lexeme} {rest : Scan} {e : Diagnostic} {cause : Cause} (hfirst : scan.first = true)
      (hnext : scan.next = some (x, rest)) (hx : x.kind = .directive)
      (hcause : e.cause = some cause)
      (hfault : Faulty d l (.directive (Directive.parse x.text)) cause) :
      LineStep d l s scan (.done (.error e) (l.withTop { s with scan := some rest }))

/-- A directive at the start of a line is one of these steps, whatever it says. -/
theorem lineStep_directive {scan rest : Scan} {x : Lexeme} (hfirst : scan.first = true)
    (hnext : scan.next = some (x, rest)) (hx : x.kind = .directive) :
    LineStep d l s scan ((l.withTop { s with scan := some rest }).directive d
      { s with scan := some rest } x.text) := by
  unfold directive
  split
  · rename_i f hparse
    exact .fail hfirst hnext hx rfl (hparse ▸ .malformed)
  · rename_i name hparse
    by_cases hmem : d.canonical (l.path.resolve d name) ∈ l.opened
    · have hloop := includeFile_of_mem (l := l.withTop { s with scan := some rest }) hmem
      rw [hloop]
      exact .fail hfirst hnext hx rfl (hparse ▸ .loop hmem)
    · have hpush := includeFile_of_not_mem (l := l.withTop { s with scan := some rest }) hmem
      rw [hpush]
      exact .nest hnext
  · exact .lineNumber hnext
  · exact .skip hnext

/-- **Work on a line** is one of these. -/
theorem lineStep_cut (d : Disk) (l : Lexer) (s : Source) (scan : Scan) :
    LineStep d l s scan (l.cut d s scan) := by
  unfold cut
  split
  · exact .blank
  · rename_i x rest hnext
    dsimp only
    split
    · rename_i hx
      split
      · rename_i hfirst
        exact lineStep_directive hfirst hnext hx
      · exact .skip hnext
    · split
      · exact .deliver hnext fun e h => by cases h
      · -- a malformed number has no cause
        refine .deliver hnext fun e h => ?_
        obtain rfl := Except.error.inj h
        rfl

/-! ## Working through a line

  The steps of a line are put together.  Tokens are delivered one call at a time, with the rest of
  the line as what is left of the source; everything else is done within a call. -/

/-- No lexeme is taken for the end of input. -/
theorem isEof_of_token {x : Lexeme} {t : Token} (hx : x.text ≠ []) (h : token x = .ok t) :
    t.isEof = false := by
  have hkind : t.kind ≠ [] := by
    unfold token at h
    split at h
    · split at h
      · obtain rfl := Except.ok.inj h
        exact (by decide : kindNumber ≠ [])
      · exact nomatch h
    · obtain rfl := Except.ok.inj h
      exact (by decide : kindString ≠ [])
    · obtain rfl := Except.ok.inj h
      exact (by decide : kindName ≠ [])
    · obtain rfl := Except.ok.inj h
      exact hx
  exact decide_eq_false hkind

/-- What is shown when a line has delivered its tokens, or a malformed number. -/
def afterTokens (l : Lexer) (s : Source) : Option Text → Except Halt Lexer
  | none => .ok (l.withTop { s with scan := none })
  | some m => .error ⟨some ⟨.error, s.location, m, none⟩, s.location, l.depth⟩

/-- With a line in progress, a step cuts the next lexeme off it. -/
theorem step_cut {scan : Scan} (hl : l.stack = s :: below) (hscan : s.scan = some scan) :
    step d l = l.cut d s scan := by
  rw [step, hl]
  simp only [hscan]

/-- The source on top is exchanged, and those below stay. -/
theorem withTop_stack (hl : l.stack = s :: below) (s' : Source) :
    (l.withTop s').stack = s' :: below := by
  rw [withTop, hl]
  rfl

/-- Exchanging the source on top does not change the depth. -/
theorem withTop_depth (hl : l.stack = s :: below) (s' : Source) :
    (l.withTop s').depth = l.depth := by
  rw [depth, depth, withTop_stack hl, hl]
  rfl

/-- How a line ends does not depend on how much of it has been cut off. -/
theorem afterTokens_withTop (hl : l.stack = s :: below) (scan : Option Scan) (fault : Option Text) :
    (l.withTop { s with scan }).afterTokens { s with scan } fault = l.afterTokens s fault := by
  cases fault with
  | none => rfl
  | some m =>
    rw [afterTokens, withTop_depth hl]
    rfl

/-- A line of which nothing is left is put away. -/
theorem shows_blank {first : Bool} (hl : l.stack = s :: below) (hscan : s.scan = some ⟨[], first⟩) :
    l.Shows d [] (.ok (l.withTop { s with scan := none })) := by
  have hstep : step d l = .more (l.withTop { s with scan := none }) none := step_cut hl hscan
  exact .quiet hstep .arrive

/-- A line delivers its tokens one by one. -/
theorem shows_lexemes (scan : Scan) (hl : l.stack = s :: below) (hscan : s.scan = some scan)
    (hplain : Line.IsPlain scan.rest)
    (hfirst : ∀ x rest, scan.next = some (x, rest) → scan.first = true → x.kind ≠ .directive) :
    l.Shows d
      ((Content.tokensOf (scan.lexemes.map Prod.fst)).1.map (⟨·, s.location, l.depth⟩))
      (l.afterTokens s (Content.tokensOf (scan.lexemes.map Prod.fst)).2) := by
  -- along the lexemes of the line; behind the first of them no directive counts
  induction scan using Scan.lexemes.induct generalizing l s with
  | case1 scan hnext =>
    have hstep : step d l = .more (l.withTop { s with scan := none }) none := by
      rw [step_cut hl hscan, cut, hnext]
    rw [Scan.lexemes_of_none hnext]
    exact .quiet hstep .arrive
  | case2 scan x rest hnext ih =>
    rw [Scan.lexemes_of_some hnext, List.map_cons, Content.tokensOf]
    by_cases hx : x.kind = .directive
    · -- it is not the first one, so it only hides the rest of the line
      have hlate : ¬ scan.first = true := fun hf => hfirst x rest hnext hf hx
      have hstep : step d l = .more (l.withTop { s with scan := some rest }) none := by
        rw [step_cut hl hscan, cut, hnext]
        simp only [hx, ↓reduceIte, hlate]
        rfl
      rw [if_pos hx]
      rw [Scan.rest_of_directive hnext hx hplain] at hstep
      have hblank := shows_blank (d := d) (withTop_stack hl { s with scan := some ⟨[], false⟩ }) rfl
      exact .quiet hstep hblank
    · rw [if_neg hx]
      cases htoken : token x with
      | ok t =>
        have hstep : step d l = .done (.ok t) (l.withTop { s with scan := some rest }) := by
          rw [step_cut hl hscan, cut, hnext]
          simp only [hx, ↓reduceIte, htoken]
        obtain ⟨hlate, hsuffix⟩ := Scan.next_rest hnext
        have hshow := ih (withTop_stack hl { s with scan := some rest }) rfl
          (fun b hb => hplain b (hsuffix.mem hb))
          (fun y rest' _ hf => absurd (hlate.symm.trans hf) Bool.false_ne_true)
        have heof := isEof_of_token (Scan.next_text_ne_nil hnext) htoken
        have htokens := Shows.token hstep heof hshow
        rw [withTop_depth hl, afterTokens_withTop hl] at htokens
        exact htokens
      | error m =>
        -- a malformed number ends the line here
        have hstep : step d l =
            .done (.error ((l.withTop { s with scan := some rest }).errorHere m))
              (l.withTop { s with scan := some rest }) := by
          rw [step_cut hl hscan, cut, hnext]
          simp only [hx, ↓reduceIte, htoken]
        have hshow := Shows.fail hstep
        rw [withTop_depth hl] at hshow
        exact hshow

section

variable (hl : l.stack = s :: below) (hscan : s.scan = some ⟨t, true⟩) (hplain : Line.IsPlain t)
include hl hscan hplain

/-- A line with tokens delivers them at the place of the line, and then it is put away or a
    malformed number is reported. -/
theorem shows_tokens {ts : List Token} {fault : Option Text}
    (h : Content.ofLine t = .tokens ts fault) :
    l.Shows d (ts.map (⟨·, s.location, l.depth⟩)) (l.afterTokens s fault) := by
  obtain ⟨htokens, hfirst⟩ := Content.tokensOf_of_ofLine h
  have hshow := shows_lexemes (d := d) ⟨t, true⟩ hl hscan hplain fun x rest hx _ => hfirst x rest hx
  rw [htokens] at hshow
  exact hshow

/-- A directive is carried out with nothing left of its line. -/
theorem step_directive {r : Except DirectiveError Directive} (h : Content.ofLine t = .directive r) :
    ∃ text, Directive.parse text = r ∧ step d l =
      (l.withTop { s with scan := some ⟨[], false⟩ }).directive d
        { s with scan := some ⟨[], false⟩ } text := by
  obtain ⟨x, hnext, hx, hparse⟩ := Content.next_of_ofLine h hplain
  refine ⟨x.text, hparse, ?_⟩
  rw [step_cut hl hscan, cut, hnext]
  simp only [hx, ↓reduceIte]

/-- A directive that is malformed is reported at its line. -/
theorem shows_malformed {f : DirectiveError} (h : Content.ofLine t = .directive (.error f)) :
    l.Shows d [] (.error ⟨some ⟨.error, s.location, f.message, some .malformedDirective⟩,
      s.location, l.depth⟩) := by
  obtain ⟨text, hparse, hstep⟩ := step_directive (d := d) hl hscan hplain h
  rw [directive, hparse] at hstep
  have hshow := Shows.fail hstep
  rw [withTop_depth hl] at hshow
  exact hshow

/-- A comment delivers nothing. -/
theorem shows_comment {keyword : Text}
    (h : Content.ofLine t = .directive (.ok (.comment keyword))) :
    l.Shows d [] (.ok (l.withTop { s with scan := none })) := by
  obtain ⟨text, hparse, hstep⟩ := step_directive (d := d) hl hscan hplain h
  rw [directive, hparse] at hstep
  have hblank := shows_blank (d := d) (withTop_stack hl { s with scan := some ⟨[], false⟩ }) rfl
  exact .quiet hstep hblank

/-- A line number applies from the next line on, with the name that comes with it. -/
theorem shows_lineNumber {n : Int} {name : Text}
    (h : Content.ofLine t = .directive (.ok (.lineNumber n name))) :
    l.Shows d [] (.ok (l.withTop { s with
      name := if name = [] then s.name else name
      line := Int64.ofInt n, next := Int64.ofInt n, scan := none })) := by
  obtain ⟨text, hparse, hstep⟩ := step_directive (d := d) hl hscan hplain h
  rw [directive, hparse] at hstep
  have hblank := shows_blank (d := d) (withTop_stack hl { s with
    name := if name = [] then s.name else name
    line := Int64.ofInt n, next := Int64.ofInt n, scan := some ⟨[], false⟩ }) rfl
  exact .quiet hstep hblank

/-- An `#include` is carried out with nothing left of its line. -/
theorem step_include {name : Text} (h : Content.ofLine t = .directive (.ok (.includeFile name))) :
    step d l = (l.withTop { s with scan := some ⟨[], false⟩ }).includeFile d name := by
  obtain ⟨text, hparse, hstep⟩ := step_directive (d := d) hl hscan hplain h
  rw [directive, hparse] at hstep
  exact hstep

/-- A file that is open already is reported. -/
theorem shows_includeLoop {name : Text}
    (h : Content.ofLine t = .directive (.ok (.includeFile name)))
    (hmem : d.canonical (l.path.resolve d name) ∈ l.opened) :
    l.Shows d [] (.error ⟨some ⟨.error, s.location,
      lit "include loop: " ++ l.path.resolve d name ++ lit " is already open", some .includeLoop⟩,
      s.location, l.depth⟩) := by
  have hstep := step_include (d := d) hl hscan hplain h
  have hshow := Shows.fail (hstep.trans (includeFile_of_mem hmem))
  rw [withTop_depth hl] at hshow
  exact hshow

/-- A file that is not open is put on top. -/
theorem step_push {name : Text} (h : Content.ofLine t = .directive (.ok (.includeFile name)))
    (hmem : d.canonical (l.path.resolve d name) ∉ l.opened) :
    step d l = .more ((l.withTop { s with scan := some ⟨[], false⟩ }).push
      (.ofFile d (l.path.resolve d name))) none := by
  have hstep := step_include (d := d) hl hscan hplain h
  exact hstep.trans (includeFile_of_not_mem hmem)

end

end Lexer

end Pushdown
