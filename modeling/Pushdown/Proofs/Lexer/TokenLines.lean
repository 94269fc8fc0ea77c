/-
  What a lexer shows of lines that hold nothing but tokens.

  The expansion of an input is told line by line, and most lines are of one kind: they have no
  directive in them, and so they leave the position alone, open no source and change no name
  (`Line.HoldsTokens`).  Their tokens are seen at the number of the line, counted from one, and at
  the end of input comes the number of the last line (`Lexer.view_of_lines`).

  The tokens of a line end with the line.  In `Content` they may also end in a malformed number, but
  no line has one: what the scanner takes for a number spells one (`Content.tokensOf_snd`).

  The simplest line is a single word.  A word on its own is taken as a whole, since no longer prefix
  is there to be taken (`Lexeme.front_of_word`), and the line gives a single token
  (`Lexer.view_of_word`).  Reading back numbers and string literals is a case of it.
-/
import Pushdown.Proofs.Lexer.Expansion
import Pushdown.Proofs.Lexer.LineBreaks
import Pushdown.Proofs.Lexer.NumberLiteral

namespace Pushdown

/-! ## The tokens of a line -/

/-- The tokens of a line that does not start with a directive. -/
def Line.tokens (t : Text) : List Token :=
  (Content.tokensOf ((Scan.lexemes ⟨t, true⟩).map Prod.fst)).1

/-- Does the line hold tokens, and not a directive? -/
def Line.HoldsTokens (t : Text) : Prop := ∀ r, Content.ofLine t ≠ .directive r

namespace Content

variable {t : Text}

/-- A lexeme that is cut from a line and is no directive has a token. -/
theorem exists_token_of_next {s s' : Scan} {x : Lexeme} (h : s.next = some (x, s')) :
    ∃ tok, Lexer.token x = .ok tok := by
  cases hx : x.kind with
  -- only the text of a number is looked at
  | number =>
    obtain ⟨n, hn⟩ := Scan.exists_spells_of_some h hx
    obtain ⟨k, u⟩ := x
    obtain rfl : k = .number := hx
    exact ⟨_, hn.token_eq⟩
  | string | name | operator | directive | glyph =>
    rw [Lexer.token, hx]
    exact ⟨_, rfl⟩

/-- No line ends in a malformed number. -/
theorem tokensOf_snd (s : Scan) : (tokensOf (s.lexemes.map Prod.fst)).2 = none := by
  induction s using Scan.lexemes.induct with
  | case1 s hnext =>
    rw [Scan.lexemes_of_none hnext]
    rfl
  | case2 s x s' hnext ih =>
    obtain ⟨tok, htok⟩ := exists_token_of_next hnext
    rw [Scan.lexemes_of_some hnext, List.map_cons, tokensOf]
    split
    · rfl
    · rw [htok]
      exact ih

/-- A line that holds tokens is its tokens, and nothing goes wrong in it. -/
theorem ofLine_of_holdsTokens (h : Line.HoldsTokens t) :
    ofLine t = .tokens (Line.tokens t) none := by
  cases hc : ofLine t with
  | directive r => exact absurd hc (h r)
  | tokens ts fault =>
    obtain ⟨htokens, -⟩ := tokensOf_of_ofLine hc
    have hfault : fault = none := by
      rw [← tokensOf_snd ⟨t, true⟩, htokens]
    rw [hfault, Line.tokens, htokens]

end Content

/-! ## Lines of a single word -/

namespace Lexeme

variable {k : LexemeKind} {t : Text}

/-- A word on its own is taken as a whole. -/
theorem front_of_word (h : Word k t) : front t = ⟨k, t⟩ := by
  obtain ⟨b, u, rfl⟩ := List.exists_cons_of_ne_nil h.ne_nil
  obtain rfl := h.kind_eq
  obtain ⟨o, heq, hlongest⟩ := longest?_eq b u
  cases o with
  | none => exact absurd h (hlongest _ List.prefix_rfl)
  | some n =>
    obtain ⟨hn, -, hmax⟩ := hlongest
    have hlen : n = (b :: u).length := Nat.le_antisymm hn (hmax _ List.prefix_rfl h)
    rw [front, heq, hlen]
    simp only [Option.map_some, List.take_length]

/-- The first lexeme of a line with a single word is the word, and it uses the line up. -/
theorem next_of_word (h : Word k t) : Scan.next ⟨t, true⟩ = some (⟨k, t⟩, ⟨[], false⟩) := by
  have hgap : t.dropWhile isGap = t := by
    obtain ⟨b, u, rfl⟩ := List.exists_cons_of_ne_nil h.ne_nil
    have hb : ¬ isGap b = true := fun hb => not_belongs_of_isGap hb (belongs_iff_word.mpr h)
    exact List.dropWhile_cons_of_neg hb
  rw [Scan.next]
  simp only [hgap, if_neg h.ne_nil, front_of_word h, List.drop_length]

end Lexeme

/-- A word that is no directive makes a line of tokens. -/
theorem Line.holdsTokens_of_word {k : LexemeKind} {t : Text} (h : Lexeme.Word k t)
    (hk : k ≠ .directive) : Line.HoldsTokens t := by
  intro r hc
  rw [Content.ofLine, Scan.lexemes_of_some (Lexeme.next_of_word h), List.map_cons,
    Content.ofLexemes, if_neg hk] at hc
  cases hc

/-- The only token of the line is that of the word. -/
theorem Line.tokens_of_word {k : LexemeKind} {t : Text} {tok : Token} (h : Lexeme.Word k t)
    (hk : k ≠ .directive) (htok : Lexer.token ⟨k, t⟩ = .ok tok) : Line.tokens t = [tok] := by
  rw [Line.tokens, Scan.lexemes_of_some (Lexeme.next_of_word h), Scan.lexemes_of_none rfl,
    List.map_cons, Content.tokensOf, if_neg hk, htok]
  rfl

/-! ## Lines without anything -/

/-- An empty line is no directive. -/
theorem Line.holdsTokens_nil : Line.HoldsTokens [] := by
  intro r hc
  rw [Content.ofLine, Scan.lexemes_of_none rfl] at hc
  cases hc

/-- It has no tokens either. -/
theorem Line.tokens_nil : Line.tokens [] = [] := by
  rw [Line.tokens, Scan.lexemes_of_none rfl]
  rfl

/-! ## What is seen -/

/-- The tokens of lines, each seen at the number of its line; the first line has the number `n`. -/
def Line.sightings (name : Text) (n : Nat) (ls : List Text) : List Sighting :=
  (ls.zipIdx n).flatMap fun l => (Line.tokens l.1).map (⟨·, ⟨name, Int64.ofNat l.2⟩, 1⟩)

/-- Lines of tokens expand to these tokens. -/
theorem expands_of_holdsTokens {d : Disk} {path : SearchPath} {opened : List Text} {name : Text}
    {ls : List Text} (h : ∀ l ∈ ls, Line.HoldsTokens l) (k : Nat) :
    Expands d path opened [] ⟨name, Int64.ofNat k, Int64.ofNat (k + 1)⟩ (.lines ls .ended)
      (Line.sightings name (k + 1) ls) (.ok ⟨name, Int64.ofNat (k + ls.length)⟩) := by
  induction ls generalizing k with
  | nil => exact .ended
  | cons l ls ih =>
    obtain ⟨hl, hls⟩ := List.forall_mem_cons.mp h
    have hnext : Int64.ofNat (k + 1) + 1 = Int64.ofNat (k + 1 + 1) :=
      (Int64.ofNat_add (k + 1) 1).symm
    have hlast : k + 1 + ls.length = k + (l :: ls).length := by
      rw [List.length_cons]
      omega
    have hrest := ih hls (k + 1)
    rw [← hnext, hlast] at hrest
    exact .tokens (Content.ofLine_of_holdsTokens hl) hrest

namespace Lexer

variable (d : Disk) (path : SearchPath) (warnUnknown : Bool)

/-- **Lines of tokens are shown line by line**, and then the end of input. -/
theorem view_of_lines {i : Input} {ls : List Text} (hi : i.ahead d = .lines ls .ended)
    (h : ∀ l ∈ ls, Line.HoldsTokens l) :
    (transcript d ((new path warnUnknown).session [(d, .add i)])).view =
      (Line.sightings i.name 1 ls, ⟨none, ⟨i.name, Int64.ofNat ls.length⟩, 0⟩) := by
  have hexp : Expands d path (i.identity d) [] { name := i.name } (i.ahead d)
      (Line.sightings i.name 1 ls) (.ok ⟨i.name, Int64.ofNat ls.length⟩) := by
    rw [hi, ← Nat.zero_add ls.length]
    exact expands_of_holdsTokens h 0
  have hview := (awaits_session d path warnUnknown [i]).view (.cons hexp .nil)
  rw [List.append_nil] at hview
  exact hview

/-- **A line with a single word** gives the token of that word. -/
theorem view_of_word {k : LexemeKind} {t : Text} {tok : Token} (h : Lexeme.Word k t)
    (hk : k ≠ .directive) (htok : token ⟨k, t⟩ = .ok tok) (hplain : Line.IsPlain t)
    (hvalid : Utf8.isValid t = true) (name : Text) (ending : Option LineBreak) :
    (transcript d ((new path warnUnknown).session
      [(d, .add (.text name (Line.written t ending)))])).view =
      ([⟨tok, ⟨name, 1⟩, 1⟩], ⟨none, ⟨name, 1⟩, 0⟩) := by
  have hahead : (Input.text name (Line.written t ending)).ahead d = .lines [t] .ended := by
    rw [Input.ahead, Feed.ahead, Line.lines_written h.ne_nil hplain,
      Utf8.repaired_of_isValid hvalid]
    rfl
  rw [view_of_lines d path warnUnknown hahead
    (List.forall_mem_singleton.mpr (Line.holdsTokens_of_word h hk)), Line.sightings]
  simp only [List.zipIdx_singleton, List.flatMap_singleton, Line.tokens_of_word h hk htok]
  rfl

end Lexer
end Pushdown
