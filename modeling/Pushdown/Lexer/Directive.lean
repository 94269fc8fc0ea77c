/-
  Directives: lines that start with `#`.

  After the `#` and blanks stands a keyword, the longest run of letters.  `include` takes a file
  name, `line` a line number and optionally a file name; any other keyword, also the empty one,
  makes the line a comment.  A file name is written between double or single quotes, between
  `<` and `>`, or as a bare word.
-/
import Pushdown.Text.Blank
import Pushdown.Text.Letter
import Pushdown.Text.Numeral
import Pushdown.Text.Quoted

namespace Pushdown

/-- What a directive line asks for. -/
inductive Directive where
  /-- Nothing: the line is a comment that starts with a word, possibly an empty one. -/
  | comment (keyword : Text)
  /-- Reading another file in place of the line. -/
  | includeFile (name : Text)
  /-- Giving the next line another number and, unless the name is empty, another file name. -/
  | lineNumber (line : Int) (name : Text)
  deriving DecidableEq, Repr

/-- Why a text holds no file name. -/
inductive FileNameError where
  /-- There is no name, or its delimiter does not close, or nothing is between the delimiters. -/
  | missing
  /-- The text is not empty but has no word in it. -/
  | noWord
  deriving DecidableEq, Repr

/-- Why a directive is malformed. -/
inductive DirectiveError where
  | includeWithoutName
  | lineWithoutNumber
  | invalidLineNumber (word : Text)
  | invalidFileName
  deriving DecidableEq, Repr

open Text (lit byte)

/-- The text of a directive error. -/
def DirectiveError.message : DirectiveError → Text
  | .includeWithoutName => lit "#include without file name"
  | .lineWithoutNumber => lit "#line without line number"
  | .invalidLineNumber word => lit "#line with invalid line number " ++ Text.quoted word
  | .invalidFileName => lit "#line with invalid file name"

namespace Directive

/-- The byte that ends a file name started by `b`, if `b` is an opening delimiter. -/
def closing? (b : UInt8) : Option UInt8 :=
  if b = byte '"' ∨ b = byte '\'' then some b
  else if b = byte '<' then some (byte '>')
  else none

/-- The file name at the front of a text. -/
def fileName : Text → Except FileNameError Text
  | [] => .error .missing
  | b :: t =>
    match closing? b with
    | some c =>
      let name := t.takeWhile (· ≠ c)
      if name = [] ∨ name.length = t.length then .error .missing else .ok name
    | none =>
      match Text.words (b :: t) with
      | [] => .error .noWord
      | w :: _ => .ok w

/-- A blank or a tab. -/
def isGap (b : UInt8) : Bool := b = 32 || b = 9

/-- The text behind a `#`, if there is one, and the gap after it. -/
def body : Text → Text
  | b :: t => (if b = byte '#' then t else b :: t).dropWhile isGap
  | [] => []

/-- The glyph is a letter. -/
def isLetterGlyph (g : Utf8.Glyph) : Bool := g.char.any Letter.isLetter

/-- The longest run of letters at the front of a text. -/
def keyword (t : Text) : Text := ((Utf8.glyphs t).takeWhile isLetterGlyph).flatMap Utf8.Glyph.bytes

/-- Reads the arguments of `include`. -/
def parseInclude (args : Text) : Except DirectiveError Directive :=
  match fileName args with
  | .ok name => .ok (.includeFile name)
  | .error _ => .error .includeWithoutName

/-- Reads the arguments of `line`. -/
def parseLine (args : Text) : Except DirectiveError Directive :=
  match Text.words args with
  | [] => .error .lineWithoutNumber
  | w :: _ =>
    match (Numeral.int64? w).filter (0 ≤ ·) with
    | none => .error (.invalidLineNumber w)
    | some n =>
      let rest := Text.trim (args.drop w.length)
      if rest = [] then .ok (.lineNumber n [])
      else match fileName rest with
        | .ok name => .ok (.lineNumber n name)
        | .error _ => .error .invalidFileName

/-- Reads a directive line.  The arguments are trimmed, so that they have a word in them unless they
    are empty. -/
def parse (t : Text) : Except DirectiveError Directive :=
  let b := body t
  let k := keyword b
  let args := Text.trim (b.drop k.length)
  if k = lit "include" then parseInclude args
  else if k = lit "line" then parseLine args
  else .ok (.comment k)

/-- A file name is a piece of the text that it is read from. -/
theorem fileName_length_le {t name : Text} (h : fileName t = .ok name) : name.length ≤ t.length := by
  unfold fileName at h
  split at h
  · simp at h
  · rename_i b t
    split at h
    · rename_i c hc
      simp only at h
      split at h
      · simp at h
      · simp only [Except.ok.injEq] at h
        subst h
        have := (List.takeWhile_prefix (fun b => decide (b ≠ c)) (l := t)).length_le
        simp only [List.length_cons]
        omega
    · split at h
      · simp at h
      · rename_i w ws hw
        simp only [Except.ok.injEq] at h
        subst h
        exact Text.words_length_le (by rw [hw]; simp)

/-- So is the body of a directive. -/
theorem body_length_le (t : Text) : (body t).length ≤ t.length := by
  unfold body
  split
  · rename_i b t
    have h := (List.dropWhile_suffix isGap (l := if b = byte '#' then t else b :: t)).length_le
    refine Nat.le_trans h ?_
    split <;> simp
  · simp

/-- The arguments of `line` include nothing. -/
theorem parseLine_ne_include (args name : Text) : parseLine args ≠ .ok (.includeFile name) := by
  intro h
  unfold parseLine at h
  split at h
  · simp at h
  · split at h
    · simp at h
    · simp only at h
      split at h
      · simp at h
      · split at h <;> simp at h

/-- A file name is no longer than the directive that it stands in. -/
theorem parse_include_length_le {t name : Text} (h : parse t = .ok (.includeFile name)) :
    name.length ≤ t.length := by
  have h1 := body_length_le t
  have h2 := Text.trim_length_le ((body t).drop (keyword (body t)).length)
  simp only [List.length_drop] at h2
  unfold parse at h
  simp only at h
  split at h
  · unfold parseInclude at h
    split at h <;> simp only [Except.ok.injEq, includeFile.injEq, reduceCtorEq] at h
    subst h
    rename_i hn
    have := fileName_length_le hn
    omega
  · split at h
    · exact absurd h (parseLine_ne_include _ _)
    · simp at h

end Directive
end Pushdown
