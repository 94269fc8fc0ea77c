/-
  JSON values.

  `first` reads the first value of a text and ignores what follows it.  Numbers are kept as they
  are written, and the members of an object in the order in which they are written, with their
  repetitions.  Inside strings a stray byte and a lone surrogate become the replacement character.

  A text that holds no value is told apart by how far it goes: it is empty, it ends too early, or
  it cannot be continued to a value.  In the last case the error says what stands in the way and
  what was being read.
-/
import Pushdown.Text.Numeral
import Pushdown.Text.Quoted

namespace Pushdown

open Text (lit byte)

/-- A JSON value. -/
inductive Json where
  | null
  | bool (b : Bool)
  | number (literal : Text)
  | string (t : Text)
  | array (items : List Json)
  | object (members : List (Text × Json))
  deriving Repr, Inhabited

/-- The outermost form of a JSON value. -/
inductive JsonKind where
  | null
  | bool
  | number (literal : Text)
  | string
  | array
  | object
  deriving DecidableEq, Repr

/-- The outermost form of a value. -/
def Json.kind : Json → JsonKind
  | .null => .null
  | .bool _ => .bool
  | .number literal => .number literal
  | .string _ => .string
  | .array _ => .array
  | .object _ => .object

/-- What is being read where a text cannot go on. -/
inductive JsonContext where
  | value
  | key
  | afterKey
  | afterMember
  | afterItem
  | string
  | number
  /-- A word of which the given byte comes next. -/
  | word (word : Text) (expected : UInt8)
  deriving DecidableEq, Repr

/-- Why a text holds no JSON value. -/
inductive JsonError where
  /-- There is nothing but white space. -/
  | ended
  /-- The text ends inside a value. -/
  | truncated
  /-- Arrays and objects are nested too deep. -/
  | tooDeep
  /-- A character stands where it cannot stand. -/
  | unexpected (glyph : Utf8.Glyph) (context : JsonContext)
  /-- A backslash in a string starts no escape. -/
  | badEscape (sequence : Text)
  deriving DecidableEq, Repr

/-- The text of a context. -/
def JsonContext.display : JsonContext → Text
  | .value => lit "looking for beginning of value"
  | .key => lit "looking for beginning of object key string"
  | .afterKey => lit "after object key"
  | .afterMember => lit "after object key:value pair"
  | .afterItem => lit "after array element"
  | .string => lit "in string"
  | .number => lit "in numeric literal"
  | .word w b =>
    lit "in literal " ++ w ++ lit " (expecting " ++ Text.quotedOne (Utf8.headGlyph [b]) ++ lit ")"

/-- The text of an error. -/
def JsonError.message : JsonError → Text
  | .ended => lit "EOF"
  | .truncated => lit "unexpected EOF"
  | .tooDeep => lit "exceeded max depth"
  | .unexpected g context =>
    lit "invalid character " ++ Text.quotedOne g ++ lit " " ++ context.display
  | .badEscape sequence =>
    lit "invalid escape sequence " ++ Text.backquoted sequence ++ lit " in string"

namespace Json

/-- JSON's white space. -/
def isSpace (b : UInt8) : Bool := b = 32 || b = 9 || b = 10 || b = 13

/-- The text without white space in front. -/
def skipSpace (t : Text) : Text := t.dropWhile isSpace

/-- The fault of a text that does not go on as it has to. -/
def fault (context : JsonContext) : Text → JsonError
  | [] => .truncated
  | b :: t => .unexpected (Utf8.headGlyph (b :: t)) context

/-- What follows the rest of a word, which the text has to start with. -/
def expect (word : Text) : (rest t : Text) → Except JsonError Text
  | [], t => .ok t
  | w :: _, [] => .error (fault (.word word w) [])
  | w :: ws, b :: t => if b = w then expect word ws t else .error (fault (.word word w) (b :: t))

/-! ## Strings -/

/-- The number of `k` hexadecimal digits, continuing from `value`, and what follows them. -/
def hexFrom? : (k value : Nat) → Text → Option (Nat × Text)
  | 0, value, t => some (value, t)
  | _ + 1, _, [] => none
  | k + 1, value, b :: t => (Numeral.digitOf? 16 b).bind fun d => hexFrom? k (value * 16 + d) t

/-- Four hexadecimal digits and what follows them. -/
def hex4? (t : Text) : Option (Nat × Text) := hexFrom? 4 0 t

/-- The fault of a text that does not go on with four hexadecimal digits after `\u`. -/
def hexFault (t : Text) : JsonError :=
  if (t.take 4).all fun b => (Numeral.digitOf? 16 b).isSome then .truncated
  else .badEscape (lit "\\u" ++ t.take 4)

/-- The second half of a pair of surrogates that starts with `high`, if the text starts with it:
    the character of the pair and what follows it. -/
def pairWith? (high : Nat) : Text → Option (Char × Text)
  | b :: u :: t =>
    if b = byte '\\' ∧ u = byte 'u' then
      (hex4? t).bind fun (low, rest) =>
        if 0xDC00 ≤ low ∧ low ≤ 0xDFFF then
          some (Char.ofNat (0x10000 + (high - 0xD800) * 0x400 + (low - 0xDC00)), rest)
        else none
    else none
  | _ => none

/-- The character of `\u` and four digits, of which the number is given, and what follows it. -/
def escaped (n : Nat) (t : Text) : Char × Text :=
  if 0xD800 ≤ n ∧ n ≤ 0xDBFF then (pairWith? n t).getD (Utf8.replacement, t)
  else if 0xDC00 ≤ n ∧ n ≤ 0xDFFF then (Utf8.replacement, t)
  else (Char.ofNat n, t)

/-- The byte that a letter after a backslash stands for. -/
def shortEscape? (b : UInt8) : Option UInt8 :=
  if b = byte '"' ∨ b = byte '\\' ∨ b = byte '/' then some b
  else if b = byte 'b' then some 8
  else if b = byte 'f' then some 12
  else if b = byte 'n' then some 10
  else if b = byte 'r' then some 13
  else if b = byte 't' then some 9
  else none

/-- Reads a string after its opening quote; `seen` holds the bytes read so far, last one first.
    The fuel bounds the number of characters. -/
def stringFrom : Nat → Text → Text → Except JsonError (Text × Text)
  | 0, _, _ => .error .truncated
  | _, _, [] => .error .truncated
  | n + 1, seen, b :: t =>
    if b = byte '"' then .ok (seen.reverse, t)
    else if b < 32 then .error (fault .string (b :: t))
    else if b = byte '\\' then
      match t with
      | [] => .error .truncated
      | e :: t =>
        if e = byte 'u' then
          match hex4? t with
          | none => .error (hexFault t)
          | some (code, rest) =>
            let (c, rest) := escaped code rest
            stringFrom n ((Utf8.encode c).reverse ++ seen) rest
        else match shortEscape? e with
          | some b => stringFrom n (b :: seen) t
          | none => .error (.badEscape [b, e])
    else
      let c := (Utf8.headChar? (b :: t)).getD Utf8.replacement
      stringFrom n ((Utf8.encode c).reverse ++ seen) ((b :: t).drop (Utf8.width (b :: t)))

/-! ## Numbers -/

/-- Is the byte a decimal digit? -/
def isDigit (b : UInt8) : Bool := (Numeral.digitOf? 10 b).isSome

/-- The length of one or more digits at the front of a text. -/
def digits (t : Text) : Except JsonError Nat :=
  let n := (t.takeWhile isDigit).length
  if n = 0 then .error (fault .number t) else .ok n

/-- The length of the whole part of a number: a zero, or digits that start with another digit. -/
def whole (t : Text) : Except JsonError Nat :=
  if t.head? = some (byte '0') then .ok 1 else digits t

/-- The length of a fraction, which may be absent. -/
def fraction : Text → Except JsonError Nat
  | [] => .ok 0
  | b :: t => if b = byte '.' then (digits t).map (1 + ·) else .ok 0

/-- The length of an exponent, which may be absent. -/
def exponent : Text → Except JsonError Nat
  | [] => .ok 0
  | b :: t =>
    if b = byte 'e' ∨ b = byte 'E' then
      match t with
      | s :: u =>
        if s = byte '+' ∨ s = byte '-' then (digits u).map (2 + ·) else (digits t).map (1 + ·)
      | [] => .error (fault .number [])
    else .ok 0

/-- The length of a number at the front of a text. -/
def numberLength (t : Text) : Except JsonError Nat := do
  let sign := if t.head? = some (byte '-') then 1 else 0
  let whole ← whole (t.drop sign)
  let fraction ← fraction (t.drop (sign + whole))
  let exponent ← exponent (t.drop (sign + whole + fraction))
  return sign + whole + fraction + exponent

/-! ## Values -/

/-- How deep arrays and objects may be nested. -/
def maxDepth : Nat := 10000

mutual

/-- Reads a value inside `depth` arrays and objects.  The fuel bounds the number of values,
    separators and characters. -/
def valueFrom : (fuel depth : Nat) → Text → Except JsonError (Json × Text)
  | 0, _, _ => .error .truncated
  | n + 1, depth, t =>
    match skipSpace t with
    | [] => .error .truncated
    | b :: t =>
      if b = byte '\x7b' then
        if maxDepth ≤ depth then .error .tooDeep
        else match skipSpace t with
        | [] => .error .truncated
        | c :: u =>
          if c = byte '\x7d' then .ok (.object [], u) else membersFrom n (depth + 1) [] (c :: u)
      else if b = byte '[' then
        if maxDepth ≤ depth then .error .tooDeep
        else match skipSpace t with
        | [] => .error .truncated
        | c :: u => if c = byte ']' then .ok (.array [], u) else itemsFrom n (depth + 1) [] (c :: u)
      else if b = byte '"' then (stringFrom n [] t).map fun (s, rest) => (.string s, rest)
      else if b = byte 'n' then (expect (lit "null") (lit "ull") t).map (.null, ·)
      else if b = byte 't' then (expect (lit "true") (lit "rue") t).map (.bool true, ·)
      else if b = byte 'f' then (expect (lit "false") (lit "alse") t).map (.bool false, ·)
      else if b = byte '-' ∨ isDigit b then
        (numberLength (b :: t)).map fun k => (.number ((b :: t).take k), (b :: t).drop k)
      else .error (fault .value (b :: t))

/-- Reads the items of an array up to its end; `seen` holds those read so far, last one first. -/
def itemsFrom : (fuel depth : Nat) → List Json → Text → Except JsonError (Json × Text)
  | 0, _, _, _ => .error .truncated
  | n + 1, depth, seen, t =>
    match valueFrom n depth t with
    | .error e => .error e
    | .ok (v, rest) =>
      match skipSpace rest with
      | [] => .error .truncated
      | b :: rest =>
        if b = byte ',' then itemsFrom n depth (v :: seen) rest
        else if b = byte ']' then .ok (.array (v :: seen).reverse, rest)
        else .error (fault .afterItem (b :: rest))

/-- Reads the members of an object up to its end; `seen` holds those read so far, last one
    first. -/
def membersFrom : (fuel depth : Nat) → List (Text × Json) → Text → Except JsonError (Json × Text)
  | 0, _, _, _ => .error .truncated
  | n + 1, depth, seen, t =>
    match skipSpace t with
    | [] => .error .truncated
    | q :: t =>
      if q ≠ byte '"' then .error (fault .key (q :: t))
      else match stringFrom n [] t with
        | .error e => .error e
        | .ok (key, rest) =>
          match skipSpace rest with
          | [] => .error .truncated
          | c :: rest =>
            if c ≠ byte ':' then .error (fault .afterKey (c :: rest))
            else match valueFrom n depth rest with
              | .error e => .error e
              | .ok (v, rest) =>
                match skipSpace rest with
                | [] => .error .truncated
                | b :: rest =>
                  if b = byte ',' then membersFrom n depth ((key, v) :: seen) rest
                  else if b = byte '\x7d' then .ok (.object ((key, v) :: seen).reverse, rest)
                  else .error (fault .afterMember (b :: rest))

end

/-- The first value of a text.  Every value, every separator and every character takes a byte, so
    twice the length of the text is fuel enough. -/
def first (t : Text) : Except JsonError Json :=
  if skipSpace t = [] then .error .ended
  else (valueFrom (2 * t.length + 2) 0 t).map Prod.fst

end Json
end Pushdown
