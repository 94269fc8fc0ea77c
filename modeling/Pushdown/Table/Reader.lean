/-
  Table descriptions as JSON.

  The description is an object with the members `start`, `rules` and `states`; names of members
  are matched without regard to case, and other members are refused.  `null` leaves a text or a
  number as it is, removes the number of an action, and empties a collection.

  A member that is repeated is read on top of what was read before: texts are replaced, rules are
  merged, and the states of a later list are merged into those of an earlier one, position by
  position, where also states that a shorter list had cut off come back.
-/
import Pushdown.Json
import Pushdown.Table.Spec

namespace Pushdown

open Text (lit)

/-- The parts of a description. -/
inductive SpecPart where
  | text
  | integer
  | rules
  | states
  | state
  | action
  | description
  deriving DecidableEq, Repr

/-- The name of a part in messages. -/
def SpecPart.display : SpecPart → Text
  | .text => lit "string"
  | .integer => lit "int"
  | .rules => lit "map[string]int"
  | .states => lit "[]map[string]fsm.ActionSpec"
  | .state => lit "map[string]fsm.ActionSpec"
  | .action => lit "fsm.ActionSpec"
  | .description => lit "fsm.TableSpec"

/-- A value that is not of the form of the part it stands for. -/
structure Mismatch where
  /-- The members and positions that lead to the value, outermost first. -/
  path : List Text := []
  kind : JsonKind
  part : SpecPart
  deriving DecidableEq, Repr

/-- Why a text describes no table. -/
inductive DecodeError where
  | json (e : JsonError)
  | unknownField (name : Text)
  | mismatch (m : Mismatch)
  deriving DecidableEq, Repr

/-! ## Messages -/

namespace Mismatch

/-- The value as named in messages.  A number is written out where an integer is expected. -/
def given (m : Mismatch) : Text :=
  match m.kind with
  | .null => lit "null"
  | .bool => lit "bool"
  | .string => lit "string"
  | .array => lit "array"
  | .object => lit "object"
  | .number literal =>
    if m.part = .integer then lit "number " ++ literal else lit "number"

/-- A component of a path, with `~` and `/` written as `~0` and `~1`. -/
def component (name : Text) : Text :=
  name.flatMap fun b =>
    if b = Text.byte '~' then lit "~0" else if b = Text.byte '/' then lit "~1" else [b]

/-- The path as text. -/
def trail (m : Mismatch) : Text := Text.join (lit ".") (m.path.map component)

/-- Does what follows the last point of the trail read as a position in a list? -/
def endsInPosition (m : Mismatch) : Bool :=
  ((Text.splitAt (Text.byte '.') m.trail).getLast?.bind Numeral.decimal?).isSome

/-- Where the value stands.  A position is not announced as a field. -/
def place (m : Mismatch) : Text :=
  if m.path = [] then lit "Go value"
  else (if m.endsInPosition then [] else lit "Go struct field ") ++ lit "TableSpec." ++ m.trail

/-- The text of a mismatch. -/
def message (m : Mismatch) : Text :=
  lit "json: cannot unmarshal " ++ m.given ++ lit " into " ++ m.place ++ lit " of type "
    ++ m.part.display

end Mismatch

/-- The text of a decode error. -/
def DecodeError.message : DecodeError → Text
  | .json e => e.message
  | .unknownField name => lit "json: unknown field " ++ Text.quoted name
  | .mismatch m => m.message

/-- The error of a value as seen from one level further out. -/
def DecodeError.within (name : Text) : DecodeError → DecodeError
  | .mismatch m => .mismatch { m with path := name :: m.path }
  | e => e

namespace TableSpec

/-! ## Names of members -/

/-- A character up to case, as far as it can equal an ASCII letter. -/
def foldCase (c : Char) : Char :=
  if c = '\u017f' then 's' else if c = '\u212a' then 'k' else c.toLower

/-- Is the name of a member the given one, up to case? -/
def isField (field : String) (name : Text) : Bool :=
  (Utf8.glyphs name).map (fun g => g.char.map foldCase) = field.toList.map some

/-! ## Values -/

/-- A value that is not of the form of a part. -/
def unfit {β : Type} (v : Json) (part : SpecPart) : Except DecodeError β :=
  .error (.mismatch { kind := v.kind, part })

/-- A value that stands under a name; the name leads to what is wrong with it. -/
def under {β : Type} (name : Text) (r : Except DecodeError β) : Except DecodeError β :=
  match r with
  | .ok b => .ok b
  | .error e => .error (e.within name)

/-- A number that is an integer of 64 bits. -/
def decodeInt (v : Json) : Except DecodeError Int :=
  match v with
  | .number literal =>
    match Numeral.int64? literal with
    | some n => .ok n
    | none => unfit v .integer
  | _ => unfit v .integer

/-- A number that may be absent. -/
def decodeInt? : Json → Except DecodeError (Option Int)
  | .null => .ok none
  | v => (decodeInt v).map some

/-- A text in place of an earlier one. -/
def decodeText (old : Text) : Json → Except DecodeError Text
  | .null => .ok old
  | .string t => .ok t
  | v => unfit v .text

/-- A member of an action. -/
def decodeActionMember (a : ActionSpec) (name : Text) (v : Json) : Except DecodeError ActionSpec :=
  if isField "call" name then (under name (decodeInt? v)).map fun call => { a with call }
  else if isField "shift" name then (under name (decodeInt? v)).map fun shift => { a with shift }
  else if isField "accept" name then
    (under name (decodeText a.accept v)).map fun accept => { a with accept }
  else .error (.unknownField name)

/-- An action. -/
def decodeAction : Json → Except DecodeError ActionSpec
  | .null => .ok {}
  | .object members => members.foldlM (fun a (name, v) => decodeActionMember a name v) {}
  | v => unfit v .action

/-- The members of an object on top of earlier ones, each with its value decoded. -/
def decodeMembers {β : Type} (value : Json → Except DecodeError β) (old : Dict β)
    (members : List (Text × Json)) : Except DecodeError (Dict β) :=
  (members.mapM fun (name, v) => (under name (value v)).map fun b => (name, b)).map
    fun l => old.union (Dict.ofList l)

/-- A state on top of an earlier one. -/
def decodeState (old : Dict ActionSpec) : Json → Except DecodeError (Dict ActionSpec)
  | .null => .ok ∅
  | .object members => decodeMembers decodeAction old members
  | v => unfit v .state

/-- The number of a rule; `null` is zero. -/
def decodeRule : Json → Except DecodeError Int
  | .null => .ok 0
  | v => decodeInt v

/-- Rules on top of earlier ones. -/
def decodeRules (old : Dict Int) : Json → Except DecodeError (Dict Int)
  | .null => .ok ∅
  | .object members => decodeMembers decodeRule old members
  | v => unfit v .rules

/-! ## Lists of states -/

/-- The states read so far.  Only the first `used` slots belong to the description; the others are
    left from a longer list before. -/
structure Slots where
  states : List (Dict ActionSpec) := []
  used : Nat := 0

/-- States of a list, from position `i` on, on top of those in the slots. -/
def decodeItems (i : Nat) :
    List (Dict ActionSpec) → List Json → Except DecodeError (List (Dict ActionSpec))
  | old, [] => .ok old
  | old, v :: vs =>
    match under (Numeral.ofNat i) (decodeState (old.headD ∅) v) with
    | .error e => .error e
    | .ok st => (decodeItems (i + 1) old.tail vs).map (st :: ·)

/-- A list of states on top of an earlier one. -/
def decodeStates (old : Slots) : Json → Except DecodeError Slots
  | .null | .array [] => .ok {}
  | .array items => (decodeItems 0 old.states items).map fun states => ⟨states, items.length⟩
  | v => unfit v .states

/-! ## Descriptions -/

/-- A description being read. -/
structure Draft where
  start : Text := []
  rules : Dict Int := ∅
  slots : Slots := {}

/-- A member of a description. -/
def decodeMember (s : Draft) (name : Text) (v : Json) : Except DecodeError Draft :=
  if isField "start" name then
    (under name (decodeText s.start v)).map fun start => { s with start }
  else if isField "rules" name then
    (under name (decodeRules s.rules v)).map fun rules => { s with rules }
  else if isField "states" name then
    (under name (decodeStates s.slots v)).map fun slots => { s with slots }
  else .error (.unknownField name)

/-- The description in a JSON value. -/
def decode : Json → Except DecodeError TableSpec
  | .null => .ok {}
  | .object members => do
    let s ← members.foldlM (fun s (name, v) => decodeMember s name v) ({} : Draft)
    return { start := s.start, rules := s.rules, states := s.slots.states.take s.slots.used }
  | v => unfit v .description

/-- Reads the description that a text starts with. -/
def read (t : Text) : Except DecodeError TableSpec :=
  match Json.first t with
  | .error e => .error (.json e)
  | .ok v => decode v

end TableSpec
end Pushdown
