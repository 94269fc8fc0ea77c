/-
  Table descriptions.

  A description lists rules and states by name and number; every action either shifts or accepts
  and may call a sub-rule first.  `build` makes a table of it, resolving the names of reductions
  through a registry.  `fingerprint` is a digest of a canonical text of the description.
-/
import Pushdown.Text.Digest
import Pushdown.Table.Builder

namespace Pushdown

open Text (lit)

/-- The description of an action. -/
structure ActionSpec where
  call : Option Int := none
  shift : Option Int := none
  /-- The name of a reduction; empty if the action does not accept. -/
  accept : Text := []
  deriving DecidableEq, Repr, Inhabited

/-- The description of a state table. -/
structure TableSpec where
  /-- The name of the default start rule; empty if there is none. -/
  start : Text := []
  rules : Dict Int := ∅
  states : List (Dict ActionSpec) := []
  deriving Inhabited

/-- The reductions that descriptions may name. -/
abbrev Registry (α : Type) := Text → Option α

/-- What is wrong with the description of an action. -/
inductive ActionProblem where
  /-- It both shifts and accepts, or does neither. -/
  | shiftOrAccept
  | unknownReduction (name : Text)
  | undefinedCallee (state : Int)
  deriving DecidableEq, Repr

/-- Why a description makes no table. -/
inductive SpecError (α : Type) where
  | action (state : Nat) (key : Text) (problem : ActionProblem)
  | unknownStart (rule : Text)
  | table (e : BuildError α)
  deriving DecidableEq, Repr

/-- The text of a problem with an action. -/
def ActionProblem.message : ActionProblem → Text
  | .shiftOrAccept => lit "action must either shift or accept"
  | .unknownReduction name => lit "unknown action function " ++ Text.quoted name
  | .undefinedCallee s => lit "reference to undefined state: call to state " ++ Numeral.ofInt s

/-- The text of an error in a description. -/
def SpecError.message {α : Type} : SpecError α → Text
  | .action s key p =>
    lit "state " ++ Numeral.ofNat s ++ lit ", key " ++ Text.quoted key ++ lit ": " ++ p.message
  | .unknownStart rule => lit "unknown rule: start rule " ++ Text.quoted rule
  | .table e => e.message

variable {α : Type}

/-! ## Building -/

/-- The target that a description denotes. -/
def ActionSpec.target (a : ActionSpec) (reg : Registry α) : Except ActionProblem (Target α) :=
  match a.shift with
  | some s => if a.accept = [] then .ok (.state s) else .error .shiftOrAccept
  | none =>
    if a.accept = [] then .error .shiftOrAccept
    else match reg a.accept with
      | some f => .ok (.accept (some f) a.accept)
      | none => .error (.unknownReduction a.accept)

/-- The action that a description denotes. -/
def ActionSpec.action (a : ActionSpec) (reg : Registry α) : Except ActionProblem (Action α) :=
  match a.target reg with
  | .error p => .error p
  | .ok next =>
    match a.call with
    | some c => if c < 0 then .error (.undefinedCallee c) else .ok ⟨some c, next⟩
    | none => .ok ⟨none, next⟩

namespace TableSpec

/-- Enters the described actions of state `s`, in ascending order of the keys. -/
def enterState (reg : Registry α) (s : Nat) :
    List (Text × ActionSpec) → Builder α → Except (SpecError α) (Builder α)
  | [], b => .ok b
  | (key, a) :: rest, b =>
    match a.action reg with
    | .error p => .error (.action s key p)
    | .ok a => enterState reg s rest (b.on s key a)

/-- Enters the described actions of the states from number `s` on. -/
def enterStates (reg : Registry α) (s : Nat) :
    List (Dict ActionSpec) → Builder α → Except (SpecError α) (Builder α)
  | [], b => .ok b
  | st :: rest, b =>
    match enterState reg s st.entries b with
    | .error e => .error e
    | .ok b => enterStates reg (s + 1) rest b

/-- The table of a description. -/
def build (spec : TableSpec) (reg : Registry α) : Except (SpecError α) (Table α) :=
  let b : Builder α := spec.states.foldl (fun b _ => b.state.2) {}
  match enterStates reg 0 spec.states b with
  | .error e => .error e
  | .ok b =>
    let b := b.ruleAll spec.rules
    let finish (b : Builder α) : Except (SpecError α) (Table α) :=
      match b.table.1 with
      | .ok t => .ok t
      | .error e => .error (.table e)
    if spec.start = [] then finish b
    else match spec.rules.get? spec.start with
      | none => .error (.unknownStart spec.start)
      | some s => finish (b.start s)

/-! ## Fingerprints -/

/-- A text between double quotes, with no escapes. -/
def bare (t : Text) : Text := lit "\"" ++ t ++ lit "\""

/-- Entries in ascending order of their quoted keys, written as key and value. -/
def listing {β : Type} (write : β → Text) (d : Dict β) : Text :=
  let quoted := Dict.ofList (d.entries.map fun (k, v) => (bare k, v))
  lit "[" ++ Text.join (lit ",") (quoted.entries.map fun (k, v) => k ++ lit ":" ++ write v)
    ++ lit "]"

/-- An action in the canonical text; absent numbers are zero. -/
def actionText (a : ActionSpec) : Text :=
  lit "\x7bAccept:" ++ bare a.accept ++ lit ",Call:" ++ Numeral.ofInt (a.call.getD 0)
    ++ lit ",Shift:" ++ Numeral.ofInt (a.shift.getD 0) ++ lit "\x7d"

/-- The canonical text of a description. -/
def canonicalText (spec : TableSpec) : Text :=
  lit "\x7bRules:" ++ listing Numeral.ofInt spec.rules
    ++ lit ",Start:" ++ bare spec.start
    ++ lit ",States:[" ++ Text.join (lit ",") (spec.states.map (listing actionText))
    ++ lit "]\x7d"

/-- A version mark and the digest of the canonical text. -/
def fingerprint (spec : TableSpec) : Text :=
  lit "v1_" ++ Text.hexBytes (Digest.md5 spec.canonicalText)

end TableSpec
end Pushdown
