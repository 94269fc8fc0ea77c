/-
  State tables.

  A table maps a state and a dispatch key to an action.  Keys are kinds of tokens; the empty key is
  the end of input and the wildcard matches whatever has no entry of its own.  Keys are numbered
  in the order of their first use, with the wildcard at zero, and a sparse matrix of states and key
  numbers holds indices into the list of actions.
-/
import Pushdown.Dict
import Pushdown.SparseMatrix
import Pushdown.Table.Action

namespace Pushdown

open Text (lit)

/-- The dispatch key that matches any token without an explicit entry. -/
def wildcard : Text := lit "<any>"

/-- A state table with reductions of type `α`. -/
structure Table (α : Type) where
  /-- State and key column to the index of an action. -/
  dispatch : SparseMatrix (Option Nat) := .empty none
  actions : Array (Action α) := #[]
  /-- The key of each column; column zero is that of the wildcard. -/
  keys : Array Text := #[wildcard]
  /-- The number of states. -/
  states : Nat := 0
  /-- The start state of each named rule. -/
  rules : Dict Int := ∅
  /-- The default start state; none is configured if it is negative. -/
  start : Int := -1

/-- An action found in a table, and whether it was entered for the very key. -/
structure Match (α : Type) where
  action : Action α
  exact : Bool

namespace Table

variable {α : Type}

/-- The start state of a named rule. -/
def ruleState? (t : Table α) (rule : Text) : Option Int := t.rules.get? rule

/-- The default start state, if one is configured. -/
def start? (t : Table α) : Option Int := if t.start < 0 then none else some t.start

/-- The column of a key, if the key was ever used. -/
def column? (t : Table α) (key : Text) : Option Nat := t.keys.findIdx? (· = key)

/-- The action in a column of a state. -/
def actionAt? (t : Table α) (state : Int) (col : Nat) : Option (Action α) :=
  (t.dispatch.value state col).bind fun i => t.actions[i]?

/-- The action for a key in a state: the entry of the key, or else that of the wildcard. -/
def lookup (t : Table α) (state : Int) (key : Text) : Option (Match α) :=
  let explicit := ((t.column? key).filter (· ≠ 0)).bind (t.actionAt? state)
  match explicit with
  | some a => some ⟨a, true⟩
  | none => (t.actionAt? state 0).map (⟨·, false⟩)

/-- The entries of a state in the order of their columns, each with its key. -/
def entries (t : Table α) (state : Int) : List (Text × Action α) :=
  (t.dispatch.row state).filterMap fun (col, i) =>
    (i.bind fun i => t.actions[i]?).map fun a => (t.keys.getD col [], a)

/-- The explicit keys of a state in ascending order. -/
def expected (t : Table α) (state : Int) : List Text :=
  let keys := ((t.dispatch.row state).filter (·.1 ≠ 0)).map fun e => t.keys.getD e.1 []
  (Dict.ofList (keys.map (·, ()))).entries.map Prod.fst

end Table
end Pushdown
