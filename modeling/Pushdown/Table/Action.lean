/-
  Actions of a state table.

  An action says where to go on, and before that it may call a sub-rule.  Going on means either a
  next state or the reduction of the current rule to a value.  What a reduction is depends on the
  user of the table: actions are parametric in the type `α` of reductions.
-/
import Pushdown.Text.Numeral

namespace Pushdown

open Text (lit)

/-- Where control goes on: at a state, or with the reduction of the current rule.  A reduction
    that is left out yields no value.  The name is for display only. -/
inductive Target (α : Type) where
  | state (s : Int)
  | accept (reduction : Option α) (name : Text)
  deriving DecidableEq, Repr

namespace Target

variable {α : Type}

/-- Does this target reduce the current rule? -/
def isAccept : Target α → Bool
  | .state _ => false
  | .accept _ _ => true

/-- The target as text. -/
def display : Target α → Text
  | .state s => Numeral.ofInt s
  | .accept _ name => if name = [] then lit "accept" else lit "accept(" ++ name ++ lit ")"

end Target

/-- The four forms of an action. -/
inductive ActionKind where
  | shift
  | accept
  | callShift
  | callAccept
  deriving DecidableEq, Repr

/-- The name of a form. -/
def ActionKind.display : ActionKind → Text
  | .shift => lit "shift"
  | .accept => lit "accept"
  | .callShift => lit "call/shift"
  | .callAccept => lit "call/accept"

/-- An entry of a state table. -/
structure Action (α : Type) where
  /-- The start state of the sub-rule to call first, if there is one. -/
  call : Option Int := none
  /-- Where to go on. -/
  next : Target α
  deriving DecidableEq, Repr

namespace Action

variable {α : Type}

/-- The action that a table has nowhere: it shifts to state zero. -/
instance : Inhabited (Action α) := ⟨⟨none, .state 0⟩⟩

/-- The form of an action. -/
def kind (a : Action α) : ActionKind :=
  match a.call.isSome, a.next.isAccept with
  | true, true => .callAccept
  | true, false => .callShift
  | false, true => .accept
  | false, false => .shift

/-- The action as text. -/
def display (a : Action α) : Text :=
  match a.call, a.next with
  | some c, next => lit "<call " ++ Numeral.ofInt c ++ lit " then " ++ next.display ++ lit ">"
  | none, .accept f name => lit "<" ++ (Target.accept f name).display ++ lit ">"
  | none, .state s => lit "<shift " ++ Numeral.ofInt s ++ lit ">"

end Action
end Pushdown
