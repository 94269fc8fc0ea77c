/-
  Building tables.

  A builder allocates states and enters actions, rules and a start state.  A second entry for the
  same state and key, or an entry for a negative state, is refused and remembered; `table` reports
  the first such problem, then the first reference to a state that does not exist.

  A table handed out is not a copy: it is the builder's own draft, and later entries show in it.
  `current` is the table as whoever holds it sees it now.
-/
import Pushdown.Text.Quoted
import Pushdown.Table.Basic

namespace Pushdown

open Text (lit)

/-- What refers to a state. -/
inductive Referrer where
  | entry (state : Nat) (key : Text)
  | rule (name : Text)
  | start
  deriving DecidableEq, Repr

/-- The referrer as text. -/
def Referrer.display : Referrer → Text
  | .entry s key => lit "entry (" ++ Numeral.ofNat s ++ lit "," ++ Text.quoted key ++ lit ")"
  | .rule name => lit "rule " ++ Text.quoted name
  | .start => lit "start"

/-- Why there is no table. -/
inductive BuildError (α : Type) where
  /-- A second action for a state and key. -/
  | conflict (state : Int) (key : Text) (old new : Action α)
  /-- An entry for a negative state. -/
  | negativeState (state : Int)
  /-- A reference to a state that the table does not have. -/
  | undefinedState (referrer : Referrer) (state : Int)
  deriving DecidableEq, Repr

/-- The text of a build error. -/
def BuildError.message {α : Type} : BuildError α → Text
  | .conflict s key old new =>
    lit "conflicting table entries: state " ++ Numeral.ofInt s ++ lit ", key " ++ Text.quoted key
      ++ lit ": " ++ old.display ++ lit " and " ++ new.display
  | .negativeState s => lit "reference to undefined state: " ++ Numeral.ofInt s
  | .undefinedState r s =>
    lit "reference to undefined state: " ++ r.display ++ lit " refers to state "
      ++ Numeral.ofInt s

/-- A table under construction. -/
structure Builder (α : Type) where
  draft : Table α := {}
  /-- The first entry that was refused. -/
  error : Option (BuildError α) := none
  /-- Has the draft been handed out? -/
  issued : Bool := false

namespace Builder

variable {α : Type}

/-- Allocates a state without entries. -/
def state (b : Builder α) : Nat × Builder α :=
  (b.draft.states, { b with draft := { b.draft with states := b.draft.states + 1 } })

/-- Remembers a problem unless there was one before. -/
def refuse (b : Builder α) (e : BuildError α) : Builder α := { b with error := b.error <|> some e }

/-- The table with a column for the key, and that column. -/
def withColumn (t : Table α) (key : Text) : Nat × Table α :=
  match t.column? key with
  | some col => (col, t)
  | none => (t.keys.size, { t with keys := t.keys.push key })

/-- Enters an action for a key in a state that is not negative. -/
def enter : Builder α → Nat → Text → Action α → Builder α
  | ⟨draft, error, issued⟩, state, key, a =>
    let (col, t) := withColumn { draft with states := max draft.states (state + 1) } key
    match t.actionAt? state col with
    | some old => Builder.refuse ⟨t, error, issued⟩ (.conflict state key old a)
    | none =>
      let i := t.actions.size
      ⟨{ t with dispatch := t.dispatch.insert state col (some i), actions := t.actions.push a },
        error, issued⟩

/-- Sets the action for a key in a state. -/
def on (b : Builder α) (state : Int) (key : Text) (a : Action α) : Builder α :=
  if state < 0 then b.refuse (.negativeState state) else b.enter state.toNat key a

/-- Sets the action of a state for all keys without an entry. -/
def otherwise (b : Builder α) (state : Int) (a : Action α) : Builder α := b.on state wildcard a

/-- Binds a rule to its start state. -/
def rule (b : Builder α) (name : Text) (state : Int) : Builder α :=
  { b with draft := { b.draft with rules := b.draft.rules.insert name state } }

/-- Binds all rules of a map. -/
def ruleAll (b : Builder α) (rules : Dict Int) : Builder α :=
  { b with draft := { b.draft with rules := b.draft.rules.union rules } }

/-- The rules of a map may as well be bound one by one. -/
theorem ruleAll_eq_foldl (b : Builder α) (rules : Dict Int) :
    b.ruleAll rules = rules.entries.foldl (fun b e => b.rule e.1 e.2) b := by
  have fold (l : List (Text × Int)) : ∀ b : Builder α,
      l.foldl (fun b e => b.rule e.1 e.2) b = { b with draft := { b.draft with
        rules := l.foldl (fun d e => d.insert e.1 e.2) b.draft.rules } } := by
    induction l with
    | nil => exact fun _ => rfl
    | cons e l ih => exact fun b => ih (b.rule e.1 e.2)
  rw [fold, Dict.foldl_insert, Dict.ofList_entries]
  rfl

/-- Sets the default start state; a negative number means none. -/
def start (b : Builder α) (state : Int) : Builder α :=
  { b with draft := { b.draft with start := state } }

/-! ## The table -/

/-- Every state that a table refers to, in the order in which they are checked: callee and next
    state of each entry, state by state, then the rules, then the default start state. -/
def references (t : Table α) : List (Referrer × Int) :=
  ((List.range t.states).flatMap fun (s : Nat) =>
    (t.entries s).flatMap fun (key, a) =>
      (a.call.toList ++ (match a.next with
        | .state n => [n]
        | .accept _ _ => [])).map fun n => (Referrer.entry s key, n))
  ++ t.rules.entries.map (fun (name, s) => (Referrer.rule name, s))
  ++ t.start?.toList.map fun s => (Referrer.start, s)

/-- Is the state outside of the table? -/
def isUndefined (t : Table α) (s : Int) : Bool := s < 0 || t.states ≤ s

/-- The first problem of the draft. -/
def problem? (b : Builder α) : Option (BuildError α) :=
  b.error <|>
    ((references b.draft).find? fun r => isUndefined b.draft r.2).map fun r =>
      .undefinedState r.1 r.2

/-- Hands out the table, or reports the first problem. -/
def table (b : Builder α) : Except (BuildError α) (Table α) × Builder α :=
  match b.problem? with
  | some e => (.error e, b)
  | none => (.ok b.draft, { b with issued := true })

/-- The table that was handed out, as it is now. -/
def current (b : Builder α) : Option (Table α) := if b.issued then some b.draft else none

end Builder
end Pushdown
