/-
  The table-driven parser.

  A configuration holds the current state, the token at hand, the values that the current rule has
  accumulated and a stack of frames, one for every rule that waits for a sub-rule.  A step looks up
  an action for the token: a call pushes a frame, an exact match consumes the token, and an accept
  reduces the rule, and then all the rules that were waiting to be reduced with it.

  Tables may loop without consuming anything, so `run` takes fuel and yields nothing when it runs
  out.  A reduction is a function of the lookahead and the values; it may read ahead or put tokens
  back.
-/
import Pushdown.Parser.Lookahead
import Pushdown.Table.Basic

namespace Pushdown

/-- What a reduction does with the values of a rule. -/
abbrev Reduce (σ : Type) := Lookahead σ → List Value → Except Failure Value × Lookahead σ

/-- A rule that waits for a sub-rule. -/
structure Frame (α : Type) where
  /-- Where the rule goes on. -/
  next : Target α
  /-- The values the rule has accumulated so far. -/
  saved : Array Value

/-- The state of a parse between two dispatches. -/
structure Config (σ α : Type) where
  state : Int
  /-- The token at hand. -/
  token : Token
  /-- The values accumulated by the current rule. -/
  values : Array Value := #[]
  /-- The waiting rules, innermost first. -/
  frames : List (Frame α) := []
  input : Lookahead σ

/-- What a dispatch leads to. -/
inductive Progress (σ α : Type) where
  | more (c : Config σ α)
  | done (outcome : Except Failure Value) (input : Lookahead σ)

namespace Parser

variable {σ α : Type} [TokenSource σ]

/-- Carries out a reduction; one that is left out yields no value. -/
def applyReduction (reduce : α → Reduce σ) (f : Option α) : Reduce σ :=
  match f with
  | some f => reduce f
  | none => fun la _ => (.ok .none, la)

/-- Goes on at a target: stops there if it is a state, or reduces the current rule and goes on
    where the rule that called it waits. -/
def continueAt (reduce : α → Reduce σ) (input : Lookahead σ) (token : Token) (values : Array Value) :
    Target α → List (Frame α) → Progress σ α
  | .state state, frames => .more { state, token, values, frames, input }
  | .accept f _, frames =>
    match applyReduction reduce f input values.toList with
    | (.error e, input) => .done (.error e) input
    | (.ok v, input) =>
      match frames with
      | [] => .done (.ok v) input
      | frame :: frames =>
        match input.peek with
        | (.error e, input) => .done (.error e) input
        | (.ok token, input) =>
          continueAt reduce input token (if v.isNone then frame.saved else frame.saved.push v)
            frame.next frames

/-- One dispatch. -/
def step (table : Table α) (reduce : α → Reduce σ) (c : Config σ α) : Progress σ α :=
  match table.lookup c.state c.token.kind with
  | none =>
    .done (.error (.unexpected
      { state := c.state
        expected := table.expected c.state
        found := c.token
        location := c.input.location })) c.input
  | some ⟨⟨some callee, next⟩, _⟩ =>
    .more { c with state := callee, values := #[], frames := ⟨next, c.values⟩ :: c.frames }
  | some ⟨⟨none, next⟩, exact⟩ =>
    if exact && !c.token.isEof then
      let values := c.values.push (.token c.token)
      match c.input.get with
      | (.error e, input) => .done (.error e) input
      | (.ok _, input) =>
        match input.peek with
        | (.error e, input) => .done (.error e) input
        | (.ok token, input) => continueAt reduce input token values next c.frames
    else continueAt reduce c.input c.token c.values next c.frames

/-- Dispatches until the parse is done, or until the fuel is used up. -/
def run (table : Table α) (reduce : α → Reduce σ) :
    Nat → Config σ α → Option (Except Failure Value × Lookahead σ)
  | 0, _ => none
  | n + 1, c =>
    match step table reduce c with
    | .more c => run table reduce n c
    | .done outcome input => some (outcome, input)

/-- The start state of a rule; the empty name selects the default start state. -/
def startState (table : Table α) (rule : Text) : Except Failure Int :=
  if rule = [] then
    match table.start? with
    | some s => .ok s
    | none => .error .noStart
  else match table.ruleState? rule with
    | some s => .ok s
    | none => .error (.unknownRule rule)

/-- Parses with a rule.  The rest of the input stays in the lookahead. -/
def parse (table : Option (Table α)) (reduce : α → Reduce σ) (fuel : Nat) (input : Lookahead σ)
    (rule : Text) : Option (Except Failure Value × Lookahead σ) :=
  match table with
  | none => some (.error .noTable, input)
  | some table =>
    match startState table rule with
    | .error e => some (.error e, input)
    | .ok state =>
      match input.peek with
      | (.error e, input) => some (.error e, input)
      | (.ok token, input) => run table reduce fuel { state, token, input }

/-- More fuel does not change what a parse yields. -/
theorem run_mono {table : Table α} {reduce : α → Reduce σ} {n m : Nat} {c : Config σ α}
    {r : Except Failure Value × Lookahead σ} (h : run table reduce n c = some r) (hnm : n ≤ m) :
    run table reduce m c = some r := by
  induction n generalizing m c with
  | zero => simp [run] at h
  | succ n ih =>
    obtain ⟨m, rfl⟩ : ∃ k, m = k + 1 := ⟨m - 1, by omega⟩
    simp only [run] at h ⊢
    split at h
    · rename_i c' hc
      exact ih h (by omega)
    · exact h

end Parser
end Pushdown
