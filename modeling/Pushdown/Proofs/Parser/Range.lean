/-
  A parse stays in the states of its table.

  It need not: an entry may call or shift to a state that the table does not have, and so may a rule
  or the default start state.  `Table.Closed` says that none of them does.

  A dispatch takes the next state from an entry, or, when rules are reduced, from a frame that some
  earlier dispatch has saved.  So the invariant is about the frames, too (`Config.Within`): a frame
  is put there by a call, with the next state of the entry that calls, and it is read when the
  callee has ended.  One dispatch keeps the invariant, whatever reductions do to the values and to
  the input (`step_within`), and so do all of them (`Reaches.within`).

  Nothing is asked of reductions here.  They may fail, read ahead and put tokens back, but none of
  them can name a state.
-/
import Pushdown.Proofs.Parser.Dispatch

namespace Pushdown

/-- The state is one of the first `n`. -/
def InRange (n : Nat) (s : Int) : Prop := 0 ≤ s ∧ s < n

/-- The bounds can be compared. -/
instance (n : Nat) (s : Int) : Decidable (InRange n s) :=
  inferInstanceAs (Decidable (0 ≤ s ∧ s < n))

variable {σ α : Type} {n : Nat}

/-- A target that is a state is one of the first `n`. -/
def Target.Within (n : Nat) (target : Target α) : Prop := ∀ s, target = .state s → InRange n s

/-- The action calls or shifts to the state. -/
def Action.LeadsTo (a : Action α) (s : Int) : Prop := a.call = some s ∨ a.next = .state s

/-- All that a table refers to are states of the table. -/
structure Table.Closed (t : Table α) : Prop where
  action : ∀ s key m, t.lookup s key = some m → ∀ s', m.action.LeadsTo s' → InRange t.states s'
  rule : ∀ name s, t.ruleState? name = some s → InRange t.states s
  start : ∀ s, t.start? = some s → InRange t.states s

/-- The state of a parse, and those that are saved in its frames, are among the first `n`. -/
structure Config.Within (n : Nat) (c : Config σ α) : Prop where
  state : InRange n c.state
  frames : ∀ frame ∈ c.frames, frame.next.Within n

namespace Parser

variable [TokenSource σ] {reduce : α → Reduce σ} {table : Table α} {c c' : Config σ α}

/-- Reducing rules goes on at states that were saved. -/
theorem continueAt_within {target : Target α} {frames : List (Frame α)}
    (htarget : target.Within n) (hframes : ∀ frame ∈ frames, frame.next.Within n)
    {la : Lookahead σ} {token : Token} {values : Array Value}
    (h : continueAt reduce la token values target frames = .more c) : c.Within n := by
  -- a state ends it; a rule that ends goes on at the state of the innermost frame
  induction frames generalizing target la token values with
  | nil =>
    cases target with
    | state s =>
      obtain ⟨rfl⟩ := h
      exact ⟨htarget s rfl, hframes⟩
    | accept f name =>
      rw [continueAt_accept] at h
      split at h <;> cases h
  | cons frame frames ih =>
    cases target with
    | state s =>
      obtain ⟨rfl⟩ := h
      exact ⟨htarget s rfl, hframes⟩
    | accept f name =>
      rw [continueAt_accept] at h
      split at h
      · cases h
      · rw [handOver] at h
        split at h
        · cases h
        · exact ih (hframes frame List.mem_cons_self)
            (fun frame' hmem => hframes frame' (List.mem_cons_of_mem _ hmem)) h

/-- **One dispatch** stays in the states of the table. -/
theorem step_within (ht : table.Closed) (hc : c.Within table.states)
    (h : step table reduce c = .more c') : c'.Within table.states := by
  rw [step] at h
  split at h
  · cases h
  · -- a call saves the next state in a frame
    rename_i callee next exact hlookup
    have hin := ht.action _ _ _ hlookup
    obtain ⟨rfl⟩ := h
    refine ⟨hin callee (Or.inl rfl), fun frame hmem => ?_⟩
    rcases List.mem_cons.mp hmem with rfl | hmem
    · exact fun s hs => hin s (Or.inr hs)
    · exact hc.frames frame hmem
  · rename_i next exact hlookup
    have hnext : next.Within table.states := fun s hs => ht.action _ _ _ hlookup s (Or.inr hs)
    split at h
    · -- taking the token may fail, and so may looking at the next one
      dsimp only at h
      split at h
      · cases h
      · split at h
        · cases h
        · exact continueAt_within hnext hc.frames h
    · exact continueAt_within hnext hc.frames h

/-- So do all of a run. -/
theorem Dispatches.within (ht : table.Closed) {ts : List Token}
    (h : Dispatches table reduce c ts c') (hc : c.Within table.states) :
    c'.Within table.states := by
  induction h with
  | none => exact hc
  | more hstep rest ih => exact ih (step_within ht hc hstep)

/-- A parse starts in a state of the table, be it by a rule or by default. -/
theorem startState_inRange (ht : table.Closed) {rule : Text} {s : Int}
    (h : startState table rule = .ok s) : InRange table.states s := by
  unfold startState at h
  split at h
  · split at h
    · rename_i s' hs
      obtain rfl := Except.ok.inj h
      exact ht.start s' hs
    · exact nomatch h
  · split at h
    · rename_i s' hs
      obtain rfl := Except.ok.inj h
      exact ht.rule rule s' hs
    · exact nomatch h

/-- Every state of a parse, and every state saved in a frame, is a state of the table. -/
theorem Reaches.within (ht : table.Closed) {la : Lookahead σ} {rule : Text} {ts : List Token}
    (h : Reaches table reduce la rule ts c) : c.Within table.states := by
  obtain ⟨s, t, la', hstart, -, hrun⟩ := h
  have hfirst : InRange table.states s := startState_inRange ht hstart
  exact hrun.within ht ⟨hfirst, fun frame hmem => nomatch hmem⟩

end Parser
end Pushdown
