/-
  A table that was handed out, and the calls that come after.

  The table is the builder's own draft and not a copy.  So it changes with it: states are added to
  it, entries, rules and another start state show in it, and nobody checks them again.
  `handed_out_changes` is a smallest case, an entry that shifts to a state that does not exist.

  A draft that is handed out is marked as issued, and from then on whoever has the table sees what
  the draft is (`Builder.current`).  So the question what becomes of the table is the question what
  becomes of the draft after further calls, and what a draft is can be told from the calls
  (`Tells`).

  `handed_out_same_iff` says exactly which calls can come after without a change, and what holds
  whatever calls come after.  An entry of the table is never lost or replaced (`Extends`).  And the
  table answers as before if and only if the later calls are `Idle`: they allocate no state, their
  entries are all refused, and what they bind was bound before.

  One direction looks at the draft: idle calls leave it as it is (`Tells.draft_of_idle`).  The other
  one looks at the answers only, and each part of `Idle` is noticed by one of them: a state that is
  allocated by the number of states, an entry by the entries of its state, and a binding by the rule
  or the start state (`Tells.idle_of_sameResults`).
-/
import Pushdown.Proofs.Table.Validation

namespace Pushdown

open Text (lit)

variable {α : Type}

namespace Table

/-- Whatever is asked, both tables give the same answer. -/
structure SameResults (t t' : Table α) : Prop where
  states : t'.states = t.states
  start : t'.start = t.start
  ruleState? : ∀ rule, t'.ruleState? rule = t.ruleState? rule
  lookup : ∀ s key, t'.lookup s key = t.lookup s key
  expected : ∀ s, t'.expected s = t.expected s
  entries : ∀ s, t'.entries s = t.entries s

/-- `t.Extends t'`: the table `t'` has all states and entries of `t`, and maybe more. -/
structure Extends (t t' : Table α) : Prop where
  states : t.states ≤ t'.states
  /-- The action for a key stays; only the wildcard may have to give way. -/
  lookup : ∀ s key a, t.lookup s key = some ⟨a, true⟩ → t'.lookup s key = some ⟨a, true⟩
  entries : ∀ s, (t.entries s).Sublist (t'.entries s)

/-- An exact match is an action that was entered for the key. -/
theorem Coherent.lookup_exact_iff {t : Table α} (h : t.Coherent) {s : Int} {key : Text}
    {a : Action α} :
    t.lookup s key = some ⟨a, true⟩ ↔ key ≠ wildcard ∧ t.entered? s key = some a := by
  rw [h.lookup_eq]
  by_cases hkey : key = wildcard
  · rw [if_pos hkey]
    refine iff_of_false (fun hm => ?_) (fun hne => hne.1 hkey)
    obtain ⟨b, -, hb⟩ := Option.map_eq_some_iff.mp hm
    exact nomatch hb
  · rw [if_neg hkey, and_iff_right hkey]
    rcases t.entered? s key with _ | b
    · refine iff_of_false (fun hm => ?_) nofun
      obtain ⟨b, -, hb⟩ := Option.map_eq_some_iff.mp hm
      exact nomatch hb
    · constructor
      · intro hm
        exact congrArg (Option.map Match.action) hm
      · intro hb
        rw [Option.some.inj hb]
        rfl

end Table

namespace BuildStep

/-- Allocating a state is noticed. -/
theorem lt_foldl_grow {steps : List (BuildStep α)} (h : .state ∈ steps) (n : Nat) :
    n < steps.foldl grow n := by
  induction steps generalizing n with
  | nil => exact nomatch h
  | cons st steps ih =>
    -- no later call takes the state away again
    rcases List.mem_cons.mp h with rfl | h
    · exact Nat.lt_of_lt_of_le (Nat.lt_succ_self n) (le_foldl_grow (n + 1) steps)
    · exact Nat.lt_of_le_of_lt (le_grow n st) (ih h (grow n st))

end BuildStep

namespace Builder

open BuildStep Entry Table

/-- The later calls do nothing to what the earlier ones have made. -/
structure Idle (before later : List (BuildStep α)) : Prop where
  state : .state ∉ later
  refused : ∀ e ∈ entries later,
    e.state < 0 ∨ ∃ old, first? (entries before) e.state e.key = some old
  rule : ∀ name s, lastBound? later name = some s → lastBound? before name = some s
  start : ∀ s, lastChosen? later = some s → (lastChosen? before).getD (-1) = s

section Run

variable {steps : List (BuildStep α)} {b : Builder α}

/-- A builder that has handed out its table does not take it back. -/
theorem Tells.issued (h : Tells steps b) (hb : b.issued = true) (st : BuildStep α) :
    (st.apply b).issued = true := by
  rcases b.apply_cases h.coherent st with ⟨e, hst⟩ | ⟨s, key, a, t, -, hst⟩ |
    ⟨states, rules, start, issued, hissued, hst⟩
  · rw [hst]
    exact hb
  · rw [hst]
    exact hb
  · rw [hst]
    exact hissued hb

/-- Nor after several calls. -/
theorem Tells.issued_run (h : Tells steps b) (hb : b.issued = true) (more : List (BuildStep α)) :
    (more.foldl BuildStep.apply b).issued = true := by
  induction more generalizing steps b with
  | nil => exact hb
  | cons st more ih => exact ih (h.apply st) (h.issued hb st)

/-- The entries of a state stay, in their order. -/
theorem Tells.entries_sublist (h : Tells steps b) (st : BuildStep α) (s : Int) :
    (b.draft.entries s).Sublist ((st.apply b).draft.entries s) := by
  rcases b.apply_cases h.coherent st with ⟨e, hst⟩ | ⟨s', key, a, t, ht, hst⟩ |
    ⟨states, rules, start, issued, -, hst⟩
  · rw [hst]
    exact List.Sublist.refl _
  · rw [hst]
    exact ht.entries s
  · rw [hst]
    exact List.Sublist.refl _

/-- They stay after any number of calls. -/
theorem Tells.entries_sublist_run (h : Tells steps b) (more : List (BuildStep α)) (s : Int) :
    (b.draft.entries s).Sublist ((more.foldl BuildStep.apply b).draft.entries s) := by
  induction more generalizing steps b with
  | nil => exact List.Sublist.refl _
  | cons st more ih => exact (h.entries_sublist st s).trans (ih (h.apply st))

/-- **Nothing is lost.**  The draft after further calls has all that it had before. -/
theorem Tells.extends (h : Tells steps b) (more : List (BuildStep α)) :
    b.draft.Extends (more.foldl BuildStep.apply b).draft where
  states := h.states_le_run more
  lookup s key a hm := by
    have h' := h.run more
    obtain ⟨hkey, ha⟩ := h.coherent.lookup_exact_iff.mp hm
    rw [h.entered?] at ha
    refine h'.coherent.lookup_exact_iff.mpr ⟨hkey, ?_⟩
    rw [h'.entered?, entries_append, first?_append, ha]
    rfl
  entries s := h.entries_sublist_run more s

/-- Calls that allocate no state and whose entries are all refused can only bind names. -/
theorem Tells.draft_of_refused (h : Tells steps b) {more : List (BuildStep α)}
    (hstate : .state ∉ more)
    (hrefused : ∀ e ∈ entries more,
      e.state < 0 ∨ ∃ old, first? (entries steps) e.state e.key = some old) :
    ∃ rules start, (more.foldl BuildStep.apply b).draft = { b.draft with rules, start } := by
  induction more generalizing steps b with
  | nil => exact ⟨b.draft.rules, b.draft.start, rfl⟩
  | cons st more ih =>
    have hfirst : ∃ rules start, (st.apply b).draft = { b.draft with rules, start } := by
      cases st with
      | state => exact absurd List.mem_cons_self hstate
      | on s key a =>
        exact ⟨_, _, h.draft_on (hrefused ⟨s, key, a⟩ List.mem_cons_self) a⟩
      | otherwise s a =>
        exact ⟨_, _, h.draft_on (hrefused ⟨s, wildcard, a⟩ List.mem_cons_self) a⟩
      | rule name s => exact ⟨_, _, rfl⟩
      | start s => exact ⟨_, _, rfl⟩
      | table => exact ⟨_, _, table_draft b⟩
    -- what was refused before the first of the calls is refused behind it
    have hrest : ∀ e ∈ entries more,
        e.state < 0 ∨ ∃ old, first? (entries (steps ++ [st])) e.state e.key = some old := by
      intro e he
      have hmem : e ∈ entries (st :: more) := by
        rw [← List.singleton_append, entries_append]
        exact List.mem_append_right _ he
      refine (hrefused e hmem).imp_right ?_
      rintro ⟨old, hold⟩
      refine ⟨old, ?_⟩
      rw [entries_append, first?_append, hold]
      rfl
    obtain ⟨rules, start, hdraft⟩ := hfirst
    obtain ⟨rules', start', hdraft'⟩ :=
      ih (h.apply st) (fun hmem => hstate (List.mem_cons_of_mem _ hmem)) hrest
    refine ⟨rules', start', ?_⟩
    rw [List.foldl_cons, hdraft', hdraft]

/-- Idle calls leave the draft as it is. -/
theorem Tells.draft_of_idle (h : Tells steps b) {more : List (BuildStep α)}
    (hidle : Idle steps more) : (more.foldl BuildStep.apply b).draft = b.draft := by
  have h' := h.run more
  obtain ⟨rules, start, hdraft⟩ := h.draft_of_refused hidle.state hidle.refused
  -- a rule that is bound again is bound to its state
  have hrules : rules = b.draft.rules := by
    refine Dict.ext_get? fun name => ?_
    have hrule : rules.get? name = (lastBound? more name).or (lastBound? steps name) := by
      rw [← lastBound?_append, ← h'.rules, hdraft]
    rw [hrule, h.rules]
    rcases hlast : lastBound? more name with _ | s
    · rfl
    · rw [hidle.rule name s hlast]
      rfl
  have hstart : start = b.draft.start := by
    have hchosen : start = ((lastChosen? more).or (lastChosen? steps)).getD (-1) := by
      rw [← lastChosen?_append, ← h'.start, hdraft]
    rw [hchosen, h.start]
    rcases hlast : lastChosen? more with _ | s
    · rfl
    · exact (hidle.start s hlast).symm
  rw [hdraft, hrules, hstart]

/-- Calls after which every answer is as before were idle. -/
theorem Tells.idle_of_sameResults (h : Tells steps b) {more : List (BuildStep α)}
    (hsame : b.draft.SameResults (more.foldl BuildStep.apply b).draft) : Idle steps more := by
  have h' := h.run more
  constructor
  · intro hmem
    have hlt : count steps < count (steps ++ more) := by
      unfold count
      rw [List.foldl_append]
      exact lt_foldl_grow hmem _
    have hstates := hsame.states
    rw [h.states, h'.states] at hstates
    omega
  -- an entry that is not refused would be an entry more
  · intro e he
    by_cases hneg : e.state < 0
    · exact Or.inl hneg
    · right
      obtain ⟨a, ha⟩ := exists_first?_of_mem
        (List.mem_append_right (entries steps) he) (by omega : 0 ≤ e.state)
      rw [← entries_append, ← h'.entered?, ← h'.coherent.mem_entries_iff, hsame.entries,
        h.coherent.mem_entries_iff, h.entered?] at ha
      exact ⟨a, ha⟩
  · intro name s hs
    rw [← h.rules]
    refine (hsame.ruleState? name).symm.trans ((h'.rules name).trans ?_)
    rw [lastBound?_append, hs]
    rfl
  · intro s hs
    rw [← h.start, ← hsame.start, h'.start, lastChosen?_append, hs]
    rfl

end Run

/-! ## The table in other hands

  A table is handed out when it passes its check, and from then on it is the draft that further
  calls work on.  The results below are about any calls before and any calls after. -/

/-- **A table stays as it was if and only if the builder is left alone.**  Let a table be handed
    out, and let any calls come after.  Then whoever has the table has all of its states and
    entries, and maybe more.  All of its answers are the same if and only if the later calls were
    idle. -/
theorem handed_out_same_iff (before later : List (BuildStep α)) (t : Table α)
    (hok : (after before).table.1 = .ok t) :
    ∃ t', (after (before ++ [.table] ++ later)).current = some t' ∧ t.Extends t' ∧
      (t.SameResults t' ↔ Idle before later) := by
  have h := tells_after before
  obtain ⟨rfl, hissued⟩ := table_of_ok hok
  -- the builder is the same afterwards, but for the mark
  let b : Builder α := { after before with issued := true }
  have hb : Tells before b := ⟨h.coherent, h.entered?, h.error, h.rules, h.start, h.states⟩
  have hrun : after (before ++ [.table] ++ later) = later.foldl BuildStep.apply b := by
    unfold after
    rw [List.foldl_append, List.foldl_append]
    exact congrArg (later.foldl BuildStep.apply) hissued
  refine ⟨(later.foldl BuildStep.apply b).draft, ?_, hb.extends later, ?_⟩
  · rw [hrun, current, if_pos (hb.issued_run rfl later)]
  · constructor
    · exact hb.idle_of_sameResults
    · intro hidle
      have hdraft : (later.foldl BuildStep.apply b).draft = (after before).draft :=
        hb.draft_of_idle hidle
      rw [hdraft]
      exact ⟨rfl, rfl, fun _ => rfl, fun _ _ => rfl, fun _ => rfl, fun _ => rfl⟩

/-- A second entry for a state and key, and a rule that is bound again to its state, do nothing. -/
theorem handed_out_same_iff_idle :
    let before : List (BuildStep Reduction) := [.on 0 (lit "A") ⟨none, .state 0⟩, .rule (lit "E") 0]
    let later : List (BuildStep Reduction) :=
      [.on 0 (lit "A") ⟨none, .accept none []⟩, .table, .rule (lit "E") 0]
    ∃ t t', (after before).table.1 = .ok t ∧
      (after (before ++ [.table] ++ later)).current = some t' ∧ t.SameResults t' := by
  intro before later
  have hok : (after before).table.1 = .ok (after before).draft := by cbv
  have hidle : Idle before later := by
    refine ⟨?_, ?_, ?_, ?_⟩
    · simp [later]
    · intro e he
      obtain rfl := List.mem_singleton.mp he
      exact Or.inr ⟨⟨none, .state 0⟩, by rfl⟩
    · intro name s hs
      by_cases hname : lit "E" = name
      · subst hname
        exact hs
      · have hlast : lastBound? later name = (if lit "E" = name then some 0 else none).or none :=
          lastBound?_snoc [.on 0 (lit "A") ⟨none, .accept none []⟩, .table] _ name
        rw [hlast, if_neg hname] at hs
        cases hs
    · intro s hs
      cases hs
  obtain ⟨t', ht', -, hsame⟩ := handed_out_same_iff before later _ hok
  exact ⟨_, t', hok, ht', hsame.mpr hidle⟩

/-- An entry that comes later shows in the table, and what it refers to does not exist. -/
theorem handed_out_changes :
    let before : List (BuildStep Reduction) := [.state, .on 0 (lit "A") ⟨none, .state 0⟩]
    let later : List (BuildStep Reduction) := [.on 0 (lit "B") ⟨none, .state 7⟩]
    ∃ t t', (after before).table.1 = .ok t ∧
      (after (before ++ [.table] ++ later)).current = some t' ∧
      t.lookup 0 (lit "B") = none ∧
      t'.lookup 0 (lit "B") = some ⟨⟨none, .state 7⟩, true⟩ ∧
      ¬ t.SameResults t' ∧ t.Closed ∧ ¬ t'.Closed := by
  intro before later
  have h := tells_after before
  have h' := tells_after (before ++ [.table] ++ later)
  have hok : (after before).table.1 = .ok (after before).draft := by cbv
  have hcurrent : (after (before ++ [.table] ++ later)).current =
      some (after (before ++ [.table] ++ later)).draft := by cbv
  have hold : (after before).draft.lookup 0 (lit "B") = none := by
    rw [h.lookup_eq]
    rfl
  have hnew : (after (before ++ [.table] ++ later)).draft.lookup 0 (lit "B") =
      some ⟨⟨none, .state 7⟩, true⟩ := by
    rw [h'.lookup_eq]
    rfl
  have hclosed : (after before).draft.Closed := by
    rcases h.table with ⟨-, hclosed, -⟩ | ⟨-, e, -, herr⟩ | ⟨-, -, r, s, -, -, herr⟩
    · exact hclosed
    · cases hok.symm.trans herr
    · cases hok.symm.trans herr
  refine ⟨_, _, hok, hcurrent, hold, hnew, fun hsame => ?_, hclosed, fun hclosed' => ?_⟩
  · cases hnew.symm.trans ((hsame.lookup 0 (lit "B")).trans hold)
  · have hin := hclosed'.action _ _ _ hnew 7 (Or.inr rfl)
    rw [h'.states] at hin
    exact absurd hin (by decide)

end Builder
end Pushdown
