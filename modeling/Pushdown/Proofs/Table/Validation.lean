/-
  Which calls of a builder make a table, and why its parses do not go astray.

  A builder checks its table entry by entry: callee and next state of an entry have to be states of
  the table, and so have the states of the rules and the default start state.  `Refers` says what
  refers to which state, told from the calls, and `Sound` says when the calls make a table
  (`Tells.sound_iff`).  If they do not, the first entry that was refused is to blame, or else some
  reference to a state that does not exist.

  The check walks through the finished draft and not through the calls, so that two views of the
  references have to be brought together:

  * `mem_references_iff` tells the references of a table from its entries, its rules and its start;
  * if no entry was refused, the entries of the table are those that were meant to be entered
    (`Entry.first?_eq_some_iff`), and the references are those of the calls
    (`Tells.mem_references_iff`).

  A refused entry is reported first, whatever it refers to.  An entry that was not refused may refer
  to a state that only comes to exist by a later call, and so nothing can be said about references
  before the table is handed out.

  A parse combines what was checked apart: it calls the callee of one entry, goes on at the next
  state of another one that waits in a frame, and starts at a rule.  All of this is within the table
  (`Tells.closed`), and hence every parse is.
-/
import Pushdown.Proofs.Parser.Range
import Pushdown.Proofs.Table.Steps

namespace Pushdown

open Text (lit)

variable {α : Type}

/-! ## Entries that are refused

  Whether an entry is refused depends on the entries before it: one for the same state and key makes
  it a rival, and a negative state is refused in any case.  If nothing was refused, all entries
  differ in state or key, and looking for the first one finds the only one. -/

namespace Entry

/-- Both entries are meant for the same state and key. -/
def Rivals (e f : Entry α) : Prop := e.state = f.state ∧ e.key = f.key

/-- A state and key have no action if and only if none was meant for them. -/
theorem first?_eq_none_iff {es : List (Entry α)} {s : Int} {key : Text} (hs : 0 ≤ s) :
    first? es s key = none ↔ ∀ e ∈ es, ¬ (e.state = s ∧ e.key = key) := by
  unfold first?
  rw [Option.map_eq_none_iff, List.find?_eq_none]
  constructor
  · intro h e he hat
    exact h e he (decide_eq_true ⟨hs, hat⟩)
  · intro h e he hat
    exact h e he (of_decide_eq_true hat).2

/-- An entry is accepted if its state is not negative and nothing was meant for its state and key
    before. -/
theorem refusal?_eq_none_iff {before : List (Entry α)} {e : Entry α} :
    e.refusal? before = none ↔ 0 ≤ e.state ∧ ∀ f ∈ before, ¬ f.Rivals e := by
  unfold refusal?
  by_cases hneg : e.state < 0
  · rw [if_pos hneg]
    constructor
    · exact fun h => nomatch h
    · intro h
      omega
  · have hpos : 0 ≤ e.state := by omega
    rw [if_neg hneg, Option.map_eq_none_iff, first?_eq_none_iff hpos]
    exact (and_iff_right hpos).symm

/-- Some entries after others are all accepted. -/
theorem refusalFrom_eq_none_iff {before es : List (Entry α)} :
    refusalFrom before es = none ↔ (∀ e ∈ es, 0 ≤ e.state) ∧
      (∀ e ∈ es, ∀ f ∈ before, ¬ f.Rivals e) ∧ es.Pairwise fun f e => ¬ f.Rivals e := by
  -- the entry in front comes after those before it, and before all the others
  induction es generalizing before with
  | nil => exact ⟨fun _ => ⟨nofun, nofun, .nil⟩, fun _ => rfl⟩
  | cons e es ih =>
    rw [refusalFrom, Option.or_eq_none_iff, refusal?_eq_none_iff, ih, List.pairwise_cons]
    simp only [List.forall_mem_cons, List.forall_mem_append, List.not_mem_nil, false_imp_iff,
      implies_true, and_true]
    constructor
    · rintro ⟨⟨hpos, hbefore⟩, hallpos, hall, honce⟩
      exact ⟨⟨hpos, hallpos⟩, ⟨hbefore, fun f hf => (hall f hf).1⟩,
        fun f hf => (hall f hf).2, honce⟩
    · rintro ⟨⟨hpos, hallpos⟩, ⟨hbefore, hall⟩, hlater, honce⟩
      exact ⟨⟨hpos, hbefore⟩, hallpos, fun f hf => ⟨hall f hf, hlater f hf⟩, honce⟩

/-- The first action for a state and key comes from one of the entries. -/
theorem mem_of_first? {es : List (Entry α)} {s : Int} {key : Text} {a : Action α}
    (h : first? es s key = some a) : ⟨s, key, a⟩ ∈ es := by
  obtain ⟨e, he, rfl⟩ := Option.map_eq_some_iff.mp h
  have hat := List.find?_some he
  obtain ⟨-, rfl, rfl⟩ := of_decide_eq_true hat
  exact List.mem_of_find?_eq_some he

/-- If all entries are accepted, each of them is the first for its state and key. -/
theorem first?_eq_some_iff {es : List (Entry α)} (honce : es.Pairwise fun e f => ¬ e.Rivals f)
    {s : Int} (hs : 0 ≤ s) {key : Text} {a : Action α} :
    first? es s key = some a ↔ ⟨s, key, a⟩ ∈ es := by
  constructor
  · exact mem_of_first?
  · intro ha
    -- if it were another entry that comes first, the two would be rivals
    obtain ⟨b, hb⟩ := exists_first?_of_mem ha hs
    have : Std.Symm fun e f : Entry α => ¬ e.Rivals f :=
      ⟨fun e f hne hat => hne ⟨hat.1.symm, hat.2.symm⟩⟩
    by_cases hab : a = b
    · rw [hab]
      exact hb
    · have hne : (⟨s, key, a⟩ : Entry α) ≠ ⟨s, key, b⟩ := fun heq => hab (Entry.mk.inj heq).2.2
      exact absurd ⟨rfl, rfl⟩ (honce.forall ha (mem_of_first? hb) hne)

end Entry

/-! ## What the calls refer to

  A reference is a place and the state that is named there: the callee or the next state of an
  entry, the state of a rule, the default start.  `Refers` finds them in the calls, and `references`
  in the table. -/

namespace Builder

open BuildStep Entry

/-- `Refers steps r s`: after the calls, `r` refers to the state `s`. -/
inductive Refers (steps : List (BuildStep α)) : Referrer → Int → Prop where
  | entry {e : Entry α} {s : Int} (he : e ∈ entries steps) (hs : e.action.LeadsTo s) :
      Refers steps (.entry e.state.toNat e.key) s
  | rule {name : Text} {s : Int} (hs : lastBound? steps name = some s) : Refers steps (.rule name) s
  | start {s : Int} (hs : lastChosen? steps = some s) (hpos : 0 ≤ s) : Refers steps .start s

/-- The calls make a table. -/
structure Sound (steps : List (BuildStep α)) : Prop where
  nonneg : ∀ e ∈ entries steps, 0 ≤ e.state
  /-- No state and key was set twice. -/
  once : (entries steps).Pairwise fun e f => ¬ e.Rivals f
  closed : ∀ r s, Refers steps r s → InRange (count steps) s

/-- All entries are accepted. -/
theorem refusalFrom_nil_eq_none_iff {es : List (Entry α)} :
    refusalFrom [] es = none ↔
      (∀ e ∈ es, 0 ≤ e.state) ∧ es.Pairwise fun e f => ¬ e.Rivals f := by
  rw [refusalFrom_eq_none_iff]
  exact and_congr_right fun _ => and_iff_right fun _ _ => nofun

/-- The states that an action leads to, as the check lists them. -/
theorem leadsTo_iff {a : Action α} {s : Int} :
    a.LeadsTo s ↔ s ∈ a.call.toList ++ (match a.next with
      | .state n => [n]
      | .accept _ _ => []) := by
  obtain ⟨call, next⟩ := a
  rw [Action.LeadsTo, List.mem_append, Option.mem_toList]
  cases next with
  | state n =>
    rw [List.mem_singleton]
    exact or_congr_right ⟨fun h => (Target.state.inj h).symm, fun h => congrArg _ h.symm⟩
  | accept f name => exact or_congr_right (iff_of_false nofun nofun)

/-- What a table refers to. -/
theorem mem_references_iff {t : Table α} {r : Referrer} {s : Int} :
    (r, s) ∈ references t ↔
      (∃ n < t.states, ∃ key a, (key, a) ∈ t.entries n ∧ a.LeadsTo s ∧ r = .entry n key) ∨
      (∃ name, t.ruleState? name = some s ∧ r = .rule name) ∨ t.start? = some s ∧ r = .start := by
  unfold references
  rw [List.mem_append, List.mem_append, or_assoc]
  -- entries, rules, and the default start state
  refine or_congr ?_ (or_congr ?_ ?_)
  · rw [List.mem_flatMap]
    constructor
    · rintro ⟨n, hn, h⟩
      obtain ⟨⟨key, a⟩, hentry, h⟩ := List.mem_flatMap.mp h
      obtain ⟨s', hs, hpair⟩ := List.mem_map.mp h
      obtain ⟨rfl, rfl⟩ := Prod.mk.inj hpair
      exact ⟨n, List.mem_range.mp hn, key, a, hentry, leadsTo_iff.mpr hs, rfl⟩
    · rintro ⟨n, hn, key, a, hentry, hs, rfl⟩
      refine ⟨n, List.mem_range.mpr hn, List.mem_flatMap.mpr ⟨(key, a), hentry, ?_⟩⟩
      exact List.mem_map.mpr ⟨s, leadsTo_iff.mp hs, rfl⟩
  · rw [List.mem_map]
    constructor
    · rintro ⟨⟨name, s'⟩, hrule, hpair⟩
      obtain ⟨rfl, rfl⟩ := Prod.mk.inj hpair
      exact ⟨name, Dict.get?_eq_some_iff.mpr hrule, rfl⟩
    · rintro ⟨name, hrule, rfl⟩
      exact ⟨(name, s), Dict.get?_eq_some_iff.mp hrule, rfl⟩
  · rw [List.mem_map]
    constructor
    · rintro ⟨s', hstart, hpair⟩
      obtain ⟨rfl, rfl⟩ := Prod.mk.inj hpair
      exact ⟨Option.mem_toList.mp hstart, rfl⟩
    · rintro ⟨hstart, rfl⟩
      exact ⟨s, Option.mem_toList.mpr hstart, rfl⟩

section Tells

variable {steps : List (BuildStep α)} {b : Builder α} {r : Referrer} {s : Int}

/-- The start state that was set last counts unless it is negative. -/
theorem Tells.start?_eq_some_iff (h : Tells steps b) :
    b.draft.start? = some s ↔ lastChosen? steps = some s ∧ 0 ≤ s := by
  unfold Table.start?
  rw [h.start]
  rcases lastChosen? steps with _ | s'
  · exact iff_of_false nofun (fun hs => nomatch hs.1)
  · show (if s' < 0 then none else some s') = some s ↔ _
    split
    · refine iff_of_false nofun fun ⟨heq, hpos⟩ => ?_
      obtain rfl := Option.some.inj heq
      omega
    · refine (and_iff_left_of_imp fun heq => ?_).symm
      obtain rfl := Option.some.inj heq
      omega

/-- What the table refers to, told from the calls, if no entry was refused. -/
theorem Tells.mem_references_iff (h : Tells steps b) (herror : b.error = none) :
    (r, s) ∈ references b.draft ↔ Refers steps r s := by
  obtain ⟨hpos, honce⟩ := refusalFrom_nil_eq_none_iff.mp (h.error.symm.trans herror)
  -- none was refused, so that every entry is in the table
  have hentry : ∀ {n : Nat} {key : Text} {a : Action α},
      (key, a) ∈ b.draft.entries n ↔ ⟨n, key, a⟩ ∈ entries steps := by
    intro n key a
    rw [h.coherent.mem_entries_iff, h.entered?, first?_eq_some_iff honce (Int.natCast_nonneg n)]
  rw [Builder.mem_references_iff]
  constructor
  · rintro (⟨n, -, key, a, ha, hs, rfl⟩ | ⟨name, hs, rfl⟩ | ⟨hs, rfl⟩)
    · exact .entry (hentry.mp ha) hs
    · exact .rule ((h.rules name).symm.trans hs)
    · obtain ⟨hchosen, hs⟩ := h.start?_eq_some_iff.mp hs
      exact .start hchosen hs
  · intro href
    cases href with
    | @entry e s he hs =>
      have hlt : e.state < b.draft.states := h.state_lt he
      have hnat : (e.state.toNat : Int) = e.state := Int.toNat_of_nonneg (hpos e he)
      refine Or.inl ⟨e.state.toNat, by omega, e.key, e.action, hentry.mpr ?_, hs, rfl⟩
      rw [hnat]
      exact he
    | rule hs => exact Or.inr (Or.inl ⟨_, (h.rules _).trans hs, rfl⟩)
    | start hs hpos => exact Or.inr (Or.inr ⟨h.start?_eq_some_iff.mpr ⟨hs, hpos⟩, rfl⟩)

end Tells

/-! ## What the check of the table does

  Handing out a table has three ends: an entry was refused before, a reference leads to no state, or
  the table is given.  Which of them it is follows from the calls (`Tells.table`). -/

/-- A state is not defined if it is out of range. -/
theorem isUndefined_iff {t : Table α} {s : Int} :
    isUndefined t s = true ↔ ¬ InRange t.states s := by
  unfold isUndefined InRange
  rw [Bool.or_eq_true, decide_eq_true_iff, decide_eq_true_iff]
  omega

/-- A refused entry is reported before all else. -/
theorem table_of_refused {b : Builder α} {e : BuildError α} (he : b.error = some e) :
    b.table.1 = .error e := by
  rw [table, problem?, he]
  rfl

/-- If no entry was refused, what counts is that all references are to states of the table. -/
theorem table_cases {b : Builder α} (hnone : b.error = none) :
    (b.table.1 = .ok b.draft ∧ ∀ r s, (r, s) ∈ references b.draft → InRange b.draft.states s) ∨
    ∃ r s, (r, s) ∈ references b.draft ∧ ¬ InRange b.draft.states s ∧
      b.table.1 = .error (.undefinedState r s) := by
  have hproblem : b.problem? =
      ((references b.draft).find? fun r => isUndefined b.draft r.2).map fun r =>
        .undefinedState r.1 r.2 := by
    rw [problem?, hnone]
    rfl
  rw [table, hproblem]
  cases hfind : (references b.draft).find? fun r => isUndefined b.draft r.2 with
  | none =>
    refine Or.inl ⟨rfl, fun r s hr => ?_⟩
    by_contra hout
    exact List.find?_eq_none.mp hfind (r, s) hr (isUndefined_iff.mpr hout)
  | some p =>
    have hout := List.find?_some hfind
    exact Or.inr ⟨p.1, p.2, List.mem_of_find?_eq_some hfind, isUndefined_iff.mp hout, rfl⟩

section Check

variable {steps : List (BuildStep α)} {b : Builder α}

/-- If all references are to states of the table, no action leads out of it. -/
theorem Tells.closed (h : Tells steps b)
    (hin : ∀ r s, (r, s) ∈ references b.draft → InRange b.draft.states s) : b.draft.Closed where
  action s key m hm s' hs := by
    obtain ⟨key', ha⟩ := h.coherent.exists_entered?_of_lookup hm
    obtain ⟨hpos, hlt⟩ := h.coherent.lt_states ha
    have hnat : (s.toNat : Int) = s := Int.toNat_of_nonneg hpos
    have hentry : (key', m.action) ∈ b.draft.entries s.toNat := by
      rw [h.coherent.mem_entries_iff, hnat]
      exact ha
    have href : (Referrer.entry s.toNat key', s') ∈ references b.draft :=
      Builder.mem_references_iff.mpr
        (Or.inl ⟨s.toNat, by omega, key', m.action, hentry, hs, rfl⟩)
    exact hin _ s' href
  rule name s hs := hin _ s (Builder.mem_references_iff.mpr (Or.inr (Or.inl ⟨name, hs, rfl⟩)))
  start s hs := hin _ s (Builder.mem_references_iff.mpr (Or.inr (Or.inr ⟨hs, rfl⟩)))

/-- If no entry was refused, the calls are sound if the check finds nothing. -/
theorem Tells.sound_iff (h : Tells steps b) (hnone : b.error = none) :
    Sound steps ↔ ∀ r s, (r, s) ∈ references b.draft → InRange b.draft.states s := by
  have hentries := refusalFrom_nil_eq_none_iff.mp (h.error.symm.trans hnone)
  constructor
  · intro hsound r s hr
    rw [h.states]
    exact hsound.closed r s ((h.mem_references_iff hnone).mp hr)
  · intro hin
    refine ⟨hentries.1, hentries.2, fun r s href => ?_⟩
    rw [← h.states]
    exact hin r s ((h.mem_references_iff hnone).mpr href)

/-- **What the check comes to.**  A table is handed out, and it is the draft, if the calls are
    sound.  If an entry was refused, the first such entry is reported.  Otherwise the report is
    about a reference to a state that does not exist. -/
theorem Tells.table (h : Tells steps b) :
    (Sound steps ∧ b.draft.Closed ∧ b.table.1 = .ok b.draft) ∨
    (¬ Sound steps ∧ ∃ e, refusalFrom [] (entries steps) = some e ∧ b.table.1 = .error e) ∨
    (¬ Sound steps ∧ refusalFrom [] (entries steps) = none ∧
      ∃ r s, Refers steps r s ∧ ¬ InRange (count steps) s ∧
        b.table.1 = .error (.undefinedState r s)) := by
  rw [← h.error]
  rcases herror : b.error with _ | e
  · rcases table_cases herror with ⟨hok, hin⟩ | ⟨r, s, hr, hout, herr⟩
    · exact Or.inl ⟨(h.sound_iff herror).mpr hin, h.closed hin, hok⟩
    · refine Or.inr (Or.inr ⟨fun hsound => ?_, rfl, r, s, ?_, ?_, herr⟩)
      · exact hout ((h.sound_iff herror).mp hsound r s hr)
      · exact (h.mem_references_iff herror).mp hr
      · rw [← h.states]
        exact hout
  · refine Or.inr (Or.inl ⟨fun hsound => ?_, e, rfl, table_of_refused herror⟩)
    have hnone : b.error = none :=
      h.error.trans (refusalFrom_nil_eq_none_iff.mpr ⟨hsound.nonneg, hsound.once⟩)
    exact nomatch herror.symm.trans hnone

/-- No action leads out of a table that is handed out. -/
theorem Tells.closed_of_ok (h : Tells steps b) {t : Table α} (hok : b.table.1 = .ok t) :
    b.draft.Closed := by
  rcases h.table with ⟨-, hclosed, -⟩ | ⟨-, e, -, herr⟩ | ⟨-, -, r, s, -, -, herr⟩
  · exact hclosed
  · cases hok.symm.trans herr
  · cases hok.symm.trans herr

end Check

/-! ## Tables that are handed out

  A table that has passed the check is closed, and a parse in it can only be at states that
  exist. -/

/-- **A table that is handed out does not lead a parse astray.**  A table is handed out if and only
    if the calls are sound.  If not, the first entry that was refused is reported, or else a
    reference to a state that the table does not have.  A parse with a table that is handed out
    starts in a state of the table and is always in one, whatever the rule, the source and the
    reductions are, and whatever it has taken so far; so are all states saved in its frames. -/
theorem table_validates (steps : List (BuildStep α)) :
    ((∃ t, (after steps).table.1 = .ok t) ↔ Sound steps) ∧
    (∀ e, refusalFrom [] (entries steps) = some e → (after steps).table.1 = .error e) ∧
    (refusalFrom [] (entries steps) = none → ¬ Sound steps →
      ∃ r s, Refers steps r s ∧ ¬ InRange (count steps) s ∧
        (after steps).table.1 = .error (.undefinedState r s)) ∧
    ∀ t, (after steps).table.1 = .ok t → t.states = count steps ∧
      (∀ rule s, Parser.startState t rule = .ok s → InRange t.states s) ∧
      ∀ {σ : Type} [TokenSource σ] (reduce : α → Reduce σ) (la : Lookahead σ) (rule : Text)
        (ts : List Token) (c : Config σ α), Parser.Reaches t reduce la rule ts c →
        InRange t.states c.state ∧ ∀ frame ∈ c.frames, frame.next.Within t.states := by
  have h := tells_after steps
  -- the three ways in which the check can end
  rcases h.table with ⟨hsound, hclosed, hok⟩ | ⟨hunsound, e, he, herr⟩ |
    ⟨hunsound, hnone, r, s, href, hout, herr⟩
  · -- a table is handed out
    have hnone := refusalFrom_nil_eq_none_iff.mpr ⟨hsound.nonneg, hsound.once⟩
    refine ⟨iff_of_true ⟨_, hok⟩ hsound, fun e he => ?_, fun _ hunsound => ?_, fun t ht => ?_⟩
    · rw [hnone] at he
      exact nomatch he
    · exact absurd hsound hunsound
    · obtain rfl := Except.ok.inj (hok.symm.trans ht)
      refine ⟨h.states, fun rule s hstart => Parser.startState_inRange hclosed hstart,
        fun reduce la rule ts c hreach => ?_⟩
      have hwithin := hreach.within hclosed
      exact ⟨hwithin.state, hwithin.frames⟩
  · -- an entry was refused
    have hnotok : ∀ t, (after steps).table.1 ≠ .ok t := fun t ht => nomatch herr.symm.trans ht
    refine ⟨iff_of_false (fun ⟨t, ht⟩ => hnotok t ht) hunsound, fun e' he' => ?_, fun hnone => ?_,
      fun t ht => absurd ht (hnotok t)⟩
    · obtain rfl := Option.some.inj (he.symm.trans he')
      exact herr
    · rw [hnone] at he
      exact nomatch he
  · -- a reference leads out of the table
    have hnotok : ∀ t, (after steps).table.1 ≠ .ok t := fun t ht => nomatch herr.symm.trans ht
    refine ⟨iff_of_false (fun ⟨t, ht⟩ => hnotok t ht) hunsound, fun e he => ?_,
      fun _ _ => ⟨r, s, href, hout, herr⟩, fun t ht => absurd ht (hnotok t)⟩
    rw [hnone] at he
    exact nomatch he

/-- A table in which state 0 calls the rule of state 1 and goes on at state 2.  A parse is in
    state 1 after one dispatch, and state 2 waits in a frame.  A second entry for state 0 would be
    reported, and so would a call to a state that does not exist. -/
theorem table_validates_call :
    let steps : List (BuildStep Reduction) :=
      [.on 0 (lit "x") ⟨some 1, .state 2⟩, .on 1 (lit "x") ⟨none, .accept (some .first) []⟩,
        .otherwise 2 ⟨none, .accept none []⟩, .rule (lit "E") 0]
    let again := steps ++ [.on 0 (lit "x") ⟨none, .state 0⟩]
    let outside := steps ++ [.on 0 (lit "y") ⟨some 3, .state 0⟩]
    (∃ t c, (after steps).table.1 = .ok t ∧
      Parser.Reaches t Reduction.apply ({ source := [Parser.op "x"] } : Lookahead (List Token))
        (lit "E") [] c ∧
      c.state = 1 ∧ c.frames.map Frame.next = [.state 2] ∧
      InRange t.states c.state ∧ ∀ frame ∈ c.frames, frame.next.Within t.states) ∧
    (after again).table.1 =
      .error (.conflict 0 (lit "x") ⟨some 1, .state 2⟩ ⟨none, .state 0⟩) ∧
    ∃ r s, (after outside).table.1 = .error (.undefinedState r s) := by
  intro steps again outside
  refine ⟨?_, ?_, ?_⟩
  · have hok : (after steps).table.1 = .ok (after steps).draft := by cbv
    let la : Lookahead (List Token) := { source := [], queue := [Parser.op "x"] }
    let first : Config (List Token) Reduction := { state := 0, token := Parser.op "x", input := la }
    let second : Config (List Token) Reduction :=
      { state := 1, token := Parser.op "x", frames := [⟨.state 2, #[]⟩], input := la }
    have hstep : Parser.step (after steps).draft Reduction.apply first = .more second := by cbv
    have htaken : Parser.taken (after steps).draft first ++ [] = [] := by cbv
    have hrun := Parser.Dispatches.more hstep (.none second)
    rw [htaken] at hrun
    have hreach : Parser.Reaches (after steps).draft Reduction.apply
        ({ source := [Parser.op "x"] } : Lookahead (List Token)) (lit "E") [] second :=
      ⟨0, Parser.op "x", la, by cbv, by cbv, hrun⟩
    obtain ⟨-, -, -, hstays⟩ := table_validates steps
    obtain ⟨-, -, hstays⟩ := hstays _ hok
    exact ⟨_, second, hok, hreach, rfl, rfl, hstays Reduction.apply _ _ _ _ hreach⟩
  · obtain ⟨-, hrefused, -⟩ := table_validates again
    exact hrefused _ (by rfl)
  · have hmem : ⟨0, lit "y", ⟨some 3, .state 0⟩⟩ ∈ entries outside := by
      rw [entries_snoc]
      exact List.mem_append_right _ (List.mem_singleton_self _)
    have href : Refers outside (.entry 0 (lit "y")) 3 := .entry hmem (Or.inl rfl)
    have hunsound : ¬ Sound outside := by
      intro hsound
      exact absurd (hsound.closed _ _ href) (by decide)
    obtain ⟨-, -, hundefined, -⟩ := table_validates outside
    obtain ⟨r, s, -, -, herr⟩ := hundefined (by rfl) hunsound
    exact ⟨r, s, herr⟩

end Builder
end Pushdown
