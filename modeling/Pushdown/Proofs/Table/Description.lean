/-
  The table of a description is what the description says.

  `ActionSpec.Denotes` is the reading of a described action: it shifts, or it accepts with the
  reduction that goes by a name, and it may call a rule first.  `TableSpec.Sound` says when a
  description makes sense, and `TableSpec.Realizes` what it is for a table to be the described one.
  None of them mentions a builder.

  Building a table is a list of calls to a builder (`TableSpec.calls`): it allocates the states,
  enters the actions in order, binds the rules and sets the start state.  So all that is to be shown
  is what these calls tell: what they enter, and how many states there are in the end.  No two
  entries are for the same state and key, since the keys of a state ascend.

  There are three ways in which no table comes about (`build_cases`): an action makes no sense, the
  start rule does not exist, or the builder does not hand out a table.  The first two stop the walk
  before the builder is asked.  The third one is decided for any calls whatever by
  `Builder.Tells.table`, and `sound_calls_iff` translates its condition into that of the
  description:

  * no entry is refused, and so the builder never reports a conflict (`refusalFrom_calls`);
  * each state that is referred to is one of the states that are described, since the calls allocate
    these and no others (`count_calls`).

  What the table looks up is then the first entry for a state and a key, and there is only one
  (`first?_calls_eq_some_iff`).
-/
import Pushdown.Proofs.Table.Validation
import Pushdown.Table.Spec

namespace Pushdown

open Text (lit)

variable {α : Type}

/-! ## Described actions

  An entry of a description is a record of optional parts, and not every choice of them is an
  action.  `Denotes` lists the choices that are, and `Sound` adds that the states in them exist.  A
  callee of zero is a call like any other here: only an absent one is none. -/

namespace ActionSpec

/-- `d.Denotes reg a`: the description `d` denotes the action `a`. -/
inductive Denotes (reg : Registry α) : ActionSpec → Action α → Prop where
  | shift (call : Option Int) (s : Int) : Denotes reg ⟨call, some s, []⟩ ⟨call, .state s⟩
  | accept (call : Option Int) {name : Text} {f : α} (hname : name ≠ []) (hf : reg name = some f) :
      Denotes reg ⟨call, none, name⟩ ⟨call, .accept (some f) name⟩

/-- The description makes sense in a table with `n` states. -/
structure Sound (reg : Registry α) (n : Nat) (d : ActionSpec) : Prop where
  /-- It either shifts or accepts. -/
  target : d.shift.isSome ↔ d.accept = []
  reduction : d.accept ≠ [] → ∃ f, reg d.accept = some f
  call : ∀ s, d.call = some s → InRange n s
  shift : ∀ s, d.shift = some s → InRange n s

variable {reg : Registry α} {d : ActionSpec} {a : Action α}

/-- What follows the call is read off the description if it either shifts or accepts by a known
    name. -/
theorem target_eq_ok_iff {next : Target α} :
    d.target reg = .ok next ↔ d.Denotes reg ⟨d.call, next⟩ := by
  obtain ⟨call, shift, accept⟩ := d
  unfold target
  constructor
  · intro h
    split at h
    · rename_i s hs
      obtain rfl : shift = some s := hs
      split at h
      · rename_i haccept
        obtain rfl : accept = [] := haccept
        obtain rfl := Except.ok.inj h
        exact .shift call s
      · exact nomatch h
    · rename_i hs
      obtain rfl : shift = none := hs
      split at h
      · exact nomatch h
      · rename_i haccept
        split at h
        · rename_i f hf
          obtain rfl := Except.ok.inj h
          exact .accept call haccept hf
        · exact nomatch h
  · intro h
    cases h with
    | shift => rfl
    | accept _ hname hf =>
      dsimp only
      rw [if_neg hname, hf]

/-- What is made of a description is what it denotes, unless it calls a negative state. -/
theorem action_eq_ok_iff :
    d.action reg = .ok a ↔ d.Denotes reg a ∧ ∀ s, d.call = some s → 0 ≤ s := by
  unfold action
  constructor
  · intro h
    split at h
    · exact nomatch h
    · rename_i next hnext
      have hdenotes := target_eq_ok_iff.mp hnext
      split at h
      · rename_i c hcall
        split at h
        · exact nomatch h
        · obtain rfl := Except.ok.inj h
          rw [hcall] at hdenotes ⊢
          refine ⟨hdenotes, fun s hs => ?_⟩
          obtain rfl := Option.some.inj hs
          omega
      · rename_i hcall
        obtain rfl := Except.ok.inj h
        rw [hcall] at hdenotes ⊢
        exact ⟨hdenotes, nofun⟩
  · rintro ⟨hdenotes, hpos⟩
    have hcall : a.call = d.call := by cases hdenotes <;> rfl
    have htarget : d.target reg = .ok a.next := by
      rw [target_eq_ok_iff, ← hcall]
      exact hdenotes
    rw [htarget]
    dsimp only
    obtain ⟨call, next⟩ := a
    -- the check of the callee is all that is left
    obtain rfl : call = d.call := hcall
    rcases hc : d.call with _ | c
    · rfl
    · exact if_neg (Int.not_lt.mpr (hpos c hc))

/-- An action leads to the state that is called and to the state that is shifted to. -/
theorem Denotes.leadsTo_iff (h : d.Denotes reg a) {s : Int} :
    a.LeadsTo s ↔ d.call = some s ∨ d.shift = some s := by
  cases h with
  | shift call s' =>
    refine or_congr_right ?_
    constructor
    · intro heq
      exact congrArg some (Target.state.inj heq)
    · intro heq
      exact congrArg Target.state (Option.some.inj heq)
  | accept call hname hf => exact or_congr_right (iff_of_false nofun nofun)

/-- A description makes sense if it denotes an action that stays in the table. -/
theorem sound_iff {n : Nat} :
    d.Sound reg n ↔ ∃ a, d.action reg = .ok a ∧ ∀ s, a.LeadsTo s → InRange n s := by
  constructor
  · intro h
    obtain ⟨a, hdenotes⟩ : ∃ a, d.Denotes reg a := by
      obtain ⟨call, shift, accept⟩ := d
      rcases shift with _ | s
      · have hname : accept ≠ [] := fun heq => nomatch h.target.mpr heq
        obtain ⟨f, hf⟩ := h.reduction hname
        exact ⟨_, .accept call hname hf⟩
      · obtain rfl : accept = [] := h.target.mp rfl
        exact ⟨_, .shift call s⟩
    refine ⟨a, action_eq_ok_iff.mpr ⟨hdenotes, fun s hs => (h.call s hs).1⟩, fun s hs => ?_⟩
    rcases hdenotes.leadsTo_iff.mp hs with hs | hs
    · exact h.call s hs
    · exact h.shift s hs
  · rintro ⟨a, ha, hin⟩
    obtain ⟨hdenotes, -⟩ := action_eq_ok_iff.mp ha
    have hin' : ∀ s, d.call = some s ∨ d.shift = some s → InRange n s :=
      fun s hs => hin s (hdenotes.leadsTo_iff.mpr hs)
    refine ⟨?_, ?_, fun s hs => hin' s (Or.inl hs), fun s hs => hin' s (Or.inr hs)⟩
    · cases hdenotes with
      | shift => exact iff_of_true rfl rfl
      | accept _ hname _ => exact iff_of_false nofun hname
    · intro hname
      cases hdenotes with
      | shift => exact absurd rfl hname
      | @accept _ _ f _ hf => exact ⟨f, hf⟩

end ActionSpec

/-! ## Descriptions

  `action?` and `startState?` are what a description says, told from it directly.  `Realizes`
  compares a table with them in everything that a table can be asked: how many states there are,
  which state a rule begins at, where a parse starts, and what is found for a key. -/

namespace TableSpec

open Builder BuildStep Entry

/-- The described action for a state and a key. -/
def action? (spec : TableSpec) (s : Int) (key : Text) : Option ActionSpec :=
  if s < 0 then none else spec.states[s.toNat]?.bind (·.get? key)

/-- The state of the start rule. -/
def startState? (spec : TableSpec) : Option Int :=
  if spec.start = [] then none else spec.rules.get? spec.start

/-- The description makes sense. -/
structure Sound (reg : Registry α) (spec : TableSpec) : Prop where
  action : ∀ s key d, spec.action? s key = some d → d.Sound reg spec.states.length
  rule : ∀ name s, spec.rules.get? name = some s → InRange spec.states.length s
  start : spec.start ≠ [] → ∃ s, spec.rules.get? spec.start = some s

/-- The table is the one that is described. -/
structure Realizes (reg : Registry α) (spec : TableSpec) (t : Table α) : Prop where
  states : t.states = spec.states.length
  rule : ∀ name, t.ruleState? name = spec.rules.get? name
  start : t.start? = if spec.start = [] then none else spec.rules.get? spec.start
  exact : ∀ s key d, key ≠ wildcard → spec.action? s key = some d →
    ∃ a, d.Denotes reg a ∧ t.lookup s key = some ⟨a, true⟩
  other : ∀ s key d, key ≠ wildcard → spec.action? s key = none →
    spec.action? s wildcard = some d → ∃ a, d.Denotes reg a ∧ t.lookup s key = some ⟨a, false⟩
  missing : ∀ s key, key ≠ wildcard → spec.action? s key = none →
    spec.action? s wildcard = none → t.lookup s key = none

/-! ## A description as calls of a builder

  The walk over a description hands each part to a builder.  Taken as a list of calls it can be
  asked what any list of calls can be asked, and what the builder does on the way need not be
  followed.  The two walks are compared entry by entry and state by state (`enterState_cases`,
  `enterStates_cases`): they do the same unless some entry makes no sense, and then building ends
  with what is wrong about it. -/

/-- The call that enters an action. -/
def call (e : Entry α) : BuildStep α := .on e.state e.key e.action

/-- The entries of a state. -/
def entriesOf (reg : Registry α) (s : Nat) (l : List (Text × ActionSpec)) : List (Entry α) :=
  l.filterMap fun p => (p.2.action reg).toOption.map fun a => ⟨s, p.1, a⟩

/-- The entries of the states from number `s` on. -/
def entriesFrom (reg : Registry α) (s : Nat) : List (Dict ActionSpec) → List (Entry α)
  | [] => []
  | st :: rest => entriesOf reg s st.entries ++ entriesFrom reg (s + 1) rest

/-- The calls that build the table. -/
def calls (reg : Registry α) (spec : TableSpec) : List (BuildStep α) :=
  List.replicate spec.states.length .state ++ (entriesFrom reg 0 spec.states).map call ++
    (spec.rules.entries.map fun r => .rule r.1 r.2) ++ spec.startState?.toList.map .start

section Entering

variable {reg : Registry α}

/-- The actions of a state are entered one by one, up to one that makes no sense. -/
theorem enterState_cases (s : Nat) (l : List (Text × ActionSpec)) (b : Builder α) :
    (∃ p ∈ l, ∃ problem, p.2.action reg = .error problem ∧
      enterState reg s l b = .error (.action s p.1 problem)) ∨
    ((∀ p ∈ l, ∃ a, p.2.action reg = .ok a) ∧
      enterState reg s l b = .ok (((entriesOf reg s l).map call).foldl BuildStep.apply b)) := by
  induction l generalizing b with
  | nil => exact Or.inr ⟨nofun, rfl⟩
  | cons p l ih =>
    obtain ⟨key, d⟩ := p
    rw [enterState]
    rcases haction : d.action reg with problem | a
    · exact Or.inl ⟨(key, d), List.mem_cons_self, problem, haction, rfl⟩
    · dsimp only
      have hentries : entriesOf reg s ((key, d) :: l) = ⟨s, key, a⟩ :: entriesOf reg s l := by
        unfold entriesOf
        rw [List.filterMap_cons]
        dsimp only
        rw [haction]
        rfl
      rcases ih (b.on s key a) with ⟨p, hp, problem, hproblem, herr⟩ | ⟨hall, hok⟩
      · exact Or.inl ⟨p, List.mem_cons_of_mem _ hp, problem, hproblem, herr⟩
      · refine Or.inr ⟨?_, ?_⟩
        · intro p hp
          rcases List.mem_cons.mp hp with rfl | hp
          · exact ⟨a, haction⟩
          · exact hall p hp
        · rw [hok, hentries]
          rfl

/-- So are the states one by one.  The number in the error is that of the state. -/
theorem enterStates_cases (s : Nat) (states : List (Dict ActionSpec)) (b : Builder α) :
    (∃ st ∈ states, ∃ p ∈ st.entries, ∃ problem, p.2.action reg = .error problem ∧
      ∃ n, enterStates reg s states b = .error (.action n p.1 problem)) ∨
    ((∀ st ∈ states, ∀ p ∈ st.entries, ∃ a, p.2.action reg = .ok a) ∧
      enterStates reg s states b =
        .ok (((entriesFrom reg s states).map call).foldl BuildStep.apply b)) := by
  induction states generalizing s b with
  | nil => exact Or.inr ⟨nofun, rfl⟩
  | cons st states ih =>
    rw [enterStates]
    rcases enterState_cases s st.entries b with ⟨p, hp, problem, hproblem, herr⟩ | ⟨hall, hok⟩
    · rw [herr]
      exact Or.inl ⟨st, List.mem_cons_self, p, hp, problem, hproblem, s, rfl⟩
    · rw [hok]
      -- the states behind start from the builder that this one leaves
      rcases ih (s + 1) (((entriesOf reg s st.entries).map call).foldl BuildStep.apply b) with
        ⟨st', hst', hbad⟩ | ⟨hall', hok'⟩
      · exact Or.inl ⟨st', List.mem_cons_of_mem _ hst', hbad⟩
      · refine Or.inr ⟨?_, ?_⟩
        · intro st' hst'
          rcases List.mem_cons.mp hst' with rfl | hst'
          · exact hall
          · exact hall' st' hst'
        · show enterStates reg (s + 1) states _ = _
          rw [hok', entriesFrom, List.map_append, List.foldl_append]

end Entering

/-! ## What the calls tell

  What calls tell is a function of the calls: the entries in their order, the last binding of a
  name, the last choice of a start, and the number of states.  For the calls of a description each
  of them is read off the description. -/

section Calls

variable {reg : Registry α} {spec : TableSpec}

/-- An action is described for a state if the state has one under the key. -/
theorem action?_eq_some_iff {s : Int} {key : Text} {d : ActionSpec} :
    spec.action? s key = some d ↔
      ∃ n : Nat, s = n ∧ ∃ st, spec.states[n]? = some st ∧ st.get? key = some d := by
  unfold action?
  constructor
  · intro h
    split at h
    · exact nomatch h
    · obtain ⟨st, hst, hd⟩ := Option.bind_eq_some_iff.mp h
      exact ⟨s.toNat, by omega, st, hst, hd⟩
  · rintro ⟨n, rfl, st, hst, hd⟩
    rw [if_neg (by omega)]
    exact Option.bind_eq_some_iff.mpr ⟨st, hst, hd⟩

/-- The entries of a state are the actions that can be made, under their keys. -/
theorem mem_entriesOf_iff {s : Nat} {l : List (Text × ActionSpec)} {e : Entry α} :
    e ∈ entriesOf reg s l ↔
      e.state = s ∧ ∃ d, (e.key, d) ∈ l ∧ d.action reg = .ok e.action := by
  unfold entriesOf
  rw [List.mem_filterMap]
  constructor
  · rintro ⟨⟨key, d⟩, hp, he⟩
    obtain ⟨a, ha, rfl⟩ := Option.map_eq_some_iff.mp he
    refine ⟨rfl, d, hp, ?_⟩
    rcases haction : d.action reg with problem | a'
    · dsimp only at ha
      rw [haction] at ha
      exact nomatch ha
    · dsimp only at ha
      rw [haction] at ha
      exact congrArg _ (Option.some.inj ha)
  · rintro ⟨hs, d, hp, ha⟩
    refine ⟨(e.key, d), hp, ?_⟩
    dsimp only
    rw [ha, ← hs]
    rfl

/-- The entries of states in a row are those of each of them, under its number. -/
theorem mem_entriesFrom_iff {k : Nat} {states : List (Dict ActionSpec)} {e : Entry α} :
    e ∈ entriesFrom reg k states ↔ ∃ i st, states[i]? = some st ∧ e.state = (k + i : Nat) ∧
      ∃ d, st.get? e.key = some d ∧ d.action reg = .ok e.action := by
  induction states generalizing k with
  | nil =>
    constructor
    · intro h
      cases h
    · rintro ⟨i, st, hst, -⟩
      cases hst
  | cons st states ih =>
    rw [entriesFrom, List.mem_append, mem_entriesOf_iff, ih]
    constructor
    · rintro (⟨hs, d, hd, ha⟩ | ⟨i, st', hst', hs, hd⟩)
      · exact ⟨0, st, rfl, hs, d, Dict.get?_eq_some_iff.mpr hd, ha⟩
      · exact ⟨i + 1, st', hst', by omega, hd⟩
    · rintro ⟨i, st', hst', hs, d, hd, ha⟩
      cases i with
      | zero =>
        obtain rfl := Option.some.inj hst'
        exact Or.inl ⟨hs, d, Dict.get?_eq_some_iff.mp hd, ha⟩
      | succ i => exact Or.inr ⟨i, st', hst', by omega, d, hd, ha⟩

/-- No two actions are described for the same state and key. -/
theorem pairwise_entriesFrom (k : Nat) (states : List (Dict ActionSpec)) :
    (entriesFrom reg k states).Pairwise fun e f => ¬ e.Rivals f := by
  induction states generalizing k with
  | nil => exact .nil
  | cons st states ih =>
    rw [entriesFrom, List.pairwise_append]
    refine ⟨?_, ih (k + 1), ?_⟩
    · -- the keys of a state ascend
      unfold entriesOf
      rw [List.pairwise_filterMap]
      refine st.ordered.imp ?_
      intro p q hlt e he f hf hrivals
      obtain ⟨a, -, rfl⟩ := Option.map_eq_some_iff.mp he
      obtain ⟨b, -, rfl⟩ := Option.map_eq_some_iff.mp hf
      have hkey : p.1 = q.1 := hrivals.2
      rw [hkey] at hlt
      exact List.lt_irrefl _ hlt
    · -- later states have greater numbers
      intro e he f hf hrivals
      obtain ⟨hs, -⟩ := mem_entriesOf_iff.mp he
      obtain ⟨i, -, -, hs', -⟩ := mem_entriesFrom_iff.mp hf
      have hstate : e.state = f.state := hrivals.1
      omega

/-- The entries of the calls are those of the states: no other call enters an action. -/
theorem entries_calls : entries (calls reg spec) = entriesFrom reg 0 spec.states := by
  have hstates : entries (List.replicate spec.states.length (.state : BuildStep α)) = [] :=
    entries_eq_nil (List.forall_mem_replicate.mpr (Or.inr rfl))
  have hown : entries ((entriesFrom reg 0 spec.states).map call) =
      entriesFrom reg 0 spec.states := by
    unfold entries
    rw [List.filterMap_map]
    exact List.filterMap_some
  have hrules : entries (spec.rules.entries.map fun r => (.rule r.1 r.2 : BuildStep α)) = [] :=
    entries_eq_nil (List.forall_mem_map.mpr fun _ _ => rfl)
  have hstart : entries (spec.startState?.toList.map (.start : Int → BuildStep α)) = [] :=
    entries_eq_nil (List.forall_mem_map.mpr fun _ _ => rfl)
  unfold calls
  rw [entries_append, entries_append, entries_append, hstates, hown, hrules, hstart,
    List.nil_append, List.append_nil, List.append_nil]

/-- What is entered is what is described, as far as it can be made. -/
theorem mem_entries_calls_iff {e : Entry α} : e ∈ entries (calls reg spec) ↔
    ∃ d, spec.action? e.state e.key = some d ∧ d.action reg = .ok e.action := by
  rw [entries_calls, mem_entriesFrom_iff]
  constructor
  · rintro ⟨i, st, hst, hs, d, hd, ha⟩
    exact ⟨d, action?_eq_some_iff.mpr ⟨i, by omega, st, hst, hd⟩, ha⟩
  · rintro ⟨d, hd, ha⟩
    obtain ⟨n, hs, st, hst, hd⟩ := action?_eq_some_iff.mp hd
    exact ⟨n, st, hst, by omega, d, hd, ha⟩

/-- The first call that binds a rule is the first pair with its name. -/
theorem findSome?_rules (l : List (Text × Int)) (name : Text) :
    (l.map fun r => (.rule r.1 r.2 : BuildStep α)).findSome? (bound? name) = Dict.find name l := by
  induction l with
  | nil => rfl
  | cons r l ih =>
    rw [List.map_cons, List.findSome?_cons, ih, Dict.find_cons, bound?]
    by_cases hname : r.1 = name
    · rw [if_pos hname, if_pos hname]
    · rw [if_neg hname, if_neg hname]

/-- The state that a rule is bound to last is the described one.  Names do not recur, so that the
    first pair is also the last. -/
theorem lastBound?_calls (name : Text) :
    lastBound? (calls reg spec) name = spec.rules.get? name := by
  have hstates :
      lastBound? (List.replicate spec.states.length (.state : BuildStep α)) name = none :=
    lastBound?_eq_none (List.forall_mem_replicate.mpr (Or.inr rfl))
  have hown : lastBound? ((entriesFrom reg 0 spec.states).map call) name = none :=
    lastBound?_eq_none (List.forall_mem_map.mpr fun _ _ => rfl)
  have hrules : lastBound? (spec.rules.entries.map fun r => (.rule r.1 r.2 : BuildStep α)) name =
      spec.rules.get? name := by
    unfold lastBound?
    rw [← List.map_reverse, findSome?_rules, Dict.find_reverse name spec.rules.ordered]
    rfl
  have hstart : lastBound? (spec.startState?.toList.map (.start : Int → BuildStep α)) name = none :=
    lastBound?_eq_none (List.forall_mem_map.mpr fun _ _ => rfl)
  unfold calls
  rw [lastBound?_append, lastBound?_append, lastBound?_append, hstates, hown, hrules, hstart,
    Option.none_or, Option.or_none, Option.or_none]

/-- The start state that is set last is that of the start rule. -/
theorem lastChosen?_calls : lastChosen? (calls reg spec) = spec.startState? := by
  have hstates : lastChosen? (List.replicate spec.states.length (.state : BuildStep α)) = none :=
    lastChosen?_eq_none (List.forall_mem_replicate.mpr (Or.inr rfl))
  have hown : lastChosen? ((entriesFrom reg 0 spec.states).map call) = none :=
    lastChosen?_eq_none (List.forall_mem_map.mpr fun _ _ => rfl)
  have hrules :
      lastChosen? (spec.rules.entries.map fun r => (.rule r.1 r.2 : BuildStep α)) = none :=
    lastChosen?_eq_none (List.forall_mem_map.mpr fun _ _ => rfl)
  have hstart : lastChosen? (spec.startState?.toList.map (.start : Int → BuildStep α)) =
      spec.startState? := by
    cases spec.startState? <;> rfl
  unfold calls
  rw [lastChosen?_append, lastChosen?_append, lastChosen?_append, hstates, hown, hrules, hstart,
    Option.or_none, Option.or_none, Option.or_none]

/-- Each allocation adds one state. -/
theorem foldl_grow_replicate (m n : Nat) :
    (List.replicate n (.state : BuildStep α)).foldl grow m = m + n := by
  induction n generalizing m with
  | zero => rfl
  | succ n ih =>
    rw [List.replicate_succ, List.foldl_cons, ih]
    exact Nat.succ_add_eq_add_succ m n

/-- Every action is described for a state that was allocated. -/
theorem count_calls : count (calls reg spec) = spec.states.length := by
  have hown : ∀ st ∈ (entriesFrom reg 0 spec.states).map call,
      grow spec.states.length st = spec.states.length := by
    refine List.forall_mem_map.mpr fun e he => ?_
    obtain ⟨i, st, hst, hs, -⟩ := mem_entriesFrom_iff.mp he
    have hi : i < spec.states.length := (List.getElem?_eq_some_iff.mp hst).1
    show max spec.states.length (e.state + 1).toNat = _
    omega
  unfold count calls
  rw [List.foldl_append, List.foldl_append, List.foldl_append, foldl_grow_replicate, Nat.zero_add,
    foldl_grow_eq hown, foldl_grow_eq (List.forall_mem_map.mpr fun _ _ => rfl),
    foldl_grow_eq (List.forall_mem_map.mpr fun _ _ => rfl)]

/-! ## What building does

  Building allocates all states first, so that it begins with a table of the right size.  Then it
  may stop early, and `build_cases` says in which ways. -/

/-- Allocating one state for each described one is that many calls. -/
theorem foldl_allocate (states : List (Dict ActionSpec)) (b : Builder α) :
    states.foldl (fun b _ => b.state.2) b =
      (List.replicate states.length .state).foldl BuildStep.apply b := by
  induction states generalizing b with
  | nil => rfl
  | cons st states ih =>
    rw [List.foldl_cons, ih, List.length_cons, List.replicate_succ, List.foldl_cons]
    rfl

/-- The builder after the calls, as it is built. -/
theorem after_calls : after (calls reg spec) =
    (spec.startState?.toList.map .start).foldl BuildStep.apply
      ((((entriesFrom reg 0 spec.states).map call).foldl BuildStep.apply
        (spec.states.foldl (fun b _ => b.state.2) {})).ruleAll spec.rules) := by
  have hrules : ∀ b : Builder α,
      (spec.rules.entries.map fun r => .rule r.1 r.2).foldl BuildStep.apply b =
        spec.rules.entries.foldl (fun b e => b.rule e.1 e.2) b := fun b => List.foldl_map
  unfold after calls
  rw [List.foldl_append, List.foldl_append, List.foldl_append, hrules, ruleAll_eq_foldl,
    foldl_allocate]

/-- All described actions can be made. -/
def Actionable (reg : Registry α) (spec : TableSpec) : Prop :=
  ∀ s key d, spec.action? s key = some d → ∃ a, d.action reg = .ok a

/-- **What building does.**  It stops at an action that makes no sense, or at a start rule that does
    not exist; or else it asks a builder for the table. -/
theorem build_cases (reg : Registry α) (spec : TableSpec) :
    (¬ spec.Actionable reg ∧ ∃ s key problem, spec.build reg = .error (.action s key problem)) ∨
    (spec.start ≠ [] ∧ spec.rules.get? spec.start = none ∧
      spec.build reg = .error (.unknownStart spec.start)) ∨
    (spec.Actionable reg ∧ (spec.start ≠ [] → ∃ s, spec.rules.get? spec.start = some s) ∧
      spec.build reg = (after (calls reg spec)).table.1.mapError .table) := by
  have hbuilder : after (calls reg spec) = _ := after_calls
  unfold build
  dsimp only
  rcases enterStates_cases 0 spec.states (spec.states.foldl (fun b _ => b.state.2) {}) with
    ⟨st, hst, p, hp, problem, hproblem, n, herr⟩ | ⟨hall, hok⟩
  · rw [herr]
    refine Or.inl ⟨fun hactions => ?_, n, p.1, problem, rfl⟩
    -- the action that stopped the walk is one that is described
    obtain ⟨i, hi⟩ := List.mem_iff_getElem?.mp hst
    obtain ⟨a, ha⟩ := hactions i p.1 p.2
      (action?_eq_some_iff.mpr ⟨i, rfl, st, hi, Dict.get?_eq_some_iff.mpr hp⟩)
    cases hproblem.symm.trans ha
  · have hactions : spec.Actionable reg := by
      intro s key d hd
      obtain ⟨n, -, st, hst, hd⟩ := action?_eq_some_iff.mp hd
      exact hall st (List.mem_of_getElem? hst) (key, d) (Dict.get?_eq_some_iff.mp hd)
    rw [hok]
    dsimp only
    unfold startState? at hbuilder
    by_cases hstart : spec.start = []
    · rw [if_pos hstart] at hbuilder ⊢
      refine Or.inr (Or.inr ⟨hactions, fun hne => absurd hstart hne, ?_⟩)
      rw [Option.toList_none, List.map_nil, List.foldl_nil] at hbuilder
      rw [← hbuilder]
      cases (after (calls reg spec)).table.1 <;> rfl
    · rw [if_neg hstart] at hbuilder ⊢
      rcases hrule : spec.rules.get? spec.start with _ | s
      · exact Or.inr (Or.inl ⟨hstart, rfl, rfl⟩)
      · rw [hrule] at hbuilder
        refine Or.inr (Or.inr ⟨hactions, fun _ => ⟨s, rfl⟩, ?_⟩)
        rw [Option.toList_some, List.map_cons, List.map_nil, List.foldl_cons, List.foldl_nil,
          BuildStep.apply] at hbuilder
        dsimp only
        rw [← hbuilder]
        cases (after (calls reg spec)).table.1 <;> rfl

/-! ## The described table

  The entries of a description never compete, as the keys of a state are those of a map.  So nothing
  is refused, and the table looks up what was described. -/

/-- No action is entered for a negative state. -/
theorem nonneg_entries_calls {e : Entry α} (he : e ∈ entries (calls reg spec)) : 0 ≤ e.state := by
  obtain ⟨d, hd, -⟩ := mem_entries_calls_iff.mp he
  obtain ⟨n, hs, -⟩ := action?_eq_some_iff.mp hd
  omega

/-- No two entries of the calls are for the same state and key. -/
theorem once_entries_calls : (entries (calls reg spec)).Pairwise fun e f => ¬ e.Rivals f := by
  rw [entries_calls]
  exact pairwise_entriesFrom 0 spec.states

/-- No described action is refused. -/
theorem refusalFrom_calls : refusalFrom [] (entries (calls reg spec)) = none :=
  refusalFrom_nil_eq_none_iff.mpr ⟨fun _ he => nonneg_entries_calls he, once_entries_calls⟩

/-- The first action for a state and a key is the one that is described. -/
theorem first?_calls_eq_some_iff {s : Int} {key : Text} {a : Action α} :
    first? (entries (calls reg spec)) s key = some a ↔
      ∃ d, spec.action? s key = some d ∧ d.action reg = .ok a := by
  have hmem : ⟨s, key, a⟩ ∈ entries (calls reg spec) ↔ _ := mem_entries_calls_iff
  constructor
  · intro h
    have hs := nonneg_of_first? h
    exact hmem.mp ((first?_eq_some_iff once_entries_calls hs).mp h)
  · intro h
    have he := hmem.mpr h
    exact (first?_eq_some_iff once_entries_calls (nonneg_entries_calls he)).mpr he

/-- Nothing is entered where nothing is described. -/
theorem first?_calls_eq_none {s : Int} {key : Text} (h : spec.action? s key = none) :
    first? (entries (calls reg spec)) s key = none := by
  refine Option.eq_none_iff_forall_ne_some.mpr fun a ha => ?_
  obtain ⟨d, hd, -⟩ := first?_calls_eq_some_iff.mp ha
  exact nomatch h.symm.trans hd

/-- In a description that makes sense, each action can be made. -/
theorem Sound.actionable (h : spec.Sound reg) : spec.Actionable reg := by
  intro s key d hd
  obtain ⟨a, ha, -⟩ := ActionSpec.sound_iff.mp (h.action s key d hd)
  exact ⟨a, ha⟩

/-- The calls are sound if and only if the description makes sense. -/
theorem sound_calls_iff (hactions : spec.Actionable reg)
    (hstart : spec.start ≠ [] → ∃ s, spec.rules.get? spec.start = some s) :
    Builder.Sound (calls reg spec) ↔ spec.Sound reg := by
  constructor
  · intro h
    have hin : ∀ r s, Refers (calls reg spec) r s → InRange spec.states.length s := by
      intro r s href
      have hrange := h.closed r s href
      -- conversely, each kind of reference is one of the description
      rw [count_calls] at hrange
      exact hrange
    refine ⟨fun s key d hd => ?_, fun name s hs => ?_, hstart⟩
    · obtain ⟨a, ha⟩ := hactions s key d hd
      have he : ⟨s, key, a⟩ ∈ entries (calls reg spec) := mem_entries_calls_iff.mpr ⟨d, hd, ha⟩
      exact ActionSpec.sound_iff.mpr ⟨a, ha, fun s' hs' => hin _ s' (.entry he hs')⟩
    · exact hin _ s (.rule ((lastBound?_calls name).trans hs))
  · intro h
    refine ⟨fun e he => nonneg_entries_calls he, once_entries_calls, fun r s href => ?_⟩
    rw [count_calls]
    cases href with
    | entry he hs =>
      obtain ⟨d, hd, ha⟩ := mem_entries_calls_iff.mp he
      obtain ⟨a, ha', hin⟩ := ActionSpec.sound_iff.mp (h.action _ _ d hd)
      obtain rfl := Except.ok.inj (ha.symm.trans ha')
      exact hin s hs
    | rule hs => exact h.rule _ s ((lastBound?_calls _).symm.trans hs)
    | start hs hpos =>
      rw [lastChosen?_calls, startState?] at hs
      split at hs
      · exact nomatch hs
      · exact h.rule _ s hs

/-- The draft after the calls is the described table. -/
theorem realizes_calls (hsound : spec.Sound reg) :
    spec.Realizes reg (after (calls reg spec)).draft := by
  have h := tells_after (calls reg spec)
  have hfirst : ∀ {s key d}, spec.action? s key = some d →
      ∃ a, d.Denotes reg a ∧ first? (entries (calls reg spec)) s key = some a := by
    intro s key d hd
    obtain ⟨a, ha⟩ := hsound.actionable s key d hd
    exact ⟨a, (ActionSpec.action_eq_ok_iff.mp ha).1, first?_calls_eq_some_iff.mpr ⟨d, hd, ha⟩⟩
  refine ⟨h.states.trans count_calls, fun name => (h.rules name).trans (lastBound?_calls name), ?_,
    fun s key d hkey hd => ?_, fun s key d hkey hnone hd => ?_, fun s key hkey hnone hnone' => ?_⟩
  · refine Option.ext fun s => ?_
    -- a start state is dropped only if it is negative, and that of a rule is not
    rw [h.start?_eq_some_iff, lastChosen?_calls]
    refine and_iff_left_of_imp fun hs => ?_
    unfold startState? at hs
    split at hs
    · exact nomatch hs
    · exact (hsound.rule _ s hs).1
  · obtain ⟨a, hdenotes, ha⟩ := hfirst hd
    refine ⟨a, hdenotes, ?_⟩
    rw [h.lookup_eq, found, if_neg hkey, ha]
    rfl
  · obtain ⟨a, hdenotes, ha⟩ := hfirst hd
    refine ⟨a, hdenotes, ?_⟩
    rw [h.lookup_eq, found, if_neg hkey, first?_calls_eq_none hnone, ha]
    rfl
  · rw [h.lookup_eq, found, if_neg hkey, first?_calls_eq_none hnone, first?_calls_eq_none hnone']
    rfl

end Calls

/-- **A table is built if and only if the description makes sense**, and it is the described table.
    That two entries are in conflict is never the reason why there is none. -/
theorem build_realizes (reg : Registry α) (spec : TableSpec) :
    ((∃ t, spec.build reg = .ok t) ↔ spec.Sound reg) ∧
    (∀ s key old new, spec.build reg ≠ .error (.table (.conflict s key old new))) ∧
    ∀ t, spec.build reg = .ok t → spec.Realizes reg t := by
  have hnotable : ∀ e : SpecError α, ¬ ∃ t : Table α, Except.error e = .ok t := by
    rintro e ⟨t, ht⟩
    cases ht
  rcases build_cases reg spec with ⟨hbad, s, key, problem, herr⟩ | ⟨hne, hnone, herr⟩ |
    ⟨hactions, hstart, hbuild⟩
  · -- an action makes no sense
    rw [herr]
    refine ⟨iff_of_false (hnotable _) fun hsound => hbad hsound.actionable, ?_, ?_⟩
    · intro s' key' old new heq
      cases heq
    · intro t ht
      cases ht
  · -- the start rule does not exist
    rw [herr]
    refine ⟨iff_of_false (hnotable _) fun hsound => ?_, ?_, ?_⟩
    · obtain ⟨s, hs⟩ := hsound.start hne
      cases hnone.symm.trans hs
    · intro s' key' old new heq
      cases heq
    · intro t ht
      cases ht
  · -- the builder decides
    have hiff := sound_calls_iff hactions hstart
    rcases (tells_after (calls reg spec)).table with ⟨hsound, -, hok⟩ | ⟨-, e, he, -⟩ |
      ⟨hunsound, -, r, s, -, -, herr⟩
    · rw [hbuild, hok]
      refine ⟨iff_of_true ⟨_, rfl⟩ (hiff.mp hsound), ?_, fun t ht => ?_⟩
      · intro s' key' old new heq
        cases heq
      · obtain rfl := Except.ok.inj ht
        exact realizes_calls (hiff.mp hsound)
    · rw [refusalFrom_calls] at he
      cases he
    · rw [hbuild, herr]
      refine ⟨iff_of_false (hnotable _) fun hsound => hunsound (hiff.mpr hsound), ?_, ?_⟩
      · intro s' key' old new heq
        cases heq
      · intro t ht
        cases ht

/-- Lists of numbers: a number is read by a rule of its own. -/
def numbers : TableSpec where
  start := lit "L"
  rules := Dict.ofList [(lit "L", 0)]
  states := [
    Dict.ofList [(lit "NUM", { call := some 1, shift := some 0 }),
      (wildcard, { accept := lit "list" })],
    Dict.ofList [(lit "NUM", { accept := lit "first" })]]

/-- The table of lists starts at state 0, calls the rule for a number, and ends the list
    otherwise. -/
theorem build_realizes_numbers :
    ∃ t, numbers.build Reduction.ofName? = .ok t ∧ t.start? = some 0 ∧
      t.lookup 0 (lit "NUM") = some ⟨⟨some 1, .state 0⟩, true⟩ ∧
      (∃ a, t.lookup 0 (lit "+") = some ⟨a, false⟩) ∧ t.lookup 1 (lit "+") = none := by
  obtain ⟨-, -, hrealizes⟩ := build_realizes Reduction.ofName? numbers
  have hsome : (numbers.build Reduction.ofName?).toOption.isSome = true := by cbv
  rcases hbuild : numbers.build Reduction.ofName? with e | t
  · rw [hbuild] at hsome
    cases hsome
  · have h := hrealizes t hbuild
    have hown : numbers.action? 0 (lit "NUM") = some { call := some 1, shift := some 0 } := by cbv
    have hother : numbers.action? 0 wildcard = some { accept := lit "list" } := by cbv
    have hnone : numbers.action? 0 (lit "+") = none := by cbv
    have hnone₁ : numbers.action? 1 (lit "+") = none := by cbv
    have hother₁ : numbers.action? 1 wildcard = none := by cbv
    have hplus : lit "+" ≠ wildcard := by decide
    refine ⟨t, rfl, h.start, ?_, ?_, h.missing 1 (lit "+") hplus hnone₁ hother₁⟩
    · obtain ⟨a, hdenotes, ha⟩ := h.exact 0 (lit "NUM") _ (by decide) hown
      cases hdenotes
      exact ha
    · obtain ⟨a, -, ha⟩ := h.other 0 (lit "+") _ hplus hnone hother
      exact ⟨a, ha⟩

end TableSpec

end Pushdown
