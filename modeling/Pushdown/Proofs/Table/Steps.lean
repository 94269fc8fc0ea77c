/-
  What a table holds, told from the calls of its builder.

  A builder is called with states to allocate, actions to enter, rules and start states to bind, and
  it hands out its table, in any order (`BuildStep`).  All that it is to hold afterwards can be told
  from the list of these calls alone, each part by a function of its own:

  * `Entry.first?` is the first action that was meant for a state and a key;
  * `Entry.refusalFrom` is the first reason for which an entry had to be refused;
  * `lastBound?` and `lastChosen?` are the states that a rule and the start were bound to last;
  * `count` is the number of states.

  `Tells steps b` says that the builder `b` is just that after the calls `steps`.  One call keeps
  this (`Tells.apply`), and so do all (`tells_after`).  There are two kinds of calls in the proof:
  those that want to enter an action (`Tells.on`), which come down to the three cases of
  `Builder.on_cases`, and those that enter nothing (`Tells.quiet`).

  A look-up then finds the first action that was entered for the key, or else the first one for the
  wildcard (`lookup_eq_first`): the columns, the matrix and the list of actions do not show.  That a
  table may be handed out in between, and that the builder is used again afterwards, makes no
  difference to what it holds; what it means for the table that was handed out is another matter,
  and not one of this module.

  Columns and indices are natural numbers without a bound here.
-/
import Pushdown.Proofs.Table.Interning

namespace Pushdown

open Text (lit)

/-- A call of a table builder. -/
inductive BuildStep (α : Type) where
  | state
  | on (s : Int) (key : Text) (a : Action α)
  | otherwise (s : Int) (a : Action α)
  | rule (name : Text) (s : Int)
  | start (s : Int)
  | table

/-- An action that is meant for a state and a key. -/
structure Entry (α : Type) where
  state : Int
  key : Text
  action : Action α

variable {α : Type}

namespace BuildStep

/-- The builder after a call. -/
def apply (b : Builder α) : BuildStep α → Builder α
  | .state => b.state.2
  | .on s key a => b.on s key a
  | .otherwise s a => b.otherwise s a
  | .rule name s => b.rule name s
  | .start s => b.start s
  | .table => b.table.2

/-- The state that a call allocates. -/
def allocated? (b : Builder α) : BuildStep α → Option Nat
  | .state => some b.state.1
  | _ => none

/-- What a call wants to enter. -/
def wanted? : BuildStep α → Option (Entry α)
  | .on s key a => some ⟨s, key, a⟩
  | .otherwise s a => some ⟨s, wildcard, a⟩
  | _ => none

/-- The state to which a call binds a rule. -/
def bound? (name : Text) : BuildStep α → Option Int
  | .rule n s => if n = name then some s else none
  | _ => none

/-- The default start state that a call sets. -/
def chosen? : BuildStep α → Option Int
  | .start s => some s
  | _ => none

/-- All that some calls want to enter, in their order. -/
def entries (steps : List (BuildStep α)) : List (Entry α) := steps.filterMap wanted?

/-- The state that a rule is bound to last. -/
def lastBound? (steps : List (BuildStep α)) (name : Text) : Option Int :=
  steps.reverse.findSome? (bound? name)

/-- The default start state that is set last. -/
def lastChosen? (steps : List (BuildStep α)) : Option Int := steps.reverse.findSome? chosen?

/-- The number of states after a call, if there were `n`.  Entering an action makes its state exist,
    and all states below. -/
def grow (n : Nat) : BuildStep α → Nat
  | .state => n + 1
  | .on s _ _ => max n (s + 1).toNat
  | .otherwise s _ => max n (s + 1).toNat
  | _ => n

/-- The number of states after some calls. -/
def count (steps : List (BuildStep α)) : Nat := steps.foldl grow 0

/-- What is to be entered, for calls in two parts. -/
theorem entries_append (steps more : List (BuildStep α)) :
    entries (steps ++ more) = entries steps ++ entries more := List.filterMap_append

/-- The later part comes first when the last binding is looked for. -/
theorem lastBound?_append (steps more : List (BuildStep α)) (name : Text) :
    lastBound? (steps ++ more) name = (lastBound? more name).or (lastBound? steps name) := by
  unfold lastBound?
  rw [List.reverse_append, List.findSome?_append]

/-- The same for the start state. -/
theorem lastChosen?_append (steps more : List (BuildStep α)) :
    lastChosen? (steps ++ more) = (lastChosen? more).or (lastChosen? steps) := by
  unfold lastChosen?
  rw [List.reverse_append, List.findSome?_append]

/-- Calls that want to enter nothing. -/
theorem entries_eq_nil {steps : List (BuildStep α)} (h : ∀ st ∈ steps, st.wanted? = none) :
    entries steps = [] := List.filterMap_eq_nil_iff.mpr h

/-- Calls that do not bind the rule. -/
theorem lastBound?_eq_none {steps : List (BuildStep α)} {name : Text}
    (h : ∀ st ∈ steps, st.bound? name = none) : lastBound? steps name = none :=
  List.findSome?_eq_none_iff.mpr fun st hst => h st (List.mem_reverse.mp hst)

/-- Calls that do not set the start state. -/
theorem lastChosen?_eq_none {steps : List (BuildStep α)} (h : ∀ st ∈ steps, st.chosen? = none) :
    lastChosen? steps = none :=
  List.findSome?_eq_none_iff.mpr fun st hst => h st (List.mem_reverse.mp hst)

/-- One call more, and what it wants to enter. -/
theorem entries_snoc (steps : List (BuildStep α)) (st : BuildStep α) :
    entries (steps ++ [st]) = entries steps ++ st.wanted?.toList := by
  rw [entries_append]
  unfold entries
  cases h : st.wanted? <;> simp [h]

/-- One call more binds the rule, or leaves it. -/
theorem lastBound?_snoc (steps : List (BuildStep α)) (st : BuildStep α) (name : Text) :
    lastBound? (steps ++ [st]) name = (st.bound? name).or (lastBound? steps name) := by
  rw [lastBound?_append]
  simp [lastBound?]

/-- One call more sets the start state, or leaves it. -/
theorem lastChosen?_snoc (steps : List (BuildStep α)) (st : BuildStep α) :
    lastChosen? (steps ++ [st]) = st.chosen?.or (lastChosen? steps) := by
  rw [lastChosen?_append]
  simp [lastChosen?]

/-- One call more makes its states exist. -/
theorem count_snoc (steps : List (BuildStep α)) (st : BuildStep α) :
    count (steps ++ [st]) = grow (count steps) st := List.foldl_concat ..

/-- A call that wants to enter an action makes the state of the entry exist.  A negative one changes
    nothing. -/
theorem grow_of_wanted? {st : BuildStep α} {e : Entry α} (he : st.wanted? = some e) (n : Nat) :
    grow n st = max n (e.state + 1).toNat := by
  cases st with
  | on s key a =>
    obtain rfl := Option.some.inj he
    rfl
  | otherwise s a =>
    obtain rfl := Option.some.inj he
    rfl
  | _ => exact nomatch he

/-- No call takes states away. -/
theorem le_grow (n : Nat) (st : BuildStep α) : n ≤ grow n st := by
  cases st with
  | state => exact Nat.le_succ n
  | on s key a => exact Nat.le_max_left ..
  | otherwise s a => exact Nat.le_max_left ..
  | _ => exact Nat.le_refl n

/-- Nor do several of them. -/
theorem le_foldl_grow (n : Nat) (steps : List (BuildStep α)) : n ≤ steps.foldl grow n := by
  induction steps generalizing n with
  | nil => exact Nat.le_refl n
  | cons st steps ih => exact Nat.le_trans (le_grow n st) (ih (grow n st))

/-- Calls for states that exist leave their number as it is. -/
theorem foldl_grow_eq {n : Nat} {steps : List (BuildStep α)} (h : ∀ st ∈ steps, grow n st = n) :
    steps.foldl grow n = n := by
  induction steps with
  | nil => rfl
  | cons st steps ih =>
    rw [List.foldl_cons, h st List.mem_cons_self]
    exact ih fun st' hst' => h st' (List.mem_cons_of_mem _ hst')

end BuildStep

namespace Entry

/-- The first action that is meant for a state and a key.  Negative states have none. -/
def first? (es : List (Entry α)) (s : Int) (key : Text) : Option (Action α) :=
  (es.find? fun e => 0 ≤ s ∧ e.state = s ∧ e.key = key).map action

/-- What a look-up is to find: the first action of the key, or else the first of the wildcard. -/
def found (es : List (Entry α)) (s : Int) (key : Text) : Option (Match α) :=
  Table.prefer (if key = wildcard then none else first? es s key) (first? es s wildcard)

/-- Why an entry is refused after some others. -/
def refusal? (before : List (Entry α)) (e : Entry α) : Option (BuildError α) :=
  if e.state < 0 then some (.negativeState e.state)
  else (first? before e.state e.key).map fun old => .conflict e.state e.key old e.action

/-- The first refusal among some entries that come after others. -/
def refusalFrom (before : List (Entry α)) : List (Entry α) → Option (BuildError α)
  | [] => none
  | e :: es => (e.refusal? before).or (refusalFrom (before ++ [e]) es)

/-- The first of more entries. -/
theorem first?_append (es fs : List (Entry α)) (s : Int) (key : Text) :
    first? (es ++ fs) s key = (first? es s key).or (first? fs s key) := by
  unfold first?
  rw [List.find?_append]
  cases es.find? fun e => 0 ≤ s ∧ e.state = s ∧ e.key = key <;> rfl

/-- The first of one entry, if it is meant for the state and the key. -/
theorem first?_singleton (e : Entry α) (s : Int) (key : Text) :
    first? [e] s key = if 0 ≤ s ∧ e.state = s ∧ e.key = key then some e.action else none := by
  unfold first?
  rw [List.find?_singleton]
  by_cases h : 0 ≤ s ∧ e.state = s ∧ e.key = key
  · rw [if_pos h, if_pos (decide_eq_true h)]
    rfl
  · rw [if_neg h, if_neg (by simpa using h)]
    rfl

/-- Only a state that is not negative has an action. -/
theorem nonneg_of_first? {es : List (Entry α)} {s : Int} {key : Text} {a : Action α}
    (h : first? es s key = some a) : 0 ≤ s := by
  obtain ⟨e, he, -⟩ := Option.map_eq_some_iff.mp h
  have hat := List.find?_some he
  exact (of_decide_eq_true hat).1

/-- A state that is not negative has an action for every key that was meant for it, though not
    necessarily this one. -/
theorem exists_first?_of_mem {es : List (Entry α)} {e : Entry α} (he : e ∈ es)
    (hpos : 0 ≤ e.state) : ∃ a, first? es e.state e.key = some a := by
  have hsome : (es.find? fun f => 0 ≤ e.state ∧ f.state = e.state ∧ f.key = e.key).isSome := by
    rw [List.find?_isSome]
    exact ⟨e, he, decide_eq_true ⟨hpos, rfl, rfl⟩⟩
  obtain ⟨f, hf⟩ := Option.isSome_iff_exists.mp hsome
  exact ⟨f.action, by rw [first?, hf]; rfl⟩

/-- The first refusal of more entries: those of the second part come after all of the first. -/
theorem refusalFrom_append (before es fs : List (Entry α)) :
    refusalFrom before (es ++ fs) = (refusalFrom before es).or (refusalFrom (before ++ es) fs) := by
  induction es generalizing before with
  | nil => rw [List.nil_append, List.append_nil, refusalFrom, Option.none_or]
  | cons e es ih =>
    rw [List.cons_append, refusalFrom, refusalFrom, ih, List.append_assoc, Option.or_assoc]
    rfl

end Entry

namespace Builder

open BuildStep Entry

/-- The builder after some calls. -/
def after (steps : List (BuildStep α)) : Builder α := steps.foldl BuildStep.apply {}

/-- The states that some calls allocate, in their order. -/
def allocatedFrom (b : Builder α) : List (BuildStep α) → List Nat
  | [] => []
  | st :: more => (st.allocated? b).toList ++ allocatedFrom (st.apply b) more

/-- What a builder is after some calls, told from the calls. -/
structure Tells (steps : List (BuildStep α)) (b : Builder α) : Prop where
  coherent : b.draft.Coherent
  entered? : ∀ s key, b.draft.entered? s key = first? (entries steps) s key
  error : b.error = refusalFrom [] (entries steps)
  rules : ∀ name, b.draft.rules.get? name = lastBound? steps name
  start : b.draft.start = (lastChosen? steps).getD (-1)
  states : b.draft.states = count steps

/-- Only the first refusal is kept. -/
theorem refuse_error (b : Builder α) (e : BuildError α) :
    (b.refuse e).error = b.error.or (some e) := by
  unfold refuse
  cases b.error <;> rfl

/-- Handing the table out leaves it as it is. -/
theorem table_draft (b : Builder α) : b.table.2.draft = b.draft := by
  unfold table
  split <;> rfl

/-- Nor does it change what was refused. -/
theorem table_error (b : Builder α) : b.table.2.error = b.error := by
  unfold table
  split <;> rfl

/-- What is handed out is the draft itself. -/
theorem table_of_ok {b : Builder α} {t : Table α} (h : b.table.1 = .ok t) :
    t = b.draft ∧ b.table.2 = { b with issued := true } := by
  unfold table at h ⊢
  split at h
  · exact nomatch h
  · exact ⟨(Except.ok.inj h).symm, rfl⟩

/-- **All that a call can do.**  It is refused, or it enters an action; or else it changes nothing
    but the number of states, the rules, the start state, and whether the draft was handed out. -/
theorem apply_cases (b : Builder α) (h : b.draft.Coherent) (st : BuildStep α) :
    (∃ e, st.apply b = b.refuse e) ∨
    (∃ s key a t, b.draft.Enters s key a t ∧ st.apply b = { b with draft := t }) ∨
    ∃ states rules start issued, (b.issued = true → issued = true) ∧
      st.apply b = { b with draft := { b.draft with states, rules, start }, issued } := by
  -- both calls that enter an action come down to this
  have hon : ∀ s key a, (∃ e, b.on s key a = b.refuse e) ∨
      ∃ t, b.draft.Enters s key a t ∧ b.on s key a = { b with draft := t } := by
    intro s key a
    rcases b.on_cases h s key a with ⟨-, hon⟩ | ⟨old, -, hon⟩ | ⟨-, -, ht⟩
    · exact Or.inl ⟨_, hon⟩
    · exact Or.inl ⟨_, hon⟩
    · exact Or.inr ht
  cases st with
  | on s key a => exact (hon s key a).imp_right fun ht => Or.inl ⟨s, key, a, ht⟩
  | otherwise s a => exact (hon s wildcard a).imp_right fun ht => Or.inl ⟨s, wildcard, a, ht⟩
  | table =>
    refine Or.inr (Or.inr ⟨b.draft.states, b.draft.rules, b.draft.start, b.table.2.issued, ?_, ?_⟩)
    · unfold table
      split
      · exact id
      · exact fun _ => rfl
    · show b.table.2 = { b with issued := b.table.2.issued }
      unfold table
      split <;> rfl
  | _ => exact Or.inr (Or.inr ⟨_, _, _, b.issued, id, rfl⟩)

/-- A new builder is what no calls tell. -/
theorem tells_new : Tells [] ({} : Builder α) :=
  ⟨Table.coherent_empty, Table.entered?_empty, rfl, fun _ => rfl, rfl, rfl⟩

section Step

variable {steps : List (BuildStep α)} {b : Builder α}

/-- A call that wants to enter an action: it is refused, or the table has it. -/
theorem Tells.on (h : Tells steps b) {st : BuildStep α} {e : Entry α} (he : st.wanted? = some e)
    (hbound : ∀ name, st.bound? name = none) (hchosen : st.chosen? = none) :
    Tells (steps ++ [st]) (b.on e.state e.key e.action) := by
  have hentries : entries (steps ++ [st]) = entries steps ++ [e] := by
    rw [entries_snoc, he]
    rfl
  have herror : refusalFrom [] (entries steps ++ [e]) =
      b.error.or (e.refusal? (entries steps)) := by
    rw [refusalFrom_append, h.error, refusalFrom, refusalFrom, Option.or_none, List.nil_append]
  have hrules : ∀ name, b.draft.rules.get? name = lastBound? (steps ++ [st]) name := fun name => by
    rw [lastBound?_snoc, hbound, h.rules]
    rfl
  have hstart : b.draft.start = (lastChosen? (steps ++ [st])).getD (-1) := by
    rw [lastChosen?_snoc, hchosen, h.start]
    rfl
  have hstates : count (steps ++ [st]) = max b.draft.states (e.state + 1).toNat := by
    rw [count_snoc, grow_of_wanted? he, h.states]
  -- the new entry counts only where none was entered before
  have hfirst : ∀ s key, first? (entries (steps ++ [st])) s key =
      (b.draft.entered? s key).or
        (if 0 ≤ s ∧ e.state = s ∧ e.key = key then some e.action else none) := fun s key => by
    rw [hentries, first?_append, first?_singleton, h.entered?]
  rcases b.on_cases h.coherent e.state e.key e.action with
    ⟨hneg, hon⟩ | ⟨old, hold, hon⟩ | ⟨hpos, hnone, t, ht, hon⟩
  · -- a negative state
    rw [hon]
    refine ⟨h.coherent, fun s key => ?_, ?_, hrules, hstart, ?_⟩
    · rw [hfirst, if_neg (by omega), Option.or_none]
      rfl
    · rw [hentries, herror, Entry.refusal?, if_pos hneg]
      exact refuse_error ..
    · rw [hstates]
      show b.draft.states = _
      omega
  · -- a second action for the same state and key
    rw [hon]
    obtain ⟨hpos, hlt⟩ := h.coherent.lt_states hold
    refine ⟨h.coherent, fun s key => ?_, ?_, hrules, hstart, ?_⟩
    · rw [hfirst]
      split
      · rename_i hat
        obtain ⟨-, rfl, rfl⟩ := hat
        show b.draft.entered? e.state e.key = _
        rw [hold]
        rfl
      · rw [Option.or_none]
        rfl
    · rw [hentries, herror, Entry.refusal?, if_neg (by omega), ← h.entered?, hold]
      exact refuse_error ..
    · rw [hstates]
      show b.draft.states = _
      omega
  · -- the first action for a state and a key
    rw [hon]
    refine ⟨ht.coherent, fun s key => ?_, ?_, ?_, ?_, ?_⟩
    · rw [hfirst]
      show t.entered? s key = _
      rw [ht.entered?]
      by_cases hat : s = e.state ∧ key = e.key
      · obtain ⟨rfl, rfl⟩ := hat
        rw [if_pos ⟨rfl, rfl⟩, if_pos ⟨hpos, rfl, rfl⟩, hnone]
        rfl
      · rw [if_neg hat, if_neg fun ⟨_, hs, hk⟩ => hat ⟨hs.symm, hk.symm⟩, Option.or_none]
    · rw [hentries, herror, Entry.refusal?, if_neg (by omega), ← h.entered?, hnone]
      exact (Option.or_none ..).symm
    · intro name
      show t.rules.get? name = _
      rw [ht.rules, hrules]
    · show t.start = _
      rw [ht.start, hstart]
    · show t.states = _
      rw [ht.states, hstates]
      omega

/-- A call that enters nothing. -/
theorem Tells.quiet (h : Tells steps b) {st : BuildStep α} (he : st.wanted? = none) {b' : Builder α}
    (hcoherent : b'.draft.Coherent)
    (hentered : ∀ s key, b'.draft.entered? s key = b.draft.entered? s key)
    (herror : b'.error = b.error)
    (hrules : ∀ name, b'.draft.rules.get? name = (st.bound? name).or (b.draft.rules.get? name))
    (hstart : b'.draft.start = st.chosen?.getD b.draft.start)
    (hstates : b'.draft.states = grow b.draft.states st) : Tells (steps ++ [st]) b' := by
  have hentries : entries (steps ++ [st]) = entries steps := by
    rw [entries_snoc, he]
    exact List.append_nil _
  refine ⟨hcoherent, fun s key => ?_, ?_, fun name => ?_, ?_, ?_⟩
  · rw [hentered, hentries, h.entered?]
  · rw [herror, hentries, h.error]
  · rw [hrules, lastBound?_snoc, h.rules]
  · rw [hstart, lastChosen?_snoc, h.start]
    cases st.chosen? <;> rfl
  · rw [hstates, count_snoc, h.states]

/-- **One call** keeps what the calls tell. -/
theorem Tells.apply (h : Tells steps b) (st : BuildStep α) :
    Tells (steps ++ [st]) (st.apply b) := by
  -- two of the calls enter something, and the others leave all entries as they are
  cases st with
  | state =>
    have hw := Table.widens_states h.coherent (Nat.le_succ b.draft.states)
    have hcoherent := hw.coherent h.coherent
    exact h.quiet rfl hcoherent (hw.entered?_eq h.coherent) rfl (fun _ => rfl) rfl rfl
  | on s key a =>
    have he : (BuildStep.on s key a).wanted? = some ⟨s, key, a⟩ := rfl
    exact h.on he (fun _ => rfl) rfl
  | otherwise s a =>
    have he : (BuildStep.otherwise s a).wanted? = some ⟨s, wildcard, a⟩ := rfl
    exact h.on he (fun _ => rfl) rfl
  | rule name s =>
    refine h.quiet rfl (h.coherent.withRules _ _) (fun _ _ => rfl) rfl (fun n => ?_) rfl rfl
    show (b.draft.rules.insert name s).get? n = _
    rw [Dict.get?_insert, bound?]
    split <;> rfl
  | start s =>
    have hcoherent := h.coherent.withRules b.draft.rules s
    exact h.quiet rfl hcoherent (fun _ _ => rfl) rfl (fun _ => rfl) rfl rfl
  | table =>
    have hdraft : (BuildStep.table.apply b).draft = b.draft := table_draft b
    refine h.quiet rfl ?_ (fun s key => ?_) (table_error b) (fun name => ?_) ?_ ?_
    · rw [hdraft]
      exact h.coherent
    · rw [hdraft]
    · rw [hdraft]
      rfl
    · rw [hdraft]
      rfl
    · rw [hdraft]
      rfl

/-- What the calls tell is kept by further calls. -/
theorem Tells.run (h : Tells steps b) (more : List (BuildStep α)) :
    Tells (steps ++ more) (more.foldl BuildStep.apply b) := by
  induction more generalizing steps b with
  | nil =>
    rw [List.append_nil]
    exact h
  | cons st more ih =>
    rw [List.append_cons]
    exact ih (h.apply st)

/-- The states after further calls. -/
theorem Tells.states_le_run (h : Tells steps b) (more : List (BuildStep α)) :
    b.draft.states ≤ (more.foldl BuildStep.apply b).draft.states := by
  rw [h.states, (h.run more).states, count, count, List.foldl_append]
  exact le_foldl_grow _ more

/-- An entry that was not refused for a negative state is at a state of the table. -/
theorem Tells.state_lt (h : Tells steps b) {e : Entry α} (he : e ∈ entries steps) :
    e.state < b.draft.states := by
  by_cases hneg : e.state < 0
  · omega
  · obtain ⟨a, ha⟩ := exists_first?_of_mem he (by omega)
    rw [← h.entered?] at ha
    exact (h.coherent.lt_states ha).2

/-- A state that was allocated is a state of the table. -/
theorem Tells.allocated_lt (h : Tells steps b) {more : List (BuildStep α)} {n : Nat}
    (hn : n ∈ allocatedFrom b more) : n < (more.foldl BuildStep.apply b).draft.states := by
  induction more generalizing steps b with
  | nil => exact nomatch hn
  | cons st more ih =>
    -- the state is allocated by the first of the calls, or by a later one
    rcases List.mem_append.mp hn with hn | hn
    · cases st with
      | state =>
        obtain rfl : n = b.draft.states := List.mem_singleton.mp hn
        exact Nat.lt_of_lt_of_le (Nat.lt_succ_self _) ((h.apply .state).states_le_run more)
      | _ => exact nomatch hn
    · exact ih (h.apply st) hn

/-- A look-up finds what is to be found. -/
theorem Tells.lookup_eq (h : Tells steps b) (s : Int) (key : Text) :
    b.draft.lookup s key = found (entries steps) s key := by
  rw [h.coherent.lookup_eq, found, h.entered?, h.entered?]

/-- A refused entry leaves the table as it is. -/
theorem Tells.draft_on (h : Tells steps b) {s : Int} {key : Text}
    (hrefused : s < 0 ∨ ∃ old, first? (entries steps) s key = some old) (a : Action α) :
    (b.on s key a).draft = b.draft := by
  rcases b.on_cases h.coherent s key a with ⟨-, hon⟩ | ⟨old, -, hon⟩ | ⟨hpos, hnone, -⟩
  · rw [hon]
    rfl
  · rw [hon]
    rfl
  · rcases hrefused with hneg | ⟨old, hold⟩
    · omega
    · rw [← h.entered?, hnone] at hold
      exact nomatch hold

end Step

/-- **What a builder holds is told by its calls.** -/
theorem tells_after (steps : List (BuildStep α)) : Tells steps (after steps) :=
  tells_new.run steps

/-- **A table is the map of the first entries.**  After any calls, in any order, a look-up finds the
    first action that was entered for the key, which is an exact match, or else the first one for
    the wildcard.  An entry for a negative state, or for a state and key that have an action, leaves
    the table as it is.  A state that is allocated was neither allocated nor used before, and it has
    no entries. -/
theorem lookup_eq_first (steps : List (BuildStep α)) :
    (∀ s key, (after steps).draft.lookup s key = found (entries steps) s key) ∧
    (∀ t, (after steps).table.1 = .ok t ∨ (after steps).current = some t →
      t = (after steps).draft) ∧
    (∀ s key, s < 0 ∨ (∃ old, first? (entries steps) s key = some old) →
      ∀ a, ((after steps).on s key a).draft = (after steps).draft) ∧
    (after steps).state.1 ∉ allocatedFrom {} steps ∧
    (∀ e ∈ entries steps, e.state ≠ (after steps).state.1) ∧
    (after steps).state.2.draft.entries (after steps).state.1 = [] := by
  have h := tells_after steps
  refine ⟨h.lookup_eq, fun t ht => ?_, fun s key hrefused a => h.draft_on hrefused a,
    fun hn => ?_, fun e he hs => ?_, ?_⟩
  · rcases ht with ht | ht
    · exact (table_of_ok ht).1
    · unfold current at ht
      split at ht
      · exact (Option.some.inj ht).symm
      · exact nomatch ht
  -- a state that was allocated before is less than the number of states, which is the new one
  · exact Nat.lt_irrefl _ (tells_new.allocated_lt hn)
  · have hlt := h.state_lt he
    rw [hs] at hlt
    exact Int.lt_irrefl _ hlt
  · have hw := Table.widens_states h.coherent (Nat.le_succ (after steps).draft.states)
    show Table.entries { (after steps).draft with states := _ } _ = []
    rw [hw.entries_eq h.coherent]
    exact h.coherent.entries_eq_nil (Int.le_refl _)

/-- A second action for the same state and key, after other entries for both. -/
theorem lookup_eq_first_refused :
    let steps : List (BuildStep Text) :=
      [.on 2 (lit "A") ⟨none, .state 0⟩, .on 2 (lit "B") ⟨some 1, .state 0⟩,
        .otherwise 0 ⟨none, .state 2⟩, .table]
    let second : Action Text := ⟨none, .accept none []⟩
    (∃ old, first? (entries steps) 2 (lit "B") = some old) ∧
      ((after steps).on 2 (lit "B") second).draft = (after steps).draft := by
  intro steps second
  have hold : ∃ old, first? (entries steps) 2 (lit "B") = some old := ⟨⟨some 1, .state 0⟩, rfl⟩
  obtain ⟨-, -, hrefused, -⟩ := lookup_eq_first steps
  exact ⟨hold, hrefused 2 (lit "B") (Or.inr hold) second⟩

end Builder
end Pushdown
