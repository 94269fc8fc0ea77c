/-
  What entering an action does to a table.

  An action goes into a table in three parts: its key gets a column, its state and that column get
  an index, and the index leads to the action.  The parts are shared by all entries: a key has one
  column in all states, the matrix holds the rows of all states, and the actions are one list.  So
  whatever is entered touches what was entered before, and it has to be shown that nothing of it is
  lost or moved.

  `Table.entered?` is what the parts amount to, a partial map from states and keys to actions, and a
  table whose parts fit together is `Coherent`: keys are distinct, rows ascend, and every index
  stands at a state and in a column that exist and leads to an action.  For such a table all that
  can be asked about entries is told from the map:

  * what a look-up finds, which prefers the key itself to the wildcard (`Coherent.lookup_eq`);
  * the entries of a state (`Coherent.mem_entries_iff`).

  A call of `Builder.on` does two things to the draft, and each has its own lemmas.  It may give the
  key a column and make the state exist, which changes no entry (`Widens`).  Then it places an
  action where there was none (`place`), which adds one entry and leaves the others.

  `Builder.on_cases` says all that the call can do: it refuses a negative state, or a state and key
  that have an action already, and then the draft stays as it is; or else the map has one entry more
  (`Enters`).
-/
import Mathlib.Data.List.Basic
import Pushdown.Table.Builder

namespace Pushdown

variable {α : Type}

namespace Table

/-- The action that was entered for this very key, which may be the wildcard. -/
def entered? (t : Table α) (s : Int) (key : Text) : Option (Action α) :=
  (t.column? key).bind (t.actionAt? s)

/-- What a look-up finds: the action of the key itself, or else that of the wildcard. -/
def prefer (own other : Option (Action α)) : Option (Match α) :=
  (own.map (⟨·, true⟩)).or (other.map (⟨·, false⟩))

/-- The parts of a table fit together. -/
structure Coherent (t : Table α) : Prop where
  /-- The first column is that of the wildcard. -/
  first : t.keys[0]? = some wildcard
  /-- No key has two columns. -/
  unique : ∀ {i j : Nat} {key : Text}, t.keys[i]? = some key → t.keys[j]? = some key → i = j
  null : t.dispatch.null = none
  row : ∀ n, (t.dispatch.rowAt n).Pairwise fun e f => e.1 < f.1
  /-- Every index stands at a state and in a column that exist, and leads to an action. -/
  -- the place of a cell is told by the row and the column that it has there
  cell : ∀ n, ∀ e ∈ t.dispatch.rowAt n,
    n < t.states ∧ e.1 < t.keys.size ∧ ∃ i < t.actions.size, e.2 = some i

/-- A new table has empty rows. -/
theorem rowAt_empty (n : Nat) : ({} : Table α).dispatch.rowAt n = [] := by
  show #[].getD n [] = []
  rw [Array.getD_eq_getD_getElem?]
  rfl

/-- A new table has the column of the wildcard and nothing else. -/
theorem coherent_empty : ({} : Table α).Coherent where
  first := rfl
  unique := by
    intro i j key hi hj
    have hi : i < 1 := (Array.getElem?_eq_some_iff.mp hi).1
    have hj : j < 1 := (Array.getElem?_eq_some_iff.mp hj).1
    omega
  null := rfl
  row n := by
    rw [rowAt_empty]
    exact .nil
  cell n e he := by
    rw [rowAt_empty] at he
    exact nomatch he

namespace Coherent

variable {t : Table α} {s : Int} {n col : Nat} {key : Text} {a : Action α}

/-- The column of a key is the one that has the key; since keys are distinct, it does not matter
    that the first one is taken. -/
theorem column?_eq_some_iff (h : t.Coherent) :
    t.column? key = some col ↔ t.keys[col]? = some key := by
  unfold column?
  rw [Array.findIdx?_eq_some_iff_getElem]
  constructor
  · rintro ⟨hcol, hkey, -⟩
    exact Array.getElem?_eq_some_iff.mpr ⟨hcol, of_decide_eq_true hkey⟩
  · intro hkey
    obtain ⟨hcol, hget⟩ := Array.getElem?_eq_some_iff.mp hkey
    refine ⟨hcol, decide_eq_true hget, fun j hj hsame => ?_⟩
    have hj' : t.keys[j]? = some key :=
      Array.getElem?_eq_some_iff.mpr ⟨Nat.lt_trans hj hcol, of_decide_eq_true hsame⟩
    exact absurd (h.unique hj' hkey) (Nat.ne_of_lt hj)

/-- The wildcard has column zero. -/
theorem column?_wildcard (h : t.Coherent) : t.column? wildcard = some 0 :=
  h.column?_eq_some_iff.mpr h.first

/-- Column zero is that of the wildcard and of no other key. -/
theorem column?_eq_zero_iff (h : t.Coherent) : t.column? key = some 0 ↔ key = wildcard := by
  rw [h.column?_eq_some_iff, h.first]
  exact ⟨fun h => (Option.some.inj h).symm, fun h => congrArg some h.symm⟩

/-- An index in the matrix is a cell of a row, and the row is that of a state which is not
    negative. -/
theorem value_eq_some_iff (h : t.Coherent) {i : Nat} :
    t.dispatch.value s col = some i ↔ ∃ n : Nat, s = n ∧ (col, some i) ∈ t.dispatch.rowAt n := by
  unfold SparseMatrix.value
  rw [h.null]
  constructor
  · intro hi
    split at hi
    · exact nomatch hi
    · rename_i hsign
      refine ⟨s.toNat, by omega, (SparseMatrix.find?_eq_some_iff (h.row s.toNat)).mp ?_⟩
      change (SparseMatrix.find? col (t.dispatch.rowAt s.toNat)).getD none = some i at hi
      rcases hfind : SparseMatrix.find? col (t.dispatch.rowAt s.toNat) with _ | v
      · rw [hfind] at hi
        exact nomatch hi
      · rw [hfind] at hi
        exact congrArg some hi
  · rintro ⟨n, rfl, hcell⟩
    rw [if_neg (by omega)]
    have hfind : SparseMatrix.find? col (t.dispatch.rowAt n) = some (some i) :=
      (SparseMatrix.find?_eq_some_iff (h.row n)).mpr hcell
    show (SparseMatrix.find? col (t.dispatch.rowAt n)).getD none = some i
    rw [hfind]
    rfl

/-- Where a column has no action there is no index either. -/
theorem find?_eq_none (h : t.Coherent) (hnone : t.actionAt? n col = none) :
    SparseMatrix.find? col (t.dispatch.rowAt n) = none := by
  refine Option.eq_none_iff_forall_ne_some.mpr fun v hv => ?_
  have hcell := (SparseMatrix.find?_eq_some_iff (h.row n)).mp hv
  -- an index would lead to an action
  obtain ⟨-, -, i, hi, rfl⟩ := h.cell n _ hcell
  have hvalue : t.dispatch.value n col = some i := h.value_eq_some_iff.mpr ⟨n, rfl, hcell⟩
  rw [actionAt?, hvalue, Option.bind_some, Array.getElem?_eq_getElem hi] at hnone
  exact nomatch hnone

/-- There is nothing in a column that does not exist. -/
theorem actionAt?_eq_none (h : t.Coherent) (hcol : t.keys.size ≤ col) :
    t.actionAt? s col = none := by
  refine Option.eq_none_iff_forall_ne_some.mpr fun a ha => ?_
  obtain ⟨i, hi, -⟩ := Option.bind_eq_some_iff.mp ha
  obtain ⟨n, -, hcell⟩ := h.value_eq_some_iff.mp hi
  obtain ⟨-, hlt, -⟩ := h.cell n _ hcell
  exact absurd hlt (Nat.not_lt.mpr hcol)

/-- Every index leads to an action. -/
theorem lt_size (h : t.Coherent) {i : Nat} (hi : t.dispatch.value s col = some i) :
    i < t.actions.size := by
  obtain ⟨n, -, hcell⟩ := h.value_eq_some_iff.mp hi
  obtain ⟨-, -, j, hj, hindex⟩ := h.cell n _ hcell
  obtain rfl := Option.some.inj hindex
  exact hj

/-- What was entered, in terms of the three parts. -/
theorem entered?_eq_some_iff (h : t.Coherent) :
    t.entered? s key = some a ↔ ∃ n : Nat, s = n ∧ ∃ col i, t.keys[col]? = some key ∧
      (col, some i) ∈ t.dispatch.rowAt n ∧ t.actions[i]? = some a := by
  unfold entered? actionAt?
  rw [Option.bind_eq_some_iff]
  constructor
  · rintro ⟨col, hcol, ha⟩
    obtain ⟨i, hi, ha⟩ := Option.bind_eq_some_iff.mp ha
    obtain ⟨n, hs, hcell⟩ := h.value_eq_some_iff.mp hi
    exact ⟨n, hs, col, i, h.column?_eq_some_iff.mp hcol, hcell, ha⟩
  · rintro ⟨n, hs, col, i, hkey, hcell, ha⟩
    refine ⟨col, h.column?_eq_some_iff.mpr hkey, Option.bind_eq_some_iff.mpr ⟨i, ?_, ha⟩⟩
    exact h.value_eq_some_iff.mpr ⟨n, hs, hcell⟩

/-- Only states of the table have entries. -/
theorem lt_states (h : t.Coherent) (ha : t.entered? s key = some a) : 0 ≤ s ∧ s < t.states := by
  obtain ⟨n, rfl, col, i, -, hcell, -⟩ := h.entered?_eq_some_iff.mp ha
  obtain ⟨hn, -⟩ := h.cell n _ hcell
  omega

/-- A look-up finds what was entered for the key, or else what was entered for the wildcard. -/
theorem lookup_eq (h : t.Coherent) (s : Int) (key : Text) :
    t.lookup s key =
      prefer (if key = wildcard then none else t.entered? s key) (t.entered? s wildcard) := by
  unfold lookup entered? prefer
  dsimp only
  rw [h.column?_wildcard]
  -- a key without a column has no entry; the column of the wildcard is not looked at for a key
  rcases hcol : t.column? key with _ | col
  · show _ = ((if key = wildcard then none else none).map _).or _
    rw [ite_self]
    rfl
  · by_cases hkey : key = wildcard
    · subst hkey
      obtain rfl := Option.some.inj (h.column?_wildcard.symm.trans hcol)
      rw [if_pos rfl]
      rfl
    · have hne : col ≠ 0 := fun h0 => hkey (h.column?_eq_zero_iff.mp (h0 ▸ hcol))
      rcases hact : t.actionAt? s col with _ | a <;> simp [Option.filter, hne, hkey, hact]

/-- What a look-up finds was entered for some key. -/
theorem exists_entered?_of_lookup (h : t.Coherent) {m : Match α} (hm : t.lookup s key = some m) :
    ∃ k, t.entered? s k = some m.action := by
  rw [h.lookup_eq, prefer, Option.or_eq_some_iff] at hm
  rcases hm with hown | ⟨-, hother⟩
  · obtain ⟨a, ha, rfl⟩ := Option.map_eq_some_iff.mp hown
    split at ha
    · exact nomatch ha
    · exact ⟨key, ha⟩
  · obtain ⟨a, ha, rfl⟩ := Option.map_eq_some_iff.mp hother
    exact ⟨wildcard, ha⟩

/-- Rules and start state have nothing to do with it. -/
theorem withRules (h : t.Coherent) (rules : Dict Int) (start : Int) :
    ({ t with rules, start } : Table α).Coherent :=
  ⟨h.first, h.unique, h.null, h.row, h.cell⟩

/-- The entries of a state are what was entered for it. -/
theorem mem_entries_iff (h : t.Coherent) : (key, a) ∈ t.entries s ↔ t.entered? s key = some a := by
  rw [h.entered?_eq_some_iff]
  unfold entries SparseMatrix.row
  rw [List.mem_filterMap]
  constructor
  -- the walk along the row gives the column, and the column has one key
  · rintro ⟨⟨col, v⟩, hmem, hentry⟩
    split at hmem
    · exact nomatch hmem
    · rename_i hs
      have hcell := (List.mem_filter.mp hmem).1
      obtain ⟨-, hcol, i, -, hi⟩ := h.cell s.toNat _ hcell
      dsimp only at hcol hi
      subst hi
      obtain ⟨b, hb, hpair⟩ := Option.map_eq_some_iff.mp hentry
      obtain ⟨rfl, rfl⟩ := Prod.mk.inj hpair
      refine ⟨s.toNat, by omega, col, i, ?_, hcell, hb⟩
      rw [Array.getElem?_eq_getElem hcol, Array.getD_eq_getD_getElem?,
        Array.getElem?_eq_getElem hcol]
      rfl
  · rintro ⟨n, rfl, col, i, hkey, hcell, ha⟩
    refine ⟨(col, some i), ?_, ?_⟩
    · rw [if_neg (by omega), List.mem_filter, h.null]
      exact ⟨hcell, rfl⟩
    · show Option.map _ (t.actions[i]?) = _
      rw [ha, Array.getD_eq_getD_getElem?, hkey]
      rfl

/-- A state that does not exist has no entries. -/
theorem entries_eq_nil (h : t.Coherent) (hs : t.states ≤ s) : t.entries s = [] := by
  refine List.eq_nil_iff_forall_not_mem.mpr fun e he => ?_
  have := (h.lt_states (h.mem_entries_iff.mp he)).2
  omega

end Coherent

/-- Nothing was entered into a new table. -/
theorem entered?_empty (s : Int) (key : Text) : ({} : Table α).entered? s key = none := by
  refine Option.eq_none_iff_forall_ne_some.mpr fun a ha => ?_
  obtain ⟨n, -, col, i, -, hcell, -⟩ := coherent_empty.entered?_eq_some_iff.mp ha
  rw [rowAt_empty] at hcell
  exact nomatch hcell

/-! ## More columns and states

  What is not an entry may grow freely.  A column that is added at the end has no entries in it, and
  neither has a state behind the last one, so that the map stays what it was. -/

/-- `t.Widens t'`: the table `t'` is `t` with further columns and states. -/
structure Widens (t t' : Table α) : Prop where
  dispatch : t'.dispatch = t.dispatch
  actions : t'.actions = t.actions
  rules : t'.rules = t.rules
  start : t'.start = t.start
  states : t.states ≤ t'.states
  size : t.keys.size ≤ t'.keys.size
  keys : ∀ i < t.keys.size, t'.keys[i]? = t.keys[i]?
  unique : ∀ {i j : Nat} {key : Text}, t'.keys[i]? = some key → t'.keys[j]? = some key → i = j

namespace Widens

variable {t t' : Table α}

/-- Further columns and states do not disturb the parts. -/
theorem coherent (hw : t.Widens t') (h : t.Coherent) : t'.Coherent where
  first := by
    obtain ⟨hpos, -⟩ := Array.getElem?_eq_some_iff.mp h.first
    exact (hw.keys 0 hpos).trans h.first
  unique := hw.unique
  null := by
    rw [hw.dispatch]
    exact h.null
  row n := by
    rw [hw.dispatch]
    exact h.row n
  cell n e he := by
    rw [hw.dispatch] at he
    rw [hw.actions]
    obtain ⟨hn, hcol, hindex⟩ := h.cell n e he
    exact ⟨Nat.lt_of_lt_of_le hn hw.states, Nat.lt_of_lt_of_le hcol hw.size, hindex⟩

/-- They add no entry, and take none away. -/
theorem entered?_eq (hw : t.Widens t') (h : t.Coherent) (s : Int) (key : Text) :
    t'.entered? s key = t.entered? s key := by
  refine Option.ext fun a => ?_
  rw [(hw.coherent h).entered?_eq_some_iff, h.entered?_eq_some_iff, hw.dispatch, hw.actions]
  constructor
  · rintro ⟨n, hs, col, i, hkey, hcell, ha⟩
    obtain ⟨-, hcol, -⟩ := h.cell n _ hcell
    exact ⟨n, hs, col, i, (hw.keys col hcol) ▸ hkey, hcell, ha⟩
  · rintro ⟨n, hs, col, i, hkey, hcell, ha⟩
    obtain ⟨-, hcol, -⟩ := h.cell n _ hcell
    exact ⟨n, hs, col, i, (hw.keys col hcol).trans hkey, hcell, ha⟩

/-- Nor do they change the entries of a state. -/
theorem entries_eq (hw : t.Widens t') (h : t.Coherent) (s : Int) : t'.entries s = t.entries s := by
  unfold entries
  rw [hw.dispatch, hw.actions]
  refine List.filterMap_congr fun e he => ?_
  obtain ⟨-, hcol, -⟩ := h.cell s.toNat e (SparseMatrix.mem_rowAt_of_mem_row he)
  have hkey : t'.keys.getD e.1 [] = t.keys.getD e.1 [] := by
    rw [Array.getD_eq_getD_getElem?, Array.getD_eq_getD_getElem?, hw.keys e.1 hcol]
  dsimp only
  rw [hkey]

end Widens

/-- A table with more states. -/
theorem widens_states {t : Table α} (h : t.Coherent) {n : Nat} (hn : t.states ≤ n) :
    t.Widens { t with states := n } :=
  ⟨rfl, rfl, rfl, rfl, hn, Nat.le_refl _, fun _ _ => rfl, h.unique⟩

/-- A table with a column for a key that has none. -/
theorem widens_push {t : Table α} (h : t.Coherent) {key : Text} (hkey : t.column? key = none)
    {n : Nat} (hn : t.states ≤ n) : t.Widens { t with keys := t.keys.push key, states := n } where
  dispatch := rfl
  actions := rfl
  rules := rfl
  start := rfl
  states := hn
  size := by
    show _ ≤ (t.keys.push key).size
    rw [Array.size_push]
    exact Nat.le_succ _
  keys i hi := by
    show (t.keys.push key)[i]? = _
    rw [Array.getElem?_push, if_neg (Nat.ne_of_lt hi)]
  unique {i j k} hi hj := by
    -- the new key is in none of the old columns
    have hfresh : ∀ i, t.keys[i]? ≠ some key := fun i hi =>
      nomatch hkey.symm.trans (h.column?_eq_some_iff.mpr hi)
    rw [Array.getElem?_push] at hi hj
    split at hi
    · obtain rfl := Option.some.inj hi
      split at hj
      · omega
      · exact absurd hj (hfresh j)
    · split at hj
      · obtain rfl := Option.some.inj hj
        exact absurd hi (hfresh i)
      · exact h.unique hi hj

/-! ## One more entry

  The index of the new action is the number of actions so far, and it is written where there was
  nothing.  So the matrix shows it at one position, and the old indices still lead to the old
  actions. -/

/-- The table with an action in a column of a state. -/
def place (t : Table α) (n col : Nat) (a : Action α) : Table α :=
  { t with
    dispatch := t.dispatch.insert n col (some t.actions.size)
    actions := t.actions.push a }

section Place

variable {t : Table α} {n col : Nat} {key : Text} (a : Action α)

/-- One row has a cell more. -/
theorem rowAt_place (k : Nat) : (t.place n col a).dispatch.rowAt k =
    if n = k then SparseMatrix.put col (some t.actions.size) (t.dispatch.rowAt n)
    else t.dispatch.rowAt k :=
  SparseMatrix.rowAt_insert ..

/-- With a further action the parts still fit together. -/
theorem coherent_place (h : t.Coherent) (hn : n < t.states) (hcol : col < t.keys.size) :
    (t.place n col a).Coherent where
  first := h.first
  unique := h.unique
  null := (SparseMatrix.null_insert ..).trans h.null
  row k := by
    rw [rowAt_place]
    split
    · exact SparseMatrix.pairwise_put (h.row n)
    · exact h.row k
  cell k e he := by
    have hgrows : (t.place n col a).actions.size = t.actions.size + 1 := Array.size_push _
    -- the old cells lead to actions of the longer list, too
    have hold : e ∈ t.dispatch.rowAt k → k < t.states ∧ e.1 < t.keys.size ∧
        ∃ i < (t.place n col a).actions.size, e.2 = some i := by
      intro he
      obtain ⟨hk, hcol, i, hi, hindex⟩ := h.cell k e he
      exact ⟨hk, hcol, i, by omega, hindex⟩
    rw [rowAt_place] at he
    split at he
    · rename_i hnk
      subst hnk
      rcases SparseMatrix.mem_put he with rfl | he
      · exact ⟨hn, hcol, t.actions.size, by omega, rfl⟩
      · exact hold he
    · exact hold he

/-- In its cell the new action is found, and in every other one what was there. -/
theorem actionAt?_place (h : t.Coherent) (s : Int) (c : Nat) :
    (t.place n col a).actionAt? s c = if s = n ∧ c = col then some a else t.actionAt? s c := by
  show ((t.dispatch.insert n col (some t.actions.size)).value s c).bind
    (fun i => (t.actions.push a)[i]?) = _
  rw [SparseMatrix.value_insert]
  by_cases hat : s = n ∧ c = col
  · obtain ⟨rfl, rfl⟩ := hat
    rw [if_pos ⟨rfl, rfl⟩, if_pos ⟨rfl, rfl⟩, Option.bind_some, Array.getElem?_push, if_pos rfl]
  · rw [if_neg hat, if_neg (by omega)]
    -- the old indices are below the new one
    refine Option.bind_congr fun i hi => ?_
    show (t.actions.push a)[i]? = _
    rw [Array.getElem?_push, if_neg (Nat.ne_of_lt (h.lt_size hi))]

/-- The entries after an action was placed in the column of a key. -/
theorem entered?_place (h : t.Coherent) (hcol : t.keys[col]? = some key) (s : Int) (k : Text) :
    (t.place n col a).entered? s k = if s = n ∧ k = key then some a else t.entered? s k := by
  show (t.column? k).bind ((t.place n col a).actionAt? s) = _
  unfold entered?
  rcases hk : t.column? k with _ | c
  · have hne : k ≠ key := fun heq => nomatch hk.symm.trans (h.column?_eq_some_iff.mpr (heq ▸ hcol))
    rw [if_neg fun hat => hne hat.2]
    rfl
  -- distinct keys have distinct columns
  · have hc : c = col ↔ k = key := by
      constructor
      · intro heq
        have hkey : t.keys[col]? = some k := h.column?_eq_some_iff.mp (heq ▸ hk)
        exact Option.some.inj (hkey.symm.trans hcol)
      · intro heq
        exact h.unique (h.column?_eq_some_iff.mp hk) (heq ▸ hcol)
    rw [Option.bind_some, Option.bind_some, actionAt?_place a h]
    simp only [hc]

/-- The entries of a state keep their order when an action is placed where there was none. -/
theorem entries_place (h : t.Coherent) (hnone : t.actionAt? n col = none) (s : Int) :
    (t.entries s).Sublist ((t.place n col a).entries s) := by
  -- the row has one cell more, since there was no index in it
  have hrow : (t.dispatch.row s).Sublist ((t.place n col a).dispatch.row s) := by
    unfold SparseMatrix.row
    split
    · exact List.Sublist.refl _
    · rw [rowAt_place]
      have hnull : (t.place n col a).dispatch.null = t.dispatch.null := SparseMatrix.null_insert ..
      rw [hnull]
      refine List.Sublist.filter _ ?_
      split
      · rename_i hn
        rw [← hn]
        exact SparseMatrix.sublist_put (h.find?_eq_none hnone)
      · exact List.Sublist.refl _
  -- and the old cells read the same actions as before
  have hsame : t.entries s = (t.dispatch.row s).filterMap fun e =>
      (e.2.bind fun i => (t.place n col a).actions[i]?).map fun b => (t.keys.getD e.1 [], b) := by
    unfold entries
    refine List.filterMap_congr fun e he => ?_
    obtain ⟨-, -, i, hi, hindex⟩ := h.cell s.toNat e (SparseMatrix.mem_rowAt_of_mem_row he)
    have hold : (t.place n col a).actions[i]? = t.actions[i]? := by
      show (t.actions.push a)[i]? = _
      rw [Array.getElem?_push, if_neg (Nat.ne_of_lt hi)]
    dsimp only
    rw [hindex, Option.bind_some, Option.bind_some, hold]
  rw [hsame]
  exact hrow.filterMap _

end Place

/-! ## What entering does

  Now the two parts are put together.  A key that is new gets a column in which no state has
  anything yet; for an old one the position may be taken already, and that is the one thing to be
  looked at. -/

/-- `t.Enters s key a t'`: the table `t'` is `t` with the action `a` entered for `s` and `key`. -/
structure Enters (t : Table α) (s : Int) (key : Text) (a : Action α) (t' : Table α) : Prop where
  coherent : t'.Coherent
  states : t'.states = max t.states (s.toNat + 1)
  rules : t'.rules = t.rules
  start : t'.start = t.start
  entered? : ∀ s' k, t'.entered? s' k = if s' = s ∧ k = key then some a else t.entered? s' k
  /-- The entries that were there keep their order. -/
  entries : ∀ s', (t.entries s').Sublist (t'.entries s')

/-- An action placed in a wider table, in the column of its key. -/
theorem Widens.enters {t t₁ : Table α} (hw : t.Widens t₁) (h : t.Coherent) {n col : Nat}
    {key : Text} (a : Action α) (hstates : t₁.states = max t.states (n + 1))
    (hcol : t₁.keys[col]? = some key) (hnone : t₁.actionAt? n col = none) :
    t.Enters n key a (t₁.place n col a) := by
  have h₁ := hw.coherent h
  obtain ⟨hcollt, -⟩ := Array.getElem?_eq_some_iff.mp hcol
  refine ⟨coherent_place a h₁ (by omega) hcollt, hstates, hw.rules, hw.start, fun s k => ?_,
    fun s => ?_⟩
  · rw [entered?_place a h₁ hcol, hw.entered?_eq h]
  · rw [← hw.entries_eq h]
    exact entries_place a h₁ hnone s

end Table

namespace Builder

open Table

/-- A key without a column gets the next one. -/
theorem withColumn_of_none {t : Table α} {key : Text} (h : t.column? key = none) :
    withColumn t key = (t.keys.size, { t with keys := t.keys.push key }) := by
  rw [withColumn, h]

/-- A key with a column keeps it. -/
theorem withColumn_of_some {t : Table α} {key : Text} {col : Nat} (h : t.column? key = some col) :
    withColumn t key = (col, t) := by
  rw [withColumn, h]

/-- Entering, once the column is known. -/
theorem enter_eq (b : Builder α) (n : Nat) (key : Text) (a : Action α) {col : Nat} {t : Table α}
    (hcolumn : withColumn { b.draft with states := max b.draft.states (n + 1) } key = (col, t)) :
    b.enter n key a =
      match t.actionAt? n col with
      | some old => { b with draft := t }.refuse (.conflict n key old a)
      | none => { b with draft := t.place n col a } := by
  obtain ⟨draft, error, issued⟩ := b
  dsimp only at hcolumn
  dsimp only [enter]
  rw [hcolumn]
  rfl

/-- An action for a key that has no column yet. -/
theorem enter_of_column?_eq_none (b : Builder α) (h : b.draft.Coherent) (n : Nat) {key : Text}
    (a : Action α) (hcol : b.draft.column? key = none) :
    ∃ t, b.draft.Enters n key a t ∧ b.enter n key a = { b with draft := t } := by
  have hw := widens_push h hcol (Nat.le_max_left b.draft.states (n + 1))
  -- the column is new, so that no state can have an action in it
  have hlast : (b.draft.keys.push key)[b.draft.keys.size]? = some key := by
    rw [Array.getElem?_push, if_pos rfl]
  have hempty : b.draft.actionAt? n b.draft.keys.size = none := h.actionAt?_eq_none (Nat.le_refl _)
  refine ⟨_, hw.enters h a rfl hlast hempty, ?_⟩
  rw [enter_eq b n key a (withColumn_of_none hcol)]
  show (match b.draft.actionAt? n b.draft.keys.size with
    | some old => _
    | none => _) = _
  rw [hempty]

/-- An action for a key that has a column: what counts is whether the state has an entry there. -/
theorem enter_of_column?_eq_some (b : Builder α) (h : b.draft.Coherent) (n : Nat) {key : Text}
    (a : Action α) {col : Nat} (hcol : b.draft.column? key = some col) :
    (∃ old, b.draft.actionAt? n col = some old ∧
      b.enter n key a = b.refuse (.conflict n key old a)) ∨
    (b.draft.actionAt? n col = none ∧
      ∃ t, b.draft.Enters n key a t ∧ b.enter n key a = { b with draft := t }) := by
  have henter := enter_eq b n key a (withColumn_of_some hcol)
  change b.enter n key a = (match b.draft.actionAt? n col with
    | some old => _
    | none => _) at henter
  rcases hold : b.draft.actionAt? n col with _ | old
  · have hw := widens_states h (Nat.le_max_left b.draft.states (n + 1))
    rw [hold] at henter
    exact Or.inr ⟨rfl, _, hw.enters h a rfl (h.column?_eq_some_iff.mp hcol) hold, henter⟩
  · -- the state exists already, since it has an entry
    have hentered : b.draft.entered? n key = some old := by
      rw [Table.entered?, hcol]
      exact hold
    have hlt := (h.lt_states hentered).2
    have hmax : max b.draft.states (n + 1) = b.draft.states := by omega
    rw [hold, hmax] at henter
    exact Or.inl ⟨old, rfl, henter⟩

/-- **What entering an action can do.**  It is refused for a negative state, or for a state and key
    that have an action, and the draft stays; or else it is in the draft afterwards. -/
theorem on_cases (b : Builder α) (h : b.draft.Coherent) (s : Int) (key : Text) (a : Action α) :
    (s < 0 ∧ b.on s key a = b.refuse (.negativeState s)) ∨
    (∃ old, b.draft.entered? s key = some old ∧
      b.on s key a = b.refuse (.conflict s key old a)) ∨
    (0 ≤ s ∧ b.draft.entered? s key = none ∧ ∃ t, b.draft.Enters s key a t ∧
      b.on s key a = { b with draft := t }) := by
  unfold on
  by_cases hs : s < 0
  · rw [if_pos hs]
    exact Or.inl ⟨hs, rfl⟩
  · rw [if_neg hs]
    obtain ⟨n, rfl⟩ : ∃ n : Nat, s = n := ⟨s.toNat, by omega⟩
    rw [Int.toNat_natCast]
    refine Or.inr ?_
    -- whether the key has a column yet decides how the draft grows
    rcases hcol : b.draft.column? key with _ | col
    · obtain ⟨t, ht, henter⟩ := b.enter_of_column?_eq_none h n a hcol
      exact Or.inr ⟨by omega, by rw [Table.entered?, hcol]; rfl, t, ht, henter⟩
    · have hentered : b.draft.entered? n key = b.draft.actionAt? n col := by
        rw [Table.entered?, hcol]
        rfl
      rw [hentered]
      rcases b.enter_of_column?_eq_some h n a hcol with hold | ⟨hnone, t, ht, henter⟩
      · exact Or.inl hold
      · exact Or.inr ⟨by omega, hnone, t, ht, henter⟩

end Builder
end Pushdown
