/-
  A sparse matrix is the finite map of what was written to it.

  `ofWrites` is the matrix after any attempts to set values, those with a negative index included.
  `Records ws m` says by the writes alone what a matrix shows: the value last written to each
  position, how many positions there are, and one more than the highest row and column.  One
  insertion keeps this (`Records.insert`), a refused attempt changes nothing (`attempt_of_refused`),
  and so it holds of every matrix that is made by writes (`records_ofWrites`).

  Three parts of the record need each other.  A position counts as new if no entry of its row is in
  its column, and so the number of positions depends on what rows hold (`isSome_iff`).  The number
  of columns grows only when a position is new; for an old one it is large enough already, since the
  column has been written to before.  And what a row holds is known because it ascends.

  Rows are read and written by going through their entries.  On an ascending row this is what
  bisection does, with the entries behind the position moved by one (`find?_eq_bisected`,
  `put_eq_bisected`).  `Parts` is the reason: a column parts an ascending row into the entries
  before it and those behind, and both ways of looking find the place where they meet.

  The column count is a 64-bit word.  It is right as long as one more than the highest column is
  such a word, and never again from then on (`ofWrites_refines`, `ofWrites_wraps`).
-/
import Mathlib.Algebra.Ring.Int.Defs
import Mathlib.Data.Finset.Dedup
import Mathlib.Data.Finset.Card
import Pushdown.SparseMatrix

namespace Pushdown.SparseMatrix

variable {α : Type}

/-! ## Bisection

  In an ascending row, bisection finds what going through the entries finds.  Both are told by the
  two parts of the row, before the column and behind it. -/

/-- The end of the entries before column `j`, if they end in `[lo, hi]`. -/
def bisectFrom (j : Nat) (r : List (Nat × α)) (lo hi : Nat) : Nat :=
  if lo < hi then
    if r[(lo + hi) / 2]?.any (·.1 < j) then bisectFrom j r ((lo + hi) / 2 + 1) hi
    else bisectFrom j r lo ((lo + hi) / 2)
  else lo
termination_by hi - lo

/-- The position of the first entry of a row that is not before column `j`. -/
def bisect (j : Nat) (r : List (Nat × α)) : Nat := bisectFrom j r 0 r.length

/-- The entries before column `j`, and those behind them, of which only the first can be in it. -/
structure Parts (j : Nat) (before behind : List (Nat × α)) : Prop where
  lt : ∀ e ∈ before, e.1 < j
  le : ∀ e ∈ behind, j ≤ e.1
  lt_tail : ∀ e ∈ behind.tail, j < e.1

section Bisection

variable {j : Nat} {r before behind : List (Nat × α)}

/-- Every column parts an ascending row. -/
theorem exists_parts (hr : r.Pairwise fun a b => a.1 < b.1) (j : Nat) :
    ∃ before behind, r = before ++ behind ∧ Parts j before behind := by
  induction r with
  | nil => exact ⟨[], [], rfl, List.forall_mem_nil _, List.forall_mem_nil _, List.forall_mem_nil _⟩
  | cons e r ih =>
    obtain ⟨he, hr⟩ := List.pairwise_cons.mp hr
    by_cases hej : e.1 < j
    · obtain ⟨before, behind, rfl, hlt, hle, htail⟩ := ih hr
      exact ⟨e :: before, behind, rfl, List.forall_mem_cons.mpr ⟨hej, hlt⟩, hle, htail⟩
    · have hje : j ≤ e.1 := Nat.le_of_not_lt hej
      have hafter : ∀ f ∈ r, j < f.1 := fun f hf => Nat.lt_of_le_of_lt hje (he f hf)
      exact ⟨[], e :: r, rfl, List.forall_mem_nil _,
        List.forall_mem_cons.mpr ⟨hje, fun f hf => Nat.le_of_lt (hafter f hf)⟩, hafter⟩

/-- Looking at an entry tells on which side it is. -/
theorem Parts.any_eq (h : Parts j before behind) {k : Nat} (hk : k < (before ++ behind).length) :
    (before ++ behind)[k]?.any (·.1 < j) = decide (k < before.length) := by
  rw [List.getElem?_eq_getElem hk, Option.any_some]
  refine decide_eq_decide.mpr ⟨fun hlt => Nat.lt_of_not_le fun hle => ?_, fun hlt => ?_⟩
  · rw [List.getElem_append_right hle] at hlt
    exact Nat.not_le_of_lt hlt (h.le _ (List.getElem_mem _))
  · rw [List.getElem_append_left hlt]
    exact h.lt _ (List.getElem_mem _)

/-- Wherever the search is, the place is between its ends. -/
theorem Parts.bisectFrom_eq (h : Parts j before behind) {lo hi : Nat} (hlo : lo ≤ before.length)
    (hhi : before.length ≤ hi) (hend : hi ≤ (before ++ behind).length) :
    bisectFrom j (before ++ behind) lo hi = before.length := by
  fun_induction bisectFrom j (before ++ behind) lo hi with
  -- the entry in the middle is before the column, or it is behind
  | case1 lo hi hlt hmid ih =>
    rw [h.any_eq (by omega), decide_eq_true_iff] at hmid
    exact ih hmid hhi hend
  | case2 lo hi hlt hmid ih =>
    rw [h.any_eq (by omega), decide_eq_true_iff] at hmid
    exact ih hlo (by omega) (by omega)
  | case3 lo hi hlt => omega

/-- **Bisection finds where the entries before a column end.** -/
theorem Parts.bisect_eq (h : Parts j before behind) :
    bisect j (before ++ behind) = before.length :=
  h.bisectFrom_eq (Nat.zero_le _) (by rw [List.length_append]; omega) (Nat.le_refl _)

/-- Entries behind a column have nothing to show in it. -/
theorem find?_eq_none_of_lt (h : ∀ e ∈ r, j < e.1) : find? j r = none := by
  induction r with
  | nil => rfl
  | cons e r ih =>
    obtain ⟨he, hr⟩ := List.forall_mem_cons.mp h
    rw [find?, if_neg (Nat.ne_of_gt he)]
    exact ih hr

/-- Only the entry at the place can be in the column. -/
theorem Parts.find?_eq (h : Parts j before behind) :
    find? j (before ++ behind) = (behind.head?.filter (·.1 = j)).map Prod.snd := by
  obtain ⟨hlt, hle, htail⟩ := h
  induction before with
  | nil =>
    cases behind with
    | nil => rfl
    | cons e behind =>
      obtain ⟨k, w⟩ := e
      by_cases hk : k = j
      · simp [find?, hk]
      · have hnone : find? j behind = none := find?_eq_none_of_lt htail
        simp [find?, hk, hnone]
  | cons e before ih =>
    obtain ⟨he, hlt⟩ := List.forall_mem_cons.mp hlt
    rw [List.cons_append, find?, if_neg (Nat.ne_of_lt he)]
    exact ih hlt

/-- A value is put at the place, instead of the entry that is in the column if there is one. -/
theorem Parts.put_eq (h : Parts j before behind) (v : α) : put j v (before ++ behind) =
    before ++ (j, v) :: behind.drop (if (find? j (before ++ behind)).isSome then 1 else 0) := by
  rw [h.find?_eq]
  obtain ⟨hlt, hle, htail⟩ := h
  induction before with
  | nil =>
    cases behind with
    | nil => rfl
    | cons e behind =>
      obtain ⟨k, w⟩ := e
      have hjk : j ≤ k := hle _ List.mem_cons_self
      rw [List.nil_append, put]
      by_cases hk : j = k
      · simp [hk]
      · simp [Nat.lt_of_le_of_ne hjk hk, Ne.symm hk]
  | cons e before ih =>
    obtain ⟨he, hlt⟩ := List.forall_mem_cons.mp hlt
    rw [List.cons_append, put, if_neg (Nat.not_lt_of_lt he), if_neg (Nat.ne_of_gt he), ih hlt]
    rfl

/-- An ascending row is read at the position that bisection finds. -/
theorem find?_eq_bisected (hr : r.Pairwise fun a b => a.1 < b.1) (j : Nat) :
    find? j r = (r[bisect j r]?.filter (·.1 = j)).map Prod.snd := by
  obtain ⟨before, behind, rfl, h⟩ := exists_parts hr j
  rw [h.find?_eq, h.bisect_eq, List.getElem?_append_right (Nat.le_refl _), Nat.sub_self,
    List.head?_eq_getElem?]

/-- An ascending row is written there: in place of the entry of the column, or else in front of the
    entries behind it. -/
theorem put_eq_bisected (hr : r.Pairwise fun a b => a.1 < b.1) (j : Nat) (v : α) :
    put j v r = r.take (bisect j r) ++
      (j, v) :: r.drop (bisect j r + if (find? j r).isSome then 1 else 0) := by
  obtain ⟨before, behind, rfl, h⟩ := exists_parts hr j
  rw [h.put_eq, h.bisect_eq, List.take_left, List.drop_length_add_append]

end Bisection

/-! ## Writes

  A write is a position and a value, and one with a negative index is refused.  What a matrix shows
  is told from those that are not (`accepted`). -/

/-- A value to be set at a position. -/
structure Write (α : Type) where
  i : Int
  j : Int
  value : α

namespace Write

/-- Where the value is to be set. -/
def position (w : Write α) : Int × Int := (w.i, w.j)

/-- The position is in front of the first row or column. -/
def Refused (w : Write α) : Prop := w.i < 0 ∨ w.j < 0

/-- Signs can be looked at. -/
instance (w : Write α) : Decidable w.Refused := instDecidableOr

end Write

/-- The matrix after an attempt to write. -/
def attempt (m : SparseMatrix α) (w : Write α) : SparseMatrix α :=
  match m.set w.i w.j w.value with
  | .ok m' => m'
  | .error _ => m

/-- The matrix after some attempts to write, with `null` where nothing was written. -/
def ofWrites (null : α) (ws : List (Write α)) : SparseMatrix α := ws.foldl attempt (empty null)

/-- The writes that are not refused. -/
def accepted (ws : List (Write α)) : List (Write α) := ws.filter fun w => ¬ w.Refused

/-- The value that was last written to a position. -/
def lastAt? (ws : List (Write α)) (i j : Int) : Option α :=
  (ws.reverse.find? (·.position = (i, j))).map Write.value

/-- One more than the highest of some indices, or zero if there are none. -/
def bound (is : List Int) : Int := is.foldl (fun n i => max n (i + 1)) 0

/-- An attempt in front of the first row or column is an error that tells the position. -/
theorem attempt_of_refused {w : Write α} (h : w.Refused) (m : SparseMatrix α) :
    m.set w.i w.j w.value = .error ⟨w.i, w.j⟩ ∧ m.attempt w = m := by
  have hset : m.set w.i w.j w.value = .error ⟨w.i, w.j⟩ := if_pos h
  rw [attempt, hset]
  exact ⟨rfl, rfl⟩

/-- All other attempts insert a value. -/
theorem attempt_of_not_refused {w : Write α} (h : ¬ w.Refused) (m : SparseMatrix α) :
    m.attempt w = m.insert w.i.toNat w.j.toNat w.value := by
  have hset : m.set w.i w.j w.value = .ok (m.insert w.i.toNat w.j.toNat w.value) := if_neg h
  rw [attempt, hset]

/-- What was written last, after one write more. -/
theorem lastAt?_concat (ws : List (Write α)) (w : Write α) (i j : Int) :
    lastAt? (ws ++ [w]) i j = if w.position = (i, j) then some w.value else lastAt? ws i j := by
  rw [lastAt?, List.reverse_append, List.reverse_singleton, List.singleton_append, List.find?_cons]
  split
  · rename_i hw
    rw [if_pos (of_decide_eq_true hw)]
    rfl
  · rename_i hw
    rw [if_neg (of_decide_eq_false hw)]
    rfl

/-- The bound of one index more. -/
theorem bound_concat (is : List Int) (i : Int) : bound (is ++ [i]) = max (bound is) (i + 1) :=
  List.foldl_concat ..

/-- The bound is the least number above all the indices. -/
theorem bound_le_iff {is : List Int} {n : Int} : bound is ≤ n ↔ 0 ≤ n ∧ ∀ i ∈ is, i + 1 ≤ n := by
  induction is using List.reverseRecOn with
  | nil => exact ⟨fun h => ⟨h, List.forall_mem_nil _⟩, fun h => h.1⟩
  | append_singleton is i ih =>
    rw [bound_concat, Int.max_le, ih, List.forall_mem_append, List.forall_mem_singleton, and_assoc]

/-- Every index is below the bound. -/
theorem lt_bound {is : List Int} {i : Int} (h : i ∈ is) : i + 1 ≤ bound is :=
  (bound_le_iff.mp (Int.le_refl _)).2 i h

/-! ## What a matrix records

  The record is an invariant of insertion, with one lemma for each of its parts. -/

section Insertion

variable (m : SparseMatrix α) (i j : Nat) (v : α)

/-- A position counts once. -/
theorem count_insert : (m.insert i j v).count =
    if (find? j (m.rowAt i)).isSome then m.count else m.count + 1 := by
  unfold insert
  dsimp only [rowAt]
  split
  · rename_i hsome
    exact (if_pos hsome).symm
  · rename_i hnone
    exact (if_neg hnone).symm

/-- Only a new position can make the column count grow, and there it may overflow. -/
theorem cols_insert : (m.insert i j v).cols =
    if (find? j (m.rowAt i)).isSome then m.cols
    else if m.cols.toInt ≤ j then Int64.ofInt (j + 1) else m.cols := by
  unfold insert
  dsimp only [rowAt]
  split
  · rename_i hsome
    exact (if_pos hsome).symm
  · rename_i hnone
    exact (if_neg hnone).symm

/-- A matrix has rows up to the highest one that was written to. -/
theorem size_rows_insert : (m.insert i j v).rows.size = max m.rows.size (i + 1) := by
  rw [rows_insert, Array.size_setIfInBounds, Array.size_append, Array.size_replicate]
  omega

end Insertion

/-- The matrix shows what the writes have left. -/
structure Records (ws : List (Write α)) (m : SparseMatrix α) : Prop where
  ascending : ∀ i, (m.rowAt i).Pairwise fun a b => a.1 < b.1
  value_eq : ∀ i j, m.value i j = (lastAt? ws i j).getD m.null
  isSome_iff : ∀ i j : Nat,
    (find? j (m.rowAt i)).isSome = true ↔ ((i : Int), (j : Int)) ∈ ws.map Write.position
  count_eq : m.count = (ws.map Write.position).toFinset.card
  size_eq : m.rows.size = bound (ws.map Write.i)
  cols_eq : (∀ w ∈ ws, w.j < 2 ^ 63 - 1) → m.cols.toInt = bound (ws.map Write.j)

/-- An empty matrix records no writes. -/
theorem records_empty (null : α) : Records [] (empty null) where
  ascending i := List.Pairwise.nil
  value_eq i j := by
    unfold value
    split
    · rfl
    · rfl
  isSome_iff i j := by simp [rowAt, empty, find?]
  count_eq := rfl
  size_eq := rfl
  cols_eq _ := rfl

/-- One more than a column is a word, unless the column is the highest word. -/
theorem toInt_ofInt_succ {j : Nat} (h : (j : Int) < 2 ^ 63 - 1) :
    (Int64.ofInt (j + 1)).toInt = j + 1 := Int64.toInt_ofInt_of_le (by omega) (by omega)

/-- A position that was written to has the row and the column of some write. -/
theorem mem_positions {ws : List (Write α)} {i j : Int} (h : (i, j) ∈ ws.map Write.position) :
    i ∈ ws.map Write.i ∧ j ∈ ws.map Write.j := by
  obtain ⟨w, hw, heq⟩ := List.mem_map.mp h
  obtain ⟨rfl, rfl⟩ := Prod.mk.inj heq
  exact ⟨List.mem_map_of_mem hw, List.mem_map_of_mem hw⟩

/-- **One insertion.** -/
theorem Records.insert {ws : List (Write α)} {m : SparseMatrix α} (h : Records ws m) (i j : Nat)
    (v : α) : Records (ws ++ [Write.mk i j v]) (m.insert i j v) := by
  obtain ⟨hascending, hvalue, hsome, hcount, hsize, hcols⟩ := h
  have hpositions : (ws ++ [Write.mk i j v]).map Write.position =
      ws.map Write.position ++ [((i : Int), (j : Int))] := List.map_append
  constructor
  case ascending =>
    intro k
    rw [rowAt_insert]
    split
    · exact pairwise_put (hascending i)
    · exact hascending k
  case value_eq =>
    intro k l
    have hat : (Write.mk (i : Int) j v).position = (k, l) ↔ k = i ∧ l = j := by
      rw [Write.position, Prod.mk.injEq, eq_comm, @eq_comm _ (j : Int)]
    rw [value_insert, lastAt?_concat, null_insert, hvalue]
    simp only [hat]
    split
    · rfl
    · rfl
  case isSome_iff =>
    intro k l
    have hat : ((k : Int), (l : Int)) = ((i : Int), (j : Int)) ↔ i = k ∧ j = l := by
      rw [Prod.mk.injEq]
      omega
    rw [hpositions, List.mem_append, List.mem_singleton, ← hsome, hat, rowAt_insert]
    by_cases hk : i = k
    · rw [if_pos hk, find?_put, hk]
      by_cases hl : j = l
      · simp [hl]
      · simp [hl]
    · simp [hk]
  -- the set of positions grows by one, or it has the position already
  case count_eq =>
    have hset : ((ws ++ [Write.mk i j v]).map Write.position).toFinset =
        Insert.insert ((i : Int), (j : Int)) (ws.map Write.position).toFinset := by
      rw [hpositions, List.toFinset_append, List.toFinset_cons, List.toFinset_nil, insert_empty_eq,
        Finset.union_comm, Finset.singleton_union]
    rw [count_insert, hset, hcount]
    split
    · rename_i hold
      exact (congrArg _ (Finset.insert_eq_of_mem (List.mem_toFinset.mpr ((hsome i j).mp hold)))).symm
    · rename_i hnew
      exact (Finset.card_insert_of_notMem fun hmem =>
        hnew ((hsome i j).mpr (List.mem_toFinset.mp hmem))).symm
  case size_eq =>
    have hrows : (ws ++ [Write.mk i j v]).map Write.i = ws.map Write.i ++ [(i : Int)] := List.map_append
    rw [size_rows_insert, hrows, bound_concat, ← hsize]
    omega
  case cols_eq =>
    intro hlow
    have hcolumns : (ws ++ [Write.mk i j v]).map Write.j = ws.map Write.j ++ [(j : Int)] :=
      List.map_append
    obtain ⟨hlow, hj⟩ := List.forall_mem_append.mp hlow
    have hj : (j : Int) < 2 ^ 63 - 1 := hj (Write.mk i j v) List.mem_cons_self
    rw [cols_insert, hcolumns, bound_concat, ← hcols hlow]
    by_cases hold : (find? j (m.rowAt i)).isSome = true
    · -- the column has been written to before
      have hle := lt_bound (mem_positions ((hsome i j).mp hold)).2
      rw [← hcols hlow] at hle
      rw [if_pos hold]
      omega
    · rw [if_neg hold]
      split
      · rw [toInt_ofInt_succ hj]
        omega
      · omega

/-- Attempts that are refused are not recorded, and all others are. -/
theorem Records.attempt {ws : List (Write α)} {m : SparseMatrix α} (h : Records (accepted ws) m)
    (w : Write α) : Records (accepted (ws ++ [w])) (m.attempt w) := by
  rw [accepted, List.filter_append, ← accepted]
  by_cases hw : w.Refused
  · have hnone : [w].filter (fun w => ¬ w.Refused) = [] := by simp [hw]
    rw [hnone, List.append_nil, (attempt_of_refused hw m).2]
    exact h
  · have hone : [w].filter (fun w => ¬ w.Refused) = [⟨w.i.toNat, w.j.toNat, w.value⟩] := by
      obtain ⟨i, j, v⟩ := w
      have hindices : 0 ≤ i ∧ 0 ≤ j := by
        unfold Write.Refused at hw
        dsimp only at hw
        omega
      simp [hw, hindices]
    rw [hone, attempt_of_not_refused hw]
    exact h.insert _ _ _

/-- **Any number of attempts.** -/
theorem records_ofWrites (null : α) (ws : List (Write α)) :
    Records (accepted ws) (ofWrites null ws) := by
  induction ws using List.reverseRecOn with
  | nil => exact records_empty null
  | append_singleton ws w ih =>
    rw [ofWrites, List.foldl_concat]
    exact ih.attempt w

/-- What stands for nothing stays the same. -/
theorem null_ofWrites (null : α) (ws : List (Write α)) : (ofWrites null ws).null = null := by
  induction ws using List.reverseRecOn with
  | nil => rfl
  | append_singleton ws w ih =>
    rw [ofWrites, List.foldl_concat, ← ofWrites]
    by_cases hw : w.Refused
    · rw [(attempt_of_refused hw _).2, ih]
    · rw [attempt_of_not_refused hw, null_insert, ih]

/-- A row lists what is not null, as far as it ascends. -/
theorem mem_row_iff [DecidableEq α] {m : SparseMatrix α}
    (h : ∀ i, (m.rowAt i).Pairwise fun a b => a.1 < b.1) (i : Int) (j : Nat) (v : α) :
    (j, v) ∈ m.row i ↔ m.value i j = v ∧ v ≠ m.null := by
  unfold row value
  by_cases hi : i < 0
  · rw [if_pos hi, if_pos (Or.inl hi)]
    exact iff_of_false List.not_mem_nil fun ⟨heq, hne⟩ => hne heq.symm
  · have hneg : ¬ (i < 0 ∨ (j : Int) < 0) := by omega
    rw [if_neg hi, if_neg hneg, List.mem_filter, ← find?_eq_some_iff (h i.toNat), Int.toNat_natCast,
      decide_eq_true_iff]
    refine and_congr_left fun hne => ?_
    cases find? j (m.rowAt i.toNat) with
    | none => exact iff_of_false nofun fun heq => hne heq.symm
    | some w => exact Option.some_inj

/-- Refused attempts leave no trace. -/
theorem ofWrites_accepted (null : α) (ws : List (Write α)) :
    ofWrites null (accepted ws) = ofWrites null ws := by
  rw [ofWrites, accepted, List.foldl_filter]
  congr 1
  funext m w
  split
  · rfl
  · rename_i hw
    exact (attempt_of_refused (by simpa using hw) m).2.symm

/-- The only error is that of an index which is negative. -/
theorem set_eq_error_iff (m : SparseMatrix α) (w : Write α) :
    m.set w.i w.j w.value = .error ⟨w.i, w.j⟩ ↔ w.Refused := by
  refine ⟨fun h => ?_, fun h => (attempt_of_refused h m).1⟩
  by_contra hw
  have hset : m.set w.i w.j w.value = .ok (m.insert w.i.toNat w.j.toNat w.value) := if_neg hw
  exact nomatch hset.symm.trans h

/-- The column count is right exactly as long as it fits into a word. -/
theorem Records.cols_eq_iff {ws : List (Write α)} {m : SparseMatrix α} (h : Records ws m) :
    m.cols.toInt = bound (ws.map Write.j) ↔ ∀ w ∈ ws, w.j < 2 ^ 63 - 1 := by
  refine ⟨fun heq w hw => ?_, h.cols_eq⟩
  -- a word is at most the highest one, so a higher bound cannot be met
  have hle := lt_bound (List.mem_map_of_mem hw (f := Write.j))
  have hword := m.cols.toInt_lt
  omega

/-- **A sparse matrix is the map of its writes**, in any order and number.  Attempts with a negative
    index leave no trace.  Rows stay ascending, so that bisection reads and writes them.  Each
    position has the value last written to it, and a row has the positions that are not null.  The
    numbers of positions and of rows are those of the writes; that of columns is so exactly if no
    column is the highest 64-bit word. -/
theorem ofWrites_refines [DecidableEq α] (null : α) (ws : List (Write α)) :
    let m := ofWrites null ws
    ((∀ (m : SparseMatrix α) (w : Write α),
        m.set w.i w.j w.value = .error ⟨w.i, w.j⟩ ↔ w.Refused) ∧
      ofWrites null (accepted ws) = m) ∧
    (∀ i, (m.rowAt i).Pairwise fun a b => a.1 < b.1) ∧
    (∀ i j v,
      find? j (m.rowAt i) =
        ((m.rowAt i)[bisect j (m.rowAt i)]?.filter (·.1 = j)).map Prod.snd ∧
      put j v (m.rowAt i) = (m.rowAt i).take (bisect j (m.rowAt i)) ++
        (j, v) :: (m.rowAt i).drop
          (bisect j (m.rowAt i) + if (find? j (m.rowAt i)).isSome then 1 else 0)) ∧
    (∀ i j, m.value i j = (lastAt? (accepted ws) i j).getD null) ∧
    (∀ i, ((m.row i).Pairwise fun a b => a.1 < b.1) ∧
      ∀ j v, (j, v) ∈ m.row i ↔ m.value i j = v ∧ v ≠ null) ∧
    m.count = ((accepted ws).map Write.position).toFinset.card ∧
    m.rows.size = bound ((accepted ws).map Write.i) ∧
    (m.cols.toInt = bound ((accepted ws).map Write.j) ↔ ∀ w ∈ accepted ws, w.j < 2 ^ 63 - 1) := by
  intro m
  have h : Records (accepted ws) m := records_ofWrites null ws
  have hnull : m.null = null := null_ofWrites null ws
  refine ⟨⟨set_eq_error_iff, ofWrites_accepted null ws⟩, h.ascending, fun i j v =>
    ⟨find?_eq_bisected (h.ascending i) j, put_eq_bisected (h.ascending i) j v⟩, fun i j => ?_,
    fun i => ⟨?_, fun j v => ?_⟩, h.count_eq, h.size_eq, h.cols_eq_iff⟩
  · rw [h.value_eq, hnull]
  · unfold row
    split
    · exact .nil
    · exact (h.ascending i.toNat).filter _
  · rw [mem_row_iff h.ascending, hnull]

/-- With a value in the highest column the column count is negative, and three after another value
    is written to column two. -/
theorem ofWrites_wraps :
    let highest : Write Int := ⟨0, 2 ^ 63 - 1, 7⟩
    (ofWrites 0 [highest]).cols.toInt = -2 ^ 63 ∧
      (ofWrites 0 [highest, ⟨0, 2, 8⟩]).cols.toInt = 3 ∧
      (ofWrites 0 [highest, ⟨0, 2, 8⟩]).value 0 (2 ^ 63 - 1) = 7 ∧
      bound ([highest, ⟨0, 2, 8⟩].map Write.j) = 2 ^ 63 := by
  decide +kernel

end Pushdown.SparseMatrix
