/-
  Sparse matrices.

  Entries are stored per row in ascending order of their columns.  Rows and columns grow as values
  are set, nothing is ever removed, and positions without an entry hold the null value.  A value
  may be set to the null value: it then counts as an entry but is not visited by `row`.
-/

namespace Pushdown

/-- A matrix over `α` of which only the entries that were set are stored. -/
structure SparseMatrix (α : Type) where
  /-- The value of every position that was not set. -/
  null : α
  /-- The entries of each row as pairs of column and value. -/
  rows : Array (List (Nat × α)) := #[]
  /-- The column count, kept as a 64-bit word. -/
  cols : Int64 := 0
  /-- The number of entries. -/
  count : Nat := 0

namespace SparseMatrix

variable {α : Type}

/-- The indices of an attempt to set a value in front of the first row or column. -/
structure NegativeIndex where
  i : Int
  j : Int
  deriving DecidableEq, Repr

/-! ## Rows -/

/-- The value in column `j` of a row. -/
def find? (j : Nat) : List (Nat × α) → Option α
  | [] => none
  | (k, v) :: r => if k = j then some v else find? j r

/-- An ascending row with the value in column `j` replaced or put in its place. -/
def put (j : Nat) (v : α) : List (Nat × α) → List (Nat × α)
  | [] => [(j, v)]
  | (k, w) :: r =>
    if j < k then (j, v) :: (k, w) :: r
    else if j = k then (j, v) :: r
    else (k, w) :: put j v r

/-- Only what is found in the column that was put has changed. -/
theorem find?_put (j k : Nat) (v : α) (r : List (Nat × α)) :
    find? k (put j v r) = if j = k then some v else find? k r := by
  induction r with
  | nil => simp [put, find?]
  | cons p r ih =>
    unfold put
    split
    · simp [find?]
    · split <;> grind [find?]

/-- What stands in an ascending row is what is found there. -/
theorem find?_eq_some_iff {j : Nat} {v : α} {r : List (Nat × α)}
    (hr : r.Pairwise fun a b => a.1 < b.1) : find? j r = some v ↔ (j, v) ∈ r := by
  induction r with
  | nil => simp [find?]
  | cons p r ih =>
    obtain ⟨k, w⟩ := p
    obtain ⟨hp, hr⟩ := List.pairwise_cons.1 hr
    unfold find?
    rw [List.mem_cons]
    split
    · rename_i hk
      subst hk
      constructor
      · intro h
        exact Or.inl (congrArg (Prod.mk k) (Option.some.inj h).symm)
      · rintro (h | h)
        · exact congrArg some (Prod.mk.inj h).2.symm
        · exact absurd (hp _ h) (Nat.lt_irrefl k)
    · rename_i hk
      rw [ih hr]
      constructor
      · exact Or.inr
      · rintro (h | h)
        · exact absurd (Prod.mk.inj h).1.symm hk
        · exact h

/-- Only the new entry comes in. -/
theorem mem_put {j : Nat} {v : α} {r : List (Nat × α)} {e : Nat × α} (h : e ∈ put j v r) :
    e = (j, v) ∨ e ∈ r := by
  induction r with
  | nil => simpa [put] using h
  | cons p r ih =>
    unfold put at h
    repeat' split at h
    all_goals grind

/-- Putting a value keeps the columns of a row strictly ascending. -/
theorem pairwise_put {j : Nat} {v : α} {r : List (Nat × α)}
    (h : r.Pairwise fun a b => a.1 < b.1) : (put j v r).Pairwise fun a b => a.1 < b.1 := by
  induction r with
  | nil => simp [put]
  | cons p r ih =>
    obtain ⟨hp, hr⟩ := List.pairwise_cons.1 h
    unfold put
    split
    · refine List.pairwise_cons.2 ⟨fun e he => ?_, h⟩
      rcases List.mem_cons.1 he with rfl | he
      · assumption
      · have := hp e he
        simp only at this ⊢
        omega
    · split
      · refine List.pairwise_cons.2 ⟨fun e he => ?_, hr⟩
        have := hp e he
        simp only at this ⊢
        omega
      · refine List.pairwise_cons.2 ⟨fun e he => ?_, ih hr⟩
        rcases mem_put he with rfl | he
        · simp only
          omega
        · exact hp e he

/-- A row keeps its entries when a column is put in its place for the first time. -/
theorem sublist_put {j : Nat} {v : α} {r : List (Nat × α)} (h : find? j r = none) :
    r.Sublist (put j v r) := by
  induction r with
  | nil => exact List.nil_sublist _
  | cons p r ih =>
    obtain ⟨k, w⟩ := p
    unfold find? at h
    split at h
    · exact nomatch h
    · rename_i hk
      unfold put
      split
      · exact List.sublist_cons_self _ _
      · rw [if_neg (Ne.symm hk)]
        exact (ih h).cons_cons (k, w)

/-! ## Matrices -/

/-- The matrix without entries. -/
def empty (null : α) : SparseMatrix α := { null }

/-- The row with a given index; rows that were never reached have no entries. -/
def rowAt (m : SparseMatrix α) (i : Nat) : List (Nat × α) := m.rows.getD i []

/-- The value at a position, for any pair of integers. -/
def value (m : SparseMatrix α) (i j : Int) : α :=
  if i < 0 ∨ j < 0 then m.null else (find? j.toNat (m.rowAt i.toNat)).getD m.null

/-- The matrix with `v` at position `(i, j)`. -/
def insert : SparseMatrix α → Nat → Nat → α → SparseMatrix α
  | ⟨null, rows, cols, count⟩, i, j, v =>
    let row := rows.getD i []
    let rows := (rows ++ Array.replicate (i + 1 - rows.size) []).setIfInBounds i (put j v row)
    if (find? j row).isSome then { null, rows, cols, count }
    else
      { null, rows
        count := count + 1
        cols := if cols.toInt ≤ j then Int64.ofInt (j + 1) else cols }

/-- The null value stays. -/
@[simp] theorem null_insert (m : SparseMatrix α) (i j : Nat) (v : α) :
    (m.insert i j v).null = m.null := by
  unfold insert
  dsimp only
  split <;> rfl

/-- There are rows up to the one that is written to, whether the position was new or not. -/
theorem rows_insert (m : SparseMatrix α) (i j : Nat) (v : α) :
    (m.insert i j v).rows =
      (m.rows ++ Array.replicate (i + 1 - m.rows.size) []).setIfInBounds i
        (put j v (m.rowAt i)) := by
  unfold insert
  dsimp only
  split <;> rfl

/-- The rows after an insertion. -/
theorem rowAt_insert (m : SparseMatrix α) (i j k : Nat) (v : α) :
    (m.insert i j v).rowAt k = if i = k then put j v (m.rowAt i) else m.rowAt k := by
  -- rows that were added have no entries, like rows that were never reached
  have hgrown : (m.rows ++ Array.replicate (i + 1 - m.rows.size) []).getD k [] = m.rowAt k := by
    rw [rowAt, Array.getD_eq_getD_getElem?, Array.getD_eq_getD_getElem?, Array.getElem?_append]
    split
    · rfl
    · rw [Array.getElem?_replicate, Array.getElem?_eq_none (by omega)]
      split <;> rfl
  rw [rowAt, rows_insert, Array.getD_eq_getD_getElem?, Array.getElem?_setIfInBounds]
  by_cases hik : i = k
  · rw [if_pos hik, if_pos hik, if_pos (by rw [Array.size_append, Array.size_replicate]; omega)]
    rfl
  · rw [if_neg hik, if_neg hik, ← Array.getD_eq_getD_getElem?, hgrown]

/-- The values after an insertion: all positions but one keep theirs. -/
theorem value_insert (m : SparseMatrix α) (i j : Nat) (v : α) (k l : Int) :
    (m.insert i j v).value k l = if k = i ∧ l = j then v else m.value k l := by
  unfold value
  rw [null_insert, rowAt_insert]
  by_cases hneg : k < 0 ∨ l < 0
  · rw [if_pos hneg, if_pos hneg, if_neg (by omega)]
  · rw [if_neg hneg, if_neg hneg]
    by_cases hk : i = k.toNat
    · rw [if_pos hk, find?_put, ← hk]
      by_cases hl : j = l.toNat
      · rw [if_pos hl, if_pos (by omega)]
        rfl
      · rw [if_neg hl, if_neg (by omega)]
    · rw [if_neg hk, if_neg (by omega)]

/-- Sets a value at a position given by two integers, neither of which may be negative. -/
def set (m : SparseMatrix α) (i j : Int) (v : α) : Except NegativeIndex (SparseMatrix α) :=
  if i < 0 ∨ j < 0 then .error ⟨i, j⟩ else .ok (m.insert i.toNat j.toNat v)

/-- The entries of a row other than null values, in ascending order of their columns. -/
def row [DecidableEq α] (m : SparseMatrix α) (i : Int) : List (Nat × α) :=
  if i < 0 then [] else (m.rowAt i.toNat).filter fun e => e.2 ≠ m.null

/-- A row that is shown has entries of the row that is stored. -/
theorem mem_rowAt_of_mem_row [DecidableEq α] {m : SparseMatrix α} {i : Int} {e : Nat × α}
    (h : e ∈ m.row i) : e ∈ m.rowAt i.toNat := by
  unfold row at h
  split at h
  · exact nomatch h
  · exact (List.mem_filter.mp h).1

end SparseMatrix
end Pushdown
