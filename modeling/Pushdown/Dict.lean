/-
  Finite maps with texts as keys.

  A map is the list of its entries in strictly ascending order of the keys, so two maps with the
  same entries are the same value (`ext_get?`).  Walking a map visits the keys in order.

  Many keys are bound at once by uniting maps (`ofList`, `union`), which is the same as inserting
  one after the other (`foldl_insert`) and takes time in proportion to `n log n`.

  Each operation is proved right by what can be looked up afterwards: `get?_insert`, `get?_union`
  and `get?_ofList` say this, and equalities of maps follow from them by `ext_get?`, whatever way
  the maps were made.
-/
import Pushdown.Text.Utf8

namespace Pushdown

/-- A finite map from texts. -/
structure Dict (β : Type) where
  /-- The entries, in ascending order of their keys. -/
  entries : List (Text × β)
  /-- No key occurs twice and none is out of place. -/
  ordered : entries.Pairwise fun a b => a.1 < b.1

namespace Dict

variable {β : Type}

/-! ## Order of keys -/

/-- Does a text come before another one, byte by byte? -/
def before : Text → Text → Bool
  | [], [] => false
  | [], _ :: _ => true
  | _ :: _, [] => false
  | a :: s, b :: t => a < b || (a = b && before s t)

/-- It is the lexicographic order of lists. -/
theorem before_iff_lt {s t : Text} : before s t = true ↔ s < t := by
  fun_induction before s t <;> simp_all [List.cons_lt_cons_iff]

/-- Keys are compared by `before`. -/
local instance decidableBefore (s t : Text) : Decidable (s < t) :=
  decidable_of_iff (before s t = true) before_iff_lt

/-- Of two different texts one comes before the other. -/
theorem lt_of_not_lt {a b : Text} (h : ¬ a < b) (hne : a ≠ b) : b < a :=
  Decidable.byContradiction fun h' => hne (List.le_antisymm h' h)

/-! ## Operations -/

/-- The map without entries. -/
def empty : Dict β := ⟨[], .nil⟩

/-- `∅` is the map without entries. -/
instance : EmptyCollection (Dict β) := ⟨empty⟩
/-- A map that is there by default. -/
instance : Inhabited (Dict β) := ⟨empty⟩

/-- The value bound to a key in a list of entries. -/
def find (k : Text) : List (Text × β) → Option β
  | [] => none
  | (a, v) :: r => if a = k then some v else find k r

/-- The value bound to a key. -/
def get? (d : Dict β) (k : Text) : Option β := find k d.entries

/-- An ascending list of entries with the value of `k` replaced or put in its place. -/
def put (k : Text) (v : β) : List (Text × β) → List (Text × β)
  | [] => [(k, v)]
  | (a, w) :: r =>
    if k < a then (k, v) :: (a, w) :: r
    else if k = a then (k, v) :: r
    else (a, w) :: put k v r

/-- Only the new entry comes in. -/
theorem mem_put {k : Text} {v : β} {es : List (Text × β)} {e : Text × β} (h : e ∈ put k v es) :
    e = (k, v) ∨ e ∈ es := by
  induction es with
  | nil => simpa [put] using h
  | cons p r ih =>
    unfold put at h
    repeat' split at h
    all_goals grind

/-- The list still ascends, and no key occurs twice. -/
theorem pairwise_put {k : Text} {v : β} {es : List (Text × β)}
    (h : es.Pairwise fun a b => a.1 < b.1) : (put k v es).Pairwise fun a b => a.1 < b.1 := by
  induction es with
  | nil => simp [put]
  | cons p r ih =>
    obtain ⟨hp, hr⟩ := List.pairwise_cons.1 h
    unfold put
    split
    · rename_i hlt
      refine List.pairwise_cons.2 ⟨?_, h⟩
      intro e he
      rcases List.mem_cons.1 he with rfl | he
      · exact hlt
      · exact List.lt_trans hlt (hp e he)
    · split
      · rename_i hnlt heq
        exact List.pairwise_cons.2 ⟨fun e he => heq ▸ hp e he, hr⟩
      · rename_i hnlt hne
        refine List.pairwise_cons.2 ⟨?_, ih hr⟩
        intro e he
        rcases mem_put he with rfl | he
        · exact lt_of_not_lt hnlt hne
        · exact hp e he

/-- The map with `k` bound to `v`; an earlier binding of `k` is replaced. -/
def insert (d : Dict β) (k : Text) (v : β) : Dict β := ⟨put k v d.entries, pairwise_put d.ordered⟩

/-- The number of entries. -/
def size (d : Dict β) : Nat := d.entries.length

/-! ## Union -/

/-- An ascending list that starts with `e`, merged with another one; `rest` merges its tail. -/
def weave (e : Text × β) (rest : List (Text × β) → List (Text × β)) :
    List (Text × β) → List (Text × β)
  | [] => e :: rest []
  | f :: fs =>
    if e.1 < f.1 then e :: rest (f :: fs)
    else if e.1 = f.1 then f :: rest fs
    else f :: weave e rest fs

/-- Two ascending lists of entries in one; a key of both keeps its entry in the second. -/
def merge : List (Text × β) → List (Text × β) → List (Text × β)
  | [], fs => fs
  | e :: es, fs => weave e (merge es) fs

/-- Nothing is merged with an empty list. -/
theorem merge_nil (es : List (Text × β)) : merge es [] = es := by
  induction es with
  | nil => rfl
  | cons e es ih => simp [merge, weave, ih]

/-- The entry in front is the one with the lesser key, and the second one if the keys are equal. -/
theorem merge_cons_cons (e f : Text × β) (es fs : List (Text × β)) :
    merge (e :: es) (f :: fs) =
      if e.1 < f.1 then e :: merge es (f :: fs)
      else if e.1 = f.1 then f :: merge es fs
      else f :: merge (e :: es) fs := rfl

/-- No entry comes from elsewhere. -/
theorem mem_merge {es fs : List (Text × β)} {p : Text × β} (h : p ∈ merge es fs) :
    p ∈ es ∨ p ∈ fs := by
  induction es generalizing fs with
  | nil => exact Or.inr h
  | cons e es ihe =>
    induction fs with
    | nil => exact Or.inl (merge_nil (e :: es) ▸ h)
    | cons f fs ihf =>
      rw [merge_cons_cons] at h
      repeat' split at h
      all_goals grind

/-- Ascending lists merge into an ascending one. -/
theorem pairwise_merge {es fs : List (Text × β)}
    (he : es.Pairwise fun a b => a.1 < b.1) (hf : fs.Pairwise fun a b => a.1 < b.1) :
    (merge es fs).Pairwise fun a b => a.1 < b.1 := by
  induction es generalizing fs with
  | nil => exact hf
  | cons e es ihe =>
    induction fs with
    | nil => exact (merge_nil (e :: es)).symm ▸ he
    | cons f fs ihf =>
      obtain ⟨hes, he'⟩ := List.pairwise_cons.1 he
      obtain ⟨hfs, hf'⟩ := List.pairwise_cons.1 hf
      rw [merge_cons_cons]
      split
      · rename_i hlt
        refine List.pairwise_cons.2 ⟨fun p hp => ?_, ihe he' hf⟩
        rcases mem_merge hp with hp | hp
        · exact hes p hp
        · rcases List.mem_cons.1 hp with rfl | hp
          · exact hlt
          · exact List.lt_trans hlt (hfs p hp)
      · split
        -- equal keys: the first entry is dropped
        · rename_i _ heq
          refine List.pairwise_cons.2 ⟨fun p hp => ?_, ihe he' hf'⟩
          rcases mem_merge hp with hp | hp
          · exact heq ▸ hes p hp
          · exact hfs p hp
        · rename_i hnlt hne
          have hfe : f.1 < e.1 := lt_of_not_lt hnlt hne
          refine List.pairwise_cons.2 ⟨fun p hp => ?_, ihf hf'⟩
          rcases mem_merge hp with hp | hp
          · rcases List.mem_cons.1 hp with rfl | hp
            · exact hfe
            · exact List.lt_trans hfe (hes p hp)
          · exact hfs p hp

/-- The entries of both maps; where both bind a key, the second one does. -/
def union (d e : Dict β) : Dict β :=
  ⟨merge d.entries e.entries, pairwise_merge d.ordered e.ordered⟩

/-! ## Maps of bindings -/

/-- The map with a single entry. -/
def singleton (k : Text) (v : β) : Dict β := ⟨[(k, v)], List.pairwise_singleton _ _⟩

/-- Maps that are still to be united, the latest one first.  The map at position `i` comes from
    `2 ^ i` bindings, as the digits of a binary number do, so that maps of one size are united. -/
abbrev Pending (β : Type) := List (Option (Dict β))

/-- Adds a map that is later than all others. -/
def Pending.push (d : Dict β) : Pending β → Pending β
  | [] => [some d]
  | none :: r => some d :: r
  | some e :: r => none :: Pending.push (e.union d) r

/-- The union of all maps. -/
def Pending.total : Pending β → Dict β
  | [] => ∅
  | none :: r => total r
  | some d :: r => (total r).union d

/-- The map of a list of bindings, where a later binding of a key wins. -/
def ofList (l : List (Text × β)) : Dict β :=
  Pending.total (l.foldl (fun p e => Pending.push (singleton e.1 e.2) p) [])

/-! ## Laws -/

/-- Only what is found for the key that was put has changed. -/
theorem find_put (k j : Text) (v : β) (es : List (Text × β))
    (h : es.Pairwise fun a b => a.1 < b.1) :
    find j (put k v es) = if k = j then some v else find j es := by
  induction es with
  | nil => simp [put, find]
  | cons p r ih =>
    obtain ⟨hp, hr⟩ := List.pairwise_cons.1 h
    unfold put
    split
    · simp [find]
    · split <;> grind [find]

/-- The entry in front comes first. -/
theorem find_cons (k : Text) (e : Text × β) (es : List (Text × β)) :
    find k (e :: es) = if e.1 = k then some e.2 else find k es := rfl

/-- The list in front comes first. -/
theorem find_append (k : Text) (es fs : List (Text × β)) :
    find k (es ++ fs) = (find k es).or (find k fs) := by
  induction es with
  | nil => simp [find]
  | cons e es ih => by_cases h : e.1 = k <;> simp [find, h, ih]

/-- Looking up after an insertion. -/
theorem get?_insert (d : Dict β) (k j : Text) (v : β) :
    (d.insert k v).get? j = if k = j then some v else d.get? j :=
  find_put k j v d.entries d.ordered

/-- Nothing is bound in an empty map. -/
@[simp] theorem get?_empty (k : Text) : (∅ : Dict β).get? k = none := rfl

/-- Nothing is found for a key before all others. -/
theorem find_eq_none {k : Text} {es : List (Text × β)} (h : ∀ e ∈ es, k < e.1) :
    find k es = none := by
  induction es with
  | nil => rfl
  | cons p r ih =>
    have hp : k < p.1 := h p (by simp)
    have hne : p.1 ≠ k := fun e => List.lt_irrefl k (e ▸ hp)
    simp [find, hne, ih fun e he => h e (by simp [he])]

/-- The second list comes first. -/
theorem find_merge (k : Text) {es fs : List (Text × β)}
    (he : es.Pairwise fun a b => a.1 < b.1) (hf : fs.Pairwise fun a b => a.1 < b.1) :
    find k (merge es fs) = (find k fs).or (find k es) := by
  induction es generalizing fs with
  | nil => simp [merge, find]
  | cons e es ihe =>
    induction fs with
    | nil => simp [merge_nil, find]
    | cons f fs ihf =>
      obtain ⟨hes, he'⟩ := List.pairwise_cons.1 he
      obtain ⟨hfs, hf'⟩ := List.pairwise_cons.1 hf
      rw [merge_cons_cons]
      split
      · rename_i hlt
        by_cases hk : e.1 = k
        -- fs) = none := find_eq_none fun p hp => by :: the key in front of the first list is before
        -- all of the second one
        · have hnone : find k (f :: fs) = none := find_eq_none fun p hp => by
            rcases List.mem_cons.1 hp with rfl | hp
            · exact hk ▸ hlt
            · exact hk ▸ List.lt_trans hlt (hfs p hp)
          rw [hnone, find_cons, if_pos hk, find_cons, if_pos hk]
          rfl
        · rw [find_cons, if_neg hk, ihe he' hf, find_cons k e, if_neg hk]
      · split
        · rename_i _ heq
          rw [find_cons, ihe he' hf', find_cons, find_cons]
          by_cases hk : f.1 = k <;> simp [heq, hk]
        · rw [find_cons, ihf hf', find_cons k f]
          by_cases hk : f.1 = k <;> simp [hk]

/-- In an ascending list, what is found for a key is the entry with it. -/
theorem find_eq_some_iff {k : Text} {v : β} {es : List (Text × β)}
    (h : es.Pairwise fun a b => a.1 < b.1) : find k es = some v ↔ (k, v) ∈ es := by
  induction es with
  | nil => simp [find]
  | cons e es ih =>
    obtain ⟨hes, hr⟩ := List.pairwise_cons.1 h
    rw [find_cons, List.mem_cons]
    by_cases hk : e.1 = k
    · have hlater : (k, v) ∉ es := by
        intro hmem
        have hlt : e.1 < k := hes (k, v) hmem
        rw [hk] at hlt
        exact List.lt_irrefl k hlt
      rw [if_pos hk]
      constructor
      · intro hv
        exact Or.inl (Prod.ext hk.symm (Option.some.inj hv).symm)
      · rintro (rfl | hmem)
        · rfl
        · exact absurd hmem hlater
    · have hne : (k, v) ≠ e := fun he => hk (he ▸ rfl)
      rw [if_neg hk, ih hr]
      exact (or_iff_right hne).symm

/-- What a map binds is what its entries say. -/
theorem get?_eq_some_iff {d : Dict β} {k : Text} {v : β} :
    d.get? k = some v ↔ (k, v) ∈ d.entries := find_eq_some_iff d.ordered

/-- Looking up in a union: the second map comes first. -/
theorem get?_union (d e : Dict β) (k : Text) : (d.union e).get? k = (e.get? k).or (d.get? k) :=
  find_merge k d.ordered e.ordered

/-- A map that is pushed comes before all others, however they are united. -/
theorem get?_total_push (d : Dict β) (p : Pending β) (k : Text) :
    (Pending.total (Pending.push d p)).get? k = (d.get? k).or ((Pending.total p).get? k) := by
  fun_induction Pending.push d p with
  | case1 => simp [Pending.total, get?_union]
  | case2 d r => simp [Pending.total, get?_union]
  | case3 d e r ih => simp [Pending.total, get?_union, ih, Option.or_assoc]

/-- Looking up in a map of bindings: the last binding of a key counts. -/
theorem get?_ofList (l : List (Text × β)) (k : Text) : (ofList l).get? k = find k l.reverse := by
  -- for any maps that are already pending
  have fold (l : List (Text × β)) : ∀ p : Pending β,
      (Pending.total (l.foldl (fun p e => Pending.push (singleton e.1 e.2) p) p)).get? k =
        (find k l.reverse).or ((Pending.total p).get? k) := by
    induction l with
    | nil => simp [find]
    | cons e l ih =>
      intro p
      rw [List.foldl_cons, ih, get?_total_push, List.reverse_cons, find_append, Option.or_assoc]
      rfl
  simpa [ofList, Pending.total] using fold l []

/-- Ascending lists in which the same is found are equal. -/
theorem entries_ext : ∀ {es fs : List (Text × β)},
    (es.Pairwise fun a b => a.1 < b.1) → (fs.Pairwise fun a b => a.1 < b.1) →
    (∀ k, find k es = find k fs) → es = fs
  | [], [], _, _, _ => rfl
  | [], (a, v) :: r, _, _, h => by simpa [find] using h a
  | (a, v) :: r, [], _, _, h => by simpa [find] using h a
  | (a, v) :: r, (b, w) :: s, he, hf, h => by
    obtain ⟨ha, hr⟩ := List.pairwise_cons.1 he
    obtain ⟨hb, hs⟩ := List.pairwise_cons.1 hf
    have below {c x : Text} {y : β} {l : List (Text × β)} (hl : ∀ e ∈ l, (x, y).1 < e.1)
        (hc : c < x) : find c ((x, y) :: l) = none :=
      find_eq_none fun e hm => by
        rcases List.mem_cons.1 hm with rfl | hm
        · exact hc
        · exact List.lt_trans hc (hl e hm)
    -- the lesser of two keys in front would be found in one list only
    have hab : a = b := by
      refine Decidable.byContradiction fun hne => ?_
      by_cases hlt : a < b
      · have := h a
        rw [below hb hlt] at this
        simp [find] at this
      · have := h b
        rw [below ha (lt_of_not_lt hlt hne)] at this
        simp [find] at this
    subst hab
    have hvw : v = w := by simpa [find] using h a
    subst hvw
    have hrs : r = s := entries_ext hr hs fun k => by
      by_cases hk : a = k
      · subst hk
        rw [find_eq_none ha, find_eq_none hb]
      · simpa [find, hk] using h k
    rw [hrs]

/-- Maps that agree on every key are equal. -/
theorem ext_get? {d e : Dict β} (h : ∀ k, d.get? k = e.get? k) : d = e := by
  cases d with
  | mk es hes =>
    cases e with
    | mk fs hfs =>
      have : es = fs := entries_ext hes hfs h
      subst this
      rfl

/-- No key occurs twice, so that the order does not matter. -/
theorem find_reverse (k : Text) {es : List (Text × β)} (h : es.Pairwise fun a b => a.1 < b.1) :
    find k es.reverse = find k es := by
  induction es with
  | nil => rfl
  | cons e es ih =>
    obtain ⟨hes, hr⟩ := List.pairwise_cons.1 h
    rw [List.reverse_cons, find_append, ih hr, find_cons, find_cons]
    by_cases hk : e.1 = k
    · simp [find_eq_none (k := k) fun p hp => hk ▸ hes p hp, hk]
    · simp [hk, find]

/-- A map is the map of its entries. -/
theorem ofList_entries (d : Dict β) : ofList d.entries = d :=
  ext_get? fun k => (get?_ofList d.entries k).trans (find_reverse k d.ordered)

/-- Binding one key after the other is binding them all. -/
theorem foldl_insert (d : Dict β) (l : List (Text × β)) :
    l.foldl (fun d e => d.insert e.1 e.2) d = d.union (ofList l) := by
  refine ext_get? fun k => ?_
  rw [get?_union, get?_ofList]
  induction l generalizing d with
  | nil => simp [find]
  | cons e l ih =>
    rw [List.foldl_cons, ih, get?_insert, List.reverse_cons, find_append]
    by_cases h : e.1 = k <;> simp [find, h]

end Dict
end Pushdown
