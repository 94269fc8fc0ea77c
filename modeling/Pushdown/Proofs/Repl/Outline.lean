/-
  Values as lists of labels with levels.

  A value is shown as a tree, which is handed to the display as a flat list: a label for the value,
  and behind it what its elements give, one level deeper.  So a value leaves a block in the list, in
  which the first item is on the level of the value and all others are below it (`IsBlock`), and the
  block of a list falls into the blocks of its elements (`block_eq`).

  The list is built in an array that is handed on from one value to the next.  That a value appends
  its block to whatever is there, and does not look at it, is shown first (`toList_leveled`); from
  then on the blocks are lists, and the array is not seen any more.

  Nothing is lost that way.  The display reads the trees of a level until it meets an item that is
  not as deep.  This keeps neighbours apart, since the first item of each block ends whatever is
  read below the block in front of it (`treesFrom_blocks`).  Labels play no part (`trees_bare`), so
  that a label which looks like another one does no harm.

  Values are lists of values, and their elements are what every induction here is on
  (`Value.induction`): a list is the only value that has any, and all others are alike.
-/
import Pushdown.Repl.Session

namespace Pushdown

open Text (lit)
open Display (Item Tree trees treesFrom)

/-! ## Elements -/

/-- The elements of a value.  Only a list has any. -/
def Value.elements : Value → List Value
  | .list vs => vs
  | _ => []

/-- `v.Has m w`: the value `w` is found `m` levels deep in `v`. -/
inductive Value.Has : Value → Nat → Value → Prop
  | self (v : Value) : v.Has 0 v
  | inside {v w u : Value} {m : Nat} (hw : w ∈ v.elements) (hu : w.Has m u) : v.Has (m + 1) u

/-- What a value has whenever its elements have it is true of every value. -/
theorem Value.induction {P : Value → Prop} (step : ∀ v, (∀ w ∈ v.elements, P w) → P v)
    (v : Value) : P v :=
  @Value.rec P (fun vs => ∀ w ∈ vs, P w)
    (step .none nofun)
    (fun t => step (.token t) nofun)
    (fun vs ih => step (.list vs) ih)
    (fun t => step (.text t) nofun)
    (fun n => step (.int n) nofun)
    nofun
    (fun _ _ hv hvs => List.forall_mem_cons.mpr ⟨hv, hvs⟩)
    v

/-! ## Labels play no part -/

namespace Display

mutual

/-- The tree without its labels. -/
def Tree.shape : Tree → Tree
  | .node _ children => .node [] (shapes children)

/-- The trees without their labels. -/
def shapes : List Tree → List Tree
  | [] => []
  | t :: ts => t.shape :: shapes ts

end

/-- The item without its label. -/
def Item.bare (i : Item) : Item := { i with label := [] }

/-- Without their labels, the items give the trees without theirs. -/
theorem treesFrom_bare (fuel n : Nat) (items : List Item) :
    treesFrom fuel n (items.map Item.bare) =
      (shapes (treesFrom fuel n items).1, (treesFrom fuel n items).2.map Item.bare) := by
  fun_induction treesFrom fuel n items with
  | case1 n items => rfl
  | case2 fuel n hfuel =>
    cases fuel with
    | zero => exact absurd rfl hfuel
    | succ fuel => rfl
  | case3 fuel n i items hi =>
    have hi' : i.bare.level.toNat < n := hi
    rw [List.map_cons, treesFrom, if_pos hi']
    rfl
  | case4 fuel n i items hi children rest hchildren followers rest' hfollowers ih₁ ih₂ =>
    have hi' : ¬ i.bare.level.toNat < n := hi
    rw [hchildren] at ih₁
    rw [hfollowers] at ih₂
    rw [List.map_cons, treesFrom, if_neg hi']
    simp only [ih₁, ih₂]
    rfl

/-- So do all of them. -/
theorem trees_bare (items : List Item) : trees (items.map Item.bare) = shapes (trees items) := by
  rw [trees, trees, treesFrom_bare, List.length_map]

/-- **The levels alone decide which trees are read.** -/
theorem shapes_eq_of_levels_eq {items items' : List Item}
    (h : items.map Item.level = items'.map Item.level) :
    shapes (trees items) = shapes (trees items') := by
  have hbare (items : List Item) :
      items.map Item.bare = (items.map Item.level).map fun level => ⟨level, []⟩ := by
    rw [List.map_map]
    rfl
  rw [← trees_bare, ← trees_bare, hbare, hbare, h]

end Display

namespace Session

/-! ## Blocks

  What a value appends is a block, and a block tells where it ends: at the next item that is not
  deeper than its first one. -/

/-- What a value appends. -/
def block (n : Int) (v : Value) : List Item := (leveled v #[] n).toList

/-- A first item on a level, and otherwise items that are deeper. -/
def IsBlock (n : Int) (items : List Item) : Prop :=
  ∃ i rest, items = i :: rest ∧ i.level = n ∧ ∀ j ∈ rest, n < j.level

/-- A value is its label, and one level deeper its elements. -/
theorem leveled_eq (v : Value) (items : Array Item) (n : Int) :
    leveled v items n = leveledAll v.elements (items.push ⟨n, label v⟩) (n + 1) := by
  cases v <;> rfl

/-- Values are appended one after the other if each of them is. -/
theorem toList_leveledAll {n : Int} {vs : List Value}
    (h : ∀ v ∈ vs, ∀ items, (leveled v items n).toList = items.toList ++ block n v)
    (items : Array Item) :
    (leveledAll vs items n).toList = items.toList ++ vs.flatMap (block n) := by
  induction vs generalizing items with
  | nil => exact (List.append_nil _).symm
  | cons v vs ih =>
    obtain ⟨hv, hvs⟩ := List.forall_mem_cons.mp h
    rw [leveledAll, ih hvs, hv, List.append_assoc, List.flatMap_cons]

/-- A value is appended to whatever is there already, and does not depend on it. -/
theorem toList_leveled (v : Value) (items : Array Item) (n : Int) :
    (leveled v items n).toList = items.toList ++ block n v := by
  induction v using Value.induction generalizing items n with
  | step v ih =>
    have hall := toList_leveledAll fun w hw items => ih w hw items (n + 1)
    rw [block, leveled_eq, leveled_eq, hall, hall, Array.toList_push, Array.toList_push,
      List.append_assoc]
    rfl

/-- The block of a value is its label above the blocks of its elements. -/
theorem block_eq (n : Int) (v : Value) :
    block n v = ⟨n, label v⟩ :: v.elements.flatMap (block (n + 1)) := by
  rw [block, leveled_eq, toList_leveledAll fun w _ items => toList_leveled w items (n + 1)]
  rfl

/-- Nothing in a block is above the value. -/
theorem le_of_mem_block (v : Value) {n : Int} {i : Item} (h : i ∈ block n v) : n ≤ i.level := by
  induction v using Value.induction generalizing n with
  | step v ih =>
    rw [block_eq] at h
    rcases List.mem_cons.mp h with rfl | h
    · exact Int.le_refl n
    · obtain ⟨w, hw, hi⟩ := List.mem_flatMap.mp h
      have hlevel : n + 1 ≤ i.level := ih w hw hi
      omega

/-- The block of a value is one: all its items but the first are deeper. -/
theorem isBlock_block (n : Int) (v : Value) : IsBlock n (block n v) := by
  refine ⟨_, _, block_eq n v, rfl, fun i hi => ?_⟩
  obtain ⟨w, -, hi⟩ := List.mem_flatMap.mp hi
  have hlevel : n + 1 ≤ i.level := le_of_mem_block w hi
  omega

/-- The first of some blocks on a level, or what is behind them, begins on that level or above. -/
theorem level_le_of_head? {n : Int} {vs : List Value} {rest : List Item}
    (hrest : ∀ i ∈ rest.head?, i.level ≤ n) :
    ∀ i ∈ (vs.flatMap (block n) ++ rest).head?, i.level ≤ n := by
  cases vs with
  | nil => exact hrest
  | cons v vs =>
    intro i hi
    rw [List.flatMap_cons, block_eq] at hi
    obtain rfl := Option.some.inj hi
    exact Int.le_refl n

/-- The block of a value that is found deep in another value is a piece of the block of that value,
    and what follows the piece is on its level or above. -/
theorem exists_block_of_has {v w : Value} {m : Nat} (h : v.Has m w) (n : Int) :
    ∃ before after, block n v = before ++ block (n + m) w ++ after ∧
      ∀ i ∈ after.head?, i.level ≤ n + m := by
  induction h generalizing n with
  | self v => exact ⟨[], [], by simp, nofun⟩
  | @inside v w u m hw hu ih =>
    obtain ⟨before, after, hblock, hafter⟩ := ih (n + 1)
    obtain ⟨vs, ws, helements⟩ := List.append_of_mem hw
    have hlevel : n + 1 + (m : Int) = n + (m + 1 : Nat) := by omega
    rw [hlevel] at hblock hafter
    refine ⟨⟨n, label v⟩ :: vs.flatMap (block (n + 1)) ++ before,
      after ++ ws.flatMap (block (n + 1)), ?_, ?_⟩
    · rw [block_eq, helements, List.flatMap_append, List.flatMap_cons, hblock]
      simp only [List.append_assoc, List.cons_append]
    -- behind the piece comes what was behind it in its element, or the next element
    · cases after with
      | cons j after => exact hafter
      | nil =>
        have hnext : ∀ i ∈ (ws.flatMap (block (n + 1)) ++ []).head?, i.level ≤ n + 1 :=
          level_le_of_head? nofun
        rw [List.append_nil] at hnext
        intro i hi
        have hle : i.level ≤ n + 1 := hnext i hi
        omega

/-! ## Trees

  Reading a list of items back is a recursion with two calls, one for what is deeper and one for
  what comes next.  It needs fuel, and the number of items is enough. -/

mutual

/-- The tree of a value: a list is a node above its elements. -/
def outline : Value → Tree
  | .list vs => .node (label (.list vs)) (outlines vs)
  | v => .node (label v) []

/-- The trees of some values. -/
def outlines : List Value → List Tree
  | [] => []
  | v :: vs => outline v :: outlines vs

end

/-- A value is a node above its elements, also if it has none. -/
theorem outline_eq (v : Value) : outline v = .node (label v) (outlines v.elements) := by
  cases v <;> rfl

/-- Reading stops in front of an item that is not as deep. -/
theorem treesFrom_of_lt (fuel : Nat) {n : Nat} {rest : List Item}
    (h : ∀ i ∈ rest.head?, i.level.toNat < n) : treesFrom fuel n rest = ([], rest) := by
  cases fuel with
  | zero => rfl
  | succ fuel =>
    cases rest with
    | nil => rfl
    | cons i rest => rw [treesFrom, if_pos (h i rfl)]

/-- **Reading the blocks of some values gives their trees**, and leaves what is behind them. -/
theorem treesFrom_blocks (fuel n : Nat) (vs : List Value) (rest : List Item)
    (hrest : ∀ i ∈ rest.head?, i.level.toNat < n) (hfuel : (vs.flatMap (block n)).length ≤ fuel) :
    treesFrom fuel n (vs.flatMap (block n) ++ rest) = (outlines vs, rest) := by
  induction fuel generalizing n vs rest with
  | zero =>
    cases vs with
    | nil => exact treesFrom_of_lt _ hrest
    | cons v vs => rw [List.flatMap_cons, block_eq] at hfuel; cases hfuel
  | succ fuel ih =>
    cases vs with
    | nil => exact treesFrom_of_lt _ hrest
    | cons v vs =>
      rw [List.flatMap_cons, block_eq] at hfuel ⊢
      simp only [List.cons_append, List.length_cons, List.length_append,
        List.append_assoc] at hfuel ⊢
      -- what is below `v` ends where the next block begins, or with what is behind all of them
      have hend : ∀ i ∈ (vs.flatMap (block n) ++ rest).head?, i.level.toNat < n + 1 := by
        have hle : ∀ i ∈ rest.head?, i.level ≤ n := by
          intro i hi
          have hlt : i.level.toNat < n := hrest i hi
          omega
        intro i hi
        have hnext : i.level ≤ n := level_le_of_head? hle i hi
        omega
      have hbelow := ih (n + 1) v.elements _ hend (by push_cast; omega)
      have hbehind := ih n vs rest hrest (by omega)
      push_cast at hbelow
      rw [treesFrom, if_neg (by simp)]
      simp only [hbelow, hbehind]
      rw [outlines, outline_eq]

/-- A single value is read back as its tree. -/
theorem trees_block (v : Value) : trees (block 0 v) = [outline v] := by
  have hread := treesFrom_blocks (block 0 v).length 0 [v] [] nofun (by simp)
  simp only [List.flatMap_cons, List.flatMap_nil, List.append_nil, Int.ofNat_zero] at hread
  rw [trees, hread]
  rfl

/-! ## The encoding -/

/-- **The items of a value are its tree in preorder.**  They are appended to what is there already,
    and do not depend on it.  The first of them is on the level that was asked for, and the others
    are deeper.  Each list in the value, however deep, gives an item with its length, then a block
    one level deeper for each of its elements, in their order, and nothing else up to an item that
    is not deeper than that of the list.  The display reads the tree of the value back; which tree
    it reads is decided by the levels, and the labels come in order. -/
theorem leveled_preorder (v : Value) :
    (∀ (items : Array Item) (n : Int), leveled v items n = items ++ leveled v #[] n) ∧
    (∀ n : Int, (∀ i ∈ leveled v #[] n, n ≤ i.level) ∧ IsBlock n (leveled v #[] n).toList) ∧
    (∀ (n : Int) (m : Nat) (vs : List Value), v.Has m (.list vs) →
      ∃ before blocks after, (leveled v #[] n).toList =
          before ++ ⟨n + m, lit "list(" ++ Numeral.ofNat vs.length ++ lit ")"⟩ :: blocks.flatten
            ++ after ∧
        blocks = vs.map (fun w => (leveled w #[] (n + m + 1)).toList) ∧
        (∀ b ∈ blocks, IsBlock (n + m + 1) b) ∧ ∀ i ∈ after.head?, i.level ≤ n + m) ∧
    trees (leveled v #[] 0).toList = [outline v] ∧
    ∀ items : List Item, items.map Item.level = (leveled v #[] 0).toList.map Item.level →
      Display.shapes (trees items) = [(outline v).shape] := by
  refine ⟨fun items n => ?_, fun n => ⟨fun i hi => ?_, isBlock_block n v⟩, fun n m vs h => ?_,
    trees_block v, fun items h => ?_⟩
  · rw [← Array.toList_inj, Array.toList_append]
    exact toList_leveled v items n
  · exact le_of_mem_block v (Array.mem_toList_iff.mpr hi)
  · obtain ⟨before, after, hblock, hafter⟩ := exists_block_of_has h n
    refine ⟨before, vs.map (block (n + m + 1)), after, ?_, rfl, ?_, hafter⟩
    · rw [block_eq (n + m), List.flatMap_def] at hblock
      exact hblock
    · intro b hb
      obtain ⟨w, -, rfl⟩ := List.mem_map.mp hb
      exact isBlock_block _ w
  · rw [Display.shapes_eq_of_levels_eq h]
    exact congrArg Display.shapes (trees_block v)

example : leveled (.list [.int 1, .list [.text (lit "a"), .none], .text (lit "b")]) #[] 0 =
    #[⟨0, lit "list(3)"⟩, ⟨1, lit "1"⟩, ⟨1, lit "list(2)"⟩, ⟨2, lit "a"⟩, ⟨2, lit "nil"⟩,
      ⟨1, lit "b"⟩] := by
  decide +kernel

end Session
end Pushdown
