/-
  Places on a disk without hard links.

  A place is the list of names on the way to a node, each with the number of the node that it leads
  to.  Such a list says something of the disk only if every name in it is really listed there, and
  if no name in it is a link: then the place stands (`Stands`).

  A disk is a tree if no node is listed twice (`IsTree`).  Then a standing place can be told in two
  ways, and each of them tells it from all others:

  * by its node (`Stands.eq_of_node_eq`), as there is one directory only that lists the node, under
    one name, and so on up to the root,
  * by its absolute path (`Stands.eq_of_path_eq`), as names have no slash in them, and the path can
    be taken apart at its slashes.

  So two paths lead to the same file if and only if they lead to the same place, and if and only if
  the absolute paths of these places are the same.  Comparing the identities of files by their
  spelling rests on this.

  Taking a path apart and putting names together are told first, of any separator
  (`Text.splitAt_append`, `Text.splitAt_join`).
-/
import Mathlib.Data.List.Nodup
import Pushdown.Disk.Basic

namespace Pushdown

open Pushdown.Path (slash here up)

/-! ## Names between slashes

  Splitting at a byte and joining with it undo each other as long as the parts do not have the byte
  in them.  Nothing here is about disks. -/

/-- A name that can be listed: it is no direction and has no slash in it. -/
def Path.IsName (t : Text) : Prop := t ≠ [] ∧ slash ∉ t ∧ t ≠ here ∧ t ≠ up

/-- Whether a text is such a name can be decided. -/
instance (t : Text) : Decidable (Path.IsName t) := inferInstanceAs (Decidable (_ ∧ _ ∧ _ ∧ _))

namespace Text

/-- There is always a part, if only an empty one. -/
theorem splitAt_ne_nil (b : UInt8) (t : Text) : splitAt b t ≠ [] := by
  induction t with
  | nil => exact List.cons_ne_nil _ _
  | cons a t ih =>
    rw [splitAt]
    split
    · exact List.cons_ne_nil _ _
    · split
      · exact List.cons_ne_nil _ _
      · exact List.cons_ne_nil _ _

/-- Without a separator there is only one. -/
theorem splitAt_of_not_mem {b : UInt8} {t : Text} (h : b ∉ t) : splitAt b t = [t] := by
  induction t with
  | nil => rfl
  | cons a t ih =>
    rw [List.mem_cons, not_or] at h
    rw [splitAt, if_neg (Ne.symm h.1), ih h.2]

/-- Splitting a text that is put together at a separator. -/
theorem splitAt_append (b : UInt8) (t u : Text) :
    splitAt b (t ++ b :: u) = splitAt b t ++ splitAt b u := by
  induction t with
  | nil =>
    show splitAt b (b :: u) = [] :: splitAt b u
    rw [splitAt]
    exact if_pos rfl
  | cons a t ih =>
    rw [List.cons_append, splitAt, splitAt, ih]
    split
    · rfl
    · cases hs : splitAt b t with
      | nil => exact absurd hs (splitAt_ne_nil b t)
      | cons p ps => rfl

/-- Splitting takes a joined list of names apart. -/
theorem splitAt_join {b : UInt8} {ts : List Text} (hne : ts ≠ []) (h : ∀ t ∈ ts, b ∉ t) :
    splitAt b (join [b] ts) = ts := by
  induction ts with
  | nil => exact absurd rfl hne
  | cons t ts ih =>
    have ht := splitAt_of_not_mem (h t List.mem_cons_self)
    cases ts with
    | nil => exact ht
    | cons u us =>
      rw [join, List.append_assoc, List.singleton_append, splitAt_append, ht,
        ih (List.cons_ne_nil u us) fun v hv => h v (List.mem_cons_of_mem t hv)]
      · rfl
      · exact List.cons_ne_nil u us

/-- The same for names that are not empty, also if there are none. -/
theorem filter_splitAt_join {b : UInt8} {ts : List Text} (h : ∀ t ∈ ts, t ≠ [] ∧ b ∉ t) :
    (splitAt b (join [b] ts)).filter (· ≠ []) = ts := by
  cases ts with
  | nil => rfl
  | cons t ts =>
    rw [splitAt_join (List.cons_ne_nil t ts) fun u hu => (h u hu).2, List.filter_eq_self]
    exact fun u hu => decide_eq_true (h u hu).1

/-- No part has the separator in it. -/
theorem not_mem_of_mem_splitAt {b : UInt8} {t u : Text} (h : u ∈ splitAt b t) : b ∉ u := by
  induction t generalizing u with
  | nil =>
    rw [List.mem_singleton.mp h]
    exact List.not_mem_nil
  | cons a t ih =>
    rw [splitAt] at h
    split at h
    · rcases List.mem_cons.mp h with rfl | h
      · exact List.not_mem_nil
      · exact ih h
    · rename_i ha
      cases hs : splitAt b t with
      | nil => exact absurd hs (splitAt_ne_nil b t)
      | cons p ps =>
        rw [hs] at h ih
        rcases List.mem_cons.mp h with rfl | h
        · rw [List.mem_cons, not_or]
          exact ⟨Ne.symm ha, ih List.mem_cons_self⟩
        · exact ih (List.mem_cons_of_mem p h)

/-- A joined list of names does not end in the separator. -/
theorem getLast?_join_ne {b : UInt8} {ts : List Text} (h : ∀ t ∈ ts, t ≠ [] ∧ b ∉ t) :
    (join [b] ts).getLast? ≠ some b := by
  induction ts with
  | nil => exact nofun
  | cons t ts ih =>
    obtain ⟨hne, hb⟩ := h t List.mem_cons_self
    have hrest : ∀ u ∈ ts, u ≠ [] ∧ b ∉ u := fun u hu => h u (List.mem_cons_of_mem t hu)
    cases ts with
    | nil => exact fun hlast => hb (List.mem_of_getLast? hlast)
    | cons u us =>
      have hjoin : join [b] (u :: us) ≠ [] := by
        intro hnil
        have := splitAt_join (List.cons_ne_nil u us) fun v hv => (hrest v hv).2
        rw [hnil] at this
        exact (hrest u List.mem_cons_self).1 (List.cons.inj this).1.symm
      rw [join, List.getLast?_append_of_ne_nil _ hjoin]
      · exact ih hrest
      · exact List.cons_ne_nil u us

end Text

namespace Disk

/-! ## Standing places

  Going up from a standing place leads to one, and a tree is a disk on which such places cannot be
  confused. -/

variable {d : Disk} {p q : Place}

/-- `d.Stands p`: every name on the way to `p` is listed there, and no link is crossed. -/
inductive Stands (d : Disk) : Place → Prop where
  | root : Stands d []
  | entry {place : Place} {name : Text} {i : Nat} {entries : List (Text × Nat)}
      (h : Stands d place) (hdir : d.node place.node = .directory entries)
      (hname : nodeOf? name entries = some i) (hshort : name.length ≤ maxName)
      (hnode : ∀ target, d.node i ≠ .link target) : Stands d ((name, i) :: place)

/-- What stands is reached through a place that stands. -/
theorem Stands.tail (h : d.Stands p) : d.Stands p.tail := by
  cases h with
  | root => exact .root
  | entry h => exact h

/-- All entries of all directories, each with the number of its directory. -/
def listing (d : Disk) : List (Nat × Text × Nat) :=
  d.nodes.toList.zipIdx.flatMap fun (n, i) =>
    match n with
    | .directory entries => entries.map (i, ·)
    | _ => []

/-- A disk without hard links: no node is listed twice, and the root, which is a directory, not at
    all. -/
structure IsTree (d : Disk) : Prop where
  names : ∀ e ∈ d.listing, Path.IsName e.2.1
  unique : (d.listing.map (·.2.2)).Nodup
  unlisted : ∀ e ∈ d.listing, e.2.2 ≠ 0
  root : ∃ entries, d.node 0 = .directory entries
  cwd : d.Stands d.cwd

/-- A name that is found is listed. -/
theorem mem_of_nodeOf? {name : Text} {i : Nat} {entries : List (Text × Nat)}
    (h : nodeOf? name entries = some i) : (name, i) ∈ entries := by
  induction entries with
  | nil => exact nomatch h
  | cons e es ih =>
    obtain ⟨n, j⟩ := e
    rw [nodeOf?] at h
    split at h
    · rename_i hn
      rw [hn, Option.some.inj h]
      exact List.mem_cons_self
    · exact List.mem_cons_of_mem _ (ih h)

/-- An entry of a directory is in the listing. -/
theorem mem_listing {i j : Nat} {name : Text} {entries : List (Text × Nat)}
    (hdir : d.node i = .directory entries) (hname : nodeOf? name entries = some j) :
    (i, name, j) ∈ d.listing := by
  have hmem := mem_of_nodeOf? hname
  have hnode : d.nodes.toList[i]? = some (.directory entries) := by
    rw [node, Array.getD_eq_getD_getElem?] at hdir
    rw [Array.getElem?_toList]
    cases hget : d.nodes[i]? with
    | some n =>
      rw [hget] at hdir
      exact congrArg some hdir
    | none =>
      -- behind the end of the table there is nothing but an empty directory
      rw [hget] at hdir
      obtain rfl := Node.directory.inj hdir
      exact nomatch hmem
  refine List.mem_flatMap.mpr ⟨(.directory entries, i), ?_, List.mem_map.mpr ⟨(name, j), hmem, rfl⟩⟩
  exact List.mem_zipIdx_iff_getElem?.mpr hnode

/-- Places of a tree with the same node are the same. -/
theorem Stands.eq_of_node_eq (ht : d.IsTree) (hp : d.Stands p) (hq : d.Stands q)
    (h : p.node = q.node) : p = q := by
  induction hp generalizing q with
  | root =>
    cases hq with
    | root => rfl
    | entry _ hdir hname => exact absurd h.symm (ht.unlisted _ (mem_listing hdir hname))
  | @entry p name i es hp hdir hname hshort hnode ih =>
    cases hq with
    | root => exact absurd h (ht.unlisted _ (mem_listing hdir hname))
    | @entry q name' j fs hq hdir' hname' hshort' hnode' =>
      obtain rfl : i = j := h
      -- the node is listed once, so both have the same name in the same directory
      have heq := List.inj_on_of_nodup_map ht.unique (mem_listing hdir hname)
        (mem_listing hdir' hname') rfl
      simp only [Prod.mk.injEq] at heq
      rw [heq.2.1, ih hq heq.1]

/-- Every name on the way can be listed. -/
theorem Stands.isName (ht : d.IsTree) (hp : d.Stands p) : ∀ t ∈ p.map Prod.fst, Path.IsName t := by
  induction hp with
  | root => exact nofun
  | entry h hdir hname hshort hnode ih =>
    intro t hmem
    rcases List.mem_cons.mp hmem with rfl | hmem
    · exact ht.names _ (mem_listing hdir hname)
    · exact ih t hmem

/-- Places with the same names on the way are the same. -/
theorem Stands.eq_of_names_eq (hp : d.Stands p) (hq : d.Stands q)
    (h : p.map Prod.fst = q.map Prod.fst) : p = q := by
  induction hp generalizing q with
  | root => exact (List.map_eq_nil_iff.mp h.symm).symm
  | entry hp hdir hname hshort hnode ih =>
    cases hq with
    | root => exact nomatch h
    | entry hq hdir' hname' hshort' hnode' =>
      obtain ⟨rfl, hnames⟩ := List.cons.inj h
      obtain rfl := ih hq hnames
      -- the directory is the same one, and a name in it leads to one node
      rw [hdir] at hdir'
      obtain rfl := Node.directory.inj hdir'
      rw [hname] at hname'
      rw [Option.some.inj hname']

/-- Places of a tree with the same absolute path are the same. -/
theorem Stands.eq_of_path_eq (ht : d.IsTree) (hp : d.Stands p) (hq : d.Stands q)
    (h : p.path = q.path) : p = q := by
  have names {r : Place} (hr : d.Stands r) : ∀ t ∈ r.reverse.map Prod.fst, t ≠ [] ∧ slash ∉ t := by
    intro t hmem
    rw [List.map_reverse, List.mem_reverse] at hmem
    obtain ⟨hne, hslash, -, -⟩ := hr.isName ht t hmem
    exact ⟨hne, hslash⟩
  have hjoin := (List.cons.inj h).2
  have hreverse : p.reverse.map Prod.fst = q.reverse.map Prod.fst := by
    rw [← Text.filter_splitAt_join (names hp), hjoin, Text.filter_splitAt_join (names hq)]
  rw [List.map_reverse, List.map_reverse] at hreverse
  exact hp.eq_of_names_eq hq (List.reverse_injective hreverse)

end Disk
end Pushdown
