/-
  When the identity of a file is the place where opening it leads.

  A path is opened component by component: a `..` goes up from wherever the walk is, also if that
  was reached over a link.  The identity of a path is found by cleaning its spelling first, where a
  `..` cancels the name in front of it, and then resolving links.  The two differ behind links: with
  a link from `l` to `d/e`, the path `l/../a` opens `d/a`, but its identity is that of `a`.

  A path is faithful if its identity is the path of the place where opening it leads, and of no file
  if it cannot be opened.  Two faithful paths have the same identity if and only if they open the
  same file (`Faithful.canonical_eq_iff`).  A path is faithful if no `..` stands behind a link in it
  (`faithful_of_isDirect`).

  Both functions walk, though not in the same manner: opening follows few links, and finding the
  identity asks for each place on the way by its absolute path.  `Leads` is a walk that arrives, in
  either manner, as a relation with one constructor for each kind of component, and the functions
  are told to compute it (`leads_of_walkFrom`, `walkFrom_of_leads`).  A walk that arrives in the
  first manner is turned into one of the second in three steps:

  * more links may be followed (`Leads.placewise`), and no place is too deep to be asked for, which
    is what `IsShallow` says of the disk,
  * the walk may start at the root, over the names of the place where it starts (`Leads.fromRoot`),
  * the components may be cleaned before they are walked along (`Leads.cleaned`).  The induction
    goes along the components, and as long as no link was met the cleaned spelling is that of the
    place reached so far; behind a link there is no `..` to be cleaned.

  What remains is spelling: the absolute path that is walked along has the cleaned components
  (`absolute_eq`, `components_join`).
-/
import Pushdown.Proofs.Disk.Places

namespace Pushdown

open Pushdown.Path (slash here up)

namespace Disk

/-! ## Walks that arrive

  Walking is computed with fuel for the links that it follows, and it can fail in many ways.  A walk
  that arrives is told without either: each component was taken in one of four ways, and in the end
  there was none left. -/

/-- `d.Leads m n place cs p`: following `cs` from `place`, and at most `n` links, leads to `p`. -/
inductive Leads (d : Disk) (m : Manner) : Nat → Place → List Text → Place → Prop where
  | arrive {n place} : Leads d m n place [] place
  | stay {n place rest p entries} (hdir : d.node place.node = .directory entries)
      (h : Leads d m n place rest p) : Leads d m n place (here :: rest) p
  | climb {n place rest p entries} (hdir : d.node place.node = .directory entries)
      (h : Leads d m n place.tail rest p) : Leads d m n place (up :: rest) p
  | enter {n place c i rest p entries} (hdir : d.node place.node = .directory entries)
      (hhere : c ≠ here) (hup : c ≠ up) (hshort : c.length ≤ maxName)
      (hallowed : m.admits place c = true) (hname : nodeOf? c entries = some i)
      (hnode : ∀ target, d.node i ≠ .link target)
      (h : Leads d m n ((c, i) :: place) rest p) : Leads d m n place (c :: rest) p
  | follow {n place c i target rest p entries} (hdir : d.node place.node = .directory entries)
      (hhere : c ≠ here) (hup : c ≠ up) (hshort : c.length ≤ maxName)
      (hallowed : m.admits place c = true) (hname : nodeOf? c entries = some i)
      (hnode : d.node i = .link target)
      (h : Leads d m n (if Path.isAbsolute target then [] else place)
        (Path.components target ++ rest) p) : Leads d m (n + 1) place (c :: rest) p

variable {d : Disk} {m : Manner} {n : Nat} {place p q : Place} {c : Text} {cs : List Text}

/-- What arrives after some components has taken a step for each of them, if following a link does
    so. -/
theorem steps_eq_found {onLink : Place → List Text → Except Fault Spot}
    (honLink : ∀ place cs, onLink place cs = .ok (.found p) →
      ∃ k, n = k + 1 ∧ Leads d m k place cs p)
    (h : d.steps m onLink place cs = .ok (.found p)) : Leads d m n place cs p := by
  induction cs generalizing place with
  | nil =>
    obtain rfl : place = p := by simpa [steps] using h
    exact .arrive
  | cons c rest ih =>
    rw [steps] at h
    split at h
    · rename_i entries hdir
      split at h
      · rename_i hc
        rw [hc]
        exact .stay hdir (ih h)
      · rename_i hhere
        split at h
        · rename_i hc
          rw [hc]
          exact .climb hdir (ih h)
        · rename_i hup
          split at h
          · exact nomatch h
          · rename_i hfit
            have hfit' : c.length ≤ maxName ∧ m.admits place c = true := by
              simpa using hfit
            split at h
            · split at h <;> exact nomatch h
            · rename_i i hname
              split at h
              · rename_i target hnode
                obtain ⟨k, rfl, hlink⟩ := honLink _ _ h
                exact .follow hdir hhere hup hfit'.1 hfit'.2 hname hnode hlink
              · rename_i hnode
                exact .enter hdir hhere hup hfit'.1 hfit'.2 hname hnode (ih h)
    · exact nomatch h

/-- A walk that arrives is one of these. -/
theorem leads_of_walkFrom (h : d.walkFrom m n place cs = .ok (.found p)) :
    Leads d m n place cs p := by
  induction n generalizing place cs with
  | zero =>
    rw [walkFrom] at h
    refine steps_eq_found (fun _ _ hlink => ?_) h
    exact nomatch hlink
  | succ n ih =>
    rw [walkFrom] at h
    exact steps_eq_found (fun _ _ hlink => ⟨n, rfl, ih hlink⟩) h

/-- Each of these walks arrives. -/
theorem walkFrom_of_leads (h : Leads d m n place cs p) :
    d.walkFrom m n place cs = .ok (.found p) := by
  induction h with
  | @arrive n place => cases n <;> rfl
  | @stay n place rest p entries hdir h ih =>
    cases n <;> simpa [walkFrom, steps, hdir] using ih
  | @climb n place rest p entries hdir h ih =>
    cases n <;> simpa [walkFrom, steps, hdir, show up ≠ here by decide] using ih
  | @enter n place c i rest p entries hdir hhere hup hshort hallowed hname hnode h ih =>
    have hlong : ¬ maxName < c.length := Nat.not_lt.mpr hshort
    cases hn : d.node i with
    | link target => exact absurd hn (hnode target)
    | file content =>
      cases n <;> simpa [walkFrom, steps, hdir, hhere, hup, hlong, hallowed, hname, hn] using ih
    | directory es =>
      cases n <;> simpa [walkFrom, steps, hdir, hhere, hup, hlong, hallowed, hname, hn] using ih
  | @follow n place c i target rest p entries hdir hhere hup hshort hallowed hname hnode h ih =>
    have hlong : ¬ maxName < c.length := Nat.not_lt.mpr hshort
    simpa [walkFrom, steps, hdir, hhere, hup, hlong, hallowed, hname, hnode] using ih

/-- A walk leads from one standing place to another. -/
theorem Leads.stands (h : Leads d m n place cs p) (hplace : d.Stands place) : d.Stands p := by
  induction h with
  | arrive => exact hplace
  | stay hdir h ih => exact ih hplace
  | climb hdir h ih => exact ih hplace.tail
  | enter hdir hhere hup hshort hallowed hname hnode h ih =>
    exact ih (.entry hplace hdir hname hshort hnode)
  | follow hdir hhere hup hshort hallowed hname hnode h ih =>
    refine ih ?_
    split
    · exact .root
    · exact hplace

/-! ## Faithful paths

  Two directions are asked of a faithful path: that its identity is right if it can be opened, and
  that it is no other file's if it cannot.  The second one matters because an identity is found for
  every path. -/

/-- A regular file. -/
def IsFile (d : Disk) (i : Nat) : Prop := ∃ content, d.node i = .file content

/-- `d.Faithful path`: the identity of `path` is the path of the place where opening it leads, and
    the path of no file if it cannot be opened. -/
structure Faithful (d : Disk) (path : Text) : Prop where
  found : ∀ p, d.locate path = .ok (.found p) → d.canonical path = p.path
  missing : (∀ p, d.locate path ≠ .ok (.found p)) →
    ∀ p, d.Stands p → d.IsFile p.node → d.canonical path ≠ p.path

/-- A path starts at a place that stands. -/
theorem origin_stands (ht : d.IsTree) (path : Text) : d.Stands (d.origin path) := by
  unfold origin
  split
  · exact .root
  · exact ht.cwd

/-- A path that is found leads somewhere, from the place where it starts. -/
theorem leads_of_locate {path : Text} (h : d.locate path = .ok (.found p)) :
    Leads d .atOnce Manner.atOnce.links (d.origin path) (Path.components path) p := by
  unfold locate at h
  repeat' split at h
  · exact nomatch h
  · exact nomatch h
  · exact nomatch h
  · exact leads_of_walkFrom h

/-- What it leads to stands. -/
theorem locate_stands {path : Text} (ht : d.IsTree) (h : d.locate path = .ok (.found p)) :
    d.Stands p :=
  (leads_of_locate h).stands (origin_stands ht path)

/-- The node of a path is that of the place where it leads. -/
theorem lookup_eq_ok {path : Text} {i : Nat} (h : d.lookup path = .ok i) :
    ∃ p, d.locate path = .ok (.found p) ∧ p.node = i := by
  unfold lookup at h
  split at h
  · rename_i p hlocate
    exact ⟨p, hlocate, Except.ok.inj h⟩
  · exact nomatch h
  · exact nomatch h

/-- **Faithful paths have the same identity if and only if they open the same file.** -/
theorem Faithful.canonical_eq_iff (ht : d.IsTree) {path path' : Text} {i : Nat}
    (hf : d.Faithful path) (hf' : d.Faithful path') (h : d.lookup path = .ok i) (hi : d.IsFile i) :
    d.canonical path = d.canonical path' ↔ d.lookup path' = .ok i := by
  obtain ⟨p, hlocate, rfl⟩ := lookup_eq_ok h
  have hp := locate_stands ht hlocate
  have hpath : d.canonical path = p.path := hf.found p hlocate
  rw [hpath]
  by_cases hopen : ∃ p', d.locate path' = .ok (.found p')
  · obtain ⟨p', hlocate'⟩ := hopen
    have hp' := locate_stands ht hlocate'
    have hpath' : d.canonical path' = p'.path := hf'.found p' hlocate'
    have hlookup' : d.lookup path' = .ok p'.node := by rw [lookup, hlocate']
    rw [hpath', hlookup', Except.ok.injEq]
    -- a place of a tree is known by its path and also by its node
    constructor
    · intro h
      rw [hp.eq_of_path_eq ht hp' h]
    · intro h
      rw [hp'.eq_of_node_eq ht hp h]
  · -- what cannot be opened has the identity of no file
    have hne : d.canonical path' ≠ p.path :=
      hf'.missing (fun p' hlocate' => hopen ⟨p', hlocate'⟩) p hp hi
    constructor
    · intro h
      exact absurd h.symm hne
    · intro h
      obtain ⟨p', hlocate', -⟩ := lookup_eq_ok h
      exact absurd ⟨p', hlocate'⟩ hopen

/-- Of the paths that open the file of a faithful path, those with its identity are faithful. -/
theorem Faithful.canonical_eq_iff_faithful (ht : d.IsTree) {path path' : Text} {i : Nat}
    (hf : d.Faithful path) (h : d.lookup path = .ok i) (h' : d.lookup path' = .ok i) :
    d.canonical path = d.canonical path' ↔ d.Faithful path' := by
  obtain ⟨p, hlocate, hp⟩ := lookup_eq_ok h
  obtain ⟨p', hlocate', hp'⟩ := lookup_eq_ok h'
  have hpath : d.canonical path = p.path := hf.found p hlocate
  obtain rfl : p' = p :=
    (locate_stands ht hlocate').eq_of_node_eq ht (locate_stands ht hlocate) (hp'.trans hp.symm)
  rw [hpath]
  constructor
  · intro hsame
    constructor
    · intro q hq
      rw [hlocate'] at hq
      obtain rfl := Spot.found.inj (Except.ok.inj hq)
      exact hsame.symm
    · intro hmissing
      exact absurd hlocate' (hmissing p')
  · intro hf'
    exact (hf'.found p' hlocate').symm

/-! ## Paths without `..` behind a link

  `isDirect` can be computed from the path and the disk, and it is enough for a path that can be
  opened. -/

/-- The number of what a directory lists under a name. -/
def child? (d : Disk) (place : Place) (name : Text) : Option Nat :=
  match d.node place.node with
  | .directory entries => nodeOf? name entries
  | _ => none

/-- Does no `..` stand behind a link on the way along `cs`? -/
def isDirect (d : Disk) : Place → List Text → Bool
  | _, [] => true
  | place, c :: rest =>
    if c = here then d.isDirect place rest
    else if c = up then d.isDirect place.tail rest
    else match d.child? place c with
      | none => true
      | some i =>
        match d.node i with
        | .link _ => up ∉ rest
        | _ => d.isDirect ((c, i) :: place) rest

/-- Nothing is so deep that it cannot be asked for by its absolute path. -/
def IsShallow (d : Disk) : Prop :=
  ∀ place name i, d.Stands place → d.child? place name = some i → place.lengthOf name < maxPath

/-- What is listed may be asked for by its absolute path. -/
theorem IsShallow.admits (hs : d.IsShallow) (hplace : d.Stands place) {i : Nat}
    {entries : List (Text × Nat)} (hdir : d.node place.node = .directory entries)
    (hname : nodeOf? c entries = some i) : Manner.placewise.admits place c = true := by
  refine decide_eq_true (hs place c i hplace ?_)
  rw [child?, hdir]
  exact hname

/-- A standing place is reached from the root by its names. -/
theorem Leads.fromRoot (ht : d.IsTree) (hs : d.IsShallow) (hplace : d.Stands place)
    (h : Leads d .placewise n place cs p) :
    Leads d .placewise n [] ((place.map Prod.fst).reverse ++ cs) p := by
  induction hplace generalizing cs with
  | root => exact h
  | @entry place name i entries hplace hdir hname hshort hnode ih =>
    obtain ⟨-, -, hhere, hup⟩ := ht.names _ (mem_listing hdir hname)
    have hallowed := hs.admits hplace hdir hname
    have h' := ih (.enter hdir hhere hup hshort hallowed hname hnode h)
    rw [List.map_cons, List.reverse_cons, List.append_assoc, List.singleton_append]
    exact h'

/-- What can be opened at once can be reached place by place, since more links are followed. -/
theorem Leads.placewise (hs : d.IsShallow) (hplace : d.Stands place)
    (h : Leads d .atOnce n place cs p) {k : Nat} (hk : n ≤ k) :
    Leads d .placewise k place cs p := by
  induction h generalizing k with
  | arrive => exact .arrive
  | stay hdir h ih => exact .stay hdir (ih hplace hk)
  | climb hdir h ih => exact .climb hdir (ih hplace.tail hk)
  | enter hdir hhere hup hshort hallowed hname hnode h ih =>
    have hchild := Stands.entry hplace hdir hname hshort hnode
    exact .enter hdir hhere hup hshort (hs.admits hplace hdir hname) hname hnode (ih hchild hk)
  | @follow n place c i target rest p entries hdir hhere hup hshort hallowed hname hnode h ih =>
    -- one link more is followed here, and so one more may be
    obtain ⟨k, rfl⟩ : ∃ k', k = k' + 1 := ⟨k - 1, by omega⟩
    have hstart : d.Stands (if Path.isAbsolute target then [] else place) := by
      split
      · exact .root
      · exact hplace
    have hrest := ih hstart (Nat.le_of_succ_le_succ hk)
    exact .follow hdir hhere hup hshort (hs.admits hplace hdir hname) hname hnode hrest

/-- A `.` may be left out behind the components of a link. -/
theorem Leads.filter {cs₁ cs₂ : List Text} (h : Leads d m n place (cs₁ ++ cs₂) p) :
    Leads d m n place (cs₁ ++ cs₂.filter (· ≠ here)) p := by
  generalize hcs : cs₁ ++ cs₂ = cs at h
  -- each step is taken either from `cs₁`, which stays as it is, or from `cs₂`
  induction h generalizing cs₁ cs₂ with
  | arrive =>
    obtain ⟨rfl, rfl⟩ := List.append_eq_nil_iff.mp hcs
    exact .arrive
  | stay hdir h ih =>
    rcases List.append_eq_cons_iff.mp hcs with ⟨rfl, rfl⟩ | ⟨cs₁, rfl, rfl⟩
    · have h' := ih (List.nil_append _)
      simpa using h'
    · exact .stay hdir (ih rfl)
  | climb hdir h ih =>
    rcases List.append_eq_cons_iff.mp hcs with ⟨rfl, rfl⟩ | ⟨cs₁, rfl, rfl⟩
    · have h' := Leads.climb hdir (ih (List.nil_append _))
      rw [List.filter_cons_of_pos (by decide)]
      exact h'
    · exact .climb hdir (ih rfl)
  | enter hdir hhere hup hshort hallowed hname hnode h ih =>
    rcases List.append_eq_cons_iff.mp hcs with ⟨rfl, rfl⟩ | ⟨cs₁, rfl, rfl⟩
    · have h' := Leads.enter hdir hhere hup hshort hallowed hname hnode (ih (List.nil_append _))
      rw [List.filter_cons_of_pos (by simpa using hhere)]
      exact h'
    · exact .enter hdir hhere hup hshort hallowed hname hnode (ih rfl)
  | follow hdir hhere hup hshort hallowed hname hnode h ih =>
    rcases List.append_eq_cons_iff.mp hcs with ⟨rfl, rfl⟩ | ⟨cs₁, rfl, rfl⟩
    · have h' := Leads.follow hdir hhere hup hshort hallowed hname hnode (ih rfl)
      rw [List.filter_cons_of_pos (by simpa using hhere)]
      exact h'
    · have h' := ih (List.append_assoc _ cs₁ cs₂)
      rw [List.append_assoc] at h'
      exact .follow hdir hhere hup hshort hallowed hname hnode h'

/-- A name is put on top. -/
theorem push_name (hne : c ≠ []) (hhere : c ≠ here) (hup : c ≠ up) (stack : List Text) :
    Path.push true stack c = c :: stack := by
  unfold Path.push
  rw [if_neg (not_or.mpr ⟨hne, hhere⟩), if_neg hup]

/-- What is empty is left out, and so is a `.`. -/
theorem push_skip (h : c = [] ∨ c = here) (stack : List Text) : Path.push true stack c = stack := by
  unfold Path.push
  rw [if_pos h]

/-- Without `..` cleaning only drops each `.`. -/
theorem foldl_push_of_not_mem {stack : List Text} (hup : up ∉ cs) (hne : [] ∉ cs) :
    cs.foldl (Path.push true) stack = (cs.filter (· ≠ here)).reverse ++ stack := by
  induction cs generalizing stack with
  | nil => rfl
  | cons c cs ih =>
    rw [List.mem_cons, not_or] at hup hne
    rw [List.foldl_cons, ih hup.2 hne.2]
    by_cases hc : c = here
    · rw [List.filter_cons_of_neg (by simpa using hc), push_skip (.inr hc)]
    · rw [List.filter_cons_of_pos (by simpa using hc), push_name (Ne.symm hne.1) hc (Ne.symm hup.1),
        List.reverse_cons, List.append_assoc, List.singleton_append]

/-- A `..` takes a place and the cleaned spelling of it up alike. -/
theorem push_up (ht : d.IsTree) (hplace : d.Stands place) :
    Path.push true (place.map Prod.fst) up = place.tail.map Prod.fst := by
  cases hplace with
  | root => rfl
  | @entry place name i entries h hdir hname hshort hnode =>
    obtain ⟨-, -, -, hup⟩ := ht.names _ (mem_listing hdir hname)
    show (if name = up then _ else _) = _
    rw [if_neg hup]
    rfl

/-- **Cleaning a path without `..` behind a link does not change where it leads.** -/
theorem Leads.cleaned (ht : d.IsTree) (hs : d.IsShallow) (h : Leads d .atOnce n place cs p)
    (hplace : d.Stands place) (hdirect : d.isDirect place cs = true) (hne : [] ∉ cs) {k : Nat}
    (hk : n ≤ k) :
    Leads d .placewise k [] (cs.foldl (Path.push true) (place.map Prod.fst)).reverse p := by
  induction h with
  | @arrive n place =>
    have h := Leads.fromRoot (n := k) ht hs hplace .arrive
    rw [List.append_nil] at h
    exact h
  | stay hdir h ih =>
    rw [List.mem_cons, not_or] at hne
    rw [isDirect, if_pos rfl] at hdirect
    exact ih hplace hdirect hne.2 hk
  | climb hdir h ih =>
    rw [List.mem_cons, not_or] at hne
    rw [isDirect, if_neg (by decide), if_pos rfl] at hdirect
    rw [List.foldl_cons, push_up ht hplace]
    exact ih hplace.tail hdirect hne.2 hk
  | @enter n place c i rest p entries hdir hhere hup hshort hallowed hname hnode h ih =>
    rw [List.mem_cons, not_or] at hne
    have hentry : d.child? place c = some i := by
      rw [child?, hdir]
      exact hname
    rw [isDirect, if_neg hhere, if_neg hup, hentry] at hdirect
    -- the place and the cleaned spelling grow by the same name
    have hdirect' : d.isDirect ((c, i) :: place) rest = true := by
      cases hn : d.node i with
      | link target => exact absurd hn (hnode target)
      | file content => simpa only [hn] using hdirect
      | directory es => simpa only [hn] using hdirect
    rw [List.foldl_cons, push_name (Ne.symm hne.1) hhere hup]
    exact ih (.entry hplace hdir hname hshort hnode) hdirect' hne.2 hk
  | @follow n place c i target rest p entries hdir hhere hup hshort hallowed hname hnode h ih =>
    rw [List.mem_cons, not_or] at hne
    have hentry : d.child? place c = some i := by
      rw [child?, hdir]
      exact hname
    rw [isDirect, if_neg hhere, if_neg hup, hentry] at hdirect
    have hrest : up ∉ rest := by simpa [hnode] using hdirect
    -- from here on the path is only followed, so it may as well be followed from the root
    have hwhole : Leads d .atOnce (n + 1) place ([c] ++ rest) p :=
      .follow hdir hhere hup hshort hallowed hname hnode h
    have hroot := ((hwhole.filter).placewise hs hplace hk).fromRoot ht hs hplace
    rw [List.foldl_cons, push_name (Ne.symm hne.1) hhere hup, foldl_push_of_not_mem hrest hne.2,
      List.reverse_append, List.reverse_reverse, List.reverse_cons, List.append_assoc]
    exact hroot

/-! ## Spelling

  Cleaning is a fold over the parts between slashes, and walking goes by components.  They differ in
  empty parts, and in a slash at the end. -/

/-- Cleaning leaves out what is empty anyway. -/
theorem foldl_push_filter (cs : List Text) (stack : List Text) :
    (cs.filter (· ≠ [])).foldl (Path.push true) stack = cs.foldl (Path.push true) stack := by
  induction cs generalizing stack with
  | nil => rfl
  | cons c cs ih =>
    by_cases hc : c = []
    · rw [List.filter_cons_of_neg (by simpa using hc), List.foldl_cons, push_skip (.inl hc), ih]
    · rw [List.filter_cons_of_pos (by simpa using hc), List.foldl_cons, List.foldl_cons, ih]

/-- Cleaning goes by the components of a path. -/
theorem foldl_push_components (path : Text) (stack : List Text) :
    (Path.components path).foldl (Path.push true) stack =
      (Text.splitAt slash path).foldl (Path.push true) stack := by
  rw [Path.components, List.foldl_append, foldl_push_filter]
  split
  · rw [List.foldl_cons, push_skip (.inr rfl)]
    rfl
  · rfl

/-- Names stay as they are when they are cleaned. -/
theorem foldl_push_names {names stack : List Text} (h : ∀ t ∈ names, Path.IsName t) :
    names.foldl (Path.push true) stack = names.reverse ++ stack := by
  have hne : [] ∉ names := fun hmem => (h [] hmem).1 rfl
  have hup : up ∉ names := fun hmem => (h up hmem).2.2.2 rfl
  have hhere : names.filter (· ≠ here) = names :=
    List.filter_eq_self.mpr fun t ht => decide_eq_true (h t ht).2.2.1
  rw [foldl_push_of_not_mem hup hne, hhere]

/-- The absolute path of a place spells its names. -/
theorem foldl_push_path (ht : d.IsTree) (hplace : d.Stands place) :
    (Text.splitAt slash place.path).foldl (Path.push true) [] = place.map Prod.fst := by
  have hnames : ∀ t ∈ place.reverse.map Prod.fst, Path.IsName t := by
    intro t hmem
    rw [List.map_reverse, List.mem_reverse] at hmem
    exact hplace.isName ht t hmem
  have hsplit : Text.splitAt slash place.path =
      [] :: Text.splitAt slash (Text.join [slash] (place.reverse.map Prod.fst)) :=
    Text.splitAt_append slash [] _
  rw [hsplit, List.foldl_cons, push_skip (.inl rfl), ← foldl_push_filter,
    Text.filter_splitAt_join fun t hmem => ⟨(hnames t hmem).1, (hnames t hmem).2.1⟩,
    foldl_push_names hnames, List.append_nil, List.map_reverse, List.reverse_reverse]

/-- The absolute path of a name is spelled from the place where the path starts. -/
theorem absolute_eq (ht : d.IsTree) (path : Text) :
    d.absolute path = slash :: Text.join [slash]
      ((Path.components path).foldl (Path.push true) ((d.origin path).map Prod.fst)).reverse := by
  rw [foldl_push_components]
  unfold absolute origin
  split
  · rename_i habs
    rw [Path.clean, habs]
    rfl
  · rw [Path.clean, Text.splitAt_append, List.foldl_append]
    have hrooted : Path.isAbsolute (d.cwd.path ++ slash :: path) = true := rfl
    rw [hrooted, foldl_push_path ht ht.cwd]
    rfl

/-- Nothing new is put on top. -/
theorem mem_push {t : Text} {stack : List Text} (h : t ∈ Path.push true stack c) :
    t ∈ stack ∨ t = c ∧ t ≠ [] := by
  unfold Path.push at h
  split at h
  · exact .inl h
  · rename_i hc
    rw [not_or] at hc
    split at h
    · cases stack with
      | nil => exact .inl h
      | cons top rest =>
        simp only at h
        split at h
        · rename_i hup _
          rcases List.mem_cons.mp h with rfl | h
          · exact .inr ⟨hup.symm, hup ▸ hc.1⟩
          · exact .inl h
        · exact .inl (List.mem_cons_of_mem top h)
    · rcases List.mem_cons.mp h with rfl | h
      · exact .inr ⟨rfl, hc.1⟩
      · exact .inl h

/-- What cleaning leaves was there before, or is a component. -/
theorem mem_foldl_push {t : Text} {stack : List Text}
    (h : t ∈ cs.foldl (Path.push true) stack) : t ∈ stack ∨ t ∈ cs ∧ t ≠ [] := by
  induction cs generalizing stack with
  | nil => exact .inl h
  | cons c cs ih =>
    rw [List.foldl_cons] at h
    rcases ih h with h | ⟨h, hne⟩
    · rcases mem_push h with h | ⟨rfl, hne⟩
      · exact .inl h
      · exact .inr ⟨List.mem_cons_self, hne⟩
    · exact .inr ⟨List.mem_cons_of_mem c h, hne⟩

/-- A component is not empty and has no slash in it. -/
theorem mem_components {path t : Text} (h : t ∈ Path.components path) : t ≠ [] ∧ slash ∉ t := by
  rcases List.mem_append.mp h with h | h
  · obtain ⟨hmem, hne⟩ := List.mem_filter.mp h
    exact ⟨of_decide_eq_true hne, Text.not_mem_of_mem_splitAt hmem⟩
  -- a slash at the end asks for a directory, as a `.` does
  · split at h
    · rw [List.mem_singleton.mp h]
      decide
    · exact nomatch h

/-- A path of names has these names as components; the path of the root asks for a directory. -/
theorem components_join {names : List Text} (h : ∀ t ∈ names, t ≠ [] ∧ slash ∉ t) :
    Path.components (slash :: Text.join [slash] names) = if names = [] then [here] else names := by
  have hsplit : Text.splitAt slash (slash :: Text.join [slash] names) =
      [] :: Text.splitAt slash (Text.join [slash] names) := Text.splitAt_append slash [] _
  rw [Path.components, hsplit, List.filter_cons_of_neg (by simp), Text.filter_splitAt_join h]
  by_cases hnil : names = []
  · rw [hnil]
    rfl
  · have hjoin : Text.join [slash] names ≠ [] := by
      intro hempty
      have hfilter := Text.filter_splitAt_join h
      rw [hempty] at hfilter
      exact hnil hfilter.symm
    have hlast : (slash :: Text.join [slash] names).getLast? ≠ some slash := by
      rw [List.getLast?_cons_of_ne_nil hjoin]
      exact Text.getLast?_join_ne h
    rw [if_neg hlast, if_neg hnil, List.append_nil]

/-- **Paths that can be opened are faithful if no `..` stands behind a link in them.** -/
theorem faithful_of_isDirect (ht : d.IsTree) (hs : d.IsShallow) {path : Text}
    (hlocate : d.locate path = .ok (.found p))
    (hdirect : d.isDirect (d.origin path) (Path.components path) = true) : d.Faithful path := by
  have horigin := origin_stands ht path
  -- the walk along the cleaned components arrives where the path leads
  have hclean := (leads_of_locate hlocate).cleaned ht hs horigin hdirect
    (fun hmem => (mem_components hmem).1 rfl) (k := Manner.placewise.links) (by decide)
  have hnames : ∀ t ∈ ((Path.components path).foldl (Path.push true)
      ((d.origin path).map Prod.fst)).reverse, t ≠ [] ∧ slash ∉ t := by
    intro t hmem
    rcases mem_foldl_push (List.mem_reverse.mp hmem) with hmem | ⟨hmem, -⟩
    · obtain ⟨hne, hslash, -, -⟩ := horigin.isName ht t hmem
      exact ⟨hne, hslash⟩
    · exact mem_components hmem
  -- and these are the components of the absolute path
  have hwalk : d.walk .placewise [] (Path.components (d.absolute path)) = .ok (.found p) := by
    refine walkFrom_of_leads ?_
    rw [absolute_eq ht, components_join hnames]
    split
    · -- the path cleans to that of the root
      rename_i hnil
      rw [hnil] at hclean
      obtain ⟨entries, hroot⟩ := ht.root
      exact .stay hroot hclean
    · exact hclean
  constructor
  · intro q hq
    rw [hlocate] at hq
    obtain rfl := Spot.found.inj (Except.ok.inj hq)
    rw [canonical, hwalk]
  · intro hmissing
    exact absurd hlocate (hmissing p)

end Disk
end Pushdown
