/-
  Lexing comes to an end, and the stack of sources stays low.

  That the steps of a lexer are well-founded is what makes `next` a function.  From it follows that
  one call is a loop of finitely many steps (`exists_nextWithin`), and that calls that go on after
  errors use the lexer up (`exists_isUsedUp`); from then on every call says that the input has
  ended.

  The height of the stack has a bound of its own.  `Reachable` are the paths that `#include` lines
  lead to: those in the inputs, and those in files that are reachable already.  Whatever is on the
  stack only includes reachable files (`IncludesOnly`), so every source but the lowest is a
  reachable file, and their identities differ.  There cannot be more of them than identities.

  The invariant of a lexer is `Nested`, and what makes it one has three parts:

  * a source that reads a line gets its includes from the lines that were ahead
    (`IncludesOnly.read`);
  * a source that cut a lexeme off is not at the start of a line any more, and a directive there
    does not count (`IsLate`); so what is left of a line never includes anything, whatever is in it;
  * a file that is put on top is one that the source below was at the start of a line to include.

  Paths and identities are told apart throughout.  There can be infinitely many paths to a file, by
  links that lead back up, and each of them may be reachable; the bound counts identities, and these
  are finite since each comes from a line that can be read, and there are finitely many lines on the
  disk (`reachableKeys_finite`).
-/
import Mathlib
import Pushdown.Proofs.Lexer.Expansion
import Pushdown.Proofs.Lexer.SourceStack

namespace Pushdown

namespace Lexer

/-! ## One call, and one call after the other

  A call is a loop of steps, and each step goes down in a well-founded order.  So fuel can be found
  for it, and for a run of calls as well: what every call leaves is lower than what it was called
  with, until nothing is left. -/

/-- The next token, if no more than `n` steps are needed for it. -/
def nextWithin (d : Disk) : (n : Nat) → Lexer → Option Reading
  | 0, _ => none
  | n + 1, l =>
    match step d l with
    | .done outcome l' => some { outcome, lexer := l' }
    | .more l' w => (nextWithin d n l').map (Reading.after w.toList)

/-- A call is a loop of finitely many steps. -/
theorem exists_nextWithin (d : Disk) (l : Lexer) : ∃ n, nextWithin d n l = some (next d l) := by
  induction l using (spends_wellFounded d).induction with
  | _ l ih =>
    cases hs : step d l with
    | done outcome l' => exact ⟨1, by rw [nextWithin, hs, next_of_done hs]⟩
    | more l' w =>
      obtain ⟨n, hn⟩ := ih l' (spends_of_more hs)
      refine ⟨n + 1, ?_⟩
      rw [nextWithin, hs, next_of_more hs]
      dsimp only
      rw [hn]
      rfl

/-- If the steps are enough, the result is that of the call. -/
theorem next_of_nextWithin {d : Disk} {n : Nat} {l : Lexer} {r : Reading}
    (h : nextWithin d n l = some r) : next d l = r := by
  induction n generalizing l r with
  | zero => cases h
  | succ n ih =>
    rw [nextWithin] at h
    cases hs : step d l with
    | done outcome l' =>
      rw [hs] at h
      rw [next_of_done hs]
      exact Option.some.inj h
    | more l' w =>
      rw [hs] at h
      obtain ⟨r', hr', rfl⟩ := Option.map_eq_some_iff.mp h
      rw [next_of_more hs, ih hr']

/-- The lexer after a call, whatever the outcome was. -/
def afterCall (d : Disk) (l : Lexer) : Lexer := (next d l).lexer

/-- The lexer after one step of the loop in a call. -/
def afterStep (d : Disk) (l : Lexer) : Lexer := (step d l).lexer

/-- A lexer that is used up reports the end of input and stays as it is. -/
theorem next_of_isUsedUp (d : Disk) {l : Lexer} (h : l.IsUsedUp) :
    next d l = { outcome := .ok .eof, lexer := l } := next_of_done (step_of_isUsedUp d h)

/-- Calls use a lexer up. -/
theorem exists_isUsedUp (d : Disk) (l : Lexer) : ∃ n, ((afterCall d)^[n] l).IsUsedUp := by
  -- each call takes at least one step, and there are no infinite chains of steps
  induction l using (spends_wellFounded d).transGen.induction with
  | _ l ih =>
    by_cases hu : l.IsUsedUp
    · exact ⟨0, hu⟩
    · obtain ⟨n, hn⟩ := ih (afterCall d l) (next_spends d hu)
      exact ⟨n + 1, by rw [Function.iterate_succ_apply]; exact hn⟩

/-- From some call on, all that is seen is the end of input. -/
theorem exists_ended (d : Disk) (l : Lexer) :
    ∃ n, ∀ m, n ≤ m → (next d ((afterCall d)^[m] l)).outcome = .ok .eof := by
  obtain ⟨n, hn⟩ := exists_isUsedUp d l
  refine ⟨n, fun m hm => ?_⟩
  have hfixed : afterCall d ((afterCall d)^[n] l) = (afterCall d)^[n] l := by
    rw [afterCall, next_of_isUsedUp d hn]
  have hstay : (afterCall d)^[m] l = (afterCall d)^[n] l := by
    obtain ⟨k, rfl⟩ := Nat.exists_eq_add_of_le' hm
    rw [Function.iterate_add_apply]
    exact Function.iterate_fixed hfixed k
  rw [hstay, next_of_isUsedUp d hn]

end Lexer

/-! ## Files that can be reached

  `Reachable` goes through files and not through sources: it asks what is written in them, and not
  what is read when.  A source that stands on the stack has been read in part, and what it can still
  include is among the lines that were ahead of it (`At.includesOnly`). -/

/-- The lines that are ahead of a source, which is opened if need be. -/
def Ahead.texts (d : Disk) : Ahead → List Text
  | .lines ls _ => ls
  | .unopened p =>
    match d.lookup p with
    | .ok i => (Feed.file p i 0).lines d
    | .error _ => []

/-- `Reachable d path inputs p`: an `#include` leads to the file at `p`, in one of the inputs or in
    a file that is reachable itself. -/
inductive Reachable (d : Disk) (path : SearchPath) (inputs : List Input) : Text → Prop where
  | input {i : Input} {t name : Text} (hi : i ∈ inputs) (ht : t ∈ (i.ahead d).texts d)
      (h : Content.ofLine t = .directive (.ok (.includeFile name))) :
      Reachable d path inputs (path.resolve d name)
  | file {p t name : Text} (hp : Reachable d path inputs p)
      (ht : t ∈ (Ahead.unopened p).texts d)
      (h : Content.ofLine t = .directive (.ok (.includeFile name))) :
      Reachable d path inputs (path.resolve d name)

/-- The identities of the files that can be reached. -/
def reachableKeys (d : Disk) (path : SearchPath) (inputs : List Input) : Set Text :=
  { k | ∃ p, Reachable d path inputs p ∧ d.canonical p = k }

namespace Source

/-- Every `#include` ahead of a source, in its current line or behind it, leads to a file of `R`. -/
structure IncludesOnly (d : Disk) (path : SearchPath) (R : Text → Prop) (s : Source) : Prop where
  current : ∀ name rest, s.Includes name rest → R (path.resolve d name)
  ahead : ∀ r, s.reader d = .ok r → ∃ ls e, r.Yields d ls e ∧ ∀ t ∈ ls, ∀ name,
    Content.ofLine t = .directive (.ok (.includeFile name)) → R (path.resolve d name)

/-- The current line is not at its start any more, so no directive in it counts. -/
def IsLate (s : Source) : Prop := ∀ scan, s.scan = some scan → scan.first = false

variable {d : Disk} {path : SearchPath} {R : Text → Prop} {s s' : Source}

/-- Behind the start of a line nothing is included. -/
theorem IsLate.not_includes (h : s.IsLate) {name : Text} {rest : Scan} :
    ¬ s.Includes name rest := by
  rintro ⟨scan, x, hscan, hfirst, -⟩
  rw [h scan hscan] at hfirst
  exact Bool.false_ne_true hfirst

/-- A directive at the start of a line is what the line holds. -/
theorem Includes.ofLine_eq {t name : Text} {rest : Scan} (hs : s.scan = some ⟨t, true⟩)
    (h : s.Includes name rest) : Content.ofLine t = .directive (.ok (.includeFile name)) := by
  obtain ⟨scan, x, hscan, -, hnext, hx, hparse⟩ := h
  obtain rfl := Option.some.inj (hs.symm.trans hscan)
  rw [Content.ofLine_of_next hnext hx, hparse]

/-- A source between two lines includes what its lines say. -/
theorem At.includesOnly {pos : Position} {ahead : Ahead} (h : s.At d pos ahead)
    (hR : ∀ t ∈ ahead.texts d, ∀ name, Content.ofLine t = .directive (.ok (.includeFile name)) →
      R (path.resolve d name)) : s.IncludesOnly d path R := by
  obtain ⟨hscan, -, hholds⟩ := h
  constructor
  · rintro name rest ⟨scan, x, hscan', -⟩
    rw [hscan] at hscan'
    cases hscan'
  · intro r hr
    cases ahead with
    | lines ls e =>
      obtain ⟨r', hr', hyields⟩ := hholds
      rw [hr] at hr'
      obtain rfl := Except.ok.inj hr'
      exact ⟨ls, e, hyields, hR⟩
    | unopened p =>
      have horigin : s.origin = .unopened p := hholds
      rw [reader, horigin] at hr
      dsimp only at hr
      rw [Ahead.texts] at hR
      cases hlookup : d.lookup p with
      | error f =>
        rw [hlookup] at hr
        cases hr
      | ok i =>
        rw [hlookup] at hr hR
        obtain rfl := Except.ok.inj hr
        exact ⟨_, _, Reader.yields_of_feed d _, hR⟩

/-- Reading a line. -/
theorem IncludesOnly.read (h : s.IncludesOnly d path R) (hs : s.advance d = .line s') :
    s'.IncludesOnly d path R := by
  rw [advance_eq] at hs
  cases hr : s.reader d with
  | error f =>
    rw [hr] at hs
    exact nomatch hs
  | ok r =>
    rw [hr] at hs
    obtain ⟨ls, e, hyields, hR⟩ := h.ahead r hr
    cases ls with
    | nil =>
      -- behind the last line there is a stop, not a line
      have hstop := hyields.readLine_nil
      dsimp only [readLine] at hs
      rcases hread : r.readLine d with ⟨line, r'⟩
      rw [hread] at hs hstop
      obtain rfl : line = .ofStop e := hstop
      cases e with
      | ended => exact nomatch hs
      | failed m => exact nomatch hs
    | cons t ls =>
      obtain ⟨r', hread, hyields'⟩ := hyields.readLine_cons
      dsimp only [readLine] at hs
      rw [hread] at hs
      obtain rfl := Advance.line.inj hs
      constructor
      -- the line that was read is now the current one
      · intro name rest hi
        exact hR t List.mem_cons_self name (hi.ofLine_eq rfl)
      · intro r'' hr''
        obtain rfl := Except.ok.inj hr''
        exact ⟨ls, e, hyields', fun t' ht' => hR t' (List.mem_cons_of_mem t ht')⟩

/-- Going on behind the start of a line. -/
theorem IncludesOnly.late (h : s.IncludesOnly d path R) (ho : s'.origin = s.origin)
    (hs : s'.IsLate) : s'.IncludesOnly d path R := by
  refine ⟨fun name rest hi => absurd hi hs.not_includes, fun r hr => h.ahead r ?_⟩
  rw [reader, ho] at hr
  exact hr

end Source

namespace Lexer

variable {d : Disk} {l l' : Lexer} {s : Source} {below : List Source} {path : SearchPath}
  {R : Text → Prop}

/-- What is on a stack whose innermost source was worked on: sources that were there, and sources
    that are not at the start of a line. -/
def OnlyLate (below : List Source) (l : Lexer) : Prop := ∀ s ∈ l.stack, s ∈ below ∨ s.IsLate

/-- The source that was worked on is behind the start of its line. -/
theorem onlyLate_withTop (hl : l.stack = s :: below) {s' : Source} (hs : s'.IsLate) :
    OnlyLate below (l.withTop s') := by
  intro t ht
  rw [withTop_stack hl] at ht
  rcases List.mem_cons.mp ht with rfl | hmem
  · exact Or.inr hs
  · exact Or.inl hmem

/-- A file that is put on top has no line in progress. -/
theorem OnlyLate.push (h : OnlyLate below l) (p : Text) :
    OnlyLate below (l.push (.ofFile d p)) := by
  intro t ht
  rcases List.mem_cons.mp ht with rfl | hmem
  · exact Or.inr nofun
  · exact h t hmem

/-- Cutting a lexeme off moves a source away from the start of its line. -/
theorem onlyLate_cut {scan : Scan} (hl : l.stack = s :: below) :
    OnlyLate below (l.cut d s scan).lexer := by
  have late {x : Lexeme} {rest : Scan} {s' : Source} (hnext : scan.next = some (x, rest))
      (hs' : s'.scan = some rest) : OnlyLate below (l.withTop s') := by
    refine onlyLate_withTop hl fun scan' hscan' => ?_
    obtain rfl := Option.some.inj (hs'.symm.trans hscan')
    exact (Scan.next_rest hnext).1
  have hone := lineStep_cut d l s scan
  generalize l.cut d s scan = st at hone
  cases hone with
  | blank => exact onlyLate_withTop hl nofun
  | skip hnext => exact late hnext rfl
  | lineNumber hnext => exact late hnext rfl
  | nest hnext => exact (late hnext rfl).push _
  | deliver hnext => exact late hnext rfl
  | fail hfirst hnext => exact late hnext rfl

/-- A step on a line in progress leaves only such sources. -/
theorem onlyLate_step (hl : l.stack = s :: below) (hs : s.scan.isSome = true) :
    OnlyLate below (step d l).lexer := by
  obtain ⟨scan, hscan⟩ := Option.isSome_iff_exists.mp hs
  rw [step_cut hl hscan]
  exact onlyLate_cut hl

/-- All that a lexer may still include is in `R`, and all that was included is. -/
structure Nested (d : Disk) (path : SearchPath) (R : Text → Prop) (l : Lexer) : Prop where
  path_eq : l.path = path
  keyed : l.Keyed
  stack : ∀ s ∈ l.stack, s.IncludesOnly d path R
  pending : ∀ s ∈ l.pending, s.IncludesOnly d path R
  /-- Every source with another one below it is a file that was included. -/
  included : ∀ s ∈ l.stack.dropLast, ∃ p, R p ∧ s.key = some (d.canonical p)

/-- The innermost source was worked on. -/
theorem Nested.withTop (h : l.Nested d path R) {s' : Source} (hl : l.stack = s :: below)
    (hk : s'.key = s.key) (hs : s'.IncludesOnly d path R) : (l.withTop s').Nested d path R := by
  obtain ⟨hpath, hkeyed, hstack, hpending, hincluded⟩ := h
  rw [hl] at hstack hincluded
  have hstack' := withTop_stack hl s'
  refine ⟨hpath, hkeyed.withTop hl hk, ?_, hpending, ?_⟩
  · rw [hstack']
    exact List.forall_mem_cons.mpr ⟨hs, (List.forall_mem_cons.mp hstack).2⟩
  · rw [hstack']
    cases below with
    | nil => exact List.forall_mem_nil _
    | cons b below =>
      rw [List.dropLast_cons_cons, List.forall_mem_cons] at hincluded ⊢
      rw [hk]
      exact hincluded

/-- What one move preserves, if `R` has all files that its files include. -/
theorem Nested.moves (hR : ∀ p, R p → (Source.ofFile d p).IncludesOnly d path R)
    (h : l.Nested d path R) (hm : Moves d l l')
    (hlate : ∀ s below, l.stack = s :: below → s.scan.isSome = true → OnlyLate below l') :
    l'.Nested d path R := by
  have hkeyed := h.keyed.moves hm
  cases hm with
  | idle => exact h
  | @start s rest hs hp =>
    obtain ⟨hpath, -, -, hpending, -⟩ := h
    rw [hp, List.forall_mem_cons] at hpending
    have hstack : ({ l with pending := rest }.push s).stack = [s] := by rw [push, hs]
    refine ⟨hpath, hkeyed, ?_, hpending.2, ?_⟩
    · rw [hstack]
      exact List.forall_mem_singleton.mpr hpending.1
    · rw [hstack]
      exact List.forall_mem_nil _
  | @goOn s s' below hl hs =>
    have htop := h.stack s (by rw [hl]; exact List.mem_cons_self)
    refine h.withTop hl hs.key_eq ?_
    cases hs with
    | read hscan hread => exact htop.read hread
    | cut hscan ho hk =>
      have hmem : s' ∈ (l.withTop s').stack := List.mem_cons_self
      rcases hlate s below hl hscan s' hmem with hbelow | hs'
      · exact h.stack s' (by rw [hl]; exact List.mem_cons_of_mem s hbelow)
      · exact htop.late ho hs'
  | @takeOff s s' below hl hk =>
    -- what the source has become does not matter, it goes
    obtain ⟨hpath, -, hstack, hpending, hincluded⟩ := h
    have hpop : (l.withTop s').pop.stack = below := by rw [pop, withTop_stack hl]
    have hrest : (l.withTop s').pop.path = l.path ∧ (l.withTop s').pop.pending = l.pending := by
      rw [pop, withTop_stack hl]
      exact ⟨rfl, rfl⟩
    rw [hl] at hstack hincluded
    refine ⟨hrest.1.trans hpath, hkeyed, ?_, ?_, ?_⟩
    · rw [hpop]
      exact (List.forall_mem_cons.mp hstack).2
    · rw [hrest.2]
      exact hpending
    · rw [hpop]
      cases below with
      | nil => exact List.forall_mem_nil _
      | cons b below =>
        rw [List.dropLast_cons_cons, List.forall_mem_cons] at hincluded
        exact hincluded.2
  | @nest s below name rest hl hi ho =>
    have htop := h.stack s (by rw [hl]; exact List.mem_cons_self)
    have hreach : R (l.path.resolve d name) := by
      rw [h.path_eq]
      exact htop.current name rest hi
    have hlate' : Source.IsLate { s with scan := some rest } := by
      obtain ⟨scan, x, -, -, hnext, -⟩ := hi
      intro scan' hscan'
      obtain rfl := Option.some.inj hscan'
      exact (Scan.next_rest hnext).1
    have hbelow : (l.withTop { s with scan := some rest }).Nested d path R :=
      h.withTop hl rfl (htop.late rfl hlate')
    refine ⟨hbelow.path_eq, hkeyed, ?_, hbelow.pending, ?_⟩
    · exact List.forall_mem_cons.mpr ⟨hR _ hreach, hbelow.stack⟩
    · have hincluded := hbelow.included
      rw [withTop_stack hl] at hincluded
      rw [push, withTop_stack hl, List.dropLast_cons_cons]
      exact List.forall_mem_cons.mpr ⟨⟨_, hreach, rfl⟩, hincluded⟩

/-- **What one step preserves.** -/
theorem Nested.step (hR : ∀ p, R p → (Source.ofFile d p).IncludesOnly d path R)
    (h : l.Nested d path R) : (Lexer.step d l).lexer.Nested d path R :=
  h.moves hR (step_moves d l) fun _ _ hl hs => onlyLate_step hl hs

/-- **The stack is no higher than one source and all identities of `R`.** -/
theorem Nested.depth_le {keys : Set Text} (h : l.Nested d path R) (hfinite : keys.Finite)
    (hkeys : ∀ p, R p → d.canonical p ∈ keys) : l.depth ≤ 1 + keys.ncard := by
  have hnodup : (l.stack.dropLast.filterMap Source.key).Nodup :=
    h.keyed.nodup.sublist (l.stack.dropLast_sublist.filterMap Source.key)
  -- each of the identities above the lowest source is one of `keys`
  have hmem : ∀ k ∈ l.stack.dropLast.filterMap Source.key, k ∈ keys := by
    intro k hk
    obtain ⟨s, hs, hkey⟩ := List.mem_filterMap.mp hk
    obtain ⟨p, hp, hkey'⟩ := h.included s hs
    rw [hkey'] at hkey
    rw [← Option.some.inj hkey]
    exact hkeys p hp
  -- every source above the lowest one has an identity, so none is skipped
  have hlength : (l.stack.dropLast.filterMap Source.key).length = l.stack.dropLast.length := by
    rw [List.length_filterMap_eq_countP, List.countP_eq_length]
    intro s hs
    obtain ⟨p, -, hkey⟩ := h.included s hs
    rw [hkey]
    rfl
  have hcard : (l.stack.dropLast.filterMap Source.key).length ≤ keys.ncard := by
    rw [← List.toFinset_card_of_nodup hnodup, ← Set.ncard_coe_finset]
    refine Set.ncard_le_ncard (fun k hk => hmem k ?_) hfinite
    exact List.mem_toFinset.mp hk
  rw [hlength, List.length_dropLast] at hcard
  rw [depth]
  omega

end Lexer

/-! ## Reachable files

  That there are finitely many identities needs the disk: a file that can be read is one of its
  nodes, and the identities that lines can lead to come from the lines of these nodes and of the
  inputs. -/

/-- What is read from a file is the content of one of the nodes. -/
theorem Disk.node_of_content {d : Disk} {i : Nat} {content : Text} (h : d.content i = .ok content) :
    d.node i ∈ d.nodes.toList ∧ d.node i = .file content := by
  have hnode : d.node i = .file content := by
    unfold Disk.content at h
    split at h
    · rename_i c hnode
      rw [hnode, Except.ok.inj h]
    · exact nomatch h
  refine ⟨?_, hnode⟩
  by_cases hi : i < d.nodes.size
  · simp [Disk.node, hi]
  · -- there is no such node, and what stands in for it is no file
    simp [Disk.node, hi] at hnode

section

variable (d : Disk) (path : SearchPath) (inputs : List Input)

/-- The lines of a node. -/
def Node.texts : Node → List Text
  | .file content => (Feed.text content none).lines d
  | _ => []

/-- A line of a file is a line of a node on the disk, whatever path leads there. -/
theorem exists_node_of_mem_texts {p t : Text} (h : t ∈ (Ahead.unopened p).texts d) :
    ∃ node ∈ d.nodes.toList, t ∈ node.texts d := by
  rw [Ahead.texts] at h
  cases hlookup : d.lookup p with
  | error f =>
    rw [hlookup] at h
    exact nomatch h
  | ok i =>
    rw [hlookup] at h
    dsimp only [Feed.lines, Feed.finale, Feed.bytes] at h
    cases hcontent : d.content i with
    | error f =>
      rw [hcontent] at h
      exact nomatch h
    | ok content =>
      rw [hcontent] at h
      obtain ⟨hi, hnode⟩ := Disk.node_of_content hcontent
      exact ⟨.file content, hnode ▸ hi, h⟩

/-- All lines that can ever be read. -/
def allTexts : List Text :=
  inputs.flatMap (fun i => (i.ahead d).texts d) ++ d.nodes.toList.flatMap (Node.texts d)

/-- The identity that a line leads to, if it is an `#include`. -/
def includedKey? (t : Text) : Option Text :=
  match Content.ofLine t with
  | .directive (.ok (.includeFile name)) => some (d.canonical (path.resolve d name))
  | _ => none

/-- There are finitely many identities to be reached: no more than lines. -/
theorem reachableKeys_finite : (reachableKeys d path inputs).Finite := by
  refine (List.finite_toSet ((allTexts d inputs).filterMap (includedKey? d path))).subset ?_
  rintro k ⟨p, hp, rfl⟩
  have hline : ∃ t ∈ allTexts d inputs, includedKey? d path t = some (d.canonical p) := by
    cases hp with
    | @input i t name hi ht h =>
      refine ⟨t, List.mem_append_left _ (List.mem_flatMap.mpr ⟨i, hi, ht⟩), ?_⟩
      rw [includedKey?, h]
    | @file p t name hp ht h =>
      have hnode := exists_node_of_mem_texts d ht
      refine ⟨t, List.mem_append_right _ (List.mem_flatMap.mpr hnode), ?_⟩
      rw [includedKey?, h]
  exact List.mem_filterMap.mpr hline

/-- A reachable file includes reachable files only. -/
theorem includesOnly_ofFile {p : Text} (hp : Reachable d path inputs p) :
    (Source.ofFile d p).IncludesOnly d path (Reachable d path inputs) :=
  (Source.at_ofFile d p).includesOnly fun _ ht _ h => .file hp ht h

/-- An input includes reachable files only. -/
theorem includesOnly_source {i : Input} (hi : i ∈ inputs) :
    (i.source d).IncludesOnly d path (Reachable d path inputs) :=
  (Source.at_source d i).includesOnly fun _ ht _ h => .input hi ht h

/-- A lexer with its inputs, before it is asked for anything. -/
theorem Lexer.nested_session (warnUnknown : Bool) :
    ((Lexer.new path warnUnknown).session (inputs.map fun i => (d, .add i))).Nested d path
      (Reachable d path inputs) := by
  rw [session_add]
  obtain ⟨hopened, hnodup⟩ := keyed_new path warnUnknown
  refine ⟨rfl, ⟨hopened, hnodup⟩, nofun, ?_, nofun⟩
  intro s hs
  obtain ⟨i, hi, rfl⟩ := List.mem_map.mp hs
  exact includesOnly_source d path inputs hi

end

/-- **Lexing comes to an end**, on every disk that does not change and for all inputs, also if files
    include each other.  A call is a loop of finitely many steps.  Calls that go on after errors
    come to the end of input.  And after any number of calls, and of steps in the call that follows,
    the stack is no higher than one source and all identities that `#include` lines lead to. -/
theorem Lexer.lexing_ends (d : Disk) (path : SearchPath) (warnUnknown : Bool)
    (inputs : List Input) :
    let l := (new path warnUnknown).session (inputs.map fun i => (d, .add i))
    (∀ k, ∃ n, nextWithin d n ((afterCall d)^[k] l) = some (next d ((afterCall d)^[k] l))) ∧
    (∃ k, ∀ m, k ≤ m → (next d ((afterCall d)^[m] l)).outcome = .ok .eof) ∧
    (reachableKeys d path inputs).Finite ∧
    ∀ k n, ((afterStep d)^[n] ((afterCall d)^[k] l)).depth ≤
      1 + (reachableKeys d path inputs).ncard := by
  intro l
  have hfinite := reachableKeys_finite d path inputs
  have hstep (l : Lexer) (h : l.Nested d path (Reachable d path inputs)) :
      (afterStep d l).Nested d path (Reachable d path inputs) :=
    h.step fun _ hp => includesOnly_ofFile d path inputs hp
  have hcall (l : Lexer) (h : l.Nested d path (Reachable d path inputs)) :
      (afterCall d l).Nested d path (Reachable d path inputs) := next_induction d hstep h
  refine ⟨fun k => exists_nextWithin d _, exists_ended d l, hfinite, fun k n => ?_⟩
  have hcalls : ((afterCall d)^[k] l).Nested d path (Reachable d path inputs) :=
    Function.Iterate.rec _ (nested_session d path inputs warnUnknown) hcall k
  have hsteps : ((afterStep d)^[n] ((afterCall d)^[k] l)).Nested d path (Reachable d path inputs) :=
    Function.Iterate.rec _ hcalls hstep n
  exact hsteps.depth_le hfinite fun p hp => ⟨p, hp, rfl⟩

end Pushdown
