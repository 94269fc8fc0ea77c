/-
  The stack of sources and the set of open identities.

  The two are kept apart: putting a source on the stack and taking it off change both.  After every
  session they agree (`sourceStack_consistent`): the set holds exactly the identities of the files
  on the stack, and no identity is on the stack twice.

  The stack has a history, too.  `Tracked` runs a lexer and writes a birth certificate for every
  source that makes the stack higher: the disk and the lexer right before that step.  Certificates
  do not know why the stack grew; `Lineage` reads it off them.  The lowest source was the first of
  those that waited, at a time when the stack was empty.  Every other source was put on the stack
  when the source below it was at an `#include` that names the file, and the source below has not
  moved since.

  Certificates are written by comparing the depths before and after a step, and by nothing else: the
  log looks at no reason, so that the reasons in `Lineage` are proved and not put in.  A step
  changes the depth by one at most, which makes the comparison enough (`move_of_depth_eq`,
  `move_of_depth_succ`, `move_of_succ_depth`).  Closing can take off more at once, and then as many
  certificates are dropped.

  That no identity is there twice needs the agreement of the two.  A file is included if its
  identity is not open, and it is the agreement that makes this mean that it is not on the stack.
  Taking a source off closes its identity, and it is the uniqueness that makes this right: no other
  source on the stack has it.
-/
import Mathlib.Data.List.Basic
import Mathlib.Logic.Relation
import Pushdown.Proofs.Lexer.Session

namespace Pushdown

namespace Lexer

variable {d : Disk} {l l' : Lexer} {s s' : Source} {below : List Source}

/-! ## Open identities

  The set of open identities is kept beside the stack and changed when a source comes or goes.  That
  it agrees with the stack is an invariant, and identities on the stack are distinct because an
  identity that is open is not entered again. -/

/-- Opening adds the identity of a file, and nothing for other sources. -/
theorem mem_withKey {opened : List Text} {key : Option Text} {k : Text} :
    k ∈ withKey opened key ↔ key = some k ∨ k ∈ opened := by
  cases key with
  | none => simp [withKey]
  | some k' =>
    rw [withKey]
    split
    · rename_i hmem
      constructor
      · exact Or.inr
      · rintro (h | h)
        · rw [← Option.some.inj h]
          exact hmem
        · exact h
    · rw [List.mem_cons, Option.some.injEq]
      exact or_congr_left eq_comm

/-- Closing removes the identity of a file, and nothing for other sources. -/
theorem mem_withoutKey {opened : List Text} {key : Option Text} {k : Text} :
    k ∈ withoutKey opened key ↔ k ∈ opened ∧ key ≠ some k := by
  cases key with
  | none => simp [withoutKey]
  | some k' =>
    rw [withoutKey, List.mem_filter, decide_eq_true_eq]
    exact and_congr_right fun _ => not_congr (by rw [Option.some.injEq, eq_comm])

/-- The open identities are those of the files on the stack, each of which is there once. -/
structure Keyed (l : Lexer) : Prop where
  opened_iff : ∀ k, k ∈ l.opened ↔ ∃ s ∈ l.stack, s.key = some k
  nodup : (l.stack.filterMap Source.key).Nodup

/-- A new lexer has nothing open. -/
theorem keyed_new (path : SearchPath) (warnUnknown : Bool) : (new path warnUnknown).Keyed :=
  ⟨fun k => by simp [new], List.nodup_nil⟩

/-- A source goes on top if its identity is not open. -/
theorem Keyed.push (h : l.Keyed) (hs : ∀ k, s.key = some k → k ∉ l.opened) :
    (l.push s).Keyed := by
  constructor
  · intro k
    show k ∈ withKey l.opened s.key ↔ ∃ s' ∈ s :: l.stack, s'.key = some k
    rw [mem_withKey, h.opened_iff, List.exists_mem_cons_iff]
  · show ((s :: l.stack).filterMap Source.key).Nodup
    cases hkey : s.key with
    | none =>
      rw [List.filterMap_cons_none hkey]
      exact h.nodup
    | some k =>
      rw [List.filterMap_cons_some hkey, List.nodup_cons]
      refine ⟨fun hmem => hs k hkey ?_, h.nodup⟩
      rw [h.opened_iff]
      exact List.mem_filterMap.mp hmem

/-- The innermost source may change, as long as it keeps its identity. -/
theorem Keyed.withTop (h : l.Keyed) (hl : l.stack = s :: below) (hk : s'.key = s.key) :
    (l.withTop s').Keyed := by
  obtain ⟨hopened, hnodup⟩ := h
  rw [hl] at hopened hnodup
  constructor
  · intro k
    show k ∈ l.opened ↔ ∃ t ∈ s' :: l.stack.tail, t.key = some k
    rw [hopened, hl, List.tail_cons, List.exists_mem_cons_iff, List.exists_mem_cons_iff, hk]
  · show ((s' :: l.stack.tail).filterMap Source.key).Nodup
    rw [hl, List.tail_cons]
    simp only [List.filterMap_cons, hk] at hnodup ⊢
    exact hnodup

/-- Taking a source off closes its identity, and no other. -/
theorem Keyed.pop (h : l.Keyed) : l.pop.Keyed := by
  obtain ⟨hopened, hnodup⟩ := h
  unfold Lexer.pop
  split
  · rename_i s below hl
    rw [hl] at hopened hnodup
    constructor
    · intro k
      show k ∈ withoutKey l.opened s.key ↔ ∃ t ∈ below, t.key = some k
      rw [mem_withoutKey, hopened, List.exists_mem_cons_iff]
      constructor
      · rintro ⟨h | h, hne⟩
        · exact absurd h hne
        · exact h
      · intro hbelow
        refine ⟨Or.inr hbelow, fun hkey => ?_⟩
        -- an identity that is also further down would be on the stack twice
        rw [List.filterMap_cons_some hkey, List.nodup_cons] at hnodup
        exact hnodup.1 (List.mem_filterMap.mpr hbelow)
    · refine hnodup.sublist ?_
      exact (List.sublist_cons_self s below).filterMap Source.key
  · exact ⟨hopened, hnodup⟩

/-- What one move preserves. -/
theorem Keyed.moves (h : l.Keyed) (hm : Moves d l l') : l'.Keyed := by
  cases hm with
  | idle hu => exact h
  | @start s rest hs hp =>
    have hempty : Keyed { l with pending := rest } := ⟨h.opened_iff, h.nodup⟩
    refine hempty.push fun k _ hmem => ?_
    obtain ⟨t, ht, -⟩ := (h.opened_iff k).mp hmem
    rw [hs] at ht
    exact nomatch ht
  | goOn hl hs => exact h.withTop hl hs.key_eq
  | takeOff hl hk => exact (h.withTop hl hk).pop
  | @nest s below name rest hl hi ho =>
    refine Keyed.push (h.withTop hl rfl) fun k hk hmem => ho ?_
    have hkey : d.canonical (l.path.resolve d name) = k := Option.some.inj hk
    rw [hkey]
    exact hmem

/-- Closing takes off all sources, each with its identity. -/
theorem Keyed.close (h : l.Keyed) : l.close.Keyed := by
  obtain ⟨l', ⟨hopened, hnodup⟩, hclose⟩ := close_induction (fun l hl => hl.pop) h
  rw [hclose]
  exact ⟨hopened, hnodup⟩

/-- A source that waits does not open anything. -/
theorem Keyed.add (h : l.Keyed) (s : Source) : (l.add s).Keyed := ⟨h.opened_iff, h.nodup⟩

end Lexer

/-! ## Where the sources on the stack come from

  A birth is a step that made the stack higher, with the disk and the lexer right before it.
  `Lineage` accounts for every source on the stack by one of them, and work on a source does not
  change where it comes from. -/

/-- `s.Later s'`: `s'` is what reading has made of `s`, whatever the disks were. -/
def Source.Later : Source → Source → Prop := Relation.ReflTransGen fun s s' => ∃ d, s.Becomes d s'

/-- A step that made the stack higher: the disk and the lexer right before it. -/
structure Birth where
  disk : Disk
  before : Lexer

/-- `Lineage stack births`: the certificates `births` account for every source of `stack`. -/
inductive Lineage : List Source → List Birth → Prop where
  | empty : Lineage [] []
  /-- The lowest source was the first of those that waited while the stack was empty. -/
  | started {s s₀ : Source} {rest : List Source} {b : Birth} (hstack : b.before.stack = [])
      (hpending : b.before.pending = s₀ :: rest) (hs : s₀.Later s) : Lineage [s] [b]
  /-- Any other source was included by the source below it, which now stands right behind that
      directive. -/
  | included {s t₀ : Source} {below : List Source} {name : Text} {rest : Scan} {b : Birth}
      {births : List Birth} (hstack : b.before.stack = t₀ :: below) (hi : t₀.Includes name rest)
      (hs : (Source.ofFile b.disk (b.before.path.resolve b.disk name)).Later s)
      (hbelow : Lineage ({ t₀ with scan := some rest } :: below) births) :
      Lineage (s :: { t₀ with scan := some rest } :: below) (b :: births)

namespace Lineage

variable {d : Disk} {s s' : Source} {below : List Source} {births : List Birth}

/-- Work on the innermost source does not change where it comes from. -/
theorem becomes (h : Lineage (s :: below) births) (hs : s.Becomes d s') :
    Lineage (s' :: below) births := by
  cases h with
  | started hstack hpending hlater => exact .started hstack hpending (hlater.tail ⟨d, hs⟩)
  | included hstack hi hlater hbelow => exact .included hstack hi (hlater.tail ⟨d, hs⟩) hbelow

/-- Taking the innermost source off drops its certificate. -/
theorem tail (h : Lineage (s :: below) births) : Lineage below births.tail := by
  cases h with
  | started => exact .empty
  | included hstack hi hs hbelow => exact hbelow

/-- There is one certificate for each source. -/
theorem length_eq {stack : List Source} (h : Lineage stack births) :
    births.length = stack.length := by
  induction h with
  | empty => rfl
  | started => rfl
  | included hstack hi hs hbelow ih => rw [List.length_cons, ih]; rfl

end Lineage

/-- A lexer with a certificate for every source on its stack, innermost first. -/
structure Tracked where
  lexer : Lexer
  births : List Birth

namespace Tracked

open Lexer

/-- Goes on with another lexer.  A stack that has grown gets a certificate, and one that has shrunk
    loses those on top. -/
def move (d : Disk) (t : Tracked) (l : Lexer) : Tracked :=
  ⟨l, if t.lexer.depth < l.depth then ⟨d, t.lexer⟩ :: t.births
    else t.births.drop (t.lexer.depth - l.depth)⟩

/-- Asks for a token, step by step. -/
def next (d : Disk) (t : Tracked) : Tracked :=
  match _h : step d t.lexer with
  | .done _ l => t.move d l
  | .more l _ => (t.move d l).next d
termination_by (spends_wellFounded d).wrap t.lexer
decreasing_by exact spends_of_more _h

/-- Carries out an operation. -/
def operate (d : Disk) (t : Tracked) : Operation → Tracked
  | .add i => t.move d (t.lexer.add (i.source d))
  | .ask => t.next d
  | .close => t.move d t.lexer.close

/-- Carries out some operations, each with the disk that it finds. -/
def session (t : Tracked) (ops : List (Disk × Operation)) : Tracked :=
  ops.foldl (fun t op => t.operate op.1 op.2) t

/-- **What every step keeps, asking for a token keeps**, with the certificates in view. -/
theorem next_induction (d : Disk) {P : Tracked → Prop}
    (hstep : ∀ t, P t → P (t.move d (step d t.lexer).lexer)) {t : Tracked} (ht : P t) :
    P (t.next d) := by
  generalize hl : t.lexer = l
  induction l using (spends_wellFounded d).induction generalizing t with
  | _ l ih =>
    have hone := hstep t ht
    subst hl
    rw [next]
    split
    · rename_i outcome l' hs
      rw [hs] at hone
      exact hone
    · rename_i l' w hs
      rw [hs] at hone
      exact ih l' (spends_of_more hs) hone rfl

/-- Certificates are only written: the lexer goes its own way. -/
theorem next_lexer (d : Disk) (t : Tracked) : (t.next d).lexer = (t.lexer.next d).lexer := by
  generalize hl : t.lexer = l
  induction l using (spends_wellFounded d).induction generalizing t with
  | _ l ih =>
    subst hl
    rw [next]
    split
    · rename_i outcome l' hs
      rw [next_of_done hs]
      rfl
    · rename_i l' w hs
      rw [next_of_more hs]
      exact ih l' (spends_of_more hs) (t.move d l') rfl

/-- So it does with every operation. -/
theorem operate_lexer (d : Disk) (t : Tracked) (op : Operation) :
    (t.operate d op).lexer = t.lexer.operate d op := by
  cases op with
  | add i => rfl
  | ask => exact next_lexer d t
  | close => rfl

/-- And with every session. -/
theorem session_lexer (t : Tracked) (ops : List (Disk × Operation)) :
    (t.session ops).lexer = t.lexer.session ops := by
  induction ops generalizing t with
  | nil => rfl
  | cons op ops ih =>
    show ((t.operate op.1 op.2).session ops).lexer = (t.lexer.operate op.1 op.2).session ops
    rw [ih, operate_lexer]

/-! ## One step, one operation, a session

  Consistency is carried through the moves of a step, through the steps of a call, and through the
  operations of a session. -/

/-- Stack, open identities and certificates agree. -/
structure Consistent (t : Tracked) : Prop where
  keyed : t.lexer.Keyed
  lineage : Lineage t.lexer.stack t.births

/-- A stack of the same height keeps its certificates. -/
theorem move_of_depth_eq {d : Disk} {t : Tracked} {l : Lexer} (h : l.depth = t.lexer.depth) :
    (t.move d l).births = t.births := by
  unfold move
  simp only [h, Nat.lt_irrefl, ↓reduceIte, Nat.sub_self, List.drop_zero]

/-- A stack that has grown gets one. -/
theorem move_of_depth_succ {d : Disk} {t : Tracked} {l : Lexer} (h : l.depth = t.lexer.depth + 1) :
    (t.move d l).births = ⟨d, t.lexer⟩ :: t.births := by
  unfold move
  rw [if_pos (by omega)]

/-- A stack that has shrunk loses the one on top. -/
theorem move_of_succ_depth {d : Disk} {t : Tracked} {l : Lexer} (h : l.depth + 1 = t.lexer.depth) :
    (t.move d l).births = t.births.tail := by
  unfold move
  rw [if_neg (by omega), ← h, Nat.add_sub_cancel_left, List.drop_one]

/-- One case for every move. -/
theorem Consistent.lineage_moves {d : Disk} {t : Tracked} {l : Lexer} (h : t.Consistent)
    (hm : Moves d t.lexer l) : Lineage l.stack (t.move d l).births := by
  have hlin := h.lineage
  cases hm with
  | idle hu =>
    rw [move_of_depth_eq rfl]
    exact hlin
  | @start s rest hs hp =>
    have hdepth : Lexer.depth ({ t.lexer with pending := rest }.push s) = t.lexer.depth + 1 := rfl
    -- with an empty stack there are no certificates
    have hnone : t.births = [] := by
      rw [hs] at hlin
      exact List.length_eq_zero_iff.mp hlin.length_eq
    rw [move_of_depth_succ hdepth, hnone]
    show Lineage (s :: t.lexer.stack) _
    rw [hs]
    exact .started hs hp .refl
  | @goOn s s' below hl hs =>
    have hdepth : (t.lexer.withTop s').depth = t.lexer.depth := by
      simp [Lexer.depth, Lexer.withTop, hl]
    rw [move_of_depth_eq hdepth]
    rw [hl] at hlin
    show Lineage (s' :: t.lexer.stack.tail) _
    rw [hl]
    exact hlin.becomes hs
  | @takeOff s s' below hl hk =>
    have hstack : (t.lexer.withTop s').pop.stack = below := by
      simp [Lexer.pop, Lexer.withTop, hl]
    have hdepth : (t.lexer.withTop s').pop.depth + 1 = t.lexer.depth := by
      simp [Lexer.depth, hstack, hl]
    rw [move_of_succ_depth hdepth, hstack]
    rw [hl] at hlin
    exact hlin.tail
  | @nest s below name rest hl hi ho =>
    have hdepth : Lexer.depth ((t.lexer.withTop { s with scan := some rest }).push
        (.ofFile d (t.lexer.path.resolve d name))) = t.lexer.depth + 1 := by
      simp [Lexer.depth, Lexer.push, Lexer.withTop, hl]
    rw [move_of_depth_succ hdepth]
    rw [hl] at hlin
    show Lineage (_ :: { s with scan := some rest } :: t.lexer.stack.tail) _
    rw [hl]
    obtain ⟨scan, x, hscan, hrest⟩ := hi
    -- the source below has gone on as well: its directive is cut off
    have hcut : s.Becomes d { s with scan := some rest } := .cut (by rw [hscan]; rfl) rfl rfl
    exact .included hl ⟨scan, x, hscan, hrest⟩ .refl (hlin.becomes hcut)

/-- What one step preserves. -/
theorem Consistent.step {t : Tracked} (d : Disk) (h : t.Consistent) :
    (t.move d (Lexer.step d t.lexer).lexer).Consistent :=
  ⟨h.keyed.moves (step_moves d t.lexer), h.lineage_moves (step_moves d t.lexer)⟩

/-- What one operation preserves. -/
theorem Consistent.operate {t : Tracked} (h : t.Consistent) (d : Disk) (op : Operation) :
    (t.operate d op).Consistent := by
  cases op with
  | add i =>
    refine ⟨h.keyed.add _, ?_⟩
    show Lineage t.lexer.stack (t.move d (t.lexer.add (i.source d))).births
    have hdepth : (t.lexer.add (i.source d)).depth = t.lexer.depth := rfl
    rw [move_of_depth_eq hdepth]
    exact h.lineage
  | ask => exact next_induction d (fun t ht => ht.step d) h
  | close =>
    have hstack := close_stack t.lexer
    refine ⟨h.keyed.close, ?_⟩
    show Lineage t.lexer.close.stack (t.move d t.lexer.close).births
    -- with nothing on the stack, all certificates are dropped
    have hnone : (t.move d t.lexer.close).births = [] := by
      unfold move
      have hdepth : t.lexer.close.depth = 0 := by rw [Lexer.depth, hstack]; rfl
      have hlen : t.births.length = t.lexer.depth := h.lineage.length_eq
      rw [hdepth, if_neg (Nat.not_lt_zero _), Nat.sub_zero, ← hlen, List.drop_length]
    rw [hstack, hnone]
    exact .empty

/-- What a session preserves. -/
theorem Consistent.session {t : Tracked} (h : t.Consistent) (ops : List (Disk × Operation)) :
    (t.session ops).Consistent := by
  induction ops generalizing t with
  | nil => exact h
  | cons op ops ih => exact ih (h.operate op.1 op.2)

end Tracked

/-- **The stack of sources is in order after every session.**  Whatever is added, asked and closed,
    and whatever happens to the disk in between: the open identities are exactly those of the files
    on the stack, these differ from one another, the lowest source was taken from those that
    waited, and every other one was put on the stack by an `#include` of the source below it. -/
theorem sourceStack_consistent (path : SearchPath) (warnUnknown : Bool)
    (ops : List (Disk × Operation)) :
    let l := (Lexer.new path warnUnknown).session ops
    let t := (Tracked.mk (Lexer.new path warnUnknown) []).session ops
    t.lexer = l ∧
      (∀ k, k ∈ l.opened ↔ ∃ s ∈ l.stack, s.key = some k) ∧
      (l.stack.filterMap Source.key).Nodup ∧
      Lineage l.stack t.births := by
  intro l t
  have hlexer : t.lexer = l := Tracked.session_lexer _ ops
  have hnew : Tracked.Consistent ⟨Lexer.new path warnUnknown, []⟩ :=
    ⟨Lexer.keyed_new path warnUnknown, .empty⟩
  obtain ⟨hkeyed, hlineage⟩ := hnew.session ops
  rw [show (Tracked.session _ ops).lexer = l from hlexer] at hkeyed hlineage
  exact ⟨hlexer, hkeyed.opened_iff, hkeyed.nodup, hlineage⟩

end Pushdown
