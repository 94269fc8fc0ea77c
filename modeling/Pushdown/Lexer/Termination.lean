/-
  Why the lexer comes to an end.

  An `#include` makes the input longer, so no count of bytes goes down with every step.  What bounds
  the work is that the files on the stack differ: names in directives have a bounded length, so only
  finitely many identities can be opened, and a source that is included has fewer identities left to
  open than the source that includes it.

  The weight of a stack adds up, for every source, its own remaining work times `base ^ n`, where
  `n` counts the identities that are free when the source is on top.  Starting a file adds less than
  `base` units one power below, and the line that included it took at least one unit away one power
  above.  Every step does one of a few things to the stack (`step_lowers`), and each of them lowers
  the weight (`Lowers.weight_lt`), unless nothing is left at all.

  The weight is for a bound on the length of directives, since it has to count the identities that
  can be named.  The bound is that of the sources at the start (`exists_within`) and stays one
  (`Lowers.within`): a directive is a piece of a line, a line has at most four bytes for each one
  that is read, and a file has no more bytes than the disk.
-/
import Pushdown.Lexer.Basic

namespace Pushdown

/-! ## Bounds for a disk and a source -/

/-- The number of bytes of a file. -/
def Node.size : Node → Nat
  | .file content => content.length
  | _ => 0

/-- The number of bytes in all files of a list. -/
def Node.total : List Node → Nat
  | [] => 0
  | n :: l => n.size + total l

/-- The number of bytes in all files of a disk. -/
def Disk.volume (d : Disk) : Nat := Node.total d.nodes.toList

/-- A file is no larger than all of them together. -/
theorem Node.size_le_total {n : Node} {l : List Node} (h : n ∈ l) : n.size ≤ total l := by
  induction l with
  | nil => simp at h
  | cons a l ih =>
    rw [total]
    rcases List.mem_cons.1 h with rfl | h
    · omega
    · have := ih h
      omega

/-- What is read from a disk is no larger than all of its files. -/
theorem Disk.content_length_le {d : Disk} {i : Nat} {t : Text} (h : d.content i = .ok t) :
    t.length ≤ d.volume := by
  unfold Disk.content Disk.node at h
  by_cases hi : i < d.nodes.size
  · have hm : d.nodes.getD i (.directory []) ∈ d.nodes.toList := by simp [hi]
    have := Node.size_le_total hm
    split at h <;> simp only [Except.ok.injEq, reduceCtorEq] at h
    rename_i c hc
    subst h
    simpa [hc, Node.size, Disk.volume] using this
  · simp [hi] at h

namespace Source

/-- A bound for the bytes that a source has left to read. -/
def stock (d : Disk) (s : Source) : Nat :=
  match s.origin with
  | .unopened _ => d.volume
  | .reading r => r.size d

/-- The bytes left of the current line. -/
def lineLength (s : Source) : Nat :=
  match s.scan with
  | none => 0
  | some scan => scan.rest.length

/-- A bound for the number of steps that a source takes before it is used up, not counting those
    of the files it includes. -/
def work (d : Disk) (s : Source) : Nat :=
  1 + 6 * s.stock d + match s.scan with
    | none => 0
    | some scan => scan.rest.length + 1

/-- A bound for the length of the directives that a source may still hold. -/
def reach (d : Disk) (s : Source) : Nat := 4 * s.stock d + s.lineLength

/-- A source takes at least one step more: the one that takes it off the stack. -/
theorem work_pos (d : Disk) (s : Source) : 0 < s.work d := by
  unfold work
  omega

/-- A line that is read has at most four bytes for each byte that it takes off, and takes off one at
    least. -/
theorem readLine_line {d : Disk} {s s' : Source} {r : Reader} (h : s.readLine d r = .line s') :
    s'.key = s.key ∧ s'.reach d ≤ 4 * r.size d ∧ s'.work d < 1 + 6 * r.size d := by
  unfold readLine at h
  split at h <;> simp only [Advance.line.injEq, reduceCtorEq] at h
  rename_i t r' hr
  subst h
  have h1 := Reader.readLine_size_lt hr
  have h2 := Reader.readLine_length_le hr
  refine ⟨rfl, ?_, ?_⟩
  · simp only [reach, stock, lineLength]
    omega
  · simp only [work, stock]
    omega

/-- At the end of its input, a source keeps its identity. -/
theorem readLine_exhausted {d : Disk} {s s' : Source} {r : Reader}
    (h : s.readLine d r = .exhausted s') : s'.key = s.key := by
  unfold readLine at h
  split at h <;> simp only [Advance.exhausted.injEq, reduceCtorEq] at h
  subst h
  rfl

/-- It keeps its identity if reading fails. -/
theorem readLine_unreadable {d : Disk} {s s' : Source} {r : Reader} {m : Text}
    (h : s.readLine d r = .unreadable s' m) : s'.key = s.key := by
  unfold readLine at h
  split at h <;> simp only [Advance.unreadable.injEq, reduceCtorEq] at h
  obtain ⟨rfl, -⟩ := h
  rfl

/-- Reading a line keeps the identity of a source and lowers the work ahead of it. -/
theorem advance_line {d : Disk} {s s' : Source} (hs : s.scan = none) (h : s.advance d = .line s') :
    s'.key = s.key ∧ s'.reach d ≤ 4 * s.stock d ∧ s'.work d < s.work d := by
  unfold advance at h
  split at h
  · rename_i r hr
    obtain ⟨h1, h2, h3⟩ := readLine_line h
    refine ⟨h1, by simpa [stock, hr] using h2, ?_⟩
    simpa [work, stock, hr, hs] using h3
  · rename_i path hp
    split at h
    · rename_i node hn
      obtain ⟨h1, h2, h3⟩ := readLine_line h
      -- a file that is opened for its first line
      have hv : (Reader.mk (.file path node 0) [] none).size d ≤ d.volume := by
        simp only [Reader.size, Feed.size]
        split
        · rename_i content hc
          have := Disk.content_length_le hc
          simp
          omega
        · simp
      refine ⟨h1, ?_, ?_⟩
      · simp only [stock, hp]
        omega
      · simp only [work, stock, hp, hs] at h3 ⊢
        omega
    · simp at h

/-- A source keeps its identity to its end. -/
theorem advance_exhausted {d : Disk} {s s' : Source} (h : s.advance d = .exhausted s') :
    s'.key = s.key := by
  unfold advance at h
  split at h
  · exact readLine_exhausted h
  · split at h
    · exact readLine_exhausted h
    · simp at h

/-- And to the failure that ends it. -/
theorem advance_unreadable {d : Disk} {s s' : Source} {m : Text}
    (h : s.advance d = .unreadable s' m) : s'.key = s.key := by
  unfold advance at h
  split at h
  · exact readLine_unreadable h
  · split at h
    · exact readLine_unreadable h
    · simp at h

end Source

namespace Lexer

/-! ## Identities that can still be opened -/

/-- All texts of at most `n` bytes. -/
def textsUpTo : Nat → List Text
  | 0 => [[]]
  | n + 1 =>
    [] :: ((List.range 256).map UInt8.ofNat).flatMap fun b => (textsUpTo n).map (b :: ·)

/-- These are all of them. -/
theorem mem_textsUpTo {n : Nat} {t : Text} (h : t.length ≤ n) : t ∈ textsUpTo n := by
  induction n generalizing t with
  | zero => simp_all [textsUpTo]
  | succ n ih =>
    cases t with
    | nil => simp [textsUpTo]
    | cons b t =>
      have hb : UInt8.ofNat b.toNat = b := by simp
      simp only [textsUpTo, List.mem_cons, List.mem_flatMap, List.mem_map, List.mem_range]
      exact .inr ⟨b, ⟨b.toNat, b.toNat_lt, hb⟩, t, ih (by simpa using h), rfl⟩

/-- The identities of all files that a directive of at most `n` bytes can name. -/
def identities (d : Disk) (path : SearchPath) (n : Nat) : List Text :=
  (textsUpTo n).map fun name => d.canonical (path.resolve d name)

/-- How many of the identities are not open. -/
def free (ids opened : List Text) : Nat := ids.countP (· ∉ opened)

/-- No more identities are free than there are. -/
theorem free_le (ids opened : List Text) : free ids opened ≤ ids.length := List.countP_le_length

/-- An identity that is opened is no longer free. -/
theorem free_cons_lt {ids opened : List Text} {k : Text} (hk : k ∈ ids) (ho : k ∉ opened) :
    free ids (k :: opened) < free ids opened := by
  unfold free
  induction ids with
  | nil => simp at hk
  | cons a ids ih =>
    have hle : ids.countP (· ∉ k :: opened) ≤ ids.countP (· ∉ opened) :=
      List.countP_mono_left fun x _ hx => by simp_all
    by_cases hak : a = k
    · subst hak
      simp only [List.countP_cons]
      simp [ho]
      simp at hle
      omega
    · have := ih (by simpa [Ne.symm hak] using hk)
      simp only [List.countP_cons]
      simp only [List.mem_cons, not_or] at this ⊢
      have hb : decide (¬a = k ∧ a ∉ opened) = decide (a ∉ opened) := by simp [hak]
      rw [hb]
      omega

/-! ## Weights -/

/-- More than the work of a file that has just been included. -/
def base (d : Disk) : Nat := 2 + 6 * d.volume

/-- The weight of a stack with a set of open identities. -/
def stackWeight (d : Disk) (ids : List Text) : List Source → List Text → Nat
  | [], _ => 0
  | s :: below, opened =>
    s.work d * (base d).pow (free ids opened) + stackWeight d ids below (withoutKey opened s.key)

/-- The weight of the sources that wait. -/
def pendingWeight (d : Disk) (ids : List Text) : List Source → Nat
  | [] => 0
  | s :: pending => (s.work d + 1) * (base d).pow ids.length + pendingWeight d ids pending

/-- The weight of a lexer. -/
def weight (d : Disk) (ids : List Text) (l : Lexer) : Nat :=
  stackWeight d ids l.stack l.opened + pendingWeight d ids l.pending

/-- No directive ahead of the lexer is longer than `n`. -/
structure Within (d : Disk) (n : Nat) (l : Lexer) : Prop where
  disk : 4 * d.volume ≤ n
  stack : ∀ s ∈ l.stack, s.reach d ≤ n
  pending : ∀ s ∈ l.pending, s.reach d ≤ n

/-- Every lexer is within some bound. -/
theorem exists_within (d : Disk) (l : Lexer) : ∃ n, Within d n l := by
  -- finitely many sources have a common bound
  have bound (ss : List Source) : ∃ n, ∀ s ∈ ss, s.reach d ≤ n := by
    induction ss with
    | nil => exact ⟨0, by simp⟩
    | cons a ss ih =>
      obtain ⟨n, hn⟩ := ih
      refine ⟨a.reach d + n, fun s hs => ?_⟩
      rcases List.mem_cons.1 hs with rfl | hs
      · omega
      · have := hn s hs
        omega
  obtain ⟨n, hn⟩ := bound l.stack
  obtain ⟨m, hm⟩ := bound l.pending
  refine ⟨4 * d.volume + n + m, by omega, fun s hs => ?_, fun s hs => ?_⟩
  · have := hn s hs
    omega
  · have := hm s hs
    omega

/-- What a step does to a lexer that is not used up.  The cases are those of the innermost source:
    it goes on, it is taken off, or it includes a file; or else a waiting source is started. -/
inductive Lowers (d : Disk) (n : Nat) : Lexer → Lexer → Prop where
  | goOn {l l' : Lexer} {s : Source} {below : List Source} (s' : Source)
      (hl : l.stack = s :: below) (hl' : l'.stack = s' :: below)
      (ho : l'.opened = l.opened) (hp : l'.pending = l.pending) (hpath : l'.path = l.path)
      (hk : s'.key = s.key) (hr : s'.reach d ≤ n) (hw : s'.work d < s.work d) : Lowers d n l l'
  | takeOff {l l' : Lexer} {s : Source} {below : List Source} (hl : l.stack = s :: below)
      (hl' : l'.stack = below) (ho : l'.opened = withoutKey l.opened s.key)
      (hp : l'.pending = l.pending) (hpath : l'.path = l.path) : Lowers d n l l'
  | nest {l l' : Lexer} {s : Source} {below : List Source} {k : Text} (s' : Source) (path : Text)
      (hl : l.stack = s :: below) (hl' : l'.stack = Source.ofFile d path :: s' :: below)
      (hkey : d.canonical path = k) (hk' : k ∈ identities d l.path n) (hko : k ∉ l.opened)
      (ho : l'.opened = k :: l.opened) (hp : l'.pending = l.pending) (hpath : l'.path = l.path)
      (hk : s'.key = s.key) (hr : s'.reach d ≤ n) (hw : s'.work d < s.work d) : Lowers d n l l'
  | start {l l' : Lexer} {s : Source} {rest : List Source} (hl : l.stack = [])
      (hp : l.pending = s :: rest) (hl' : l'.stack = [s]) (ho : l'.opened = withKey l.opened s.key)
      (hp' : l'.pending = rest) (hpath : l'.path = l.path) : Lowers d n l l'

/-- Leaving a file just opened, the identities are those before. -/
theorem withoutKey_cons {opened : List Text} {k : Text} (h : k ∉ opened) :
    withoutKey (k :: opened) (some k) = opened := by
  simpa [withoutKey] using fun x hx (e : x = k) => h (e ▸ hx)

/-- The powers of the base are positive. -/
theorem pow_pos_base (d : Disk) (n : Nat) : 0 < (base d).pow n :=
  Nat.pow_pos (by unfold base; omega)

/-- A file started one power below costs less than one unit above. -/
theorem nest_lt {b x y z m n : Nat} (hx : x < b) (hy : y < z) (hmn : m < n) (hb : 0 < b) :
    x * b.pow m + y * b.pow n < z * b.pow n := by
  have h1 : x * b.pow m < b.pow (m + 1) := by
    show x * b.pow m < b.pow m * b
    rw [Nat.mul_comm (b.pow m)]
    exact Nat.mul_lt_mul_of_pos_right hx (Nat.pow_pos hb)
  have h2 : b.pow (m + 1) ≤ b.pow n := Nat.pow_le_pow_right hb hmn
  have h3 : (y + 1) * b.pow n ≤ z * b.pow n := Nat.mul_le_mul_right _ hy
  rw [Nat.succ_mul] at h3
  omega

/-- Each of the cases lowers the weight. -/
theorem Lowers.weight_lt {d : Disk} {n : Nat} {l l' : Lexer} (h : Lowers d n l l') :
    weight d (identities d l.path n) l' < weight d (identities d l.path n) l := by
  generalize hi : identities d l.path n = ids
  cases h with
  | goOn s' hl hl' ho hp hpath hk hr hw =>
    have := Nat.mul_lt_mul_of_pos_right hw (pow_pos_base d (free ids l.opened))
    simp only [weight, hl, hl', ho, hp, stackWeight, hk]
    omega
  | @takeOff s below hl hl' ho hp hpath =>
    have := Nat.mul_pos (s.work_pos d) (pow_pos_base d (free ids l.opened))
    simp only [weight, hl, hl', ho, hp, stackWeight]
    omega
  | @nest s below k s' path hl hl' hkey hk' hko ho hp hpath hk hr hw =>
    have hf := free_cons_lt (hi ▸ hk') hko
    -- the work of a file that has not been opened is bounded by the disk
    have hx : (Source.ofFile d path).work d < base d := by
      simp [Source.ofFile, Source.work, Source.stock, base]
    have := nest_lt hx hw hf (by unfold base; omega)
    have hkey' : (Source.ofFile d path).key = some k := by simp [Source.ofFile, hkey]
    simp only [weight, hl, hl', ho, hp, stackWeight, hk, hkey', withoutKey_cons hko]
    omega
  | @start s rest hl hp hl' ho hp' hpath =>
    -- a source that waits weighs as if all identities were free
    have hle : (base d).pow (free ids (withKey l.opened s.key)) ≤ (base d).pow ids.length :=
      Nat.pow_le_pow_right (by unfold base; omega) (free_le _ _)
    have h1 := Nat.mul_le_mul_left (s.work d) hle
    have h2 := pow_pos_base d ids.length
    simp only [weight, hl, hl', ho, hp, hp', stackWeight, pendingWeight, Nat.succ_mul]
    omega

/-- The search path stays. -/
theorem Lowers.path_eq {d : Disk} {n : Nat} {l l' : Lexer} (h : Lowers d n l l') :
    l'.path = l.path := by
  cases h <;> assumption

/-- The bound on directives stays one: each case keeps, drops or reads sources, or opens a file. -/
theorem Lowers.within {d : Disk} {n : Nat} {l l' : Lexer} (h : Lowers d n l l')
    (hl : Within d n l) : Within d n l' := by
  obtain ⟨h0, h1, h2⟩ := hl
  cases h with
  | goOn s' hl hl' ho hp hpath hk hr hw =>
    refine ⟨h0, ?_, hp ▸ h2⟩
    rw [hl] at h1
    rw [hl']
    simpa [hr] using fun s hs => h1 s (List.mem_cons_of_mem _ hs)
  | takeOff hl hl' ho hp hpath =>
    refine ⟨h0, ?_, hp ▸ h2⟩
    rw [hl] at h1
    rw [hl']
    exact fun s hs => h1 s (List.mem_cons_of_mem _ hs)
  | @nest s below k s' path hl hl' hkey hk' hko ho hp hpath hk hr hw =>
    refine ⟨h0, ?_, hp ▸ h2⟩
    rw [hl] at h1
    rw [hl']
    have hx : (Source.ofFile d path).reach d ≤ n := by
      simpa [Source.ofFile, Source.reach, Source.stock, Source.lineLength] using h0
    simpa [hr, hx] using fun s hs => h1 s (List.mem_cons_of_mem _ hs)
  | start hl hp hl' ho hp' hpath =>
    rw [hp] at h2
    refine ⟨h0, ?_, ?_⟩
    · rw [hl']
      simpa using h2 _ List.mem_cons_self
    · rw [hp']
      exact fun s hs => h2 s (List.mem_cons_of_mem _ hs)

/-! ## Steps lower the weight -/

/-- The lexer after a step. -/
def Step.lexer : Step → Lexer
  | .more l _ => l
  | .done _ l => l

/-- A source without a line in progress gets its next line, or is taken off the stack. -/
theorem advance_lowers {d : Disk} {n : Nat} {l : Lexer} {s : Source} {below : List Source}
    (hl : l.stack = s :: below) (hs : s.scan = none) (hn : s.reach d ≤ n) :
    Lowers d n l (l.advance d s).lexer := by
  unfold advance
  split
  · rename_i s' h
    obtain ⟨h1, h2, h3⟩ := Source.advance_line hs h
    refine .goOn s' hl (by simp [Step.lexer, withTop, hl]) rfl rfl rfl h1 (Nat.le_trans h2 ?_) h3
    unfold Source.reach at hn
    omega
  · rename_i s' h
    have hk := Source.advance_exhausted h
    exact .takeOff hl (by simp [Step.lexer, withTop, pop, hl])
      (by simp [Step.lexer, withTop, pop, hk]) rfl rfl
  · exact .takeOff hl (by simp [Step.lexer, pop, hl]) (by simp [Step.lexer, pop, hl])
      (by simp [Step.lexer, pop, hl]) (by simp [Step.lexer, pop, hl])
  · rename_i s' m h
    have hk := Source.advance_unreadable h
    exact .takeOff hl (by simp [Step.lexer, withTop, pop, hl])
      (by simp [Step.lexer, withTop, pop, hk]) rfl rfl

/-- A file is included if it is not open; otherwise the source goes on behind the directive. -/
theorem includeFile_lowers {d : Disk} {n : Nat} {l l₁ : Lexer} {s s' : Source}
    {below : List Source} {name : Text} (hl : l.stack = s :: below) (h₁ : l₁ = l.withTop s')
    (hk : s'.key = s.key) (hr : s'.reach d ≤ n) (hw : s'.work d < s.work d)
    (hname : name.length ≤ n) : Lowers d n l (l₁.includeFile d name).lexer := by
  subst h₁
  unfold includeFile
  simp only
  split
  · exact .goOn s' hl (by simp [Step.lexer, withTop, hl]) rfl rfl rfl hk hr hw
  · rename_i hno
    have hko : d.canonical (l.path.resolve d name) ∉ l.opened := by
      intro h
      exact hno (by simp [Source.ofFile, withTop, h])
    refine .nest s' (l.path.resolve d name) hl (by simp [Step.lexer, push, withTop, hl]) rfl
      ?_ hko ?_ rfl rfl hk hr hw
    · exact List.mem_map.2 ⟨name, mem_textsUpTo hname, rfl⟩
    · simp [Step.lexer, push, withTop, Source.ofFile, withKey, hko]

/-- After any other directive the source goes on. -/
theorem directive_lowers {d : Disk} {n : Nat} {l l₁ : Lexer} {s s' : Source} {below : List Source}
    {text : Text} (hl : l.stack = s :: below) (h₁ : l₁ = l.withTop s') (hk : s'.key = s.key)
    (hr : s'.reach d ≤ n) (hw : s'.work d < s.work d) (htext : text.length ≤ n) :
    Lowers d n l (l₁.directive d s' text).lexer := by
  unfold directive
  split
  · subst h₁
    exact .goOn s' hl (by simp [Step.lexer, withTop, hl]) rfl rfl rfl hk hr hw
  · rename_i name h
    exact includeFile_lowers hl h₁ hk hr hw
      (Nat.le_trans (Directive.parse_include_length_le h) htext)
  · rename_i m name h
    subst h₁
    exact .goOn { s' with
        line := Int64.ofInt m, next := Int64.ofInt m, name := if name = [] then s'.name else name }
      hl (by simp [Step.lexer, withTop, hl]) rfl rfl rfl hk hr hw
  · subst h₁
    exact .goOn s' hl (by simp [Step.lexer, withTop, hl]) rfl rfl rfl hk hr hw

/-- A lexeme is taken off the line in progress, or the line is done with. -/
theorem cut_lowers {d : Disk} {n : Nat} {l : Lexer} {s : Source} {below : List Source} {scan : Scan}
    (hl : l.stack = s :: below) (hs : s.scan = some scan) (hn : s.reach d ≤ n) :
    Lowers d n l (l.cut d s scan).lexer := by
  simp only [Source.reach, Source.lineLength, hs] at hn
  unfold cut
  split
  · refine .goOn { s with scan := none } hl (by simp [Step.lexer, withTop, hl]) rfl rfl rfl rfl ?_ ?_
    · simp only [Source.reach, Source.lineLength, Source.stock] at hn ⊢
      omega
    · simp only [Source.work, Source.stock, hs]
      omega
  · rename_i x rest h
    have h1 := Scan.next_rest_lt h
    have h2 := Scan.next_text_le h
    have hr : ({ s with scan := some rest } : Source).reach d ≤ n := by
      simp only [Source.reach, Source.lineLength, Source.stock] at hn ⊢
      omega
    have hw : ({ s with scan := some rest } : Source).work d < s.work d := by
      simp only [Source.work, Source.stock, hs]
      omega
    -- in all other cases the source goes on with the rest of the line
    have go {l' : Lexer} (h' : l' = l.withTop { s with scan := some rest }) : Lowers d n l l' := by
      subst h'
      exact .goOn { s with scan := some rest } hl (by simp [withTop, hl]) rfl rfl rfl rfl hr hw
    simp only
    split
    · split
      · exact directive_lowers hl rfl rfl hr hw (by omega)
      · exact go rfl
    · split
      · exact go rfl
      · exact go rfl

/-- A step of a lexer that is not used up lowers its weight. -/
theorem step_lowers {d : Disk} {n : Nat} {l : Lexer} (h : Within d n l)
    (hl : l.stack ≠ [] ∨ l.pending ≠ []) : Lowers d n l (step d l).lexer := by
  unfold step
  split
  · rename_i hs
    split
    · simp_all
    · rename_i s rest hp
      exact .start hs hp (by simp [Step.lexer, push, hs]) rfl rfl rfl
  · rename_i s below hs
    have hn := h.stack s (by simp [hs])
    split
    · exact advance_lowers hs (by assumption) hn
    · exact cut_lowers hs (by assumption) hn

/-- Nothing is left to read. -/
def IsUsedUp (l : Lexer) : Prop := l.stack = [] ∧ l.pending = []

/-- If nothing is left, a step delivers the end of input. -/
theorem step_of_isUsedUp (d : Disk) {l : Lexer} (h : l.IsUsedUp) : step d l = .done (.ok .eof) l := by
  simp [step, h.1, h.2]

/-- `l'` is the lexer after a step of `l`, which is not used up. -/
def Spends (d : Disk) (l' l : Lexer) : Prop := ¬ l.IsUsedUp ∧ (step d l).lexer = l'

/-- The steps of a lexer come to an end, whatever their outcomes. -/
theorem spends_wellFounded (d : Disk) : WellFounded (Spends d) := by
  refine ⟨fun l => ?_⟩
  obtain ⟨n, hn⟩ := exists_within d l
  -- by induction on the weight, for a bound that all steps keep
  generalize hw : weight d (identities d l.path n) l = w
  induction w using Nat.strongRecOn generalizing l with
  | ind w ih =>
    refine ⟨_, fun l' ⟨hu, h⟩ => ?_⟩
    have hlow := step_lowers hn (Decidable.not_and_iff_or_not.1 hu)
    rw [h] at hlow
    refine ih _ ?_ l' (hlow.within hn) rfl
    rw [hlow.path_eq, ← hw]
    exact hlow.weight_lt

/-- A step that asks to go on is a step of a lexer that is not used up. -/
theorem spends_of_more {d : Disk} {l l' : Lexer} {w : Option Diagnostic}
    (h : step d l = .more l' w) : Spends d l' l := by
  refine ⟨fun hu => ?_, by rw [h]; rfl⟩
  rw [step_of_isUsedUp d hu] at h
  simp at h

end Lexer
end Pushdown
