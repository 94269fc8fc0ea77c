/-
  Patterns: regular expressions over bytes.

  A pattern is a regular expression of the library, and what it matches is a language over bytes
  (`matches'`).  Writing one with the constructors alone is tedious: there is no class of bytes, no
  text and no "once or more".  The helpers below write these (`oneOf`, `word`, `many`), and each of
  them is made of the constructors, so that what it matches is still told by the library.

  Each helper comes with a lemma that says in plain words of the bytes what is matched, so that a
  grammar can be read without looking at languages again.  For classes this is a predicate of its
  own: `P.Bytes p` says that `P` matches the single bytes of `p`.  It goes through sums
  (`Bytes.add`), and it tells what repetition and products of a class match (`Bytes.mem_many_iff`,
  `Bytes.mem_mul_iff`).

  Of general patterns only repetition needs more than the library says: a match of it is empty, or
  takes a match that is not empty off the front (`mem_star_iff`).  That is the form in which a
  scanner works.
-/
import Mathlib.Computability.RegularExpressions
import Pushdown.Text.Basic

namespace Pushdown

open Text (byte)

/-- A regular expression over bytes. -/
abbrev Pattern := RegularExpression UInt8

namespace Pattern

/-! ## Writing patterns -/

/-- One byte out of a class. -/
def oneOf (p : UInt8 → Bool) : Pattern :=
  (((List.range 256).map UInt8.ofNat).filter p).foldr (fun b P => .char b + P) 0

/-- One byte from a character up to another. -/
def within (first last : Char) : Pattern := oneOf fun b => byte first ≤ b && b ≤ byte last

/-- One byte that is none of some. -/
def noneOf (bs : Text) : Pattern := oneOf fun b => b ∉ bs

/-- The character itself. -/
def only (c : Char) : Pattern := .char (byte c)

/-- The bytes of a text, one after the other. -/
def word (t : Text) : Pattern := t.foldr (fun b P => .char b * P) 1

/-- Once or more often. -/
def many (P : Pattern) : Pattern := P * P.star

/-! ## What they match -/

/-- `P.Bytes p`: the pattern matches the single bytes of the class `p`, and nothing else. -/
def Bytes (P : Pattern) (p : UInt8 → Bool) : Prop :=
  ∀ u, u ∈ P.matches' ↔ ∃ b, p b = true ∧ u = [b]

variable {P Q : Pattern} {p q : UInt8 → Bool} {u : Text}

/-- A sum matches what either side matches. -/
theorem mem_add_iff : u ∈ (P + Q).matches' ↔ u ∈ P.matches' ∨ u ∈ Q.matches' := Iff.rfl

/-- A product matches a match of each side, one after the other. -/
theorem mem_mul_iff : u ∈ (P * Q).matches' ↔ ∃ v ∈ P.matches', ∃ w ∈ Q.matches', v ++ w = u :=
  Language.mem_mul

/-- One byte, and then the rest. -/
theorem mem_char_mul_iff {b : UInt8} :
    u ∈ (RegularExpression.char b * P).matches' ↔ ∃ v ∈ P.matches', u = b :: v := by
  rw [mem_mul_iff]
  constructor
  · rintro ⟨v, rfl, w, hw, rfl⟩
    exact ⟨w, hw, rfl⟩
  · rintro ⟨w, hw, rfl⟩
    exact ⟨[b], rfl, w, hw, rfl⟩

/-- Repetition takes one non-empty match at a time. -/
theorem mem_star_iff : u ∈ P.star.matches' ↔
    u = [] ∨ ∃ v ∈ P.matches', ∃ w ∈ P.star.matches', v ≠ [] ∧ u = v ++ w := by
  rw [RegularExpression.matches'_star]
  constructor
  · intro hu
    obtain ⟨us, rfl, hus⟩ := Language.mem_kstar_iff_exists_nonempty.mp hu
    cases us with
    | nil => exact Or.inl rfl
    | cons v us =>
      obtain ⟨hv, hne⟩ := hus v List.mem_cons_self
      refine Or.inr ⟨v, hv, us.flatten, ?_, hne, rfl⟩
      exact Language.mem_kstar.mpr ⟨us, rfl, fun w hw => (hus w (List.mem_cons_of_mem v hw)).1⟩
  · rintro (rfl | ⟨v, hv, w, hw, -, rfl⟩)
    · exact Language.nil_mem_kstar _
    · obtain ⟨us, rfl, hus⟩ := Language.mem_kstar.mp hw
      refine Language.mem_kstar.mpr ⟨v :: us, rfl, fun w hw => ?_⟩
      rcases List.mem_cons.mp hw with rfl | hw
      · exact hv
      · exact hus w hw

/-- A word matches itself. -/
theorem mem_word_iff {t : Text} : u ∈ (word t).matches' ↔ u = t := by
  induction t generalizing u with
  | nil => exact Iff.rfl
  | cons b t ih =>
    rw [word, List.foldr_cons, mem_char_mul_iff]
    constructor
    · rintro ⟨w, hw, rfl⟩
      rw [ih.mp hw]
    · rintro rfl
      exact ⟨t, ih.mpr rfl, rfl⟩

/-! ### Classes of bytes -/

/-- A sum of bytes matches one of them. -/
theorem mem_foldr_iff {bs : Text} :
    u ∈ (bs.foldr (fun b P => RegularExpression.char b + P) 0).matches' ↔ ∃ b ∈ bs, u = [b] := by
  induction bs with
  | nil => simp [RegularExpression.matches'_zero]
  | cons b bs ih =>
    rw [List.foldr_cons, mem_add_iff, ih, List.exists_mem_cons_iff]
    exact Iff.rfl

/-- A class matches its bytes. -/
theorem bytes_oneOf (p : UInt8 → Bool) : (oneOf p).Bytes p := by
  intro u
  rw [oneOf, mem_foldr_iff]
  constructor
  · rintro ⟨b, hb, rfl⟩
    exact ⟨b, (List.mem_filter.mp hb).2, rfl⟩
  · rintro ⟨b, hb, rfl⟩
    refine ⟨b, List.mem_filter.mpr ⟨List.mem_map.mpr ⟨b.toNat, ?_, by simp⟩, hb⟩, rfl⟩
    exact List.mem_range.mpr b.toNat_lt

/-- The bytes from one up to another. -/
theorem bytes_within (first last : Char) :
    (within first last).Bytes fun b => byte first ≤ b && b ≤ byte last :=
  bytes_oneOf _

/-- The bytes that are none of some. -/
theorem bytes_noneOf (bs : Text) : (noneOf bs).Bytes fun b => b ∉ bs := bytes_oneOf _

/-- A single byte. -/
theorem bytes_only (c : Char) : (only c).Bytes fun b => b = byte c := by
  intro u
  constructor
  · rintro rfl
    exact ⟨byte c, decide_eq_true rfl, rfl⟩
  · rintro ⟨b, hb, rfl⟩
    rw [of_decide_eq_true hb]
    rfl

/-- Two classes make one. -/
theorem Bytes.add (hP : P.Bytes p) (hQ : Q.Bytes q) : (P + Q).Bytes fun b => p b || q b := by
  intro u
  rw [mem_add_iff, hP, hQ, ← exists_or]
  refine exists_congr fun b => ?_
  rw [Bool.or_eq_true_iff, or_and_right]

/-- A byte of a class, and then the rest. -/
theorem Bytes.mem_mul_iff (hP : P.Bytes p) :
    u ∈ (P * Q).matches' ↔ ∃ b v, p b = true ∧ v ∈ Q.matches' ∧ u = b :: v := by
  rw [Pattern.mem_mul_iff]
  constructor
  · rintro ⟨w, hw, v, hv, rfl⟩
    obtain ⟨b, hb, rfl⟩ := (hP w).mp hw
    exact ⟨b, v, hb, hv, rfl⟩
  · rintro ⟨b, v, hb, hv, rfl⟩
    exact ⟨[b], (hP _).mpr ⟨b, hb, rfl⟩, v, hv, rfl⟩

/-- Repeating a class matches the texts of its bytes. -/
theorem Bytes.mem_star_iff (hP : P.Bytes p) : u ∈ P.star.matches' ↔ ∀ b ∈ u, p b = true := by
  induction u with
  | nil => exact ⟨fun _ => List.forall_mem_nil _, fun _ => Pattern.mem_star_iff.mpr (Or.inl rfl)⟩
  | cons b u ih =>
    rw [Pattern.mem_star_iff, List.forall_mem_cons, ← ih]
    constructor
    · rintro (hnil | ⟨v, hv, w, hw, -, heq⟩)
      · exact absurd hnil (List.cons_ne_nil b u)
      · obtain ⟨c, hc, rfl⟩ := (hP v).mp hv
        obtain ⟨rfl, rfl⟩ := List.cons.inj heq
        exact ⟨hc, hw⟩
    · rintro ⟨hb, hu⟩
      exact Or.inr ⟨[b], (hP _).mpr ⟨b, hb, rfl⟩, u, hu, List.cons_ne_nil b [], rfl⟩

/-- Repeating it once or more often matches those that are not empty. -/
theorem Bytes.mem_many_iff (hP : P.Bytes p) :
    u ∈ (many P).matches' ↔ u ≠ [] ∧ ∀ b ∈ u, p b = true := by
  rw [many, hP.mem_mul_iff]
  constructor
  · rintro ⟨b, v, hb, hv, rfl⟩
    exact ⟨List.cons_ne_nil b v, List.forall_mem_cons.mpr ⟨hb, hP.mem_star_iff.mp hv⟩⟩
  · rintro ⟨hne, hu⟩
    obtain ⟨b, v, rfl⟩ := List.exists_cons_of_ne_nil hne
    obtain ⟨hb, hv⟩ := List.forall_mem_cons.mp hu
    exact ⟨b, v, hb, hP.mem_star_iff.mpr hv, rfl⟩

end Pattern
end Pushdown
