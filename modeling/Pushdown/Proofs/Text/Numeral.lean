/-
  Numerals and the numbers they denote.

  `Denotes` is positional writing: the digits of a base, told from a table of digits, with the most
  significant one first.  It does not mention how a numeral is read, and the library has the value
  of a list of digits, so that little is left to believe.  Both readers of numerals compute what a
  run of digits denotes: that of tokens, which knows four bases and separators
  (`digitsFrom_of_digits`), and that of decimal integers (`decimalFrom_eq_some_iff`).

  The table of digits and the comparisons of bytes that the readers make are brought together once
  (`standsFor_iff`): there are 256 bytes, and all of them are looked at.  From there on digits are
  members of a table.

  The readers go from the left and multiply what they have by the base, while the library counts the
  least significant digit first.  That both give the same number is `ofDigits_reverse`.

  Two results are for others to use.

  * Written and read back, a number is the same (`decimal?_ofNat`), and with a bound of 64 bits it
    is the same or nothing (`int64?_ofNat`).  This also shows that two numbers are never written in
    the same way (`ofNat_injective`).

  * A word is read as an integer of 64 bits if and only if it is the numeral of one, with or without
    a sign (`int64?_eq_some_iff`).
-/
import Mathlib.Data.Nat.Digits.Defs
import Pushdown.Text.Numeral

namespace Pushdown.Numeral

open Text (lit byte)

/-! ## Canonical numerals -/

/-- Is the byte a decimal digit? -/
def isDigit (b : UInt8) : Bool := byte '0' ≤ b && b ≤ byte '9'

/-- The bytes of digits are those of their code points. -/
theorem toNat_byte_of_isDigit {c : Char} (hc : c.isDigit = true) :
    (byte c).toNat = c.toNat ∧ 48 ≤ c.toNat ∧ c.toNat ≤ 57 := by
  have hrange : 48 ≤ c.toNat ∧ c.toNat ≤ 57 := Char.isDigit_iff_toNat.mp hc
  refine ⟨?_, hrange⟩
  show c.toNat % 256 = c.toNat
  omega

/-- Digits as characters are digits as bytes. -/
theorem isDigit_byte {c : Char} (hc : c.isDigit = true) : isDigit (byte c) = true := by
  obtain ⟨hbyte, hlow, hhigh⟩ := toNat_byte_of_isDigit hc
  have hzero : (byte '0').toNat = 48 := rfl
  have hnine : (byte '9').toNat = 57 := rfl
  rw [isDigit, Bool.and_eq_true, decide_eq_true_iff, decide_eq_true_iff, UInt8.le_iff_toNat_le,
    UInt8.le_iff_toNat_le]
  omega

/-- A numeral has nothing but digits. -/
theorem isDigit_of_mem_ofNat {n : Nat} {b : UInt8} (h : b ∈ ofNat n) : isDigit b = true := by
  obtain ⟨c, hc, rfl⟩ := List.mem_map.mp h
  exact isDigit_byte (Nat.isDigit_of_mem_toDigits (by omega) (by omega) hc)

/-- It has at least one. -/
theorem ofNat_ne_nil (n : Nat) : ofNat n ≠ [] := fun h =>
  Nat.toDigits_ne_nil (List.map_eq_nil_iff.mp h)

/-- The value of a decimal digit is how far it is behind zero. -/
theorem digitOf?_byte {c : Char} (hc : c.isDigit = true) :
    digitOf? 10 (byte c) = some (c.toNat - '0'.toNat) := by
  obtain ⟨hbyte, hlow, hhigh⟩ := toNat_byte_of_isDigit hc
  have hdigit : (byte '0' ≤ byte c && byte c ≤ byte '9') = true := isDigit_byte hc
  have hzero : '0'.toNat = 48 := rfl
  rw [digitOf?, digit?, if_pos hdigit, hbyte, hzero]
  exact Option.filter_some_pos (decide_eq_true (by omega))

/-- Digits are read in the way in which the library reads them. -/
theorem decimalFrom_map_byte {cs : List Char} (hcs : ∀ c ∈ cs, c.isDigit = true) (value : Nat) :
    decimalFrom value (cs.map byte) = some (Nat.ofDigitChars 10 cs value) := by
  induction cs generalizing value with
  | nil => rfl
  | cons c cs ih =>
    obtain ⟨hc, hcs⟩ := List.forall_mem_cons.mp hcs
    rw [List.map_cons, decimalFrom, digitOf?_byte hc, Option.bind_some, ih hcs,
      Nat.ofDigitChars_cons, Nat.mul_comm]

/-- **A number is read back** from the numeral that is written for it. -/
theorem decimal?_ofNat (n : Nat) : decimal? (ofNat n) = some n := by
  have hdigits : ∀ c ∈ Nat.toDigits 10 n, c.isDigit = true := fun c hc =>
    Nat.isDigit_of_mem_toDigits (by omega) (by omega) hc
  have hread := decimalFrom_map_byte hdigits 0
  rw [Nat.ofDigitChars_ten_toDigits] at hread
  rw [decimal?]
  · exact hread
  · exact ofNat_ne_nil n

/-- Different numbers are written differently. -/
theorem ofNat_injective : Function.Injective ofNat := by
  intro n m h
  have hread := decimal?_ofNat n
  rw [h, decimal?_ofNat m] at hread
  exact (Option.some.inj hread).symm

/-- A digit is no sign. -/
theorem splitSign_of_isDigit {b : UInt8} (hb : isDigit b = true) (t : Text) :
    splitSign (b :: t) = (false, b :: t) := by
  have hminus : b ≠ byte '-' := by
    rintro rfl
    exact absurd hb (by decide)
  have hplus : b ≠ byte '+' := by
    rintro rfl
    exact absurd hb (by decide)
  rw [splitSign, if_neg hminus, if_neg hplus]

/-- Read with a bound of 64 bits, a numeral gives its number or nothing. -/
theorem int64?_ofNat (n : Nat) :
    int64? (ofNat n) = if n ≤ 2 ^ 63 - 1 then some (n : Int) else none := by
  obtain ⟨b, t, hcons⟩ := List.exists_cons_of_ne_nil (ofNat_ne_nil n)
  have hb : isDigit b = true := isDigit_of_mem_ofNat (hcons ▸ List.mem_cons_self)
  have hfits : fits64 (n : Int) = decide (n ≤ 2 ^ 63 - 1) := by
    have hmin : Int64.minValue.toInt = -2 ^ 63 := rfl
    have hmax : Int64.maxValue.toInt = 2 ^ 63 - 1 := rfl
    rw [fits64, hmin, hmax, ← Bool.decide_and]
    exact decide_eq_decide.mpr (by omega)
  have hread : int64? (ofNat n) = ((decimal? (ofNat n)).map (signed false)).filter fits64 := by
    rw [int64?, hcons, splitSign_of_isDigit hb]
  have hsigned : signed false n = n := rfl
  rw [hread, decimal?_ofNat, Option.map_some, hsigned, Option.filter_some, hfits]
  simp only [decide_eq_true_eq]

/-! ## Digits of a base -/

/-- The byte `b` is the digit of the value `v`. -/
def StandsFor (b : UInt8) (v : Nat) : Prop :=
  (lit "0123456789abcdef")[v]? = some b ∨ (lit "0123456789ABCDEF")[v]? = some b

/-- `Denotes base t n`: the digits `t` of the base, the most significant one first, denote `n`. -/
def Denotes (base : Nat) (t : Text) (n : Nat) : Prop :=
  ∃ vs, List.Forall₂ StandsFor t vs ∧ (∀ v ∈ vs, v < base) ∧ Nat.ofDigits base vs.reverse = n

variable {base v n : Nat} {b : UInt8} {t : Text}

/-- The table has sixteen digits. -/
theorem StandsFor.lt (h : StandsFor b v) : v < 16 := by
  rcases h with h | h
  · exact (List.getElem?_eq_some_iff.mp h).1
  · exact (List.getElem?_eq_some_iff.mp h).1

/-- A digit of the table is read as its value. -/
theorem StandsFor.digit?_eq (h : StandsFor b v) : digit? b = some v := by
  have hall : ∀ v < 16, (lit "0123456789abcdef")[v]?.bind digit? = some v ∧
      (lit "0123456789ABCDEF")[v]?.bind digit? = some v := by decide
  obtain ⟨hlower, hupper⟩ := hall v h.lt
  rcases h with h | h
  · rwa [h] at hlower
  · rwa [h] at hupper

/-- The table holds the digits up to base sixteen. -/
theorem standsFor_iff : StandsFor b v ↔ digit? b = some v ∧ v < 16 := by
  refine ⟨fun h => ⟨h.digit?_eq, h.lt⟩, fun ⟨hdigit, hlt⟩ => ?_⟩
  -- there are few enough bytes and digits to look at all of them
  have hall : ∀ n < 256, ∀ v ∈ digit? (.ofNat n), v < 16 →
      (lit "0123456789abcdef")[v]? = some (.ofNat n) ∨
        (lit "0123456789ABCDEF")[v]? = some (.ofNat n) := by decide +kernel
  have hb := hall b.toNat b.toNat_lt v
  rw [UInt8.ofNat_toNat] at hb
  exact hb hdigit hlt

/-- The digits of a base that a numeral may have. -/
theorem isSome_digitOf?_iff (hbase : base ≤ 16) :
    (digitOf? base b).isSome = true ↔ ∃ v < base, StandsFor b v := by
  simp only [digitOf?, Option.isSome_iff_exists, Option.filter_eq_some_iff, decide_eq_true_eq,
    standsFor_iff]
  refine exists_congr fun v => ⟨?_, ?_⟩
  · rintro ⟨hdigit, hlt⟩
    exact ⟨hlt, hdigit, by omega⟩
  · rintro ⟨hlt, hdigit, -⟩
    exact ⟨hdigit, hlt⟩

/-- A digit is not taken for a separator. -/
theorem StandsFor.ne_separator (h : StandsFor b v) : b ≠ byte '_' := by
  rintro rfl
  exact nomatch h.digit?_eq

/-- Digits without separators are read from the left. -/
theorem digitsFrom_of_digits {vs : List Nat} (h : List.Forall₂ StandsFor t vs)
    (hlt : ∀ v ∈ vs, v < base) (value : Nat) :
    digitsFrom base .digit value t = some (vs.foldl (fun n v => n * base + v) value) := by
  induction h generalizing value with
  | nil => rfl
  | @cons b v t vs hb _ ih =>
    obtain ⟨hv, hlt⟩ := List.forall_mem_cons.mp hlt
    have hdigit : digitOf? base b = some v := by
      rw [digitOf?, hb.digit?_eq]
      exact Option.filter_some_pos (decide_eq_true hv)
    rw [digitsFrom, if_neg hb.ne_separator, hdigit, Option.bind_some, ih hlt, List.foldl_cons]

/-- The value of digits, computed from the left. -/
theorem ofDigits_reverse (base : Nat) (vs : List Nat) :
    Nat.ofDigits base vs.reverse = vs.foldl (fun n v => n * base + v) 0 := by
  rw [Nat.ofDigits_eq_foldr, List.foldr_reverse]
  simp only [Nat.cast_id, Nat.mul_comm base, Nat.add_comm]

/-- What stands in front of the first digit does not matter. -/
theorem Denotes.digitsFrom_eq (h : Denotes base t n) (hne : t ≠ []) (before : Before) :
    digitsFrom base before 0 t = some n := by
  obtain ⟨vs, hvs, hlt, rfl⟩ := h
  rw [ofDigits_reverse, ← digitsFrom_of_digits hvs hlt 0]
  cases hvs with
  | nil => exact absurd rfl hne
  | cons hb _ => rw [digitsFrom, digitsFrom, if_neg hb.ne_separator, if_neg hb.ne_separator]

/-- Digits of the base denote some number. -/
theorem exists_denotes (h : ∀ b ∈ t, ∃ v < base, StandsFor b v) : ∃ n, Denotes base t n := by
  suffices hvs : ∃ vs, List.Forall₂ StandsFor t vs ∧ ∀ v ∈ vs, v < base by
    obtain ⟨vs, hvs, hlt⟩ := hvs
    exact ⟨_, vs, hvs, hlt, rfl⟩
  induction t with
  | nil => exact ⟨[], .nil, List.forall_mem_nil _⟩
  | cons b t ih =>
    obtain ⟨⟨v, hlt, hb⟩, ht⟩ := List.forall_mem_cons.mp h
    obtain ⟨vs, hvs, hall⟩ := ih ht
    exact ⟨v :: vs, .cons hb hvs, List.forall_mem_cons.mpr ⟨hlt, hall⟩⟩

/-- What denotes a number consists of digits of the base. -/
theorem Denotes.exists_standsFor (h : Denotes base t n) : ∀ b ∈ t, ∃ v < base, StandsFor b v := by
  obtain ⟨vs, hvs, hlt, -⟩ := h
  induction hvs with
  | nil => exact List.forall_mem_nil _
  | cons hb _ ih =>
    obtain ⟨hv, hlt⟩ := List.forall_mem_cons.mp hlt
    exact List.forall_mem_cons.mpr ⟨⟨_, hv, hb⟩, ih hlt⟩

/-! ## Decimal integers -/

/-- The decimal digits are the first ten of the table. -/
theorem digitOf?_eq_some_iff : digitOf? 10 b = some v ↔ StandsFor b v ∧ v < 10 := by
  rw [digitOf?, Option.filter_eq_some_iff, decide_eq_true_eq, standsFor_iff]
  constructor
  · rintro ⟨hdigit, hlt⟩
    exact ⟨⟨hdigit, by omega⟩, hlt⟩
  · rintro ⟨⟨hdigit, -⟩, hlt⟩
    exact ⟨hdigit, hlt⟩

/-- A run of decimal digits is read from the left, behind what was read before. -/
theorem decimalFrom_eq_some_iff {value : Nat} : decimalFrom value t = some n ↔
    ∃ vs, List.Forall₂ StandsFor t vs ∧ (∀ v ∈ vs, v < 10) ∧
      vs.foldl (fun n v => n * 10 + v) value = n := by
  induction t generalizing value with
  | nil =>
    rw [decimalFrom]
    constructor
    · intro h
      exact ⟨[], .nil, List.forall_mem_nil _, Option.some.inj h⟩
    · rintro ⟨vs, hvs, -, rfl⟩
      cases hvs
      rfl
  | cons b t ih =>
    rw [decimalFrom, Option.bind_eq_some_iff]
    constructor
    · rintro ⟨v, hv, ht⟩
      obtain ⟨hb, hlt⟩ := digitOf?_eq_some_iff.mp hv
      obtain ⟨vs, hvs, hall, hvalue⟩ := ih.mp ht
      exact ⟨v :: vs, .cons hb hvs, List.forall_mem_cons.mpr ⟨hlt, hall⟩, hvalue⟩
    · rintro ⟨_, _ | ⟨hb, hvs⟩, hall, hvalue⟩
      obtain ⟨hlt, hall⟩ := List.forall_mem_cons.mp hall
      exact ⟨_, digitOf?_eq_some_iff.mpr ⟨hb, hlt⟩, ih.mpr ⟨_, hvs, hall, hvalue⟩⟩

/-- A decimal numeral is read if and only if there are digits, and as what they denote. -/
theorem decimal?_eq_some_iff : decimal? t = some n ↔ t ≠ [] ∧ Denotes 10 t n := by
  cases t with
  | nil => exact iff_of_false nofun fun h => h.1 rfl
  | cons b t =>
    rw [decimal?, decimalFrom_eq_some_iff, Denotes]
    simp only [ofDigits_reverse, ne_eq, reduceCtorEq, not_false_eq_true, true_and]
    exact nofun

/-- Decimal integers, with or without a sign. -/
inductive Integer : Text → Int → Prop
  | plain {t : Text} {n : Nat} (hne : t ≠ []) (h : Denotes 10 t n) : Integer t n
  | plus {t : Text} {n : Nat} (hne : t ≠ []) (h : Denotes 10 t n) : Integer (byte '+' :: t) n
  | minus {t : Text} {n : Nat} (hne : t ≠ []) (h : Denotes 10 t n) : Integer (byte '-' :: t) (-n)

/-- Digits have no sign in front. -/
theorem splitSign_of_denotes (h : Denotes 10 t n) : splitSign t = (false, t) := by
  cases t with
  | nil => rfl
  | cons b t =>
    obtain ⟨v, -, hb⟩ := h.exists_standsFor b List.mem_cons_self
    have hminus : b ≠ byte '-' := by
      rintro rfl
      exact nomatch hb.digit?_eq
    have hplus : b ≠ byte '+' := by
      rintro rfl
      exact nomatch hb.digit?_eq
    rw [splitSign, if_neg hminus, if_neg hplus]

/-- There is no sign, or one of two. -/
theorem splitSign_cases (t : Text) : splitSign t = (false, t) ∨
    ∃ u, (t = byte '+' :: u ∧ splitSign t = (false, u)) ∨
      (t = byte '-' :: u ∧ splitSign t = (true, u)) := by
  cases t with
  | nil => exact .inl rfl
  | cons b t =>
    rw [splitSign]
    split
    · rename_i hb
      exact .inr ⟨t, .inr ⟨congrArg (· :: t) hb, rfl⟩⟩
    · split
      · rename_i hb
        exact .inr ⟨t, .inl ⟨congrArg (· :: t) hb, rfl⟩⟩
      · exact .inl rfl

/-- An integer is its sign and what the digits behind it denote. -/
theorem integer_iff {i : Int} : Integer t i ↔
    ∃ n, decimal? (splitSign t).2 = some n ∧ signed (splitSign t).1 n = i := by
  constructor
  · intro h
    cases h with
    | @plain t n hne h =>
      rw [splitSign_of_denotes h]
      exact ⟨n, decimal?_eq_some_iff.mpr ⟨hne, h⟩, rfl⟩
    | @plus t n hne h => exact ⟨n, decimal?_eq_some_iff.mpr ⟨hne, h⟩, rfl⟩
    | @minus t n hne h => exact ⟨n, decimal?_eq_some_iff.mpr ⟨hne, h⟩, rfl⟩
  · rintro ⟨n, hn, rfl⟩
    rcases splitSign_cases t with h | ⟨u, ⟨rfl, h⟩ | ⟨rfl, h⟩⟩
    all_goals
      rw [h] at hn ⊢
      obtain ⟨hne, hn⟩ := decimal?_eq_some_iff.mp hn
    · exact .plain hne hn
    · exact .plus hne hn
    · exact .minus hne hn

/-- **A word is read as an integer** if it is one and fits into 64 bits. -/
theorem int64?_eq_some_iff {i : Int} : int64? t = some i ↔
    Integer t i ∧ -2 ^ 63 ≤ i ∧ i ≤ 2 ^ 63 - 1 := by
  have hfits : fits64 i = true ↔ -2 ^ 63 ≤ i ∧ i ≤ 2 ^ 63 - 1 := by
    have hmin : Int64.minValue.toInt = -2 ^ 63 := rfl
    have hmax : Int64.maxValue.toInt = 2 ^ 63 - 1 := rfl
    rw [fits64, hmin, hmax, Bool.and_eq_true, decide_eq_true_eq, decide_eq_true_eq]
  rw [int64?, Option.filter_eq_some_iff, Option.map_eq_some_iff, hfits, integer_iff]

end Pushdown.Numeral
