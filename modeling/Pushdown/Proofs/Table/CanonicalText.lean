/-
  What the canonical text of a description tells.

  The canonical text is what a fingerprint is a digest of.  It leaves out two things.  A number that
  is absent is written as zero, so an action that calls state zero looks like one that calls nothing
  (`ActionSpec.faded`).  And texts are quoted without escapes, so a key with quotes in it can look
  like several entries.  Either way two different tables can have the same canonical text
  (`canonicalText_collides`).

  Nothing else is lost (`canonicalText_eq_iff`).  The text is put together from pieces of which no
  two are written alike, whatever follows them (`Delimits`): quoted texts without quotes in them,
  numbers in front of anything but a digit, actions, and lists in brackets.

  The proof reads the text from the left.  A piece ends where its kind of byte ends, digits or
  anything but a quote (`append_inj_of_span`), and what is fixed between two pieces can be cut off.
  So each piece needs the byte after it, and `Delimits` speaks of a piece with a text behind it that
  does not go on with a digit (`Halts`); for the other pieces this is no restriction at all.

  An absent number written as zero is harmless in two of three places.  A shift to state zero is
  told from no shift by the name of the reduction, since a description that makes sense has exactly
  one of the two; and the state of a rule is never absent.  Only the call is lost
  (`ActionSpec.Told.ext`).

  A listing sorts the keys by their quoted texts, and a description sorts them as they are.  So the
  two are compared as maps with other keys (`Dict.get?_ofList_rename`), and never by the order of
  their entries.
-/
import Pushdown.Proofs.Table.Description
import Pushdown.Proofs.Text.Numeral

namespace Pushdown

open Text (lit byte)

/-! ## Maps with other values

  A canonical text lists a map under other keys, and without its calls a description is a map with
  other values.  Both are maps that are made from the entries of a map, and their look-ups are told
  here once. -/

namespace Dict

variable {β γ : Type}

/-- The map with every value replaced. -/
def map (f : β → γ) (d : Dict β) : Dict γ :=
  ⟨d.entries.map fun e => (e.1, f e.2), List.pairwise_map.mpr d.ordered⟩

/-- What is found among replaced values is what was found, replaced. -/
theorem find_map (f : β → γ) (k : Text) (es : List (Text × β)) :
    find k (es.map fun e => (e.1, f e.2)) = (find k es).map f := by
  induction es with
  | nil => rfl
  | cons e es ih =>
    rw [List.map_cons, find_cons, find_cons, ih]
    by_cases h : e.1 = k
    · rw [if_pos h, if_pos h]
      rfl
    · rw [if_neg h, if_neg h]

/-- The same for maps. -/
theorem get?_map (f : β → γ) (d : Dict β) (k : Text) : (d.map f).get? k = (d.get? k).map f :=
  find_map f k d.entries

/-- Values can be replaced before the map is made or after. -/
theorem ofList_map (f : β → γ) (l : List (Text × β)) :
    ofList (l.map fun e => (e.1, f e.2)) = (ofList l).map f := by
  refine ext_get? fun k => ?_
  rw [get?_map, get?_ofList, get?_ofList, ← List.map_reverse, find_map]

/-- Looking up in a map of which the keys were renamed. -/
theorem find_rename {f : Text → Text} (hf : Function.Injective f) (k : Text)
    (es : List (Text × β)) : find (f k) (es.map fun e => (f e.1, e.2)) = find k es := by
  induction es with
  | nil => rfl
  | cons e es ih =>
    rw [List.map_cons, find_cons, find_cons, ih]
    by_cases h : e.1 = k
    · rw [if_pos h, if_pos (congrArg f h)]
    · rw [if_neg h, if_neg fun heq => h (hf heq)]

/-- A renamed map has under the new name what it had under the old one. -/
theorem get?_ofList_rename {f : Text → Text} (hf : Function.Injective f) (d : Dict β) (k : Text) :
    (ofList (d.entries.map fun e => (f e.1, e.2))).get? (f k) = d.get? k := by
  rw [get?_ofList, ← List.map_reverse, find_rename hf, find_reverse k d.ordered]
  rfl

/-- The entries of a map of bindings are among the bindings. -/
theorem mem_of_mem_ofList {l : List (Text × β)} {e : Text × β} (h : e ∈ (ofList l).entries) :
    e ∈ l := by
  have hfind : find e.1 l.reverse = some e.2 :=
    (get?_ofList l e.1).symm.trans (get?_eq_some_iff.mpr h)
  -- what is found is one of the bindings
  have hmem : ∀ {es : List (Text × β)}, find e.1 es = some e.2 → e ∈ es := by
    intro es hes
    induction es with
    | nil => exact nomatch hes
    | cons p es ih =>
      rw [find_cons] at hes
      by_cases hkey : p.1 = e.1
      · rw [if_pos hkey] at hes
        obtain rfl : p = e := Prod.ext hkey (Option.some.inj hes)
        exact List.mem_cons_self
      · rw [if_neg hkey] at hes
        exact List.mem_cons_of_mem _ (ih hes)
  exact List.mem_reverse.mp (hmem hfind)

end Dict

/-! ## Texts that begin alike

  Two texts that are put together from pieces are compared from the left.  `Delimits` is what is
  needed of a way of writing: if two texts that begin with a piece each are the same, then so are
  the pieces and what follows them.  Numerals are the reason for the condition on what follows,
  since a numeral can go on. -/

namespace TableSpec

/-- The text does not begin with a digit. -/
def Halts (r : Text) : Prop := ∀ b ∈ r.head?, Numeral.isDigit b = false

/-- Of some values no two are written alike, even if texts follow that do not begin with a
    digit. -/
def Delimits {β : Type} (P : β → Prop) (write : β → Text) : Prop :=
  ∀ ⦃a b : β⦄ ⦃r r' : Text⦄, P a → P b → Halts r → Halts r' →
    write a ++ r = write b ++ r' → a = b ∧ r = r'

/-- A text that begins with another byte does not begin with a digit. -/
theorem halts_cons {b : UInt8} {r : Text} (h : Numeral.isDigit b = false) : Halts (b :: r) := by
  rintro b' hb'
  obtain rfl := Option.some.inj hb'
  exact h

/-- What a text begins with, its first piece begins with. -/
theorem halts_append {t r : Text} (ht : (t.head?.any fun b => !Numeral.isDigit b) = true) :
    Halts (t ++ r) := by
  cases t with
  | nil => exact nomatch ht
  | cons b t => exact halts_cons (by simpa using ht)

/-- A run of bytes of some kind ends where the next byte is of another kind. -/
theorem append_inj_of_span {p : UInt8 → Bool} {ds ds' r r' : Text} (hds : ∀ b ∈ ds, p b = true)
    (hds' : ∀ b ∈ ds', p b = true) (hr : ∀ b ∈ r.head?, p b = false)
    (hr' : ∀ b ∈ r'.head?, p b = false) (h : ds ++ r = ds' ++ r') : ds = ds' ∧ r = r' := by
  -- the run is the longest prefix of its kind
  have hspan : ∀ {ds r : Text}, (∀ b ∈ ds, p b = true) → (∀ b ∈ r.head?, p b = false) →
      (ds ++ r).takeWhile p = ds := by
    intro ds r hds hr
    rw [List.takeWhile_append_of_pos hds]
    cases r with
    | nil => exact List.append_nil ds
    | cons b r =>
      have hb : ¬ p b = true := by
        rw [hr b rfl]
        exact Bool.false_ne_true
      rw [List.takeWhile_cons_of_neg hb, List.append_nil]
  have hsame : ds = ds' := by rw [← hspan hds hr, h, hspan hds' hr']
  subst hsame
  exact ⟨rfl, List.append_cancel_left h⟩

/-- A numeral ends where the digits end. -/
theorem delimits_ofNat : Delimits (fun _ => True) Numeral.ofNat := by
  intro n m r r' _ _ hr hr' h
  obtain ⟨hn, hr⟩ := append_inj_of_span (fun _ => Numeral.isDigit_of_mem_ofNat)
    (fun _ => Numeral.isDigit_of_mem_ofNat) hr hr' h
  exact ⟨Numeral.ofNat_injective hn, hr⟩

/-- A numeral without a sign does not begin with one. -/
theorem ofNat_append_ne {n : Nat} {r r' : Text} : Numeral.ofNat n ++ r ≠ byte '-' :: r' := by
  intro h
  obtain ⟨b, t, hb⟩ := List.exists_cons_of_ne_nil (Numeral.ofNat_ne_nil n)
  have hdigit : Numeral.isDigit b = true :=
    Numeral.isDigit_of_mem_ofNat (hb ▸ List.mem_cons_self)
  rw [hb] at h
  obtain ⟨rfl, -⟩ := List.cons_eq_cons.mp h
  exact absurd hdigit (by decide)

/-- So does one with a sign, since no digit is a sign. -/
theorem delimits_ofInt : Delimits (fun _ => True) Numeral.ofInt := by
  intro n m r r' _ _ hr hr' h
  cases n with
  | ofNat n =>
    cases m with
    | ofNat m =>
      obtain ⟨rfl, hr⟩ := delimits_ofNat trivial trivial hr hr' h
      exact ⟨rfl, hr⟩
    | negSucc m => exact absurd h ofNat_append_ne
  | negSucc n =>
    cases m with
    | ofNat m => exact absurd h.symm ofNat_append_ne
    | negSucc m =>
      obtain ⟨hnm, hr⟩ := delimits_ofNat trivial trivial hr hr' (List.cons_eq_cons.mp h).2
      obtain rfl : n = m := by omega
      exact ⟨rfl, hr⟩

/-- The double quote. -/
def quote : UInt8 := byte '"'

/-- A quoted text up to its closing quote, which is the first byte of the rest. -/
theorem bare_append (k r : Text) : bare k ++ r = quote :: (k ++ quote :: r) := by
  show (quote :: k ++ [quote]) ++ r = _
  rw [List.append_assoc]
  rfl

/-- Different texts are different when they are quoted, whatever is in them: both lose the same last
    byte. -/
theorem bare_injective : Function.Injective bare := by
  intro k k' h
  have hcut : k ++ [quote] = k' ++ [quote] := (List.cons_eq_cons.mp h).2
  exact List.append_cancel_right hcut

/-- A text without quotes ends at the closing quote. -/
theorem bare_append_inj {k k' r r' : Text} (hk : quote ∉ k) (hk' : quote ∉ k')
    (h : bare k ++ r = bare k' ++ r') : k = k' ∧ r = r' := by
  rw [bare_append, bare_append] at h
  have hplain : ∀ {k : Text}, quote ∉ k → ∀ b ∈ k, decide (b ≠ quote) = true := fun hk b hb =>
    decide_eq_true fun heq => hk (heq ▸ hb)
  have hends : ∀ {r : Text}, ∀ b ∈ (quote :: r).head?, decide (b ≠ quote) = false := by
    rintro r b hb
    obtain rfl := Option.some.inj hb
    rfl
  -- the run of bytes that are no quotes
  obtain ⟨rfl, hrest⟩ := append_inj_of_span (hplain hk) (hplain hk') hends hends
    (List.cons_eq_cons.mp h).2
  exact ⟨rfl, (List.cons_eq_cons.mp hrest).2⟩

/-! ## Lists in brackets

  A list is written with a separator between its elements, and the elements differ in number.  So
  behind each element comes a separator or the end of the list (`further`), and the two begin with
  different bytes. -/

section Join

variable {β : Type} {P : β → Prop} {write : β → Text}

/-- A list with separators is its first item and the others, each behind a separator. -/
theorem join_cons (sep t : Text) (ts : List Text) :
    Text.join sep (t :: ts) = t ++ ts.flatMap (sep ++ ·) := by
  induction ts generalizing t with
  | nil => exact (List.append_nil t).symm
  | cons u ts ih =>
    rw [Text.join, ih, List.flatMap_cons, List.append_assoc, List.append_assoc]
    intro h
    exact nomatch h

/-- The items of a list but the first, each behind its comma, up to the closing bracket. -/
def further (write : β → Text) (l : List β) (r : Text) : Text :=
  l.flatMap (fun a => byte ',' :: write a) ++ byte ']' :: r

/-- The next item stands behind a comma. -/
theorem further_cons (a : β) (l : List β) (r : Text) :
    further write (a :: l) r = byte ',' :: (write a ++ further write l r) := by
  unfold further
  rw [List.flatMap_cons, List.cons_append, List.cons_append, List.append_assoc]

/-- What follows an item is a comma or the bracket, and no digit. -/
theorem halts_further (l : List β) (r : Text) : Halts (further write l r) := by
  cases l with
  | nil => exact halts_cons rfl
  | cons a l =>
    rw [further_cons]
    exact halts_cons rfl

/-- Further items are told from the text: a comma announces one, and the bracket ends them. -/
theorem further_inj (h : Delimits P write) {l l' : List β} (hl : ∀ a ∈ l, P a)
    (hl' : ∀ a ∈ l', P a) {r r' : Text} (heq : further write l r = further write l' r') :
    l = l' ∧ r = r' := by
  induction l generalizing l' with
  | nil =>
    cases l' with
    | nil => exact ⟨rfl, (List.cons_eq_cons.mp heq).2⟩
    | cons a' l' =>
      rw [further_cons] at heq
      exact absurd (List.cons_eq_cons.mp heq).1 (by decide)
  | cons a l ih =>
    cases l' with
    | nil =>
      rw [further_cons] at heq
      exact absurd (List.cons_eq_cons.mp heq).1 (by decide)
    | cons a' l' =>
      rw [List.forall_mem_cons] at hl hl'
      rw [further_cons, further_cons] at heq
      obtain ⟨rfl, hrest⟩ := h hl.1 hl'.1 (halts_further l r) (halts_further l' r')
        (List.cons_eq_cons.mp heq).2
      obtain ⟨rfl, hr⟩ := ih hl.2 hl'.2 hrest
      exact ⟨rfl, hr⟩

/-- Items with commas between them, up to the closing bracket. -/
theorem join_inj (h : Delimits P write)
    (hopen : ∀ a, P a → ∃ b t, write a = b :: t ∧ b ≠ byte ']') {l l' : List β}
    (hl : ∀ a ∈ l, P a) (hl' : ∀ a ∈ l', P a) {r r' : Text}
    (heq : Text.join (lit ",") (l.map write) ++ byte ']' :: r =
      Text.join (lit ",") (l'.map write) ++ byte ']' :: r') : l = l' ∧ r = r' := by
  have hjoin : ∀ (a : β) (l : List β) (r : Text),
      Text.join (lit ",") ((a :: l).map write) ++ byte ']' :: r =
        write a ++ further write l r := by
    intro a l r
    rw [List.map_cons, join_cons, List.append_assoc, List.flatMap_map]
    rfl
  -- no item begins with the bracket, so that an empty list is told from the others
  have hclosed : ∀ {a : β} {l : List β} {r r' : Text}, P a →
      write a ++ further write l r ≠ byte ']' :: r' := by
    intro a l r r' ha heq
    obtain ⟨b, t, hb, hne⟩ := hopen a ha
    rw [hb] at heq
    exact hne (List.cons_eq_cons.mp heq).1
  cases l with
  | nil =>
    cases l' with
    | nil => exact ⟨rfl, (List.cons_eq_cons.mp heq).2⟩
    | cons a' l' =>
      rw [hjoin] at heq
      exact absurd heq.symm (hclosed (hl' a' List.mem_cons_self))
  | cons a l =>
    cases l' with
    | nil =>
      rw [hjoin] at heq
      exact absurd heq (hclosed (hl a List.mem_cons_self))
    | cons a' l' =>
      rw [hjoin, hjoin] at heq
      rw [List.forall_mem_cons] at hl hl'
      obtain ⟨rfl, hrest⟩ := h hl.1 hl'.1 (halts_further l r) (halts_further l' r') heq
      obtain ⟨rfl, hr⟩ := further_inj h hl.2 hl'.2 hrest
      exact ⟨rfl, hr⟩

end Join

/-! ## Listings and actions

  A map is written as a list of its entries, in the order of the quoted keys.  Two maps with the
  same listing have the same entries under quoted keys, and quoting is injective. -/

section Listing

variable {β : Type} {P : β → Prop} {write : β → Text}

/-- An entry of a listing, its key already quoted. -/
def entryText (write : β → Text) (e : Text × β) : Text := e.1 ++ lit ":" ++ write e.2

/-- A map with its keys quoted. -/
def quotedKeys (d : Dict β) : Dict β := Dict.ofList (d.entries.map fun e => (bare e.1, e.2))

/-- A listing is the list of its entries in brackets. -/
theorem listing_eq (d : Dict β) : listing write d =
    byte '[' :: (Text.join (lit ",") ((quotedKeys d).entries.map (entryText write)) ++
      [byte ']']) := rfl

/-- Keys without quotes, and values that can be told apart. -/
def Entered (P : β → Prop) (d : Dict β) : Prop := ∀ e ∈ d.entries, quote ∉ e.1 ∧ P e.2

/-- An entry is told if its key has no quotes in it and its value is told. -/
theorem delimits_entryText (h : Delimits P write) :
    Delimits (fun e => ∃ k, quote ∉ k ∧ e.1 = bare k ∧ P e.2) (entryText write) := by
  rintro ⟨q, v⟩ ⟨q', v'⟩ r r' ⟨k, hk, rfl, hv⟩ ⟨k', hk', rfl, hv'⟩ hr hr' heq
  have hassoc : ∀ (k : Text) (v : β) (r : Text),
      entryText write (bare k, v) ++ r = bare k ++ byte ':' :: (write v ++ r) := by
    intro k v r
    show (bare k ++ lit ":" ++ write v) ++ r = _
    rw [List.append_assoc, List.append_assoc]
    rfl
  rw [hassoc, hassoc] at heq
  obtain ⟨rfl, hrest⟩ := bare_append_inj hk hk' heq
  obtain ⟨rfl, hr⟩ := h hv hv' hr hr' (List.cons_eq_cons.mp hrest).2
  exact ⟨rfl, hr⟩

/-- A listing delimits if the values in it do and no key has a quote in it. -/
theorem delimits_listing (h : Delimits P write) : Delimits (Entered P) (listing write) := by
  intro d d' r r' hd hd' _ _ heq
  have hentered : ∀ {d : Dict β}, Entered P d →
      ∀ e ∈ (quotedKeys d).entries, ∃ k, quote ∉ k ∧ e.1 = bare k ∧ P e.2 := by
    intro d hd e he
    obtain ⟨⟨k, v⟩, hmem, rfl⟩ := List.mem_map.mp (Dict.mem_of_mem_ofList he)
    obtain ⟨hk, hv⟩ := hd (k, v) hmem
    exact ⟨k, hk, rfl, hv⟩
  have hopen : ∀ e : Text × β, (∃ k, quote ∉ k ∧ e.1 = bare k ∧ P e.2) →
      ∃ b t, entryText write e = b :: t ∧ b ≠ byte ']' := by
    rintro ⟨_, v⟩ ⟨k, -, rfl, -⟩
    exact ⟨quote, _, rfl, by decide⟩
  rw [listing_eq, listing_eq, List.cons_append, List.cons_append, List.append_assoc,
    List.append_assoc] at heq
  obtain ⟨hentries, hr⟩ := join_inj (delimits_entryText h) hopen (hentered hd) (hentered hd')
    (List.cons_eq_cons.mp heq).2
  -- the entries are those of the quoted keys, in their order
  refine ⟨Dict.ext_get? fun k => ?_, hr⟩
  have hquoted : quotedKeys d = quotedKeys d' :=
    Dict.ext_get? fun k => congrArg (Dict.find k) hentries
  rw [← Dict.get?_ofList_rename bare_injective d k, ← Dict.get?_ofList_rename bare_injective d' k]
  exact congrArg (Dict.get? · (bare k)) hquoted

end Listing

end TableSpec

/-! ## What is left out

  An absent number is written as zero.  `faded` takes the calls of state zero out of a description,
  which does not change what is written; and what is left after that can be read back. -/

namespace ActionSpec

open TableSpec (quote)

/-- The action as its canonical text shows it: a call of state zero looks like no call. -/
def faded (d : ActionSpec) : ActionSpec := { d with call := d.call.filter (· ≠ 0) }

/-- An action that its canonical text tells: there is no quote in the name of its reduction, it does
    not call state zero, and it either shifts or accepts. -/
structure Told (d : ActionSpec) : Prop where
  accept : quote ∉ d.accept
  call : d.call ≠ some 0
  target : d.shift.isSome ↔ d.accept = []

/-- An absent number is written as zero, so that a faded call is written as it was. -/
theorem getD_faded (d : ActionSpec) : d.faded.call.getD 0 = d.call.getD 0 := by
  obtain ⟨_ | c, shift, accept⟩ := d
  · rfl
  · show ((some c).filter fun c => decide (c ≠ 0)).getD 0 = c
    rw [Option.filter_some]
    split
    · rfl
    · rename_i hc
      have hc : c = 0 := by simpa using hc
      exact hc.symm

/-- Calls of other states are not faded. -/
theorem call_eq_some_faded_iff {d : ActionSpec} {c : Int} :
    d.faded.call = some c ↔ d.call = some c ∧ c ≠ 0 := by
  show d.call.filter (fun c => decide (c ≠ 0)) = some c ↔ _
  rw [Option.filter_eq_some_iff, decide_eq_true_iff]

/-- Fading loses nothing but where state zero is called. -/
theorem eq_of_faded_eq {d d' : ActionSpec} (h : d.faded = d'.faded)
    (hzero : d.call = some 0 ↔ d'.call = some 0) : d = d' := by
  obtain ⟨call, shift, accept⟩ := d
  obtain ⟨call', shift', accept'⟩ := d'
  obtain ⟨hcall, rfl, rfl⟩ := ActionSpec.mk.inj h
  obtain rfl : call = call' := by
    refine Option.ext fun c => ?_
    -- each callee by itself: state zero by assumption, and the others are not faded
    by_cases hc : c = 0
    · subst hc
      exact hzero
    · have hboth := iff_of_eq (congrArg (· = some c) hcall)
      exact (and_iff_left hc).symm.trans
        (call_eq_some_faded_iff.symm.trans (hboth.trans (call_eq_some_faded_iff.trans
          (and_iff_left hc))))
  rfl

/-- Where zero is not called, and where a shift is known by the name of the reduction, zero in place
    of what is absent does no harm. -/
theorem Told.ext {d d' : ActionSpec} (h : d.Told) (h' : d'.Told) (haccept : d.accept = d'.accept)
    (hcall : d.call.getD 0 = d'.call.getD 0) (hshift : d.shift.getD 0 = d'.shift.getD 0) :
    d = d' := by
  obtain ⟨-, hzero, htarget⟩ := h
  obtain ⟨-, hzero', htarget'⟩ := h'
  obtain ⟨call, shift, accept⟩ := d
  obtain ⟨call', shift', accept'⟩ := d'
  obtain rfl : accept = accept' := haccept
  have hpresent : shift.isSome ↔ shift'.isSome := htarget.trans htarget'.symm
  -- a shift is there if and only if no reduction is named
  obtain rfl : shift = shift' := by
    cases shift with
    | none =>
      cases shift' with
      | none => rfl
      | some s' => exact nomatch hpresent.mpr rfl
    | some s =>
      cases shift' with
      | none => exact nomatch hpresent.mp rfl
      | some s' => exact congrArg some hshift
  -- and a call of zero is excluded
  obtain rfl : call = call' := by
    cases call with
    | none =>
      cases call' with
      | none => rfl
      | some c' => exact absurd (congrArg some hcall.symm) hzero'
    | some c =>
      cases call' with
      | none => exact absurd (congrArg some hcall) hzero
      | some c' => exact congrArg some hcall
  rfl

end ActionSpec

namespace TableSpec

/-- An action that is told ends at its closing brace, and no number in it can go on behind the
    digits. -/
theorem delimits_actionText : Delimits ActionSpec.Told actionText := by
  intro d d' r r' hd hd' _ _ h
  have hassoc : ∀ (d : ActionSpec) (r : Text), actionText d ++ r =
      lit "\x7bAccept:" ++ (bare d.accept ++ (lit ",Call:" ++ (Numeral.ofInt (d.call.getD 0) ++
        (lit ",Shift:" ++ (Numeral.ofInt (d.shift.getD 0) ++ (lit "\x7d" ++ r)))))) := by
    intro d r
    simp only [actionText, List.append_assoc]
  rw [hassoc, hassoc] at h
  obtain ⟨haccept, h⟩ := bare_append_inj hd.accept hd'.accept (List.append_cancel_left h)
  have h := List.append_cancel_left h
  have hcomma : ∀ r : Text, Halts (lit ",Shift:" ++ r) := fun _ => halts_append (by decide)
  have hbrace : ∀ r : Text, Halts (lit "\x7d" ++ r) := fun _ => halts_append (by decide)
  obtain ⟨hcall, h⟩ := delimits_ofInt trivial trivial (hcomma _) (hcomma _) h
  have h := List.append_cancel_left h
  obtain ⟨hshift, h⟩ := delimits_ofInt trivial trivial (hbrace _) (hbrace _) h
  exact ⟨hd.ext hd' haccept hcall hshift, List.append_cancel_left h⟩

/-! ## Descriptions

  The parts of a description are written one after the other, each of them in a way that delimits.
  So the text of a description gives the description back, if there are no calls of state zero in it
  and no quotes. -/

/-- The description as its canonical text shows it. -/
def faded (spec : TableSpec) : TableSpec :=
  { spec with states := spec.states.map (Dict.map ActionSpec.faded) }

/-- A description that its canonical text tells. -/
structure Told (spec : TableSpec) : Prop where
  start : quote ∉ spec.start
  rules : Entered (fun _ => True) spec.rules
  states : ∀ st ∈ spec.states, Entered ActionSpec.Told st

/-- **No two descriptions are written alike**, as far as canonical texts tell them. -/
theorem canonicalText_injOn {spec spec' : TableSpec} (h : spec.Told) (h' : spec'.Told)
    (heq : spec.canonicalText = spec'.canonicalText) : spec = spec' := by
  -- the text, piece by piece from the left
  have hassoc : ∀ spec : TableSpec, spec.canonicalText =
      lit "\x7bRules:" ++ (listing Numeral.ofInt spec.rules ++ (lit ",Start:" ++ (bare spec.start ++
        (lit ",States:[" ++ (Text.join (lit ",") (spec.states.map (listing actionText)) ++
          byte ']' :: lit "\x7d"))))) := by
    intro spec
    have hclose : lit "]\x7d" = byte ']' :: lit "\x7d" := by decide
    simp only [canonicalText, List.append_assoc, hclose]
  rw [hassoc, hassoc] at heq
  have hcomma : ∀ r : Text, Halts (lit ",Start:" ++ r) := fun _ => halts_append (by decide)
  obtain ⟨hrules, heq⟩ := delimits_listing delimits_ofInt h.rules h'.rules (hcomma _) (hcomma _)
    (List.append_cancel_left heq)
  obtain ⟨hstart, heq⟩ := bare_append_inj h.start h'.start (List.append_cancel_left heq)
  have hopen : ∀ st : Dict ActionSpec, Entered ActionSpec.Told st →
      ∃ b t, listing actionText st = b :: t ∧ b ≠ byte ']' := fun st _ =>
    ⟨byte '[', _, listing_eq st, by decide⟩
  obtain ⟨hstates, -⟩ := join_inj (delimits_listing delimits_actionText) hopen h.states h'.states
    (List.append_cancel_left heq)
  obtain ⟨start, rules, states⟩ := spec
  obtain ⟨start', rules', states'⟩ := spec'
  exact congr (congrArg₂ mk hstart hrules) hstates

/-- The listing of replaced values is that of the values, written as they are replaced. -/
theorem listing_map {β γ : Type} (f : β → γ) (write : γ → Text) (d : Dict β) :
    listing write (d.map f) = listing (fun v => write (f v)) d := by
  have hkeys : quotedKeys (d.map f) = (quotedKeys d).map f := by
    unfold quotedKeys
    rw [← Dict.ofList_map, Dict.map, List.map_map, List.map_map]
    rfl
  rw [listing_eq, listing_eq, hkeys, Dict.map, List.map_map]
  rfl

/-- A description is written as it is shown. -/
theorem canonicalText_faded (spec : TableSpec) :
    spec.faded.canonicalText = spec.canonicalText := by
  have haction : ∀ d : ActionSpec, actionText d.faded = actionText d := by
    intro d
    unfold actionText
    rw [d.getD_faded]
    rfl
  have hstates : (spec.states.map (Dict.map ActionSpec.faded)).map (listing actionText) =
      spec.states.map (listing actionText) := by
    rw [List.map_map]
    refine List.map_congr_left fun st _ => ?_
    show listing actionText (st.map ActionSpec.faded) = _
    rw [listing_map]
    exact congrArg (listing · st) (funext haction)
  unfold canonicalText faded
  rw [hstates]

/-- No key, no name of a rule and no name of a reduction has a quote in it. -/
def Unquoted (spec : TableSpec) : Prop :=
  (∀ e ∈ spec.rules.entries, quote ∉ e.1) ∧
    ∀ st ∈ spec.states, ∀ e ∈ st.entries, quote ∉ e.1 ∧ quote ∉ e.2.accept

/-- Whether there are quotes in a description can be decided. -/
instance (spec : TableSpec) : Decidable spec.Unquoted :=
  inferInstanceAs (Decidable (_ ∧ _))

/-- The description has an action for the state and key that calls state zero. -/
def CallsZero (spec : TableSpec) (s : Int) (key : Text) : Prop :=
  ∃ d, spec.action? s key = some d ∧ d.call = some 0

/-- Fading a description fades its actions. -/
theorem action?_faded (spec : TableSpec) (s : Int) (key : Text) :
    spec.faded.action? s key = (spec.action? s key).map ActionSpec.faded := by
  unfold action?
  split
  · rfl
  · show (spec.states.map (Dict.map ActionSpec.faded))[s.toNat]?.bind (·.get? key) = _
    rw [List.getElem?_map, Option.bind_map, Option.map_bind]
    exact Option.bind_congr fun st _ => Dict.get?_map ActionSpec.faded st key

/-- A description that makes sense and has no quotes in it is told by its canonical text, but for
    the calls of state zero. -/
theorem told_faded {α : Type} {reg : Registry α} {spec : TableSpec} (h : spec.Sound reg)
    (hq : spec.Unquoted) : spec.faded.Told := by
  obtain ⟨hrules, hstates⟩ := hq
  refine ⟨?_, fun e he => ⟨hrules e he, trivial⟩, ?_⟩
  · show quote ∉ spec.start
    -- the start rule is one of the rules, and so there is no quote in its name
    by_cases hstart : spec.start = []
    · rw [hstart]
      exact List.not_mem_nil
    · obtain ⟨s, hs⟩ := h.start hstart
      exact hrules (spec.start, s) (Dict.get?_eq_some_iff.mp hs)
  · intro st' hst'
    obtain ⟨st, hst, rfl⟩ := List.mem_map.mp hst'
    intro e he
    obtain ⟨⟨key, d⟩, hd, rfl⟩ := List.mem_map.mp he
    obtain ⟨hkey, haccept⟩ := hstates st hst (key, d) hd
    obtain ⟨i, hi⟩ := List.mem_iff_getElem?.mp hst
    have haction : spec.action? i key = some d :=
      action?_eq_some_iff.mpr ⟨i, rfl, st, hi, Dict.get?_eq_some_iff.mpr hd⟩
    refine ⟨hkey, haccept, fun hzero => ?_, (h.action _ _ _ haction).target⟩
    exact (ActionSpec.call_eq_some_faded_iff.mp hzero).2 rfl

/-- What is left out is where state zero is called, and nothing else. -/
theorem eq_iff_callsZero {spec spec' : TableSpec} (h : spec.faded = spec'.faded) :
    spec = spec' ↔ ∀ s key, spec.CallsZero s key ↔ spec'.CallsZero s key := by
  constructor
  · rintro rfl s key
    rfl
  · intro hzero
    have haction : ∀ s key, spec.action? s key = spec'.action? s key := by
      intro s key
      have hfaded := congrArg (action? · s key) h
      rw [action?_faded, action?_faded] at hfaded
      have hboth := hzero s key
      unfold CallsZero at hboth
      rcases hd : spec.action? s key with _ | d
      · rw [hd, Option.map_none] at hfaded
        exact (Option.map_eq_none_iff.mp hfaded.symm).symm
      · rw [hd, Option.map_some] at hfaded
        obtain ⟨d', hd', heq⟩ := Option.map_eq_some_iff.mp hfaded.symm
        rw [hd, hd'] at hboth
        rw [hd', ActionSpec.eq_of_faded_eq heq ?_]
        simpa using hboth.symm
    -- equal actions make equal states, since both have as many
    have hlength : spec.states.length = spec'.states.length := by
      have hlen := congrArg (fun spec => spec.states.length) h
      simpa [faded] using hlen
    have hstates : spec.states = spec'.states := by
      refine List.ext_getElem hlength fun i hi hi' => Dict.ext_get? fun key => ?_
      have hat := haction i key
      unfold action? at hat
      rw [if_neg (by omega), if_neg (by omega), Int.toNat_natCast, List.getElem?_eq_getElem hi,
        List.getElem?_eq_getElem hi'] at hat
      exact hat
    obtain ⟨start, rules, states⟩ := spec
    obtain ⟨start', rules', states'⟩ := spec'
    obtain ⟨rfl, rfl, -⟩ := mk.inj h
    exact congrArg _ hstates

end TableSpec

/-! ## What the canonical text tells of the table

  From descriptions to the tables that are built from them.  A look-up in a table is what is
  described at the state and key, and with the calls of state zero taken out it is what the other
  description says there. -/

/-- The action with no call in place of a call of state zero. -/
def Action.faded {α : Type} (a : Action α) : Action α := { a with call := a.call.filter (· ≠ 0) }

/-- The match with its action faded. -/
def Match.faded {α : Type} (m : Match α) : Match α := ⟨m.action.faded, m.exact⟩

namespace TableSpec

open Builder BuildStep Entry

variable {α : Type} {reg : Registry α} {spec : TableSpec} {t : Table α}

/-- A table that is built is the draft of a builder. -/
theorem draft_of_build (h : spec.build reg = .ok t) :
    spec.Sound reg ∧ t = (after (calls reg spec)).draft := by
  rcases build_cases reg spec with ⟨-, s, key, problem, herr⟩ | ⟨-, -, herr⟩ |
    ⟨hactions, hstart, hbuild⟩
  · cases h.symm.trans herr
  · cases h.symm.trans herr
  · rw [hbuild] at h
    rcases (tells_after (calls reg spec)).table with ⟨hsound, -, hok⟩ | ⟨-, e, -, herr⟩ |
      ⟨-, -, r, s, -, -, herr⟩
    · rw [hok] at h
      exact ⟨(sound_calls_iff hactions hstart).mp hsound, (Except.ok.inj h).symm⟩
    · rw [herr] at h
      cases h
    · rw [herr] at h
      cases h

/-- The action that is described for a state and key. -/
def denoted? (reg : Registry α) (spec : TableSpec) (s : Int) (key : Text) : Option (Action α) :=
  (spec.action? s key).bind fun d => (d.action reg).toOption

/-- What a table finds, told from its description. -/
theorem lookup_of_build (h : spec.build reg = .ok t) (s : Int) (key : Text) :
    t.lookup s key = Table.prefer (if key = wildcard then none else spec.denoted? reg s key)
      (spec.denoted? reg s wildcard) := by
  have hdenoted : ∀ key, first? (entries (calls reg spec)) s key = spec.denoted? reg s key := by
    intro key
    refine Option.ext fun a => ?_
    rw [first?_calls_eq_some_iff, denoted?, Option.bind_eq_some_iff]
    refine exists_congr fun d => and_congr_right fun _ => ?_
    cases d.action reg <;> simp [Except.toOption]
  obtain ⟨-, rfl⟩ := draft_of_build h
  rw [(tells_after (calls reg spec)).lookup_eq, found, hdenoted, hdenoted]

/-- An action that is described for a key is found as an exact match. -/
theorem lookup_of_action (h : spec.build reg = .ok t) {s : Int} {key : Text} {d : ActionSpec}
    {a : Action α} (hkey : key ≠ wildcard) (hd : spec.action? s key = some d)
    (ha : d.action reg = .ok a) : t.lookup s key = some ⟨a, true⟩ := by
  have hdenoted : spec.denoted? reg s key = some a := by
    rw [denoted?, hd, Option.bind_some, ha]
    rfl
  rw [lookup_of_build h, if_neg hkey, hdenoted]
  rfl

/-- What is made of a faded description is the faded action, and neither is made without the
    other. -/
theorem toOption_action_faded (d : ActionSpec) :
    (d.faded.action reg).toOption = (d.action reg).toOption.map Action.faded := by
  have htarget : d.faded.target reg = d.target reg := rfl
  unfold ActionSpec.action
  rw [htarget]
  rcases d.target reg with problem | next
  · rfl
  · obtain ⟨_ | c, shift, accept⟩ := d
    · rfl
    · by_cases hzero : c = 0
      · subst hzero
        rfl
      · have hcall : (⟨some c, shift, accept⟩ : ActionSpec).faded.call = some c :=
          ActionSpec.call_eq_some_faded_iff.mpr ⟨rfl, hzero⟩
        have hfaded : Action.faded (⟨some c, next⟩ : Action α) = ⟨some c, next⟩ :=
          congrArg (Action.mk · next) hcall
        dsimp only
        rw [hcall]
        dsimp only
        split
        · rfl
        · exact congrArg some hfaded.symm

/-- Fading goes through what is described for a state and key. -/
theorem denoted?_faded (s : Int) (key : Text) :
    spec.faded.denoted? reg s key = (spec.denoted? reg s key).map Action.faded := by
  unfold denoted?
  rw [action?_faded, Option.bind_map, Option.map_bind]
  exact Option.bind_congr fun d _ => toOption_action_faded d

/-- Fading does not change which of two entries is preferred. -/
theorem map_faded_prefer (own other : Option (Action α)) :
    (Table.prefer own other).map Match.faded =
      Table.prefer (own.map Action.faded) (other.map Action.faded) := by
  cases own <;> cases other <;> rfl

/-- **A canonical text tells a table but for the calls of state zero.**  Let two descriptions be
    built with the same reductions, and let there be no quotes in them.  They have the same
    canonical text if and only if they are the same with no call in place of every call of state
    zero.  Then they are the same if and only if they call state zero at the same places.  In any
    case their tables have the same states, rules and start, and look-ups find the same but for such
    calls. -/
theorem canonicalText_eq_iff (reg : Registry α) {spec spec' : TableSpec} {t t' : Table α}
    (ht : spec.build reg = .ok t) (ht' : spec'.build reg = .ok t')
    (hq : spec.Unquoted) (hq' : spec'.Unquoted) :
    (spec.canonicalText = spec'.canonicalText ↔ spec.faded = spec'.faded) ∧
    (spec.canonicalText = spec'.canonicalText →
      (spec = spec' ↔ ∀ s key, spec.CallsZero s key ↔ spec'.CallsZero s key) ∧
      t.states = t'.states ∧ (∀ name, t.ruleState? name = t'.ruleState? name) ∧
      t.start? = t'.start? ∧
      ∀ s key, (t.lookup s key).map Match.faded = (t'.lookup s key).map Match.faded) := by
  obtain ⟨hsound, hdraft⟩ := draft_of_build ht
  obtain ⟨hsound', hdraft'⟩ := draft_of_build ht'
  have hiff : spec.canonicalText = spec'.canonicalText ↔ spec.faded = spec'.faded := by
    rw [← spec.canonicalText_faded, ← spec'.canonicalText_faded]
    constructor
    · exact canonicalText_injOn (told_faded hsound hq) (told_faded hsound' hq')
    · exact congrArg canonicalText
  refine ⟨hiff, fun htext => ?_⟩
  have hfaded := hiff.mp htext
  have h := realizes_calls hsound
  have h' := realizes_calls hsound'
  rw [← hdraft] at h
  rw [← hdraft'] at h'
  -- start, rules and number of states are the same before fading
  obtain ⟨hstart, hrules, hstates⟩ := mk.inj hfaded
  have hlength : spec.states.length = spec'.states.length := by
    simpa using congrArg List.length hstates
  refine ⟨eq_iff_callsZero hfaded, ?_, fun name => ?_, ?_, fun s key => ?_⟩
  · rw [h.states, h'.states, hlength]
  · rw [h.rule, h'.rule, hrules]
  · rw [h.start, h'.start, hstart, hrules]
  · have hdenoted : ∀ key, (spec.denoted? reg s key).map Action.faded =
        (spec'.denoted? reg s key).map Action.faded := fun key => by
      rw [← denoted?_faded, ← denoted?_faded, hfaded]
    rw [lookup_of_build ht, lookup_of_build ht', map_faded_prefer, map_faded_prefer, hdenoted]
    split
    · rfl
    · rw [hdenoted]

/-! ## Tables that look the same

  The two losses, one example each.  Both pairs of descriptions are small enough to be built, and a
  look-up tells their tables apart. -/

/-- A description of one state with some actions, and a rule that starts there. -/
def oneState (actions : List (Text × ActionSpec)) : TableSpec where
  start := lit "L"
  rules := Dict.ofList [(lit "L", 0)]
  states := [Dict.ofList actions]

/-- A bracket is taken, and the rule goes on. -/
def shifting : TableSpec := oneState [(lit "(", { shift := some 0 })]

/-- At a bracket the rule calls itself, and then it goes on. -/
def calling : TableSpec := oneState [(lit "(", { call := some 0, shift := some 0 })]

/-- Two keys. -/
def twoKeys : TableSpec := oneState [(lit "A", { shift := some 0 }), (lit "B", { shift := some 0 })]

/-- One key, with the text of an entry for `A` in front of its `B`. -/
def oneKey : TableSpec :=
  oneState [(lit "A\":\x7bAccept:\"\",Call:0,Shift:0\x7d,\"B", { shift := some 0 })]

/-- A table is built if the result is one. -/
theorem exists_build (reg : Registry α) (spec : TableSpec)
    (h : (spec.build reg).toOption.isSome = true) : ∃ t, spec.build reg = .ok t := by
  cases hbuild : spec.build reg with
  | error e =>
    rw [hbuild] at h
    cases h
  | ok t => exact ⟨t, rfl⟩

/-- Shifting to state zero looks like calling it first. -/
theorem canonicalText_eq_iff_calling :
    shifting.Unquoted ∧ calling.Unquoted ∧
      ∃ t t', shifting.build Reduction.ofName? = .ok t ∧
        calling.build Reduction.ofName? = .ok t' ∧
        shifting.faded = calling.faded ∧ t.start? = t'.start? ∧
        (t.lookup 0 (lit "(")).map Match.faded = (t'.lookup 0 (lit "(")).map Match.faded := by
  have hq : shifting.Unquoted := by decide +kernel
  have hq' : calling.Unquoted := by decide +kernel
  have htext : shifting.canonicalText = calling.canonicalText := by cbv
  obtain ⟨t, ht⟩ := exists_build Reduction.ofName? shifting (by cbv)
  obtain ⟨t', ht'⟩ := exists_build Reduction.ofName? calling (by cbv)
  obtain ⟨hiff, htells⟩ := canonicalText_eq_iff Reduction.ofName? ht ht' hq hq'
  obtain ⟨-, -, -, hstart, hlookup⟩ := htells htext
  exact ⟨hq, hq', t, t', ht, ht', hiff.mp htext, hstart, hlookup 0 (lit "(")⟩

/-- Different tables with the same canonical text: state zero is called in one of them only, or one
    key has another entry in its text. -/
theorem canonicalText_collides :
    (shifting.canonicalText = calling.canonicalText ∧
      ∃ t t', shifting.build Reduction.ofName? = .ok t ∧
        calling.build Reduction.ofName? = .ok t' ∧
        t.lookup 0 (lit "(") = some ⟨⟨none, .state 0⟩, true⟩ ∧
        t'.lookup 0 (lit "(") = some ⟨⟨some 0, .state 0⟩, true⟩) ∧
    (twoKeys.canonicalText = oneKey.canonicalText ∧
      ∃ t t', twoKeys.build Reduction.ofName? = .ok t ∧ oneKey.build Reduction.ofName? = .ok t' ∧
        t.lookup 0 (lit "A") = some ⟨⟨none, .state 0⟩, true⟩ ∧ t'.lookup 0 (lit "A") = none) := by
  constructor
  · obtain ⟨t, ht⟩ := exists_build Reduction.ofName? shifting (by cbv)
    obtain ⟨t', ht'⟩ := exists_build Reduction.ofName? calling (by cbv)
    refine ⟨by cbv, t, t', ht, ht', ?_, ?_⟩
    · exact lookup_of_action ht (d := { shift := some 0 }) (by decide) (by decide +kernel) rfl
    · exact lookup_of_action ht' (d := { call := some 0, shift := some 0 }) (by decide)
        (by decide +kernel) rfl
  · obtain ⟨t, ht⟩ := exists_build Reduction.ofName? twoKeys (by cbv)
    obtain ⟨t', ht'⟩ := exists_build Reduction.ofName? oneKey (by cbv)
    refine ⟨by cbv, t, t', ht, ht', ?_, ?_⟩
    · exact lookup_of_action ht (d := { shift := some 0 }) (by decide) (by decide +kernel) rfl
    · have hown : oneKey.action? 0 (lit "A") = none := by decide +kernel
      have hother : oneKey.action? 0 wildcard = none := by decide +kernel
      rw [lookup_of_build ht', denoted?, denoted?, hown, hother, Option.bind_none, ite_self]
      rfl

end TableSpec
end Pushdown
