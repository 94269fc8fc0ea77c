/-
  What a reader reads, told from the bytes alone.

  A feed is a text and the reason why nothing follows it (`Feed.bytes`, `Feed.finale`); in how many
  portions the text arrives does not matter.  `Reader.Delivers` says the same of a reader: the
  characters that it still delivers, and the stop behind them.  Buffers, cut characters and stops
  that were met too early are all hidden behind it.

  `ruled` cuts characters into lines by one look at each of them.  A reader reads exactly these
  lines (`Yields.readLine_cons`, `Yields.readLine_nil`): a line break opens no line of its own, and
  what stands behind the last break counts if it is not empty, unless reading fails there.

  There is one lemma for each function of the reader, and each says what the function does to what
  is delivered: filling the buffer nothing (`Delivers.fillUpTo`), taking a character the first one
  off (`Delivers.next`), and reading a line its characters and the break (`Delivers.readLineFrom`).

  Two places need an argument.  A buffer that is not empty can still begin with a part of a
  character, and it is decoded as it is when the feed has stopped; otherwise four portions have made
  it complete (`exists_stop_of_isPartial`), and a complete character does not depend on what follows
  (`Utf8.decode?_append`).  And looking for a line feed behind a carriage return can meet the stop,
  which is then forgotten; nothing is lost by that, since the feed stops in the same way when it is
  asked again.

  All of this is for one disk.  A feed of a file has the bytes that the file has on it, and so what
  is delivered is only told as long as the disk stays.
-/
import Pushdown.Lexer.Source

namespace Pushdown

/-! ## Characters

  A text is read as characters, with a replacement for what belongs to none.  What is needed of
  decoding is that it does not look behind the character that it finds. -/

namespace Utf8

/-- Glyphs behind bytes that are skipped are those of the rest. -/
theorem glyphsFrom_eq_glyphs_drop (skip : Nat) (t : Text) :
    glyphsFrom skip t = glyphs (t.drop skip) := by
  induction skip generalizing t with
  | zero => rfl
  | succ skip ih =>
    cases t with
    | nil => rfl
    | cons a t =>
      rw [glyphsFrom, List.drop_succ_cons]
      exact ih t

/-- The characters of a text; every stray byte counts as a replacement character. -/
def chars (t : Text) : List Char := (glyphs t).map fun g => g.char.getD replacement

/-- The first character, and those behind its bytes. -/
theorem chars_of_ne_nil {t : Text} (h : t ≠ []) :
    chars t = (headChar? t).getD replacement :: chars (t.drop (width t)) := by
  cases t with
  | nil => exact absurd rfl h
  | cons a t =>
    obtain ⟨n, hn⟩ : ∃ n, width (a :: t) = n + 1 :=
      ⟨width (a :: t) - 1, by have := width_pos (a :: t); omega⟩
    rw [chars, glyphs, glyphsFrom, hn, Nat.add_sub_cancel, glyphsFrom_eq_glyphs_drop,
      List.map_cons, List.drop_succ_cons]
    rfl

/-- A first character that is complete does not depend on what follows. -/
theorem decode?_append {t : Text} (h : isPartial t = false) (u : Text) :
    decode? (t ++ u) = decode? t := by
  match t, h with
  | [a], h =>
    simp only [isPartial, Bool.or_eq_false_iff] at h
    obtain ⟨⟨h2, h3⟩, h4⟩ := h
    simp [decode?, h2, h3, h4]
  | [a, b], h =>
    -- a lead of three or four bytes is complete only because the second byte is wrong
    simp only [isPartial, Bool.and_eq_false_iff, Bool.or_eq_false_iff] at h
    rcases h with ⟨h3, h4⟩ | hb
    · simp [decode?, h3, h4]
    · rcases u with _ | ⟨c, _ | ⟨e, u⟩⟩ <;> simp [decode?, hb]
  | [a, b, c], h =>
    simp only [isPartial, Bool.and_eq_false_iff] at h
    rcases h with (h4 | hb) | hc
    · simp [decode?, h4]
    · cases u <;> simp [decode?, hb]
    · cases u <;> simp [decode?, hc]
  | a :: b :: c :: e :: t, _ => rfl

/-- So the first character does not depend on it either. -/
theorem headChar?_append {t : Text} (h : isPartial t = false) (u : Text) :
    headChar? (t ++ u) = headChar? t := by
  rw [headChar?, decode?_append h u]
  rfl

/-- Nor does its width. -/
theorem width_append {t : Text} (h : isPartial t = false) (u : Text) :
    width (t ++ u) = width t := by
  rw [width, decode?_append h u]
  rfl

/-- Only ASCII characters have bytes below 128. -/
theorem toNat_eq_of_mem_encode {c : Char} {b : UInt8} (hb : b ∈ encode c)
    (h : b.toNat < 0x80) : b.toNat = c.toNat := by
  have hmax : c.toNat < 0x110000 := by
    show c.val.toNat < 0x110000
    rcases c.valid with hv | hv <;> omega
  -- every byte of a longer form has its high bit set
  have hhigh {n : Nat} (hn : 0x80 ≤ n) (hn' : n < 0x100) : b ≠ n.toUInt8 := by
    rintro rfl
    rw [Nat.toUInt8_eq, UInt8.toNat_ofNat'] at h
    omega
  unfold encode at hb
  simp only at hb
  split at hb
  · rw [List.mem_singleton.mp hb, Nat.toUInt8_eq, UInt8.toNat_ofNat']
    omega
  · exfalso
    split at hb
    · simp only [List.mem_cons, List.not_mem_nil, or_false] at hb
      rcases hb with hb | hb <;> exact hhigh (by omega) (by omega) hb
    · split at hb
      · simp only [List.mem_cons, List.not_mem_nil, or_false] at hb
        rcases hb with hb | hb | hb <;> exact hhigh (by omega) (by omega) hb
      · simp only [List.mem_cons, List.not_mem_nil, or_false] at hb
        rcases hb with hb | hb | hb | hb <;> exact hhigh (by omega) (by omega) hb

end Utf8

/-! ## Feeds

  The bytes of a feed are all that it will ever deliver, and its finale is what comes then.  A fetch
  takes some of them off the front, no more than the limit allows and at least one if there is any
  (`answers_fetch`). -/

namespace Feed

/-- The bytes that a feed has left. -/
def bytes (d : Disk) : Feed → Text
  | .text t _ => t
  | .chunks puller current done =>
    current ++ if done then [] else puller.chunks.flatten ++ puller.final
  | .file _ node offset =>
    match d.content node with
    | .ok content => content.drop offset
    | .error _ => []

/-- What a feed says once nothing is left. -/
def finale (d : Disk) : Feed → Stop
  | .text _ none => .ended
  | .text _ (some message) => .failed message
  | .chunks _ _ _ => .ended
  | .file path node _ =>
    match d.content node with
    | .ok _ => .ended
    | .error f => .failed (Text.lit "read " ++ path ++ Text.lit ": " ++ f.message)

/-- What asking `f` for a portion may answer. -/
def Answers (d : Disk) (f : Feed) : Portion → Prop
  | .bytes b t rest => f.bytes d = b :: t ++ rest.bytes d ∧ rest.finale d = f.finale d
  | .stop s rest => f.bytes d = [] ∧ rest.bytes d = [] ∧ s = f.finale d ∧ rest.finale d = f.finale d

/-- A portion of a text answers for the text and what comes after it, if that only comes when the
    text is used up. -/
theorem answers_portion {d : Disk} {f : Feed} {limit : Nat} {t later : Text} {rest : Nat → Feed}
    (hlimit : 0 < limit) (hbytes : f.bytes d = t ++ later) (hlater : t = [] → later = [])
    (hrest : ∀ n ≤ t.length, (rest n).bytes d = t.drop n ++ later)
    (hfinale : ∀ n, (rest n).finale d = f.finale d) :
    f.Answers d (portion limit t rest (f.finale d)) := by
  unfold portion
  split
  · rename_i htake
    have ht : t = [] := by
      rcases List.take_eq_nil_iff.mp htake with h | h
      · omega
      · exact h
    refine ⟨?_, ?_, rfl, hfinale 0⟩
    · rw [hbytes, ht, hlater ht]
      rfl
    · rw [hrest 0 (Nat.zero_le _), ht, hlater ht]
      rfl
  · rename_i b u htake
    have hmin : min limit t.length = u.length + 1 := by
      rw [← List.length_take, htake, List.length_cons]
    have hcut : b :: u = t.take (u.length + 1) := by
      rw [← htake, ← hmin, ← List.take_eq_take_min]
    refine ⟨?_, hfinale _⟩
    rw [hrest _ (by omega), hbytes, hcut, ← List.append_assoc, List.take_append_drop]

/-- Asking for chunks leaves a chunk at hand, or the last one has been named. -/
theorem exists_supply (puller : Puller) (current : Text) (done : Bool) :
    ∃ puller' current' done',
      (supply puller current done).2 = .chunks puller' current' done' ∧
        (current' = [] → done' = true) := by
  fun_induction supply puller current done with
  | case1 puller current done h answer later ih => exact ih
  | case2 puller current done h =>
    exact ⟨puller, current, done, rfl, fun hnil =>
      eq_true_of_ne_false fun hdone => h ⟨hnil, hdone⟩⟩

/-- Asking for chunks moves bytes from the puller to the feed, and none of them is lost. -/
theorem supply_bytes (d : Disk) (puller : Puller) (current : Text) (done : Bool) :
    (supply puller current done).2.bytes d = (chunks puller current done).bytes d := by
  fun_induction supply puller current done with
  | case1 puller current done h answer later ih =>
    obtain ⟨rfl, rfl⟩ := h
    refine ih.trans ?_
    obtain ⟨_ | ⟨c, cs⟩, final⟩ := puller
    · exact List.append_nil final
    · simp only [answer, bytes, Puller.pull, Bool.not_true, List.flatten_cons, List.append_assoc]
      rfl
  | case2 => rfl

/-- A feed with its bytes at hand delivers them in portions. -/
theorem answers_deliver (d : Disk) {limit : Nat} (hlimit : 0 < limit) (f : Feed)
    (hready : ∀ puller done, f = .chunks puller [] done → done = true) :
    f.Answers d (f.deliver d limit) := by
  cases f with
  | text t failure =>
    have hbytes : bytes d (.text t failure) = t ++ [] := (List.append_nil t).symm
    have hrest : ∀ n ≤ t.length, bytes d (.text (t.drop n) failure) = t.drop n ++ [] :=
      fun n _ => (List.append_nil _).symm
    cases failure with
    | none => exact answers_portion hlimit hbytes (fun _ => rfl) hrest (fun n => rfl)
    | some m => exact answers_portion hlimit hbytes (fun _ => rfl) hrest (fun n => rfl)
  | chunks puller current done =>
    rw [deliver]
    refine answers_portion hlimit rfl (fun hnil => ?_) (fun n _ => rfl) (fun n => rfl)
    rw [hready puller done (by rw [hnil])]
    rfl
  | file path node offset =>
    cases hcontent : d.content node with
    | ok content =>
      have hfinale (n : Nat) : finale d (.file path node n) = .ended := by
        rw [finale, hcontent]
      have hbytes (n : Nat) : bytes d (.file path node n) = content.drop n ++ [] := by
        rw [bytes, hcontent, List.append_nil]
      rw [deliver, hcontent, ← hfinale offset]
      refine answers_portion hlimit (hbytes offset) (fun _ => rfl) (fun n _ => ?_) (fun n => ?_)
      · rw [hbytes, List.drop_drop]
      · rw [hfinale, hfinale]
    | error f =>
      have hbytes : bytes d (.file path node offset) = [] := by
        rw [bytes, hcontent]
      rw [deliver, hcontent]
      refine ⟨hbytes, hbytes, ?_, rfl⟩
      rw [finale, hcontent]

/-- Portions add up to the bytes of the feed, and it stops only behind the last of them. -/
theorem answers_fetch (d : Disk) {limit : Nat} (hlimit : 0 < limit) (f : Feed) :
    f.Answers d (f.fetch d limit) := by
  cases f with
  | chunks puller current done =>
    obtain ⟨puller', current', done', hready, hdone⟩ := exists_supply puller current done
    have hbytes := supply_bytes d puller current done
    have hanswers := answers_deliver d hlimit (.chunks puller' current' done') <| by
      rintro puller done ⟨⟩
      exact hdone rfl
    rw [hready] at hbytes
    rw [fetch, ready, hready]
    unfold Answers at hanswers ⊢
    rwa [hbytes] at hanswers
  | text t failure => exact answers_deliver d hlimit _ nofun
  | file path node offset => exact answers_deliver d hlimit _ nofun

end Feed

/-! ## Readers

  A reader has a buffer in front of its feed, and perhaps a stop that it met early.  `Delivers` puts
  them together. -/

namespace Reader

/-- `r.Delivers d cs e`: what `r` still delivers are the characters `cs` and then the stop `e`. -/
structure Delivers (d : Disk) (r : Reader) (cs : List Char) (e : Stop) : Prop where
  chars_eq : Utf8.chars (r.buffer ++ r.feed.bytes d) = cs
  finale_eq : r.feed.finale d = e
  /-- A stop that was met early is the last word of a feed with nothing left. -/
  of_stop : ∀ s, r.stop = some s → r.feed.bytes d = [] ∧ s = e

variable {d : Disk} {r : Reader} {c : Char} {cs : List Char} {e : Stop}

/-- Fetching changes nothing of what is delivered. -/
theorem Delivers.fillUpTo (h : r.Delivers d cs e) (n : Nat) : (fillUpTo d n r).Delivers d cs e := by
  induction n generalizing r with
  | zero => exact h
  | succ n ih =>
    unfold Reader.fillUpTo
    split
    · rename_i hpartial
      rw [Bool.and_eq_true, Option.isNone_iff_eq_none] at hpartial
      obtain ⟨hshort, hstop⟩ := hpartial
      have hlimit : 0 < capacity - r.buffer.length := by
        have := Utf8.length_lt_of_isPartial hshort
        unfold capacity
        omega
      have hfetch := Feed.answers_fetch d hlimit r.feed
      split
      · rename_i b t feed hb
        rw [hb] at hfetch
        obtain ⟨hbytes, hfinale⟩ := hfetch
        refine ih ⟨?_, hfinale.trans h.finale_eq, fun s hs => ?_⟩
        · have hchars := h.chars_eq
          rw [hbytes, ← List.append_assoc] at hchars
          exact hchars
        · -- nothing is fetched after a stop
          have hnone : r.stop = some s := hs
          rw [hstop] at hnone
          exact nomatch hnone
      · rename_i s feed hs
        rw [hs] at hfetch
        obtain ⟨hnil, hnil', hlast, hfinale⟩ := hfetch
        refine ⟨?_, hfinale.trans h.finale_eq, fun s' hs' => ⟨hnil', ?_⟩⟩
        · have hchars := h.chars_eq
          rw [hnil, ← hnil'] at hchars
          exact hchars
        · rw [← Option.some.inj hs', hlast, h.finale_eq]
    · exact h

/-- Four portions complete a character, unless the feed stops before. -/
theorem exists_stop_of_isPartial {n : Nat} (hn : 4 ≤ n + r.buffer.length)
    (hp : Utf8.isPartial (Reader.fillUpTo d n r).buffer = true) :
    ∃ s, (Reader.fillUpTo d n r).stop = some s := by
  induction n generalizing r with
  | zero =>
    -- four bytes are never the beginning of a character only
    have hshort := Utf8.length_lt_of_isPartial hp
    have hlong : 4 ≤ r.buffer.length := by omega
    exact absurd hshort (Nat.not_lt.mpr hlong)
  | succ n ih =>
    unfold Reader.fillUpTo at hp ⊢
    split at hp
    · rename_i hpartial
      rw [if_pos hpartial]
      split at hp
      · refine ih ?_ hp
        simp only [List.length_append, List.length_cons]
        omega
      · rename_i s feed hs
        exact ⟨s, rfl⟩
    · rename_i hfull
      rw [if_neg hfull]
      rw [hp, Bool.true_and, Bool.not_eq_true, Option.isNone_eq_false_iff,
        Option.isSome_iff_exists] at hfull
      exact hfull

/-- What a reader may deliver that delivers `cs` and then `e`. -/
def Offers (d : Disk) (cs : List Char) (e : Stop) : Delivery → Prop
  | .char c rest => ∃ cs', cs = c :: cs' ∧ rest.Delivers d cs' e
  | .stop s rest => cs = [] ∧ s = e ∧ rest.Delivers d [] e

/-- Taking a character takes off the first one, or delivers the stop. -/
theorem Delivers.next (h : r.Delivers d cs e) : Offers d cs e (next d r) := by
  have hfill := h.fillUpTo 4
  have hstop := exists_stop_of_isPartial (d := d) (r := r) (n := 4) (by omega)
  unfold Reader.next
  simp only [fill]
  generalize Reader.fillUpTo d 4 r = r' at hfill hstop
  obtain ⟨hchars, hfinale, hearly⟩ := hfill
  split
  · rename_i hbuffer
    -- an empty buffer is incomplete, so the feed has stopped
    rw [hbuffer] at hchars hstop
    obtain ⟨s, hs⟩ := hstop rfl
    obtain ⟨hnil, rfl⟩ := hearly s hs
    rw [hnil] at hchars
    refine ⟨hchars.symm, by rw [hs]; rfl, ⟨?_, hfinale, nofun⟩⟩
    rw [hbuffer, hnil]
    rfl
  · rename_i b t hbuffer
    rw [hbuffer] at hchars hstop
    -- the buffer starts with a complete character, or there is nothing behind it
    have hhead : Utf8.headChar? (b :: t ++ r'.feed.bytes d) = Utf8.headChar? (b :: t) ∧
        Utf8.width (b :: t ++ r'.feed.bytes d) = Utf8.width (b :: t) := by
      cases hp : Utf8.isPartial (b :: t) with
      | false => exact ⟨Utf8.headChar?_append hp _, Utf8.width_append hp _⟩
      | true =>
        obtain ⟨s, hs⟩ := hstop hp
        rw [(hearly s hs).1, List.append_nil]
        exact ⟨rfl, rfl⟩
    rw [Utf8.chars_of_ne_nil (by simp), hhead.1, hhead.2,
      List.drop_append_of_le_length (Utf8.width_le (List.cons_ne_nil b t))] at hchars
    exact ⟨_, hchars.symm, rfl, hfinale, hearly⟩

/-- The characters after a line feed, if that is the first of them. -/
def afterNewline : List Char → List Char
  | [] => []
  | c :: cs => if c = '\n' then cs else c :: cs

/-- Looking for a line feed takes it off if it comes first, and nothing otherwise. -/
theorem Delivers.skipNewline (h : r.Delivers d cs e) :
    (skipNewline d r).Delivers d (afterNewline cs) e := by
  have hnext := h.next
  unfold Reader.skipNewline
  split
  · rename_i c rest hc
    rw [hc] at hnext
    obtain ⟨cs', rfl, hrest⟩ := hnext
    rw [afterNewline]
    split
    · exact hrest
    · exact h.fillUpTo 4
  · rename_i s rest hs
    rw [hs] at hnext
    obtain ⟨rfl, -, hrest⟩ := hnext
    exact hrest

end Reader

/-! ## Lines

  Cutting characters into lines is a function of the characters alone.  The reader takes them one by
  one, so the induction goes along the reading of a line, with what it has seen of the line in
  hand. -/

/-- The bytes that end a line. -/
theorem Source.isBreak_iff {b : UInt8} : Source.isBreak b = true ↔ b = 10 ∨ b = 13 ∨ b = 12 := by
  simp only [Source.isBreak, Bool.or_eq_true, decide_eq_true_eq, or_assoc]

namespace Line

/-- The characters that end a line. -/
def isBreak (c : Char) : Bool := c = '\n' || c = '\r' || c = '\x0c'

/-- The characters that end a line. -/
theorem isBreak_iff {c : Char} : isBreak c = true ↔ c = '\n' ∨ c = '\r' ∨ c = '\x0c' := by
  simp only [isBreak, Bool.or_eq_true, decide_eq_true_eq, or_assoc]

/-- Bytes put in front of some lines, the last of which is not terminated. -/
def prepend (t : Text) : List Text × Text → List Text × Text
  | ([], rest) => ([], t ++ rest)
  | (l :: ls, rest) => ((t ++ l) :: ls, rest)

/-- Characters cut into lines, and what stands behind the last line break.  A carriage return and
    a line feed behind it are one break. -/
def ruled : List Char → List Text × Text
  | [] => ([], [])
  | '\r' :: '\n' :: cs => ([] :: (ruled cs).1, (ruled cs).2)
  | c :: cs =>
    if isBreak c then ([] :: (ruled cs).1, (ruled cs).2)
    else prepend (Utf8.encode c) (ruled cs)

/-- The lines that are read up to a stop: an unterminated line counts if it is not empty, and is
    lost if reading fails. -/
def upTo : Stop → List Text × Text → List Text
  | .ended, (ls, rest) => if rest = [] then ls else ls ++ [rest]
  | .failed _, (ls, _) => ls

/-- What is read in place of a line when nothing is left. -/
def ofStop : Stop → Line
  | .ended => .ended
  | .failed message => .failed message

/-- No bytes in front. -/
theorem prepend_nil (p : List Text × Text) : prepend [] p = p := by
  obtain ⟨_ | ⟨l, ls⟩, rest⟩ := p <;> rfl

/-- Bytes in front of bytes. -/
theorem prepend_append (t u : Text) (p : List Text × Text) :
    prepend (t ++ u) p = prepend t (prepend u p) := by
  obtain ⟨_ | ⟨l, ls⟩, rest⟩ := p <;> simp [prepend]

/-- A line in front is read first, whatever comes behind it. -/
theorem upTo_cons (e : Stop) (l : Text) (ls : List Text) (rest : Text) :
    upTo e (l :: ls, rest) = l :: upTo e (ls, rest) := by
  cases e with
  | ended =>
    rw [upTo, upTo]
    split
    · rfl
    · rfl
  | failed m => rfl

/-- A carriage return ends a line, and takes a line feed behind it along. -/
theorem ruled_return (cs : List Char) :
    ruled ('\r' :: cs) = ([] :: (ruled (Reader.afterNewline cs)).1,
      (ruled (Reader.afterNewline cs)).2) := by
  cases cs with
  | nil => rfl
  | cons c cs =>
    rw [Reader.afterNewline]
    split
    · rename_i hc
      rw [hc, ruled]
    · rename_i hc
      rw [ruled]
      · rfl
      · rintro cs' - h
        exact hc (List.cons.inj h).1

/-- Any other character ends a line or is part of the first one. -/
theorem ruled_of_ne_return {c : Char} (hc : c ≠ '\r') (cs : List Char) :
    ruled (c :: cs) = if isBreak c then ([] :: (ruled cs).1, (ruled cs).2)
      else prepend (Utf8.encode c) (ruled cs) := by
  rw [ruled]
  rintro cs' h
  exact absurd h hc

/-- Bytes without a line break among them. -/
def IsPlain (t : Text) : Prop := ∀ b ∈ t, Source.isBreak b = false

/-- Whether there is a break among them can be decided. -/
instance : DecidablePred IsPlain := fun t => List.decidableBAll (Source.isBreak · = false) t

/-- No bytes are plain. -/
theorem isPlain_nil : IsPlain [] := List.forall_mem_nil _

/-- Plain bytes behind plain bytes. -/
theorem IsPlain.append {t u : Text} (ht : IsPlain t) (hu : IsPlain u) : IsPlain (t ++ u) := by
  intro b hb
  rcases List.mem_append.mp hb with h | h
  · exact ht b h
  · exact hu b h

/-- A character that is no break has no break among its bytes. -/
theorem isPlain_encode {c : Char} (hc : isBreak c = false) : IsPlain (Utf8.encode c) := by
  intro b hb
  refine Bool.eq_false_iff.mpr fun hbreak => ?_
  have hbyte : b = 10 ∨ b = 13 ∨ b = 12 := Source.isBreak_iff.mp hbreak
  have hlow : b.toNat < 0x80 := by
    rcases hbyte with rfl | rfl | rfl <;> decide
  have hchar : c = Char.ofNat b.toNat := by
    rw [Utf8.toNat_eq_of_mem_encode hb hlow, Char.ofNat_toNat]
  rw [hchar] at hc
  rcases hbyte with rfl | rfl | rfl <;> exact absurd hc (by decide)

/-- A character without a break among its bytes is none. -/
theorem isBreak_eq_false_of_isPlain {c : Char} (h : IsPlain (Utf8.encode c)) :
    isBreak c = false := by
  refine Bool.eq_false_iff.mpr fun hbreak => ?_
  rcases isBreak_iff.mp hbreak with rfl | rfl | rfl <;> exact absurd h (by decide)

/-- Plain bytes in front keep the lines plain. -/
theorem isPlain_prepend {t : Text} (ht : IsPlain t) {p : List Text × Text}
    (hls : ∀ l ∈ p.1, IsPlain l) (hrest : IsPlain p.2) :
    (∀ l ∈ (prepend t p).1, IsPlain l) ∧ IsPlain (prepend t p).2 := by
  obtain ⟨_ | ⟨l, ls⟩, rest⟩ := p
  · exact ⟨hls, ht.append hrest⟩
  · refine ⟨fun l' hl' => ?_, hrest⟩
    rcases List.mem_cons.mp hl' with rfl | h
    · exact ht.append (hls l List.mem_cons_self)
    · exact hls l' (List.mem_cons_of_mem l h)

/-- Lines that were cut have no breaks in them. -/
theorem isPlain_ruled (cs : List Char) :
    (∀ l ∈ (ruled cs).1, IsPlain l) ∧ IsPlain (ruled cs).2 := by
  have hbreak {p : List Text × Text} (h : (∀ l ∈ p.1, IsPlain l) ∧ IsPlain p.2) :
      (∀ l ∈ ([] :: p.1 : List Text), IsPlain l) ∧ IsPlain p.2 := by
    refine ⟨fun l hl => ?_, h.2⟩
    rcases List.mem_cons.mp hl with rfl | hl
    · exact isPlain_nil
    · exact h.1 l hl
  fun_induction ruled cs with
  | case1 => exact ⟨List.forall_mem_nil _, isPlain_nil⟩
  | case2 cs ih => exact hbreak ih
  | case3 c cs hcrlf hc ih => exact hbreak ih
  | case4 c cs hcrlf hc ih =>
    rw [Bool.not_eq_true] at hc
    exact isPlain_prepend (isPlain_encode hc) ih.1 ih.2

/-- Nor have the lines that are read. -/
theorem isPlain_of_mem_upTo {e : Stop} {cs : List Char} {l : Text} (h : l ∈ upTo e (ruled cs)) :
    IsPlain l := by
  obtain ⟨hls, hrest⟩ := isPlain_ruled cs
  cases e with
  | ended =>
    rw [upTo] at h
    split at h
    · exact hls l h
    · rcases List.mem_append.mp h with h | h
      · exact hls l h
      · rw [List.mem_singleton.mp h]
        exact hrest
  | failed m => exact hls l h

end Line

namespace Reader

variable {d : Disk} {r : Reader} {cs : List Char} {e : Stop}

/-- What may be read first of the lines `ls` with the stop `e` behind them, and what the reader
    delivers after that. -/
def Reads (d : Disk) (e : Stop) : List Text → Line × Reader → Prop
  | [], (x, _) => x = .ofStop e
  | l :: ls, (x, r) => x = .text l ∧ ∃ cs, r.Delivers d cs e ∧ Line.upTo e (Line.ruled cs) = ls

/-- The rest of a line is read, behind what has been seen of it. -/
theorem Delivers.readLineFrom (h : r.Delivers d cs e) (seen : Text) :
    Reads d e (Line.upTo e (Line.prepend seen.reverse (Line.ruled cs)))
      (Reader.readLineFrom d seen r) := by
  fun_induction Reader.readLineFrom d seen r generalizing cs with
  | case1 seen r rest hn =>
    have hnext := h.next
    rw [hn] at hnext
    obtain ⟨rfl, rfl, hrest⟩ := hnext
    rw [Line.ruled, Line.prepend, List.append_nil, Line.upTo]
    -- at the end of input what has been seen is a last line, unless it is empty
    by_cases hseen : seen = []
    · rw [if_pos hseen, if_pos (List.reverse_eq_nil_iff.mpr hseen)]
      rfl
    · rw [if_neg hseen, if_neg (mt List.reverse_eq_nil_iff.mp hseen)]
      exact ⟨rfl, [], hrest, rfl⟩
  | case2 seen r message rest hn =>
    have hnext := h.next
    rw [hn] at hnext
    obtain ⟨rfl, rfl, hrest⟩ := hnext
    rfl
  | case3 seen r c rest hn hc =>
    have hnext := h.next
    rw [hn] at hnext
    obtain ⟨cs', rfl, hrest⟩ := hnext
    have hbreak : Line.isBreak c = true ∧ c ≠ '\r' := by
      rcases hc with rfl | rfl
      · decide
      · decide
    rw [Line.ruled_of_ne_return hbreak.2, if_pos hbreak.1, Line.prepend, List.append_nil,
      Line.upTo_cons]
    exact ⟨rfl, cs', hrest, rfl⟩
  | case4 seen r rest hn hc =>
    have hnext := h.next
    rw [hn] at hnext
    obtain ⟨cs', rfl, hrest⟩ := hnext
    rw [Line.ruled_return, Line.prepend, List.append_nil, Line.upTo_cons]
    exact ⟨rfl, afterNewline cs', hrest.skipNewline, rfl⟩
  -- the character is seen, and it stands at the front of the first line
  | case5 seen r c rest hn hc hr ih =>
    have hnext := h.next
    rw [hn] at hnext
    obtain ⟨cs', rfl, hrest⟩ := hnext
    have hplain : Line.isBreak c = false := by
      rw [not_or] at hc
      simp [Line.isBreak, hc, hr]
    have hread := ih hrest
    rw [List.reverse_append, List.reverse_reverse, Line.prepend_append] at hread
    rw [Line.ruled_of_ne_return hr, hplain]
    exact hread

/-- `r.Yields d ls e`: what `r` still has are the lines `ls`, and the stop `e` behind them. -/
def Yields (d : Disk) (r : Reader) (ls : List Text) (e : Stop) : Prop :=
  ∃ cs, r.Delivers d cs e ∧ Line.upTo e (Line.ruled cs) = ls

/-- **A reader reads its lines one by one.** -/
theorem Yields.readLine_cons {l : Text} {ls : List Text} (h : r.Yields d (l :: ls) e) :
    ∃ r', readLine d r = (.text l, r') ∧ r'.Yields d ls e := by
  obtain ⟨cs, hcs, hls⟩ := h
  have hread := hcs.readLineFrom []
  rw [List.reverse_nil, Line.prepend_nil, hls] at hread
  obtain ⟨htext, hrest⟩ := hread
  exact ⟨(readLine d r).2, Prod.ext htext rfl, hrest⟩

/-- **Behind its lines a reader stops.** -/
theorem Yields.readLine_nil (h : r.Yields d [] e) :
    (readLine d r).1 = .ofStop e := by
  obtain ⟨cs, hcs, hls⟩ := h
  have hread := hcs.readLineFrom []
  rw [List.reverse_nil, Line.prepend_nil, hls] at hread
  exact hread

/-- No line that is read has a break in it. -/
theorem Yields.isPlain {ls : List Text} (h : r.Yields d ls e) : ∀ l ∈ ls, Line.IsPlain l := by
  obtain ⟨cs, -, rfl⟩ := h
  exact fun l hl => Line.isPlain_of_mem_upTo hl

end Reader

/-- The lines of a feed. -/
def Feed.lines (d : Disk) (f : Feed) : List Text :=
  Line.upTo (f.finale d) (Line.ruled (Utf8.chars (f.bytes d)))

/-- A new reader has all lines of its feed ahead of it. -/
theorem Reader.yields_of_feed (d : Disk) (f : Feed) :
    Reader.Yields d { feed := f } (f.lines d) (f.finale d) :=
  ⟨_, ⟨rfl, rfl, nofun⟩, rfl⟩

end Pushdown
