/-
  Reading characters and lines.

  A feed delivers bytes in portions: a text in memory, a script of chunks, or a file on a disk.  A
  reader buffers portions and delivers characters; a character that is cut by the end of a portion
  is completed from the next one.  A stray byte is delivered as the replacement character.  Lines
  end in a line feed, a carriage return, both in that order, or a form feed.

  The end of the input and a failure to read are met when a portion is asked for.  If bytes of an
  incomplete character are still buffered at that moment, they are delivered first and the stop is
  kept for later; once it is reported, it is forgotten, and the next read asks the feed again.

  A portion is fetched in two steps.  `Feed.ready` sees to it that bytes are at hand, which is where
  a puller is asked, and keeps the answers that this took; `Feed.deliver` hands out some of the
  bytes and asks nobody.

  `Reader.size` bounds what is left to read, and every line takes something off it
  (`readLine_size_lt`).  Bytes only move before they are read, from the puller to the feed and from
  the feed to the buffer, and none of this makes the size larger; a character takes at least one of
  them off.
-/
import Pushdown.Disk.Basic

namespace Pushdown

/-! ## Feeds -/

/-- A source of chunks that is asked until it says that a chunk is the last one. -/
structure Puller where
  /-- The chunks that are not the last one. -/
  chunks : List Text
  /-- The chunk delivered with the remark that it is the last one. -/
  final : Text
  deriving DecidableEq, Repr

/-- The next chunk, whether more may follow, and the puller after it. -/
def Puller.pull : Puller → (Text × Bool) × Puller
  | ⟨c :: cs, final⟩ => ((c, true), ⟨cs, final⟩)
  | ⟨[], final⟩ => ((final, false), ⟨[], final⟩)

/-- Where bytes come from. -/
inductive Feed where
  /-- A text in memory; behind it is the end, or a failure with a message. -/
  | text (rest : Text) (failure : Option Text)
  /-- A script of chunks, what is left of the current chunk, and whether it is the last one. -/
  | chunks (puller : Puller) (current : Text) (done : Bool)
  /-- An opened file: the path it was opened by, its number on the disk, and how many of its bytes
      have been delivered. -/
  | file (path : Text) (node : Nat) (offset : Nat)
  deriving DecidableEq, Repr

/-- Why no byte is delivered. -/
inductive Stop where
  | ended
  | failed (message : Text)
  deriving DecidableEq, Repr

/-- The answer to the request for a portion: some bytes, or none and the reason. -/
inductive Portion where
  | bytes (b : UInt8) (t : Text) (rest : Feed)
  | stop (s : Stop) (rest : Feed)
  deriving Repr

/-- The feed behind a portion. -/
def Portion.feed : Portion → Feed
  | .bytes _ _ rest => rest
  | .stop _ rest => rest

namespace Feed

/-- A portion of at most `limit` bytes of a text, where `rest` is made from how many were taken. -/
def portion (limit : Nat) (t : Text) (rest : Nat → Feed) (atEnd : Stop) : Portion :=
  match t.take limit with
  | [] => .stop atEnd (rest 0)
  | b :: u => .bytes b u (rest (u.length + 1))

/-- Asks a puller until a chunk is at hand that is not empty, or until the puller has named its last
    one.  Every answer is kept beside the feed that it leads to, in the order of the calls. -/
def supply (puller : Puller) (current : Text) (done : Bool) : List (Text × Bool) × Feed :=
  if _h : current = [] ∧ done = false then
    let answer := puller.pull.1
    let later := supply puller.pull.2 answer.1 (!answer.2)
    (answer :: later.1, later.2)
  else ([], .chunks puller current done)
termination_by puller.chunks.length + if done then 0 else 1
decreasing_by
  obtain ⟨_ | ⟨c, cs⟩, final⟩ := puller
  · rw [_h.2]
    exact Nat.zero_lt_one
  · rw [_h.2]
    exact Nat.lt_succ_self (cs.length + 1)

/-- Makes sure that a feed has its bytes at hand: the answers of its puller to that, and the feed
    after them.  Texts and files have nobody to ask. -/
def ready : Feed → List (Text × Bool) × Feed
  | .chunks puller current done => supply puller current done
  | f => ([], f)

/-- A portion of at most `limit` of the bytes at hand. -/
def deliver (d : Disk) (limit : Nat) : Feed → Portion
  | .text t failure =>
    portion limit t (fun n => .text (t.drop n) failure)
      (match failure with
        | none => .ended
        | some m => .failed m)
  | .chunks puller current done =>
    portion limit current (fun n => .chunks puller (current.drop n) done) .ended
  | .file path node offset =>
    match d.content node with
    | .ok content =>
      portion limit (content.drop offset) (fun n => .file path node (offset + n)) .ended
    | .error f =>
      .stop (.failed (Text.lit "read " ++ path ++ Text.lit ": " ++ f.message))
        (.file path node offset)

/-- Asks for a portion of at most `limit` bytes. -/
def fetch (d : Disk) (limit : Nat) (f : Feed) : Portion := deliver d limit f.ready.2

/-- What a puller answers while the next portion is fetched. -/
def calls (f : Feed) : List (Text × Bool) := f.ready.1

/-- The number of bytes that a feed has left. -/
def size (d : Disk) : Feed → Nat
  | .text t _ => t.length
  | .chunks puller current done =>
    current.length + if done then 0 else (puller.chunks.flatten.length + puller.final.length)
  | .file _ node offset =>
    match d.content node with
    | .ok content => content.length - offset
    | .error _ => 0

/-- A portion of bytes takes as many off the text as it has. -/
theorem portion_bytes {limit : Nat} {t : Text} {rest : Nat → Feed} {s : Stop} {b : UInt8} {u : Text}
    {f : Feed} (h : portion limit t rest s = .bytes b u f) :
    ∃ n, u.length + 1 = n ∧ n ≤ t.length ∧ f = rest n := by
  unfold portion at h
  split at h
  · simp at h
  · rename_i b' u' hu
    simp only [Portion.bytes.injEq] at h
    obtain ⟨rfl, rfl, rfl⟩ := h
    refine ⟨_, rfl, ?_, rfl⟩
    have := List.length_take_le limit t
    have h2 := congrArg List.length hu
    simp [List.length_take] at h2
    omega

/-- A portion without bytes takes nothing off the text. -/
theorem portion_stop {limit : Nat} {t : Text} {rest : Nat → Feed} {s s' : Stop} {f : Feed}
    (h : portion limit t rest s = .stop s' f) : f = rest 0 := by
  unfold portion at h
  split at h
  · simp only [Portion.stop.injEq] at h
    exact h.2.symm
  · simp at h

/-- An answer of the puller is at hand afterwards, and no longer to come. -/
theorem supply_size (d : Disk) (puller : Puller) (current : Text) (done : Bool) :
    (supply puller current done).2.size d = (chunks puller current done).size d := by
  fun_induction supply puller current done with
  | case1 puller current done h answer later ih =>
    obtain ⟨rfl, rfl⟩ := h
    -- the first answer: a chunk like the others, or the last one
    refine ih.trans ?_
    obtain ⟨_ | ⟨c, cs⟩, final⟩ := puller
    · simp [answer, size, Puller.pull]
    · simp [answer, size, Puller.pull]
      omega
  | case2 => rfl

/-- Asking for chunks only moves bytes from the puller to the feed. -/
theorem ready_size (d : Disk) (f : Feed) : f.ready.2.size d = f.size d := by
  cases f with
  | chunks puller current done => exact supply_size d puller current done
  | text t failure => rfl
  | file path node offset => rfl

/-- Bytes that are delivered are taken off those at hand. -/
theorem deliver_bytes_size {d : Disk} {limit : Nat} {f g : Feed} {b : UInt8} {t : Text}
    (h : deliver d limit f = .bytes b t g) : g.size d + (t.length + 1) = f.size d := by
  cases f with
  | text u failure =>
    simp only [deliver] at h
    obtain ⟨n, hn, hle, rfl⟩ := portion_bytes h
    simp [size]
    omega
  | chunks puller current done =>
    simp only [deliver] at h
    obtain ⟨n, hn, hle, rfl⟩ := portion_bytes h
    simp only [size, List.length_drop]
    omega
  | file path node offset =>
    simp only [deliver] at h
    split at h
    · rename_i content hc
      obtain ⟨n, hn, hle, rfl⟩ := portion_bytes h
      simp only [size, hc, List.length_drop] at hle ⊢
      omega
    · simp at h

/-- If none are delivered, none are lost either. -/
theorem deliver_stop_size {d : Disk} {limit : Nat} {f g : Feed} {s : Stop}
    (h : deliver d limit f = .stop s g) : g.size d ≤ f.size d := by
  cases f with
  | text u failure =>
    simp only [deliver] at h
    rw [portion_stop h]
    simp [size]
  | chunks puller current done =>
    simp only [deliver] at h
    rw [portion_stop h]
    simp [size]
  | file path node offset =>
    simp only [deliver] at h
    split at h
    · rw [portion_stop h]
      simp
    · simp only [Portion.stop.injEq] at h
      exact h.2 ▸ Nat.le_refl _

/-- A portion of bytes is taken off the size of the feed. -/
theorem fetch_bytes_size {d : Disk} {limit : Nat} {f g : Feed} {b : UInt8} {t : Text}
    (h : fetch d limit f = .bytes b t g) : g.size d + (t.length + 1) = f.size d :=
  (deliver_bytes_size h).trans (ready_size d f)

/-- A request that delivers nothing does not make the feed larger. -/
theorem fetch_stop_size {d : Disk} {limit : Nat} {f g : Feed} {s : Stop}
    (h : fetch d limit f = .stop s g) : g.size d ≤ f.size d :=
  ready_size d f ▸ deliver_stop_size h

end Feed

/-! ## Readers -/

/-- A feed with the bytes that were fetched but not delivered yet. -/
structure Reader where
  feed : Feed
  buffer : Text := []
  /-- A stop that was met while bytes of an incomplete character were buffered. -/
  stop : Option Stop := none
  deriving DecidableEq, Repr

/-- What a reader delivers. -/
inductive Delivery where
  | char (c : Char) (rest : Reader)
  | stop (s : Stop) (rest : Reader)
  deriving Repr

/-- The next line, the end of the input, or a failure. -/
inductive Line where
  | text (t : Text)
  | ended
  | failed (message : Text)
  deriving DecidableEq, Repr

namespace Reader

/-- The size of the buffer. -/
def capacity : Nat := 4096

/-- A bound for the number of bytes that are left to read. -/
def size (d : Disk) (r : Reader) : Nat := r.buffer.length + r.feed.size d

/-- Fetches at most `n` portions until a complete character is buffered or the feed stops. -/
def fillUpTo (d : Disk) : Nat → Reader → Reader
  | 0, r => r
  | n + 1, r =>
    if Utf8.isPartial r.buffer && r.stop.isNone then
      match r.feed.fetch d (capacity - r.buffer.length) with
      | .bytes b t feed => fillUpTo d n { r with feed, buffer := r.buffer ++ b :: t }
      | .stop s feed => { r with feed, stop := some s }
    else r

/-- Makes sure that a complete character is buffered, unless the feed has stopped.  A character
    has at most four bytes, so four portions always do. -/
def fill (d : Disk) (r : Reader) : Reader := fillUpTo d 4 r

/-- Takes a character off the input. -/
def next (d : Disk) (r : Reader) : Delivery :=
  let r := fill d r
  match r.buffer with
  | [] => .stop (r.stop.getD .ended) { r with stop := none }
  | b :: t =>
    .char ((Utf8.headChar? (b :: t)).getD Utf8.replacement)
      { r with buffer := (b :: t).drop (Utf8.width (b :: t)) }

/-- The reader after a line feed, if one is next.  Anything else stays to be read; a stop met by
    looking is forgotten. -/
def skipNewline (d : Disk) (r : Reader) : Reader :=
  match next d r with
  | .char c rest => if c = '\n' then rest else fill d r
  | .stop _ rest => rest

/-- Filling the buffer moves bytes from the feed to the buffer. -/
theorem fillUpTo_size_le (d : Disk) (n : Nat) (r : Reader) :
    (fillUpTo d n r).size d ≤ r.size d := by
  induction n generalizing r with
  | zero => exact Nat.le_refl _
  | succ n ih =>
    unfold fillUpTo
    split
    · split
      · rename_i b t feed h
        refine Nat.le_trans (ih _) ?_
        have := Feed.fetch_bytes_size h
        simp [size]
        omega
      · rename_i s feed h
        have := Feed.fetch_stop_size h
        simp [size]
        omega
    · exact Nat.le_refl _

/-- So does filling it for one character. -/
theorem fill_size_le (d : Disk) (r : Reader) : (fill d r).size d ≤ r.size d :=
  fillUpTo_size_le d 4 r

/-- A character takes at least one byte. -/
theorem next_char_size_lt {d : Disk} {r r' : Reader} {c : Char} (h : next d r = .char c r') :
    r'.size d < r.size d := by
  have hf := fill_size_le d r
  unfold next at h
  simp only at h
  split at h
  · simp at h
  · rename_i b t hb
    simp only [Delivery.char.injEq] at h
    obtain ⟨-, rfl⟩ := h
    have hw := Utf8.width_pos (b :: t)
    simp only [size, hb, List.length_drop, List.length_cons] at hf ⊢
    omega

/-- A stop takes none, whatever was buffered before it. -/
theorem next_stop_size_le {d : Disk} {r r' : Reader} {s : Stop} (h : next d r = .stop s r') :
    r'.size d ≤ r.size d := by
  have hf := fill_size_le d r
  unfold next at h
  simp only at h
  split at h
  · simp only [Delivery.stop.injEq] at h
    obtain ⟨-, rfl⟩ := h
    simpa [size] using hf
  · simp at h

/-- Looking for a line feed takes at most the line feed. -/
theorem skipNewline_size_le (d : Disk) (r : Reader) : (skipNewline d r).size d ≤ r.size d := by
  unfold skipNewline
  split
  · rename_i c rest h
    split
    · exact Nat.le_of_lt (next_char_size_lt h)
    · exact fill_size_le d r
  · rename_i s rest h
    exact next_stop_size_le h

/-- Reads up to the end of a line; `seen` holds the bytes of the line read so far, last one first.
    An unterminated line counts if it is not empty, and is lost if reading fails. -/
def readLineFrom (d : Disk) (seen : Text) (r : Reader) : Line × Reader :=
  match _h : next d r with
  | .stop .ended rest => (if seen = [] then .ended else .text seen.reverse, rest)
  | .stop (.failed message) rest => (.failed message, rest)
  | .char c rest =>
    if c = '\n' ∨ c = '\x0c' then (.text seen.reverse, rest)
    else if c = '\r' then (.text seen.reverse, skipNewline d rest)
    else readLineFrom d ((Utf8.encode c).reverse ++ seen) rest
termination_by r.size d
decreasing_by exact next_char_size_lt _h

/-- Reads a line without its line break. -/
def readLine (d : Disk) (r : Reader) : Line × Reader := readLineFrom d [] r

/-- The rest of a line is taken off the size, be it empty. -/
theorem readLineFrom_size_le (d : Disk) (seen : Text) (r : Reader) :
    (readLineFrom d seen r).2.size d ≤ r.size d := by
  fun_induction readLineFrom d seen r with
  | case1 seen r rest h => exact next_stop_size_le h
  | case2 seen r message rest h => exact next_stop_size_le h
  | case3 seen r c rest h hc => exact Nat.le_of_lt (next_char_size_lt h)
  | case4 seen r rest h hn =>
    exact Nat.le_trans (skipNewline_size_le d rest) (Nat.le_of_lt (next_char_size_lt h))
  | case5 seen r c rest h hn hc ih => exact Nat.le_trans ih (Nat.le_of_lt (next_char_size_lt h))

/-- A line that was read is taken off the size of the reader. -/
theorem readLine_size_lt {d : Disk} {r r' : Reader} {t : Text}
    (h : readLine d r = (.text t, r')) : r'.size d < r.size d := by
  unfold readLine at h
  rw [readLineFrom] at h
  split at h
  · simp at h
  · simp at h
  · rename_i c rest hn
    have h1 := next_char_size_lt hn
    repeat' split at h
    · simp only [Prod.mk.injEq] at h
      exact h.2 ▸ h1
    · simp only [Prod.mk.injEq] at h
      exact h.2 ▸ Nat.lt_of_le_of_lt (skipNewline_size_le d rest) h1
    · have h2 := readLineFrom_size_le d ((Utf8.encode c).reverse ++ []) rest
      rw [h] at h2
      exact Nat.lt_of_le_of_lt h2 h1

/-- A line and what is left behind it, in terms of what was seen and what was left: no character is
    longer than four bytes, and each takes one byte at least. -/
theorem readLineFrom_length_le {d : Disk} {seen : Text} {r r' : Reader} {t : Text}
    (h : readLineFrom d seen r = (.text t, r')) :
    t.length + 4 * r'.size d ≤ seen.length + 4 * r.size d := by
  fun_induction readLineFrom d seen r with
  | case1 seen r rest hn =>
    have := next_stop_size_le hn
    split at h <;> simp only [Prod.mk.injEq, Line.text.injEq, reduceCtorEq, false_and] at h
    obtain ⟨rfl, rfl⟩ := h
    simp only [List.length_reverse]
    omega
  | case2 seen r message rest hn => simp at h
  | case3 seen r c rest hn hc =>
    have := next_char_size_lt hn
    simp only [Prod.mk.injEq, Line.text.injEq] at h
    obtain ⟨rfl, rfl⟩ := h
    simp only [List.length_reverse]
    omega
  | case4 seen r rest hn hc =>
    have h1 := next_char_size_lt hn
    have h2 := skipNewline_size_le d rest
    simp only [Prod.mk.injEq, Line.text.injEq] at h
    obtain ⟨rfl, rfl⟩ := h
    simp only [List.length_reverse]
    omega
  | case5 seen r c rest hn h1 h2 ih =>
    -- a character is part of the line, replaced if its bytes were not valid
    have h3 := next_char_size_lt hn
    have h4 := Utf8.encode_length_le c
    have h5 := ih h
    simp only [List.length_append, List.length_reverse] at h5
    omega

/-- A line has at most four bytes for every byte that reading it took. -/
theorem readLine_length_le {d : Disk} {r r' : Reader} {t : Text}
    (h : readLine d r = (.text t, r')) : t.length + 4 * r'.size d ≤ 4 * r.size d := by
  simpa using readLineFrom_length_le h

/-- All lines up to the end of the input or a failure. -/
def lines (d : Disk) (r : Reader) : List Text :=
  match _h : readLine d r with
  | (.text t, rest) => t :: lines d rest
  | _ => []
termination_by r.size d
decreasing_by exact readLine_size_lt _h

end Reader
end Pushdown
