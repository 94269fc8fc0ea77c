/-
  A lookahead is a list of tokens.

  What a lookahead has ahead is its queue, and behind it what its source will answer: tokens,
  failures, and in the end the end of input.  `Plain` has the three operations on such a list.
  Peeking leaves a token at its head, getting takes it off, and tokens that are put back go in front
  of it.  A failure at the head is reported once, since the source has moved on when it is asked
  again.

  * `Yields` is the list of a source, and `Promises` is the list of a lookahead.  There is no bound
    on what is asked: requests come in any order, and any tokens may be put back, however many.
  * Each request keeps the promise and gives the answer of the list (`Promises.handle`), so a
    lookahead gives the same answers as the list whatever is asked of it (`Promises.serve`).

  That tokens are not lost, and that a token which was got can be put back, are facts about lists
  then (`Plain.tokens_peek`, `Promises.unget_get`).

  The other half is thrift: when the source is asked at all.  A list cannot tell, since nothing is
  asked there.  `Thrifty` collects what the log of a source shows about it: one question for a
  request at most, and only with an empty queue; one successful answer for any number of peeks; no
  question after the end.  It follows from the one thing that has to be kept in mind: a source that
  has signalled the end is marked as ended (`Sober`).  A new lookahead is sober since its log is
  empty, and requests keep it so.
-/
import Pushdown.Proofs.Parser.Requests

namespace Pushdown

variable {σ : Type} [TokenSource σ]

/-! ## Sources that may fail

  A source is told by its answers in their order: tokens and failures, and then the end.  What the
  source does when it is asked again behind its end is left open. -/

/-- `Yields s items`: asked again and again, `s` answers with `items`, which are tokens and
    failures, and then with the end of input. -/
inductive Yields : σ → List Answer → Prop where
  | ended {s s' : σ} {t : Token} (hs : TokenSource.next s = (.ok t, s')) (ht : t.isEof = true) :
      Yields s []
  | token {s s' : σ} {t : Token} {items : List Answer} (hs : TokenSource.next s = (.ok t, s'))
      (ht : t.isEof = false) (rest : Yields s' items) : Yields s (.ok t :: items)
  | failure {s s' : σ} {e : Failure} {items : List Answer}
      (hs : TokenSource.next s = (.error e, s')) (rest : Yields s' items) :
      Yields s (.error e :: items)

namespace Yields

variable {s s' : σ} {items : List Answer}

/-- A source that fails had a failure in front. -/
theorem of_error {e : Failure} (h : Yields s items) (hs : TokenSource.next s = (.error e, s')) :
    ∃ rest, items = .error e :: rest ∧ Yields s' rest := by
  cases h with
  | ended hs' => rw [hs] at hs'; cases hs'
  | token hs' => rw [hs] at hs'; cases hs'
  | failure hs' rest =>
    rw [hs] at hs'
    obtain ⟨⟨rfl⟩, rfl⟩ := Prod.mk.inj hs'
    exact ⟨_, rfl, rest⟩

/-- A source that ends had nothing left. -/
theorem of_eof {t : Token} (h : Yields s items) (hs : TokenSource.next s = (.ok t, s'))
    (ht : t.isEof = true) : items = [] := by
  cases h with
  | ended => rfl
  | token hs' ht' =>
    rw [hs] at hs'
    obtain ⟨⟨rfl⟩, rfl⟩ := Prod.mk.inj hs'
    rw [ht] at ht'
    contradiction
  | failure hs' => rw [hs] at hs'; cases hs'

/-- A source that answers with a token had that token in front. -/
theorem of_token {t : Token} (h : Yields s items) (hs : TokenSource.next s = (.ok t, s'))
    (ht : t.isEof = false) : ∃ rest, items = .ok t :: rest ∧ Yields s' rest := by
  cases h with
  | ended hs' ht' =>
    rw [hs] at hs'
    obtain ⟨⟨rfl⟩, rfl⟩ := Prod.mk.inj hs'
    rw [ht] at ht'
    contradiction
  | token hs' ht' rest =>
    rw [hs] at hs'
    obtain ⟨⟨rfl⟩, rfl⟩ := Prod.mk.inj hs'
    exact ⟨_, rfl, rest⟩
  | failure hs' => rw [hs] at hs'; cases hs'

/-- No token among the answers is the end of input. -/
theorem isEof_eq_false {t : Token} (h : Yields s items) (ht : .ok t ∈ items) :
    t.isEof = false := by
  induction h with
  | ended => exact nomatch ht
  | token hs ht' rest ih =>
    rcases List.mem_cons.mp ht with heq | hmem
    · rw [Except.ok.inj heq]
      exact ht'
    · exact ih hmem
  | failure hs rest ih =>
    rcases List.mem_cons.mp ht with heq | hmem
    · exact nomatch heq
    · exact ih hmem

end Yields

/-! ## The three operations on a list

  This is the list that the lookahead should be mistaken for.  It has no queue and no flag: peeking
  reads the head, and putting back conses. -/

namespace Plain

/-- The head of the list.  A token stays there; a failure is gone once it is reported. -/
def peek : List Answer → Answer × List Answer
  | [] => (.ok .eof, [])
  | .ok t :: items => (.ok t, .ok t :: items)
  | .error e :: items => (.error e, items)

/-- Takes the head off the list. -/
def get : List Answer → Answer × List Answer
  | [] => (.ok .eof, [])
  | a :: items => (a, items)

/-- Puts tokens in front of the list, in the given order and without ends of input. -/
def unget (items : List Answer) (ts : List Token) : List Answer :=
  (ts.filter (!·.isEof)).map .ok ++ items

/-- Carries out a request on a list; putting tokens back has no answer. -/
def handle (items : List Answer) : Request → Option Answer × List Answer
  | .peek => (some (peek items).1, (peek items).2)
  | .get => (some (get items).1, (get items).2)
  | .unget ts => (none, unget items ts)

/-- The tokens of a list, without its failures. -/
def tokens (items : List Answer) : List Token := items.filterMap Except.toOption

/-- Peeking loses no token.  What it takes off is a failure. -/
theorem tokens_peek (items : List Answer) : tokens (peek items).2 = tokens items := by
  match items with
  | [] => rfl
  | .ok t :: items => rfl
  | .error e :: items => rfl

end Plain

/-! ## The list that a lookahead stands for

  The queue comes first, and behind it what the source still answers.  Once the end was signalled,
  nothing does. -/

namespace Lookahead

/-- `la.Promises items`: the queue of `la` and what its source will answer are the list `items`. -/
structure Promises (la : Lookahead σ) (items : List Answer) : Prop where
  items_eq : ∃ rest, items = la.queue.map .ok ++ rest ∧
    if la.ended then rest = [] else Yields la.source rest
  /-- The end of input is never queued. -/
  queued : ∀ t ∈ la.queue, t.isEof = false

variable {la : Lookahead σ} {items : List Answer}

/-- A new lookahead stands for what its source will answer. -/
theorem promises_of_yields {s : σ} (h : Yields s items) :
    (fresh s).Promises items := ⟨⟨items, rfl, h⟩, nofun⟩

/-- A lookahead that has been looked at is at the end, or has its next token queued. -/
theorem Promises.of_isReady (h : la.Promises items) (hr : la.IsReady) :
    (items = [] ∧ la.queue = []) ∨
      ∃ t q rest, la.queue = t :: q ∧ t.isEof = false ∧ items = .ok t :: rest ∧
        Promises { la with queue := q } rest := by
  obtain ⟨⟨rest, rfl, hrest⟩, hq⟩ := h
  cases hqueue : la.queue with
  | nil =>
    have he : la.ended = true := hr.resolve_left fun hne => hne hqueue
    rw [if_pos he] at hrest
    exact Or.inl ⟨by rw [hrest]; rfl, rfl⟩
  | cons t q =>
    rw [hqueue] at hq
    have hq' : ∀ u ∈ q, u.isEof = false := fun u hu => hq u (List.mem_cons_of_mem t hu)
    exact Or.inr ⟨t, q, _, rfl, hq t List.mem_cons_self, rfl, ⟨rest, rfl, hrest⟩, hq'⟩

/-- Peeking answers with the head of the list. -/
theorem Promises.peek (h : la.Promises items) :
    la.peek.1 = (Plain.peek items).1 ∧ la.peek.2.Promises (Plain.peek items).2 := by
  rcases hpeek : la.peek with ⟨a, la'⟩
  have hpromises := h
  obtain ⟨⟨rest, rfl, hrest⟩, hqueued⟩ := h
  -- in each of the cases the head of the list is what is answered
  cases peeks_of_peek hpeek with
  | ready hr =>
    obtain ⟨hnil, hq⟩ | ⟨t, q, rest', hq, -, hcons, -⟩ := hpromises.of_isReady hr
    · rw [hnil] at hpromises ⊢
      exact ⟨by rw [hq]; rfl, hpromises⟩
    · rw [hcons] at hpromises ⊢
      exact ⟨by rw [hq]; rfl, hpromises⟩
  | @failed e s hq he hs =>
    rw [he] at hrest
    obtain ⟨rest', rfl, hyields⟩ := Yields.of_error hrest hs
    have hitems : la.queue.map .ok ++ .error e :: rest' = .error e :: rest' := by rw [hq]; rfl
    rw [hitems]
    exact ⟨rfl, ⟨rest', by rw [hq]; rfl, by rw [he]; exact hyields⟩, hqueued⟩
  | @ended t s hq he hs ht =>
    rw [he] at hrest
    obtain rfl := Yields.of_eof hrest hs ht
    have hitems : la.queue.map .ok ++ [] = ([] : List Answer) := by rw [hq]; rfl
    rw [hitems]
    exact ⟨rfl, ⟨[], hitems.symm, rfl⟩, hqueued⟩
  | @pulled t s hq he hs ht =>
    rw [he] at hrest
    obtain ⟨rest', rfl, hyields⟩ := Yields.of_token hrest hs ht
    have hitems : la.queue.map .ok ++ .ok t :: rest' = .ok t :: rest' := by rw [hq]; rfl
    rw [hitems]
    refine ⟨rfl, ⟨rest', rfl, by rw [he]; exact hyields⟩, fun u hu => ?_⟩
    rw [List.mem_singleton.mp hu]
    exact ht

/-- Getting answers with the head of the list and takes it off. -/
theorem Promises.get (h : la.Promises items) :
    la.get.1 = (Plain.get items).1 ∧ la.get.2.Promises (Plain.get items).2 := by
  obtain ⟨hanswer, hrest⟩ := h.peek
  rcases hpeek : la.peek with ⟨a, la'⟩
  rw [hpeek] at hanswer hrest
  -- the head of the list tells what was looked at
  match items with
  | [] =>
    obtain rfl : a = .ok .eof := hanswer
    rw [get_of_eof hpeek rfl]
    exact ⟨rfl, hrest⟩
  | .error e :: items =>
    obtain rfl : a = .error e := hanswer
    rw [get_of_error hpeek]
    exact ⟨rfl, hrest⟩
  | .ok t :: items =>
    obtain rfl : a = .ok t := hanswer
    -- the token has been looked at, so it is in the queue
    obtain ⟨hnil, -⟩ | ⟨t', q, rest, hq, ht, hcons, htail⟩ :=
      Promises.of_isReady hrest (peeks_of_peek hpeek).isReady
    · exact nomatch hnil
    · obtain ⟨⟨rfl⟩, rfl⟩ := List.cons.inj hcons
      rw [get_of_token hpeek ht, hq]
      exact ⟨rfl, htail⟩

/-- Tokens that are put back go in front of the list. -/
theorem Promises.unget (h : la.Promises items) (ts : List Token) :
    (la.unget ts).Promises (Plain.unget items ts) := by
  obtain ⟨⟨rest, rfl, hrest⟩, hqueued⟩ := h
  refine ⟨⟨rest, ?_, hrest⟩, fun t ht => ?_⟩
  · rw [Plain.unget, Lookahead.unget, List.map_append, List.append_assoc]
  · rcases List.mem_append.mp ht with ht | ht
    · simpa using (List.mem_filter.mp ht).2
    · exact hqueued t ht

/-- Each request gets the answer of the list. -/
theorem Promises.handle (h : la.Promises items) (r : Request) :
    (la.handle r).1 = (Plain.handle items r).1 ∧
      (la.handle r).2.Promises (Plain.handle items r).2 := by
  cases r with
  | peek => exact ⟨congrArg some h.peek.1, h.peek.2⟩
  | get => exact ⟨congrArg some h.get.1, h.get.2⟩
  | unget ts => exact ⟨rfl, h.unget ts⟩

/-- **A lookahead and its list give the same answers**, and go on standing for each other. -/
theorem Promises.serve (h : la.Promises items) (rs : List Request) :
    (serve Lookahead.handle la rs).1 = (serve Plain.handle items rs).1 ∧
      (serve Lookahead.handle la rs).2.Promises (serve Plain.handle items rs).2 := by
  induction rs generalizing la items with
  | nil => exact ⟨rfl, h⟩
  | cons r rs ih =>
    obtain ⟨hanswer, hnext⟩ := h.handle r
    obtain ⟨hanswers, hlast⟩ := ih hnext
    exact ⟨List.cons_eq_cons.mpr ⟨hanswer, hanswers⟩, hlast⟩

/-- No token that is promised is the end of input. -/
theorem Promises.isEof_eq_false (h : la.Promises items) {t : Token} (ht : .ok t ∈ items) :
    t.isEof = false := by
  obtain ⟨⟨rest, rfl, hrest⟩, hqueued⟩ := h
  rcases List.mem_append.mp ht with ht | ht
  · obtain ⟨u, hu, heq⟩ := List.mem_map.mp ht
    rw [← Except.ok.inj heq]
    exact hqueued u hu
  · split at hrest
    · rw [hrest] at ht
      exact nomatch ht
    · exact hrest.isEof_eq_false ht

/-- What was got and put back is there again. -/
theorem Promises.unget_get (h : la.Promises items) {t : Token} (ht : la.get.1 = .ok t) :
    (la.get.2.unget [t]).Promises items := by
  obtain ⟨hanswer, hrest⟩ := h.get
  rw [ht] at hanswer
  have hback := hrest.unget [t]
  -- at the end nothing was taken off, and nothing is put back
  match items with
  | [] =>
    obtain ⟨rfl⟩ := hanswer
    exact hback
  | .error e :: items => exact nomatch hanswer
  | .ok u :: items =>
    obtain ⟨rfl⟩ := hanswer
    have heof : t.isEof = false := h.isEof_eq_false List.mem_cons_self
    rw [Plain.unget, List.filter_cons_of_pos (by rw [heof]; rfl)] at hback
    exact hback

end Lookahead

/-! ## When the source is asked

  What is seen of a lookahead does not tell how often the source was asked.  Here it is told request
  by request, from the queue and the flag. -/

namespace Lookahead

variable {la : Lookahead σ}

/-- Getting peeks, and apart from that it changes the queue only. -/
theorem exists_get_eq (la : Lookahead σ) :
    ∃ queue, la.get = (la.peek.1, { la.peek.2 with queue }) := by
  rw [get]
  rcases la.peek with ⟨e | t, la'⟩
  · exact ⟨la'.queue, rfl⟩
  · dsimp only
    split
    · exact ⟨la'.queue, rfl⟩
    · exact ⟨la'.queue.tail, rfl⟩

/-- The source is left alone, or it is asked once.  It is asked only with an empty queue and before
    the end, and the end is noted then if that is what it says. -/
theorem peek_source (la : Lookahead σ) :
    (la.peek.2.source = la.source ∧ la.peek.2.ended = la.ended) ∨
      (la.queue = [] ∧ la.ended = false ∧ la.peek.2.source = (TokenSource.next la.source).2 ∧
        ∀ t, (TokenSource.next la.source).1 = .ok t → la.peek.2.ended = t.isEof) := by
  rcases hpeek : la.peek with ⟨a, la'⟩
  cases peeks_of_peek hpeek with
  | ready => exact Or.inl ⟨rfl, rfl⟩
  | failed hq he hs => exact Or.inr ⟨hq, he, by rw [hs], fun t ht => by rw [hs] at ht; cases ht⟩
  | ended hq he hs ht =>
    refine Or.inr ⟨hq, he, by rw [hs], fun u hu => ?_⟩
    rw [hs] at hu
    obtain ⟨rfl⟩ := hu
    exact ht.symm
  | pulled hq he hs ht =>
    refine Or.inr ⟨hq, he, by rw [hs], fun u hu => ?_⟩
    rw [hs] at hu
    obtain ⟨rfl⟩ := hu
    exact he.trans ht.symm

/-- The same for every request: it leaves the source alone or asks it once, with an empty queue and
    before the end. -/
theorem handle_source (la : Lookahead σ) (r : Request) :
    ((la.handle r).2.source = la.source ∧ (la.handle r).2.ended = la.ended) ∨
      (la.queue = [] ∧ la.ended = false ∧
        (la.handle r).2.source = (TokenSource.next la.source).2 ∧
        ∀ t, (TokenSource.next la.source).1 = .ok t → (la.handle r).2.ended = t.isEof) := by
  cases r with
  | peek => exact la.peek_source
  | get =>
    obtain ⟨queue, hget⟩ := la.exists_get_eq
    simp only [handle, hget]
    exact la.peek_source
  | unget ts => exact Or.inl ⟨rfl, rfl⟩

/-- A request that fails leaves the queue and the flag as they are. -/
theorem handle_of_error {r : Request} {e : Failure} (h : (la.handle r).1 = some (.error e)) :
    (la.handle r).2.queue = la.queue ∧ (la.handle r).2.ended = la.ended := by
  rcases hpeek : la.peek with ⟨a, la'⟩
  -- only peeking can fail, and getting starts with it
  have hkeeps (ha : a = .error e) : la'.queue = la.queue ∧ la'.ended = la.ended := by
    subst ha
    cases peeks_of_peek hpeek with
    | failed => exact ⟨rfl, rfl⟩
  cases r with
  | peek =>
    simp only [handle, hpeek, Option.some.injEq] at h ⊢
    exact hkeeps h
  | get =>
    simp only [handle, Option.some.injEq] at h ⊢
    cases a with
    | error e' =>
      rw [get_of_error hpeek] at h ⊢
      exact hkeeps h
    | ok t =>
      rw [get, hpeek] at h
      cases h
  | unget ts => cases h

/-- After the end the source is never asked again. -/
theorem serve_of_ended (h : la.ended = true) (rs : List Request) :
    (serve Lookahead.handle la rs).2.source = la.source := by
  induction rs generalizing la with
  | nil => rfl
  | cons r rs ih =>
    -- a request that asks the source would have found it running
    obtain ⟨hsource, hended⟩ | ⟨-, he, -⟩ := la.handle_source r
    · exact (ih (hended.trans h)).trans hsource
    · rw [h] at he
      contradiction

/-- Looking again and again at a token that has been looked at changes nothing. -/
theorem IsReady.serve_peeks (h : la.IsReady) (n : Nat) :
    (serve Lookahead.handle la (List.replicate n .peek)).2 = la := by
  induction n with
  | zero => rfl
  | succ n ih =>
    rw [List.replicate_succ, serve, handle, h.peek_eq]
    exact ih

end Lookahead

/-! ## What the log of a source shows

  A source with a log shows from outside how it was asked, and thrift is a statement about the log
  alone. -/

namespace Lookahead

/-- The end of input is not forgotten once the source has signalled it. -/
def Sober (la : Lookahead (Recorded σ)) : Prop :=
  ∀ t, .ok t ∈ la.source.log → t.isEof = true → la.ended = true

/-- What the log of a source shows about the lookahead in front of it. -/
structure Thrifty (la : Lookahead (Recorded σ)) : Prop where
  /-- The source is asked only with an empty queue and if it has not signalled the end, and then
      once for a request. -/
  asked : ∀ r, (la.handle r).2.source = la.source ∨
    (la.queue = [] ∧ (∀ t, .ok t ∈ la.source.log → t.isEof = false) ∧
      ∃ answer, (la.handle r).2.source.log = la.source.log ++ [answer])
  /-- Any number of peeks costs one successful answer at most. -/
  peeks : ∀ n, ∃ answers, answers.countP Except.isOk ≤ 1 ∧
    (serve Lookahead.handle la (List.replicate n .peek)).2.source.log = la.source.log ++ answers
  /-- A failure leaves the queue and the flag as they are. -/
  failing : ∀ r e, (la.handle r).1 = some (.error e) →
    (la.handle r).2.queue = la.queue ∧ (la.handle r).2.ended = la.ended
  /-- After it has signalled the end the source is never asked again. -/
  resting : ∀ t, .ok t ∈ la.source.log → t.isEof = true →
    ∀ rs, (serve Lookahead.handle la rs).2.source = la.source

variable {la : Lookahead (Recorded σ)}

/-- Requests do not forget the end. -/
theorem Sober.handle (h : la.Sober) (r : Request) : (la.handle r).2.Sober := by
  intro t ht heof
  -- what is in the log was there before, or it is the answer to this request
  obtain ⟨hsource, hended⟩ | ⟨-, he, hsource, hended⟩ := la.handle_source r
  · rw [hsource] at ht
    rw [hended]
    exact h t ht heof
  · rw [hsource, log_next] at ht
    rcases List.mem_append.mp ht with ht | ht
    · -- an earlier end would have kept the source from being asked
      rw [h t ht heof] at he
      contradiction
    · rw [hended t (List.mem_singleton.mp ht).symm]
      exact heof

/-- However many of them there are. -/
theorem Sober.serve (h : la.Sober) (rs : List Request) :
    (serve Lookahead.handle la rs).2.Sober := by
  induction rs generalizing la with
  | nil => exact h
  | cons r rs ih => exact ih (h.handle r)

/-- Failures apart, the first peek is the only one that asks the source. -/
theorem log_peeks (la : Lookahead (Recorded σ)) (n : Nat) :
    ∃ answers, answers.countP Except.isOk ≤ 1 ∧
      (Pushdown.serve Lookahead.handle la (List.replicate n .peek)).2.source.log =
        la.source.log ++ answers := by
  induction n generalizing la with
  | zero => exact ⟨[], Nat.zero_le 1, (List.append_nil _).symm⟩
  | succ n ih =>
    rw [List.replicate_succ, Pushdown.serve, Lookahead.handle]
    rcases hpeek : la.peek with ⟨a, la'⟩
    -- a token that was looked at stays, and after a failure the source is asked again
    cases a with
    | ok t =>
      rw [(peeks_of_peek hpeek).isReady.serve_peeks]
      obtain ⟨hsource, -⟩ | ⟨-, -, hsource, -⟩ := la.peek_source
      · rw [hpeek] at hsource
        exact ⟨[], Nat.zero_le 1, by rw [hsource, List.append_nil]⟩
      · rw [hpeek] at hsource
        exact ⟨[_], List.countP_le_length, by rw [hsource, log_next]⟩
    | error e =>
      obtain ⟨answers, hcount, hlog⟩ := ih la'
      cases peeks_of_peek hpeek with
      | @failed _ s _ _ hs =>
        refine ⟨.error e :: answers, hcount, ?_⟩
        rw [hlog, (next_recorded hs).2, List.append_assoc]
        rfl

/-- What has to be kept in mind is enough. -/
theorem Sober.thrifty (h : la.Sober) : la.Thrifty where
  asked r := by
    obtain ⟨hsource, -⟩ | ⟨hq, he, hsource, -⟩ := la.handle_source r
    · exact Or.inl hsource
    · refine Or.inr ⟨hq, fun t ht => ?_, _, by rw [hsource, log_next]⟩
      cases heof : t.isEof with
      | false => rfl
      | true =>
        rw [h t ht heof] at he
        contradiction
  peeks := la.log_peeks
  failing _ _ := handle_of_error
  resting t ht heof := serve_of_ended (h t ht heof)

/-- **A lookahead is a list of tokens**, for every source and all sequences of requests: it gives
    the answers of the list and goes on standing for the list.  Peeking loses no token, even if it
    fails, and a token that was got can be put back.  The log of the source shows that it is not
    asked without need. -/
theorem serve_refines_plain (s : σ) (items : List Answer) (hs : Yields s items)
    (rs : List Request) :
    let plain := serve Plain.handle items rs
    let real := serve Lookahead.handle (fresh s) rs
    let logged := serve Lookahead.handle (fresh { source := s : Recorded σ }) rs
    real.1 = plain.1 ∧ real.2.Promises plain.2 ∧
      Plain.tokens (Plain.peek plain.2).2 = Plain.tokens plain.2 ∧
      (∀ t, real.2.get.1 = .ok t → (real.2.get.2.unget [t]).Promises plain.2) ∧
      logged.1 = real.1 ∧ logged.2.Thrifty := by
  intro plain real logged
  obtain ⟨hanswers, hpromises⟩ := (promises_of_yields hs).serve rs
  -- the log does not matter to the answers, so that it shows what happens without it
  have hlogged : logged.1 = real.1 :=
    (serve_bare (fresh { source := s : Recorded σ }) rs).symm
  have hsober : Sober (fresh { source := s : Recorded σ }) := nofun
  exact ⟨hanswers, hpromises, Plain.tokens_peek plain.2, fun t ht => hpromises.unget_get ht,
    hlogged, (hsober.serve rs).thrifty⟩

/-- The failure comes between two tokens.  The end of input is put back to no effect, the other
    token comes again. -/
theorem serve_refines_plain_failing :
    let a : Token := ⟨Text.lit "NUM", Text.lit "1"⟩
    let b : Token := ⟨Text.lit "NUM", Text.lit "2"⟩
    let boom : Failure := .other (Text.lit "boom")
    (serve Lookahead.handle (fresh (⟨[.ok a, .error boom, .ok b]⟩ : Script))
      [.peek, .get, .peek, .peek, .unget [a, .eof], .get, .get, .get]).1 =
      [some (.ok a), some (.ok a), some (.error boom), some (.ok b), none, some (.ok a),
        some (.ok b), some (.ok .eof)] := by
  intro a b boom
  have hs : Yields (⟨[.ok a, .error boom, .ok b]⟩ : Script) [.ok a, .error boom, .ok b] :=
    .token rfl rfl (.failure rfl (.token rfl rfl (.ended rfl rfl)))
  exact (serve_refines_plain _ _ hs _).1

end Lookahead

end Pushdown