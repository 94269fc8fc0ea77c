/-
  Requests to a lookahead.

  A lookahead can be asked to peek, to get and to take tokens back; `serve` carries out any sequence
  of such requests and collects the answers.  Peeking has four cases (`Peeks`), and getting is
  peeking with one more step, so what follows about requests comes down to them: each lemma about
  peeking is read off the cases (`peeks_of_peek`), and none of them opens `Lookahead.peek` again.

  Two changes to a lookahead go unnoticed by whoever makes requests.

  * It may have asked its source once more than it had to (`OneAhead`).  As long as there are tokens
    in the queue the two lookaheads answer from their queues.  When the one that did not ask runs
    out of tokens it asks, and from then on the two are the same.  So nobody can tell whether a
    lookahead has been looked at after the last token was taken (`serve_of_peek_fresh`).
  * The source may keep a log of its answers (`Recorded`).  The log is there to see how often a
    source was asked; it is written by the source itself, so that it cannot be out of step with what
    happens, and taking it away changes no answer (`serve_bare`).
-/
import Pushdown.Proofs.Parser.Tape

namespace Pushdown

/-- What a source answers when it is asked once. -/
abbrev Answer := Except Failure Token

variable {σ : Type} [TokenSource σ]

/-- A source that gives fixed answers, and then says that the input has ended. -/
structure Script where
  answers : List Answer

/-- The answers are given one by one. -/
instance : TokenSource Script where
  next
    | ⟨[]⟩ => (.ok .eof, ⟨[]⟩)
    | ⟨a :: as⟩ => (a, ⟨as⟩)
  location _ := {}

/-! ## Requests

  A lookahead can be peeked at, taken from and given tokens back.  A list of requests is served in
  order, and the answers are what is seen. -/

/-- What can be asked of a lookahead. -/
inductive Request where
  | peek
  | get
  | unget (ts : List Token)

namespace Lookahead

omit [TokenSource σ] in
/-- A lookahead that has not been used yet. -/
def fresh (s : σ) : Lookahead σ := { source := s }

/-- Carries out a request on a lookahead. -/
def handle (la : Lookahead σ) : Request → Option Answer × Lookahead σ
  | .peek => (some la.peek.1, la.peek.2)
  | .get => (some la.get.1, la.get.2)
  | .unget ts => (none, la.unget ts)

end Lookahead

/-- The answers to some requests, and what is left after them. -/
def serve {S : Type} (handle : S → Request → Option Answer × S) (x : S) :
    List Request → List (Option Answer) × S
  | [] => ([], x)
  | r :: rs => ((handle x r).1 :: (serve handle (handle x r).2 rs).1,
      (serve handle (handle x r).2 rs).2)

/-! ## What peeking does

  Peeking is the only way in which the source is asked, and it asks once at most.  Its four cases
  are what every proof about lookaheads looks at. -/

namespace Lookahead

variable {la : Lookahead σ}

/-- `la.Peeks a la'`: peeking answers `a` and leaves `la'`.  The source is asked in three of the
    four cases, all of them with an empty queue and before the end. -/
inductive Peeks (la : Lookahead σ) : Answer → Lookahead σ → Prop where
  | ready (h : la.IsReady) : Peeks la (.ok (la.queue.headD .eof)) la
  | failed {e : Failure} {s : σ} (hq : la.queue = []) (he : la.ended = false)
      (hs : TokenSource.next la.source = (.error e, s)) :
      Peeks la (.error e) { la with source := s }
  | ended {t : Token} {s : σ} (hq : la.queue = []) (he : la.ended = false)
      (hs : TokenSource.next la.source = (.ok t, s)) (ht : t.isEof = true) :
      Peeks la (.ok .eof) { la with source := s, ended := true }
  | pulled {t : Token} {s : σ} (hq : la.queue = []) (he : la.ended = false)
      (hs : TokenSource.next la.source = (.ok t, s)) (ht : t.isEof = false) :
      Peeks la (.ok t) { la with source := s, queue := [t] }

/-- Looking again at a token that has been looked at changes nothing. -/
theorem IsReady.peek_eq (h : la.IsReady) : la.peek = (.ok (la.queue.headD .eof), la) := by
  unfold peek
  split
  · rename_i t q hq
    rw [hq]
    rfl
  · rename_i hq
    have he : la.ended = true := h.resolve_left fun hne => hne hq
    rw [if_pos he, hq]
    rfl

omit [TokenSource σ] in
/-- With nothing at hand, the queue is empty and the end has not been met. -/
theorem of_not_isReady (h : ¬ la.IsReady) : la.queue = [] ∧ la.ended = false := by
  obtain ⟨hq, he⟩ := not_or.mp h
  exact ⟨Classical.not_not.mp hq, Bool.not_eq_true _ ▸ he⟩

/-- With nothing at hand the source is asked. -/
theorem peek_of_not_isReady (h : ¬ la.IsReady) :
    la.peek = match TokenSource.next la.source with
      | (.error e, source) => (.error e, { la with source })
      | (.ok t, source) =>
        if t.isEof then (.ok .eof, { la with source, ended := true })
        else (.ok t, { la with source, queue := [t] }) := by
  unfold peek
  split
  · rename_i t q hcons
    rw [(of_not_isReady h).1] at hcons
    contradiction
  · exact if_neg fun he => h (Or.inr he)

/-- What peeking answers and leaves, in each of the cases. -/
theorem peeks_of_peek {a : Answer} {la' : Lookahead σ} (h : la.peek = (a, la')) :
    la.Peeks a la' := by
  -- what is ready is answered at once, and else the source decides
  by_cases hr : la.IsReady
  · rw [hr.peek_eq] at h
    obtain ⟨rfl, rfl⟩ := Prod.mk.inj h
    exact .ready hr
  · obtain ⟨hq, he⟩ := of_not_isReady hr
    rw [peek_of_not_isReady hr] at h
    split at h
    · rename_i e s hs
      obtain ⟨rfl, rfl⟩ := Prod.mk.inj h
      exact .failed hq he hs
    · rename_i t s hs
      split at h
      · rename_i ht
        obtain ⟨rfl, rfl⟩ := Prod.mk.inj h
        exact .ended hq he hs ht
      · rename_i ht
        obtain ⟨rfl, rfl⟩ := Prod.mk.inj h
        exact .pulled hq he hs (by simpa using ht)

/-- Unless peeking fails, the next token has been looked at. -/
theorem Peeks.isReady {t : Token} {la' : Lookahead σ} (h : la.Peeks (.ok t) la') :
    la'.IsReady := by
  cases h with
  | ready h => exact h
  | ended => exact Or.inr rfl
  | pulled => exact Or.inl (List.cons_ne_nil t [])

/-- What has been looked at is there to be looked at again. -/
theorem peek_peek {t : Token} {la' : Lookahead σ} (h : la.peek = (.ok t, la')) :
    la'.peek = (.ok t, la') := by
  have hpeeks := peeks_of_peek h
  rw [hpeeks.isReady.peek_eq]
  cases hpeeks with
  | ready => rfl
  | ended hq => rw [hq]; rfl
  | pulled => rfl

/-- Getting is peeking, and then a token is taken off the queue. -/
theorem get_of_token {t : Token} {la' : Lookahead σ} (h : la.peek = (.ok t, la'))
    (ht : t.isEof = false) : la.get = (.ok t, { la' with queue := la'.queue.tail }) := by
  rw [get, h]
  simp only [ht, Bool.false_eq_true, ↓reduceIte]

/-- The end of input is not taken off anything. -/
theorem get_of_eof {t : Token} {la' : Lookahead σ} (h : la.peek = (.ok t, la'))
    (ht : t.isEof = true) : la.get = (.ok t, la') := by
  rw [get, h]
  simp only [ht, ↓reduceIte]

/-- A failure to look is a failure to get. -/
theorem get_of_error {e : Failure} {la' : Lookahead σ} (h : la.peek = (.error e, la')) :
    la.get = (.error e, la') := by
  rw [get, h]

end Lookahead

/-! ## Asking the source early

  Whether the source is asked now or with the next request makes no difference to what is seen. -/

namespace Lookahead

variable {la la' : Lookahead σ}

omit [TokenSource σ] in
/-- A new lookahead has nothing at hand. -/
theorem not_isReady_fresh (s : σ) : ¬ (fresh s).IsReady := by
  rintro (hq | he)
  · exact hq rfl
  · exact Bool.false_ne_true he

/-- A new lookahead asks its source. -/
theorem peek_fresh (s : σ) :
    (fresh s).peek = match TokenSource.next s with
      | (.error e, s') => (.error e, fresh s')
      | (.ok t, s') =>
        if t.isEof then (.ok .eof, { fresh s' with ended := true })
        else (.ok t, { fresh s' with queue := [t] }) :=
  peek_of_not_isReady (not_isReady_fresh s)

/-- Where the source fails a new lookahead fails, and it is as new as before. -/
theorem peek_fresh_of_error {s s' : σ} {e : Failure} (h : TokenSource.next s = (.error e, s')) :
    (fresh s).peek = (.error e, fresh s') := by
  rw [peek_fresh, h]

/-- Where the source answers with a token, so does a new lookahead; an end becomes the plain one. -/
theorem peek_fresh_of_ok {s s' : σ} {t : Token} (h : TokenSource.next s = (.ok t, s')) :
    ∃ u la, (fresh s).peek = (.ok u, la) := by
  rw [peek_fresh, h]
  dsimp only
  split
  · exact ⟨_, _, rfl⟩
  · exact ⟨_, _, rfl⟩

/-- What a new lookahead is after a peek that did not fail. -/
theorem of_peek_fresh {s : σ} {t : Token} (h : (fresh s).peek = (.ok t, la)) :
    ∃ u s', TokenSource.next s = (.ok u, s') ∧
      ((u.isEof = true ∧ t = .eof ∧ la = { fresh s' with ended := true }) ∨
        (u.isEof = false ∧ t = u ∧ la = { fresh s' with queue := [u] })) := by
  cases peeks_of_peek h with
  | ready hr => exact absurd hr (not_isReady_fresh s)
  | ended _ _ hs ht => exact ⟨_, _, hs, Or.inl ⟨ht, rfl, rfl⟩⟩
  | pulled _ _ hs ht => exact ⟨_, _, hs, Or.inr ⟨ht, rfl, rfl⟩⟩

/-- `la.OneAhead la'`: the two are the same, or `la'` has asked the source once more. -/
def OneAhead (la la' : Lookahead σ) : Prop :=
  la' = la ∨ ∃ t new, la.ended = false ∧ (fresh la.source).peek = (.ok t, new) ∧
    la' = { new with queue := la.queue ++ new.queue }

/-- With a token in the queue nothing is asked. -/
theorem peek_cons (s : σ) (t : Token) (q : List Token) (ended : Bool) :
    peek ⟨s, t :: q, ended⟩ = (.ok t, ⟨s, t :: q, ended⟩) := rfl

/-- The first token of the queue is taken off, unless it is an end. -/
theorem get_cons (s : σ) (t : Token) (q : List Token) (ended : Bool) :
    get ⟨s, t :: q, ended⟩ = (.ok t, if t.isEof then ⟨s, t :: q, ended⟩ else ⟨s, q, ended⟩) := rfl

/-- Asking early is not noticed. -/
theorem OneAhead.handle (h : la.OneAhead la') (r : Request) :
    (la'.handle r).1 = (la.handle r).1 ∧ (la.handle r).2.OneAhead (la'.handle r).2 := by
  -- the case to consider is that of a lookahead that is really ahead
  obtain rfl | ⟨t, new, he, hnew, rfl⟩ := h
  · exact ⟨rfl, Or.inl rfl⟩
  obtain ⟨s, queue, ended⟩ := la
  obtain rfl : ended = false := he
  cases r with
  -- tokens go in front of either queue
  | unget ts =>
    refine ⟨rfl, Or.inr ⟨t, new, rfl, hnew, ?_⟩⟩
    simp only [Lookahead.handle, Lookahead.unget, List.append_assoc]
  | peek =>
    cases queue with
    | nil =>
      -- now the one that did not ask does, and the two are the same
      have hpeek : Lookahead.peek ⟨s, [], false⟩ = (.ok t, new) := hnew
      simp only [Lookahead.handle, List.nil_append, peek_peek hnew, hpeek]
      exact ⟨trivial, Or.inl rfl⟩
    | cons u q =>
      simp only [Lookahead.handle, List.cons_append, peek_cons]
      exact ⟨trivial, Or.inr ⟨t, new, rfl, hnew, rfl⟩⟩
  | get =>
    cases queue with
    | nil =>
      -- the same when the token is taken
      have hpeek : Lookahead.peek ⟨s, [], false⟩ = (.ok t, new) := hnew
      simp only [Lookahead.handle, List.nil_append, Lookahead.get, peek_peek hnew, hpeek]
      exact ⟨trivial, Or.inl rfl⟩
    | cons u q =>
      simp only [Lookahead.handle, List.cons_append, get_cons]
      refine ⟨trivial, Or.inr ⟨t, new, ?_⟩⟩
      split
      · exact ⟨rfl, hnew, rfl⟩
      · exact ⟨rfl, hnew, rfl⟩

/-- Asking early is never noticed. -/
theorem OneAhead.serve (h : la.OneAhead la') (rs : List Request) :
    (serve Lookahead.handle la' rs).1 = (serve Lookahead.handle la rs).1 := by
  induction rs generalizing la la' with
  | nil => rfl
  | cons r rs ih =>
    obtain ⟨hanswer, hnext⟩ := h.handle r
    exact List.cons_eq_cons.mpr ⟨hanswer, ih hnext⟩

/-- A new lookahead answers the same after it has been looked at. -/
theorem serve_of_peek_fresh {s : σ} {t : Token} (h : (fresh s).peek = (.ok t, la))
    (rs : List Request) :
    (serve Lookahead.handle la rs).1 = (serve Lookahead.handle (fresh s) rs).1 := by
  have hahead : (fresh s).OneAhead la := Or.inr ⟨t, la, rfl, h, rfl⟩
  exact hahead.serve rs

end Lookahead

/-! ## Sources with a log

  A log is kept beside a source and not looked at, so that a source with a log answers like the one
  without. -/

/-- A source that keeps a log of its answers, the first one first. -/
structure Recorded (σ : Type) where
  source : σ
  log : List Answer := []

/-- The log is written when the source is asked. -/
instance : TokenSource (Recorded σ) where
  next s :=
    let (answer, source) := TokenSource.next s.source
    (answer, ⟨source, s.log ++ [answer]⟩)
  location s := TokenSource.location s.source

/-- Asking a source with a log asks the source, and notes the answer. -/
theorem next_recorded {r r' : Recorded σ} {a : Answer} (h : TokenSource.next r = (a, r')) :
    TokenSource.next r.source = (a, r'.source) ∧ r'.log = r.log ++ [a] := by
  obtain ⟨rfl, rfl⟩ := Prod.mk.inj h
  exact ⟨rfl, rfl⟩

/-- The log after the source was asked. -/
theorem log_next (r : Recorded σ) :
    (TokenSource.next r).2.log = r.log ++ [(TokenSource.next r).1] := rfl

namespace Lookahead

omit [TokenSource σ] in
/-- The lookahead without the log. -/
def bare (la : Lookahead (Recorded σ)) : Lookahead σ := { la with source := la.source.source }

/-- A log does not change what a lookahead does. -/
theorem peek_bare (la : Lookahead (Recorded σ)) : la.bare.peek = (la.peek.1, la.peek.2.bare) := by
  -- with a token at hand neither is asked, and else both ask the same source
  by_cases hr : la.IsReady
  · have hr' : la.bare.IsReady := hr
    rw [hr.peek_eq, hr'.peek_eq]
    rfl
  · have hr' : ¬ la.bare.IsReady := hr
    rw [peek_of_not_isReady hr, peek_of_not_isReady hr']
    have hnext : TokenSource.next la.source =
        ((TokenSource.next la.source.source).1, ⟨(TokenSource.next la.source.source).2,
          la.source.log ++ [(TokenSource.next la.source.source).1]⟩) := rfl
    have hbare : la.bare.source = la.source.source := rfl
    rw [hnext, hbare]
    rcases TokenSource.next la.source.source with ⟨e | t, s⟩
    · rfl
    · dsimp only
      split <;> rfl

/-- A log does not change what a request comes to. -/
theorem handle_bare (la : Lookahead (Recorded σ)) (r : Request) :
    la.bare.handle r = ((la.handle r).1, (la.handle r).2.bare) := by
  cases r with
  | peek => simp only [handle, peek_bare]
  | get =>
    simp only [handle, get, peek_bare]
    rcases la.peek with ⟨e | t, la'⟩
    · rfl
    · dsimp only
      split <;> rfl
  | unget ts => rfl

/-- A log does not change what requests come to. -/
theorem serve_bare (la : Lookahead (Recorded σ)) (rs : List Request) :
    (serve Lookahead.handle la.bare rs).1 = (serve Lookahead.handle la rs).1 := by
  induction rs generalizing la with
  | nil => rfl
  | cons r rs ih =>
    rw [serve, serve, handle_bare, ih]

end Lookahead

end Pushdown
