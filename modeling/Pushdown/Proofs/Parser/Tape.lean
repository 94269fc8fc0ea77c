/-
  What a parse sees of its input.

  A lookahead is a queue, a source and a flag, but all that a parse can learn from it is which
  tokens are still to come.  A `Tape` is that view: the tokens still to come, none of which is the
  end of input, and beside them the user's data, which only reductions read and write.

  `Delivers` says that a source yields a finite list of tokens without errors and leaves the data
  alone.  It says nothing of what the source is, so that a list of tokens, a lexer and a source with
  a log can all deliver the same.  `Holds` says that a lookahead is seen as a given tape: the queue
  comes first, and behind it what the source delivers, or nothing once it has ended.

  From then on peeking and getting are the head and the tail of a list (`Holds.peek`, `Holds.get`),
  and a lookahead has one view only (`Holds.unique`).  Peeking changes the lookahead, but not the
  view; it leaves a lookahead that is ready, and getting asks for one (`IsReady`).  Many lookaheads
  have one view, and nothing below tells them apart.
-/
import Pushdown.Parser.Basic

namespace Pushdown

/-- The tokens still to come, and the data of the user. -/
structure Tape (μ : Type) where
  tokens : List Token
  data : μ

/-- The next token, or the end of input. -/
def Tape.head {μ : Type} (tape : Tape μ) : Token := tape.tokens.head?.getD .eof

variable {σ μ : Type} [TokenSource σ]

/-- `Delivers data s ts`: asked again and again, `s` yields the tokens `ts` and then the end of
    input.  It never fails, and the user's data stay as they are. -/
inductive Delivers (data : σ → μ) : σ → List Token → Prop where
  | ended {s s' : σ} {t : Token} (hs : TokenSource.next s = (.ok t, s')) (ht : t.isEof = true)
      (hd : data s' = data s) : Delivers data s []
  | token {s s' : σ} {t : Token} {ts : List Token} (hs : TokenSource.next s = (.ok t, s'))
      (ht : t.isEof = false) (hd : data s' = data s) (rest : Delivers data s' ts) :
      Delivers data s (t :: ts)

/-- A source delivers one list of tokens only. -/
theorem Delivers.unique {data : σ → μ} {s : σ} {ts us : List Token} (h : Delivers data s ts)
    (h' : Delivers data s us) : ts = us := by
  -- the source answers one thing, so that both derivations start with the same rule
  induction h generalizing us with
  | ended hs ht hd =>
    cases h' with
    | ended => rfl
    | token hs' ht' =>
      rw [hs] at hs'
      obtain ⟨⟨rfl⟩, rfl⟩ := Prod.mk.inj hs'
      rw [ht] at ht'
      contradiction
  | token hs ht hd rest ih =>
    cases h' with
    | ended hs' ht' =>
      rw [hs] at hs'
      obtain ⟨⟨rfl⟩, rfl⟩ := Prod.mk.inj hs'
      rw [ht] at ht'
      contradiction
    | token hs' ht' hd' rest' =>
      rw [hs] at hs'
      obtain ⟨⟨rfl⟩, rfl⟩ := Prod.mk.inj hs'
      rw [ih rest']

namespace Lookahead

/-- `la.Holds data tape`: seen from a parse, `la` is the tape. -/
structure Holds (data : σ → μ) (la : Lookahead σ) (tape : Tape μ) : Prop where
  data_eq : data la.source = tape.data
  /-- The queue comes first, and behind it what the source has left. -/
  tokens_eq : ∃ rest, tape.tokens = la.queue ++ rest ∧
    if la.ended then rest = [] else Delivers data la.source rest
  /-- The end of input is never queued. -/
  queued : ∀ t ∈ la.queue, t.isEof = false

/-- The next token has been looked at, so that looking at it again changes nothing. -/
def IsReady (la : Lookahead σ) : Prop := la.queue ≠ [] ∨ la.ended = true

variable {data : σ → μ} {la : Lookahead σ} {tape : Tape μ}

/-- A lookahead is seen as one tape only. -/
theorem Holds.unique {tape' : Tape μ} (h : la.Holds data tape) (h' : la.Holds data tape') :
    tape = tape' := by
  obtain ⟨hd, ⟨rest, hts, hrest⟩, -⟩ := h
  obtain ⟨hd', ⟨rest', hts', hrest'⟩, -⟩ := h'
  -- behind the queue there is nothing, or what the source delivers
  have heq : rest = rest' := by
    split at hrest
    · rename_i he
      rw [if_pos he] at hrest'
      rw [hrest, hrest']
    · rename_i he
      rw [if_neg he] at hrest'
      exact hrest.unique hrest'
  obtain ⟨ts, u⟩ := tape
  obtain ⟨ts', u'⟩ := tape'
  simp only at hd hd' hts hts'
  rw [← hd, ← hd', hts, hts', heq]

/-- Peeking yields the head of the tape, and leaves the tape as it is. -/
theorem Holds.peek (h : la.Holds data tape) :
    ∃ la', la.peek = (.ok tape.head, la') ∧ la'.Holds data tape ∧ la'.IsReady := by
  obtain ⟨hd, ⟨rest, hts, hrest⟩, hq⟩ := h
  -- a queued token is the head; otherwise the source is asked, unless it has ended
  cases hqueue : la.queue with
  | cons t q =>
    refine ⟨la, ?_, ⟨hd, ⟨rest, hts, hrest⟩, hq⟩, Or.inl (by simp [hqueue])⟩
    simp [Lookahead.peek, hqueue, Tape.head, hts]
  | nil =>
    rw [hqueue, List.nil_append] at hts
    by_cases he : la.ended = true
    · rw [if_pos he] at hrest
      refine ⟨la, ?_, ⟨hd, ⟨rest, by rw [hqueue]; exact hts, ?_⟩, hq⟩, Or.inr he⟩
      · simp [Lookahead.peek, hqueue, he, Tape.head, hts, hrest]
      · rw [if_pos he]
        exact hrest
    · rw [if_neg he] at hrest
      cases hrest with
      | @ended _ s' t hs ht hd' =>
        -- the end is noted in the flag, and the queue stays empty
        refine ⟨{ la with source := s', ended := true }, ?_, ⟨?_, ⟨[], ?_, rfl⟩, hq⟩, Or.inr rfl⟩
        · simp [Lookahead.peek, hqueue, he, hs, ht, Tape.head, hts]
        · exact hd'.trans hd
        · simp [hqueue, hts]
      | @token _ s' t ts hs ht hd' rest' =>
        -- the token moves from the source to the queue
        refine ⟨{ la with source := s', queue := [t] }, ?_, ⟨?_, ⟨ts, ?_, ?_⟩, ?_⟩,
          Or.inl (by simp)⟩
        · simp [Lookahead.peek, hqueue, he, hs, ht, Tape.head, hts]
        · exact hd'.trans hd
        · exact hts
        · rw [if_neg he]
          exact rest'
        · intro u hu
          rw [List.mem_singleton.mp hu]
          exact ht

/-- A token that has been looked at is taken off the front of the tape. -/
theorem Holds.get {t : Token} {ts : List Token} {u : μ} (h : la.Holds data ⟨t :: ts, u⟩)
    (hr : la.IsReady) : ∃ la', la.get = (.ok t, la') ∧ la'.Holds data ⟨ts, u⟩ := by
  obtain ⟨hd, ⟨rest, hts, hrest⟩, hq⟩ := h
  cases hqueue : la.queue with
  | cons t' q =>
    rw [hqueue, List.cons_append] at hts
    obtain ⟨rfl, rfl⟩ := List.cons.inj hts
    have ht : t.isEof = false := hq t (by simp [hqueue])
    refine ⟨{ la with queue := q }, ?_, ⟨hd, ⟨rest, rfl, hrest⟩, ?_⟩⟩
    · simp [Lookahead.get, Lookahead.peek, hqueue, ht]
    · intro v hv
      exact hq v (by simp [hqueue, hv])
  | nil =>
    -- a ready lookahead with an empty queue is at the end, so the tape would be empty
    have he : la.ended = true := hr.resolve_left (by simp [hqueue])
    rw [if_pos he] at hrest
    rw [hqueue, hrest] at hts
    contradiction

end Lookahead

/-! ## Sources that carry data

  Reductions may keep data of their own, and the only place that they can keep it in is the source.
  So data is put beside a source, and handed on with it. -/

/-- A token source with data of the user beside it. -/
structure Carrying (σ μ : Type) where
  source : σ
  data : μ

/-- The data stay as they are when the source is asked. -/
instance : TokenSource (Carrying σ μ) where
  next s := ((TokenSource.next s.source).1, ⟨(TokenSource.next s.source).2, s.data⟩)
  location s := TokenSource.location s.source

/-- Data beside a source do not change what it delivers. -/
theorem delivers_carrying {s : σ} {u : μ} {ts : List Token} :
    Delivers Carrying.data (⟨s, u⟩ : Carrying σ μ) ts ↔ Delivers (fun _ => ()) s ts := by
  constructor
  · intro h
    -- the induction is on what the source with the data delivers, whose data are fixed
    generalize hc : (⟨s, u⟩ : Carrying σ μ) = c at h
    induction h generalizing s with
    | @ended c c' t hs ht hd =>
      subst hc
      obtain ⟨h1, h2⟩ := Prod.mk.inj hs
      exact .ended (Prod.ext h1 rfl) ht rfl
    | @token c c' t ts hs ht hd rest ih =>
      subst hc
      obtain ⟨h1, h2⟩ := Prod.mk.inj hs
      exact .token (Prod.ext h1 rfl) ht rfl (ih h2)
  · intro h
    induction h with
    | @ended s s' t hs ht hd =>
      have hs' : TokenSource.next (⟨s, u⟩ : Carrying σ μ) = (.ok t, ⟨s', u⟩) := by
        simp only [TokenSource.next, hs]
      exact .ended hs' ht rfl
    | @token s s' t ts hs ht hd rest ih =>
      have hs' : TokenSource.next (⟨s, u⟩ : Carrying σ μ) = (.ok t, ⟨s', u⟩) := by
        simp only [TokenSource.next, hs]
      exact .token hs' ht rfl ih

/-- A list of tokens delivers what is in it, up to an end of input. -/
theorem delivers_list : ∀ ts : List Token,
    Delivers (fun _ => ()) ts (ts.takeWhile (!·.isEof))
  | [] => .ended rfl rfl rfl
  | t :: ts => by
    rw [List.takeWhile_cons]
    split
    · rename_i ht
      exact .token rfl (by simpa using ht) rfl (delivers_list ts)
    · rename_i ht
      exact .ended rfl (by simpa using ht) rfl

end Pushdown
