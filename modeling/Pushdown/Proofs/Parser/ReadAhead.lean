/-
  How far a parse reads.

  When a token is taken the next one is looked at, before anything is reduced.  So a parse that ends
  with taking a token has asked its source once more than there are tokens in the rule.  What the
  source answers then does not change the value, unless it is a failure: the parse fails although
  the rule was complete.

  `Dispatches.replay` is the reason.  With reductions that do not see the input, a run can be
  replayed, dispatch by dispatch, on every source that gives the same tokens.  The two runs have the
  same configurations but for the lookahead (`Config.withInput`), since the token at hand is always
  the next one that the first run is going to take (`Dispatches.head`).  So a source that gives as
  much as the run takes is asked for nothing else, up to the last dispatch.

  There the two sources may differ, and what the second one has to say behind the last token
  decides: a failure ends the parse with that failure, and anything else is put at hand and the
  value is the same (`parse_looks_ahead`).  The smallest case is a rule of one token
  (`parse_single_looks_ahead`).
-/
import Pushdown.Proofs.Parser.Dispatch

namespace Pushdown

open Text (lit)
open Lookahead (fresh)

variable {σ τ α : Type} [TokenSource σ] [TokenSource τ]

/-- The configuration with another lookahead. -/
def Config.withInput (c : Config σ α) (la : Lookahead τ) : Config τ α :=
  ⟨c.state, c.token, c.values, c.frames, la⟩

/-- The first of the tokens that a source gives. -/
theorem Gives.of_cons {s s' : σ} {t : Token} {ts : List Token} (h : Gives s (t :: ts) s') :
    ∃ s₁, TokenSource.next s = (.ok t, s₁) ∧ t.isEof = false ∧ Gives s₁ ts s' := by
  cases h with
  | cons hs ht rest => exact ⟨_, hs, ht, rest⟩

/-- A new lookahead shows the first token that its source gives. -/
theorem Gives.peek {s s' : σ} {t : Token} {ts : List Token} (h : Gives s (t :: ts) s') :
    ∃ la, (fresh s).peek = (.ok t, la) := by
  obtain ⟨s₁, hs, ht, -⟩ := h.of_cons
  refine ⟨{ fresh s₁ with queue := [t] }, ?_⟩
  rw [Lookahead.peek_fresh, hs]
  dsimp only
  rw [if_neg (by rw [ht]; exact Bool.false_ne_true)]

namespace Parser

variable {table : Table α} {act : α → List Value → Option Value} {reduce : α → Reduce σ}
  {reduce' : α → Reduce τ} {c c' : Config σ α} {ts : List Token}

/-- The token at hand is the next one to be taken. -/
theorem Dispatches.head (h : Blind act reduce) (hrun : Dispatches table reduce c ts c')
    (hp : Poised c) : ∃ us, ts ++ [c'.token] = c.token :: us := by
  induction hrun with
  | none c => exact ⟨[], rfl⟩
  | @more c c₁ c' ts hstep rest ih =>
    -- a dispatch that takes nothing leaves the token at hand to the next one
    by_cases htakes : takes table c = true
    · rw [taken_of_takes htakes]
      exact ⟨ts ++ [c'.token], rfl⟩
    · obtain ⟨hadvance, -⟩ := hp.of_more h hstep
      have hp₁ : Poised c₁ := hp.advance hadvance
      rw [advance_of_not_takes htakes] at hadvance
      have htoken : c.token = c₁.token := Except.ok.inj (Prod.mk.inj hadvance).1
      rw [taken_of_not_takes htakes, htoken]
      exact ih hp₁

omit [TokenSource σ] in
/-- Taking the token at hand, on another source that gives it. -/
theorem advance_withInput (htakes : takes table c = true) {s₀ s₁ : τ} {la : Lookahead τ}
    (hnext : TokenSource.next s₀ = (.ok c.token, s₁))
    (hpeek : (fresh s₀).peek = (.ok c.token, la)) :
    advance table (c.withInput la) = (fresh s₁).peek := by
  obtain ⟨s, hs, hget⟩ := Lookahead.get_of_fresh hpeek (isEof_of_takes htakes)
  rw [hnext] at hs
  obtain rfl := (Prod.mk.inj hs).2
  have htakes' : takes table (c.withInput la) = true := htakes
  rw [advance_of_takes htakes']
  show la.get.2.peek = _
  rw [hget]

/-- One dispatch, on another source that gives the same token. -/
theorem step_withInput (h : Blind act reduce) (h' : Blind act reduce') (hp : Poised c)
    (hstep : step table reduce c = .more c') {s₀ s₁ : τ} {us : List Token}
    (hgives : Gives s₀ (taken table c ++ c'.token :: us) s₁) {la : Lookahead τ}
    (hpeek : (fresh s₀).peek = (.ok c.token, la)) :
    ∃ s₂ la', Gives s₂ (c'.token :: us) s₁ ∧ (fresh s₂).peek = (.ok c'.token, la') ∧
      step table reduce' (c.withInput la) = .more (c'.withInput la') := by
  obtain ⟨hadvance, hlanding⟩ := hp.of_more h hstep
  have hlands := step_lands table h' (show Poised (c.withInput la) from Lookahead.peek_peek hpeek)
  -- where a dispatch leads does not depend on the lookahead
  have hlanding' : landing table act (c.withInput la) =
    .state c'.state c'.values c'.frames := hlanding
  rw [hlanding'] at hlands
  -- a token that is taken is given by the other source as well, and so is the next one
  by_cases htakes : takes table c = true
  · rw [taken_of_takes htakes] at hgives
    obtain ⟨s₂, hnext, -, hgives'⟩ := hgives.of_cons
    obtain ⟨la', hpeek'⟩ := hgives'.peek
    rw [advance_withInput htakes hnext hpeek, hpeek'] at hlands
    exact ⟨s₂, la', hgives', hpeek', hlands⟩
  · rw [taken_of_not_takes htakes] at hgives
    rw [advance_of_not_takes htakes] at hadvance
    have htoken : c.token = c'.token := Except.ok.inj (Prod.mk.inj hadvance).1
    have hadvance' : advance table (c.withInput la) = (.ok c.token, la) :=
      advance_of_not_takes htakes
    rw [hadvance', htoken] at hlands
    exact ⟨s₀, la, hgives, htoken ▸ hpeek, hlands⟩

/-- **A run is the same on every source that gives the tokens it takes**, the token at hand at its
    end included. -/
theorem Dispatches.replay (h : Blind act reduce) (h' : Blind act reduce')
    (hrun : Dispatches table reduce c ts c') (hp : Poised c) {s₀ s₁ : τ}
    (hgives : Gives s₀ (ts ++ [c'.token]) s₁) {la : Lookahead τ}
    (hpeek : (fresh s₀).peek = (.ok c.token, la)) :
    ∃ s₂ la', Gives s₂ [c'.token] s₁ ∧ (fresh s₂).peek = (.ok c'.token, la') ∧
      Dispatches table reduce' (c.withInput la) ts (c'.withInput la') := by
  induction hrun generalizing s₀ la with
  | none c => exact ⟨s₀, la, hgives, hpeek, .none _⟩
  | @more c c₁ c' ts hstep rest ih =>
    have hp₁ : Poised c₁ := hp.advance (hp.of_more h hstep).1
    -- the tokens to come start with the one that is at hand after this dispatch
    obtain ⟨us, hus⟩ := rest.head h hp₁
    rw [List.append_assoc, hus] at hgives
    obtain ⟨s₂, la₁, hgives₁, hpeek₁, hstep₁⟩ := step_withInput h h' hp hstep hgives hpeek
    rw [← hus] at hgives₁
    obtain ⟨s₃, la', hgives', hpeek', hrun'⟩ := ih hp₁ hgives₁ hpeek₁
    exact ⟨s₃, la', hgives', hpeek', .more hstep₁ hrun'⟩

/-- A parse comes to the same configuration on every such source, and if a token is taken there,
    then it looks at the rest of the source. -/
theorem Reaches.replay (h : Blind act reduce) (h' : Blind act reduce') {s : σ} {rule : Text}
    (hreach : Reaches table reduce (fresh s) rule ts c) (htakes : takes table c = true)
    {s' rest : τ} (hgives : Gives s' (ts ++ [c.token]) rest) :
    ∃ la, Reaches table reduce' (fresh s') rule ts (c.withInput la) ∧ Poised (c.withInput la) ∧
      advance table (c.withInput la) = (fresh rest).peek := by
  obtain ⟨state, t, la₁, hstart, hpeek, hrun⟩ := hreach
  have hp : Poised (⟨state, t, #[], [], la₁⟩ : Config σ α) := Lookahead.peek_peek hpeek
  -- the first look sees the first token to be taken
  obtain ⟨us, hus⟩ := hrun.head h hp
  obtain ⟨la₂, hpeek₂⟩ := Gives.peek (show Gives s' (t :: us) rest from hus ▸ hgives)
  obtain ⟨s₂, la, hgives₂, hpeek', hrun'⟩ := hrun.replay h h' hp hgives hpeek₂
  obtain ⟨s₃, hnext, -, hnil⟩ := hgives₂.of_cons
  cases hnil
  exact ⟨la, ⟨state, t, la₂, hstart, hpeek₂, hrun'⟩, Lookahead.peek_peek hpeek',
    advance_withInput htakes hnext hpeek'⟩

/-- **A parse looks one token ahead when it ends.**  Let the dispatch that ends a parse take a
    token, and let reductions not see the input.  Then the source was asked once more than tokens
    were taken.  On every other source that gives the tokens that were taken, the parse yields the
    same value and leaves the rest of the source, unless the source fails next: then it fails. -/
theorem parse_looks_ahead (table : Table α) (act : α → List Value → Option Value)
    (reduce : α → Reduce (Recorded σ)) (h : Blind act reduce) (rule : Text) (s : σ)
    (ts : List Token) (c : Config (Recorded σ) α) (v : Value) (la : Lookahead (Recorded σ))
    (hreach : Reaches table reduce (fresh { source := s }) rule ts c)
    (hdone : step table reduce c = .done (.ok v) la) (htakes : takes table c = true) :
    let consumed := ts ++ [c.token]
    (∃ rest, Gives s consumed rest ∧
      la.source.log = consumed.map .ok ++ [(TokenSource.next rest).1]) ∧
    ∀ (τ : Type) [TokenSource τ] (reduce' : α → Reduce τ), Blind act reduce' →
      ∀ s' rest : τ, Gives s' consumed rest →
        (∀ e s₁, TokenSource.next rest = (.error e, s₁) → ∃ fuel la',
          parse (some table) reduce' fuel (fresh s') rule = some (.error e, la')) ∧
        (∀ t s₁, TokenSource.next rest = (.ok t, s₁) → ∃ fuel la',
          parse (some table) reduce' fuel (fresh s') rule = some (.ok v, la') ∧
          ∀ rs, (serve Lookahead.handle la' rs).1 =
            (serve Lookahead.handle (fresh rest) rs).1) := by
  intro consumed
  have hattends := hreach.attends h (Lookahead.rests_fresh _)
  rw [List.nil_append] at hattends
  obtain ⟨t, hadvance, hlanding⟩ := Poised.of_done hattends.peek h hdone
  -- the log of the first source, and then any other source
  constructor
  · have hla := attends_advance hattends hadvance
    rw [taken_of_takes htakes] at hla
    obtain ⟨rest, hgives, hrest⟩ := hla
    obtain ⟨hgives', hlog⟩ := hgives.of_recorded
    refine ⟨rest.source, hgives', ?_⟩
    obtain ⟨u, rest', hnext, hla⟩ := Lookahead.of_peek_fresh hrest
    obtain ⟨hnext', hlog'⟩ := next_recorded hnext
    have hsource : la.source = rest' := by
      obtain ⟨-, -, rfl⟩ | ⟨-, -, rfl⟩ := hla <;> rfl
    rw [hsource, hlog', hlog, hnext']
    rfl
  · intro τ _ reduce' h' s' rest hgives
    obtain ⟨la', hreach', hp, hadvance'⟩ := hreach.replay h h' htakes hgives
    -- the last dispatch leads to the value, if looking at what comes next does not fail
    have hlands := step_lands table h' hp
    have hlanding' : landing table act (c.withInput la') = .value v := hlanding
    rw [hadvance', hlanding'] at hlands
    constructor
    · intro e s₁ he
      rw [Lookahead.peek_fresh_of_error he] at hlands
      obtain ⟨fuel, hparse⟩ := hreach'.parse hlands
      exact ⟨fuel, fresh s₁, hparse⟩
    · intro u s₁ hu
      obtain ⟨w, la₁, hpeek⟩ := Lookahead.peek_fresh_of_ok hu
      rw [hpeek] at hlands
      obtain ⟨fuel, hparse⟩ := hreach'.parse hlands
      exact ⟨fuel, la₁, hparse, Lookahead.serve_of_peek_fresh hpeek⟩

/-- The end of a group is taken, and then the source fails. -/
theorem parse_looks_ahead_group :
    let boom : Failure := .other (lit "boom")
    let last : Config (Recorded Script) Reduction :=
      ⟨1, op ")", #[.token (op "(")], [],
        ⟨⟨⟨[.ok (op "y")]⟩, [.ok (op "("), .ok (op ")")]⟩, [op ")"], false⟩⟩
    takes groups.draft last = true ∧
    ∃ fuel la, parse (some groups.draft) Reduction.apply fuel
      (fresh (⟨[.ok (op "("), .ok (op ")"), .error boom]⟩ : Script)) (lit "group") =
        some (.error boom, la) := by
  intro boom last
  let first : Config (Recorded Script) Reduction :=
    ⟨0, op "(", #[], [], ⟨⟨⟨[.ok (op ")"), .ok (op "y")]⟩, [.ok (op "(")]⟩, [op "("], false⟩⟩
  have hstep : step groups.draft Reduction.apply first = .more last := by cbv
  have hrun : Dispatches groups.draft Reduction.apply first [op "("] last := by
    have htaken : taken groups.draft first = [op "("] := by cbv
    have hmore := Dispatches.more hstep (.none last)
    rwa [htaken] at hmore
  have htakes : takes groups.draft last = true := by cbv
  have hgives : Gives (⟨[.ok (op "("), .ok (op ")"), .error boom]⟩ : Script) [op "(", op ")"]
      ⟨[.error boom]⟩ := .cons rfl rfl (.cons rfl rfl (.nil _))
  refine ⟨htakes, ?_⟩
  exact ((parse_looks_ahead groups.draft namedValue Reduction.apply blind_apply (lit "group")
    (⟨[.ok (op "("), .ok (op ")"), .ok (op "y")]⟩ : Script) [op "("] last
    (.list [.token (op "("), .token (op ")")]) _ ⟨0, op "(", _, by cbv, rfl, hrun⟩ (by cbv)
      htakes).2 Script Reduction.apply blind_apply _ _ hgives).1 boom _ rfl

/-- A table with one rule of one token. -/
def single : Builder Reduction :=
  let b : Builder Reduction := {}
  let b := b.on 0 (lit "NUM") ⟨none, .accept (some .first) []⟩
  b.rule (lit "T") 0

/-- The rule is complete with its one token.  Still the source is asked again, and the parse fails
    if that fails. -/
theorem parse_single_looks_ahead :
    let num : Token := ⟨lit "NUM", lit "42"⟩
    let boom : Failure := .other (lit "boom")
    parse (some single.draft) Reduction.apply 1
      (fresh ({ source := ⟨[.ok num]⟩ } : Recorded Script)) (lit "T") =
        some (.ok (.token num), ⟨⟨⟨[]⟩, [.ok num, .ok .eof]⟩, [], true⟩) ∧
    parse (some single.draft) Reduction.apply 1
      (fresh ({ source := ⟨[.ok num, .error boom]⟩ } : Recorded Script)) (lit "T") =
        some (.error boom, ⟨⟨⟨[]⟩, [.ok num, .error boom]⟩, [], false⟩) := by
  intro num boom
  exact ⟨by cbv, by cbv⟩

end Parser
end Pushdown
