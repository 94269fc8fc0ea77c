/-
  One dispatch, and what a run of them consumes.

  A dispatch does two things that the loop weaves into each other: it moves on in the input, and it
  reduces rules until one of them goes on at a state.  After every reduction the loop looks at the
  input again, since a reduction might have changed it.  If reductions look at nothing but the
  values of their rule (`Blind`) the two come apart:

  * `advance` is the first: when the token at hand is taken, the next one is looked at, and
    otherwise the input stays as it is;
  * `landing` is the second, and it depends on nothing that is still to come.

  `step_lands` puts them together again, and all that follows about single dispatches is read off
  it.  It asks for one thing only, that the token at hand has been looked at (`Poised`), and every
  dispatch leaves that behind for the next one (`Poised.advance`).

  `Dispatches` is a run of dispatches together with the tokens that they take.  There is no fuel in
  it, and no difference between a run that is still going on and one that has ended, so that
  properties of runs are proved by induction along it.  A successful parse is a run up to a dispatch
  that ends it (`parse_iff_reads`).

  All the while the lookahead is what one peek makes of a new lookahead on the rest of the source
  (`Attends`): the source has given the tokens that were taken, and was asked once more
  (`Dispatches.attends`).  Between two parses it need not have been asked once more (`Rests`), so
  that one parse may follow another.
-/
import Pushdown.Proofs.Parser.Recursion
import Pushdown.Proofs.Parser.Requests

namespace Pushdown

variable {σ : Type} [TokenSource σ]

/-! ## Reductions that do not see the input

  A result about tokens needs reductions that leave the tokens alone, and one about values needs
  values that depend on nothing else.  The reductions that go by a name are of this kind. -/

namespace Parser

variable {α : Type}

/-- Reductions leave the lookahead alone.  What they yield, and whether they yield anything, depends
    on the values only; their failures may tell where the source stands. -/
structure Blind (act : α → List Value → Option Value) (reduce : α → Reduce σ) : Prop where
  input_eq : ∀ f la vs, (reduce f la vs).2 = la
  value_eq : ∀ f la vs, (reduce f la vs).1.toOption = act f vs

/-- The value of a rule, if there is no failure; a reduction that is left out yields no value. -/
def valueOf (act : α → List Value → Option Value) : Option α → List Value → Option Value
  | some f, vs => act f vs
  | none, _ => some .none

/-- What the named reductions do with values. -/
def namedValue (f : Reduction) (vs : List Value) : Option Value :=
  (f.apply (⟨[], [], false⟩ : Lookahead (List Token)) vs).1.toOption

/-- The named reductions do not see the input: all of them hand it on, and only the message of
    `number` asks where it stands. -/
theorem blind_apply : Blind namedValue (Reduction.apply : Reduction → Reduce σ) where
  input_eq f la vs := by cases f <;> rfl
  value_eq f la vs := by
    cases f with
    -- the failure tells the place, but whether there is one is settled by the values
    | number =>
      simp only [namedValue, Reduction.apply, Reduction.numberOf]
      split
      · rfl
      · split <;> rfl
    | _ => rfl

section Landing

variable {act : α → List Value → Option Value} {reduce : α → Reduce σ}

omit [TokenSource σ] in
/-- A reduction that does not see the input yields what the values say, or fails; the input
    stays. -/
theorem Blind.applyReduction (h : Blind act reduce) (f : Option α) (la : Lookahead σ)
    (vs : List Value) :
    ∃ r, applyReduction reduce f la vs = (r, la) ∧ r.toOption = valueOf act f vs := by
  cases f with
  | none => exact ⟨.ok .none, rfl, rfl⟩
  | some f => exact ⟨(reduce f la vs).1, Prod.ext rfl (h.input_eq f la vs), h.value_eq f la vs⟩

omit [TokenSource σ] in
/-- Where the values give a value, that is what the reduction yields. -/
theorem Blind.applyReduction_of_some (h : Blind act reduce) {f : Option α} {vs : List Value}
    {v : Value} (hv : valueOf act f vs = some v) (la : Lookahead σ) :
    Parser.applyReduction reduce f la vs = (.ok v, la) := by
  obtain ⟨e | w, hr, hvalue⟩ := h.applyReduction f la vs
  · rw [hv] at hvalue
    exact nomatch hvalue
  · rw [hv] at hvalue
    obtain rfl := Option.some.inj hvalue
    exact hr

omit [TokenSource σ] in
/-- Where the values give none, the reduction fails, with whatever error. -/
theorem Blind.applyReduction_of_none (h : Blind act reduce) {f : Option α} {vs : List Value}
    (hv : valueOf act f vs = none) (la : Lookahead σ) :
    ∃ e, Parser.applyReduction reduce f la vs = (.error e, la) := by
  obtain ⟨e | w, hr, hvalue⟩ := h.applyReduction f la vs
  · exact ⟨e, hr⟩
  · rw [hv] at hvalue
    exact nomatch hvalue

/-! ## Where a dispatch leads

  A dispatch is told in two halves.  `settle` is what becomes of state, values and frames, with no
  input in sight; and `advance` is what becomes of the input. -/

/-- What a dispatch comes to, apart from the input. -/
inductive Landing (α : Type) where
  | state (s : Int) (values : Array Value) (frames : List (Frame α))
  | value (v : Value)
  | failed

/-- Goes on at a target, and reduces rules as long as they end. -/
def settle (act : α → List Value → Option Value) (values : Array Value) :
    Target α → List (Frame α) → Landing α
  | .state s, frames => .state s values frames
  | .accept f _, frames =>
    match valueOf act f values.toList with
    | none => .failed
    | some v =>
      match frames with
      | [] => .value v
      | frame :: frames =>
        settle act (if v.isNone then frame.saved else frame.saved.push v) frame.next frames

/-- A landing with the token at hand and the lookahead. -/
def Lands (la : Lookahead σ) (t : Token) : Landing α → Progress σ α → Prop
  | .state s values frames, progress => progress = .more ⟨s, t, values, frames, la⟩
  | .value v, progress => progress = .done (.ok v) la
  | .failed, progress => ∃ e, progress = .done (.error e) la

/-- Reducing rules does not move a lookahead that has been looked at. -/
theorem continueAt_lands (h : Blind act reduce) {la : Lookahead σ} {t : Token}
    (hpeek : la.peek = (.ok t, la)) (values : Array Value) (target : Target α)
    (frames : List (Frame α)) :
    Lands la t (settle act values target frames)
      (continueAt reduce la t values target frames) := by
  -- the cases are those of `settle`: a state, a failing rule, the outermost rule, a rule that
  -- another one waits for
  fun_induction settle act values target frames with
  | case1 values s frames =>
    rw [continueAt]
    rfl
  | case2 values f name frames hv =>
    obtain ⟨e, he⟩ := h.applyReduction_of_none hv la
    rw [continueAt_accept, he]
    exact ⟨e, rfl⟩
  | case3 values f name v hv =>
    rw [continueAt_accept, h.applyReduction_of_some hv]
    rfl
  | case4 values f name v hv frame frames ih =>
    rw [continueAt_accept, h.applyReduction_of_some hv]
    -- here the loop looks at the input again, and finds the token that it had
    dsimp only [handOver]
    rw [hpeek]
    exact ih

/-- Does a dispatch take the token at hand?  It does if it calls no rule and there is an entry for
    the very token, which is not the end of input. -/
def takes (table : Table α) (c : Config σ α) : Bool :=
  match table.lookup c.state c.token.kind with
  | some ⟨⟨none, _⟩, exact⟩ => exact && !c.token.isEof
  | _ => false

/-- The tokens that a dispatch takes, one or none. -/
def taken (table : Table α) (c : Config σ α) : List Token :=
  if takes table c then [c.token] else []

/-- The next token at hand: if a token is taken, the one behind it is looked at. -/
def advance (table : Table α) (c : Config σ α) : Answer × Lookahead σ :=
  if takes table c then c.input.get.2.peek else (.ok c.token, c.input)

/-- Where a dispatch leads. -/
def landing (table : Table α) (act : α → List Value → Option Value) (c : Config σ α) : Landing α :=
  match table.lookup c.state c.token.kind with
  | none => .failed
  | some ⟨⟨some callee, next⟩, _⟩ => .state callee #[] (⟨next, c.values⟩ :: c.frames)
  | some ⟨⟨none, next⟩, _⟩ =>
    settle act (if takes table c then c.values.push (.token c.token) else c.values) next c.frames

variable {table : Table α} {c : Config σ α}

omit [TokenSource σ] in
/-- The token at hand, if it is taken. -/
theorem taken_of_takes (h : takes table c = true) : taken table c = [c.token] := if_pos h

omit [TokenSource σ] in
/-- Nothing, if it is left. -/
theorem taken_of_not_takes (h : ¬ takes table c = true) : taken table c = [] := if_neg h

/-- Behind a token that is taken, the source is looked at. -/
theorem advance_of_takes (h : takes table c = true) : advance table c = c.input.get.2.peek :=
  if_pos h

/-- Without that, the token stays at hand and nothing is asked for. -/
theorem advance_of_not_takes (h : ¬ takes table c = true) :
    advance table c = (.ok c.token, c.input) := if_neg h

/-- A lookahead that has been looked at has the token that was seen. -/
theorem get_of_peek {la : Lookahead σ} {t : Token} (hpeek : la.peek = (.ok t, la)) :
    ∃ la', la.get = (.ok t, la') := by
  rw [Lookahead.get, hpeek]
  exact ⟨_, rfl⟩

/-- **One dispatch** moves on in the input, fails if that fails, and leads to its landing. -/
theorem step_lands (table : Table α) (h : Blind act reduce)
    (hpeek : c.input.peek = (.ok c.token, c.input)) :
    match advance table c with
    | (.error e, la) => step table reduce c = .done (.error e) la
    | (.ok t, la) => Lands la t (landing table act c) (step table reduce c) := by
  unfold step landing advance takes
  -- no entry, an entry that calls no rule, and one that does
  rcases table.lookup c.state c.token.kind with _ | ⟨⟨_ | callee, next⟩, exact⟩
  · exact ⟨_, rfl⟩
  -- only an entry for the very token takes it, and the end of input is never taken
  · by_cases htake : (exact && !c.token.isEof) = true
    · obtain ⟨la, hget⟩ := get_of_peek hpeek
      simp only [htake, ↓reduceIte, hget]
      rcases hnext : la.peek with ⟨e | t, la'⟩
      · rfl
      · exact continueAt_lands h (Lookahead.peek_peek hnext) _ next c.frames
    · simp only [htake, Bool.false_eq_true, ↓reduceIte]
      exact continueAt_lands h hpeek c.values next c.frames
  · rfl

/-- The token at hand has been looked at. -/
def Poised (c : Config σ α) : Prop := c.input.peek = (.ok c.token, c.input)

/-- A dispatch leaves a token at hand that has been looked at. -/
theorem Poised.advance (hp : Poised c) {t : Token} {la : Lookahead σ}
    (h : advance table c = (.ok t, la)) : la.peek = (.ok t, la) := by
  by_cases htakes : takes table c = true
  · rw [advance_of_takes htakes] at h
    exact Lookahead.peek_peek h
  · rw [advance_of_not_takes htakes] at h
    obtain ⟨⟨rfl⟩, rfl⟩ := Prod.mk.inj h
    exact hp

/-- A dispatch after which the parse goes on. -/
theorem Poised.of_more (hp : Poised c) (h : Blind act reduce) {c' : Config σ α}
    (hstep : step table reduce c = .more c') :
    Parser.advance table c = (.ok c'.token, c'.input) ∧
      landing table act c = .state c'.state c'.values c'.frames := by
  have hlands := step_lands table h hp
  rw [hstep] at hlands
  rcases hadvance : Parser.advance table c with ⟨e | t, la⟩
  · rw [hadvance] at hlands
    exact nomatch hlands
  · rw [hadvance] at hlands
    -- of the three landings only a state lets the parse go on
    cases hland : landing table act c with
    | state s values frames =>
      rw [hland] at hlands
      obtain ⟨rfl⟩ := hlands
      exact ⟨rfl, rfl⟩
    | value v => rw [hland] at hlands; exact nomatch hlands
    | failed => rw [hland] at hlands; exact nomatch hlands

/-- A dispatch that ends the parse with a value. -/
theorem Poised.of_done (hp : Poised c) (h : Blind act reduce) {v : Value} {la : Lookahead σ}
    (hstep : step table reduce c = .done (.ok v) la) :
    ∃ t, Parser.advance table c = (.ok t, la) ∧ landing table act c = .value v := by
  have hlands := step_lands table h hp
  rw [hstep] at hlands
  rcases hadvance : Parser.advance table c with ⟨e | t, la'⟩
  · rw [hadvance] at hlands
    exact nomatch hlands
  · rw [hadvance] at hlands
    cases hland : landing table act c with
    | state s values frames => rw [hland] at hlands; exact nomatch hlands
    | value v =>
      rw [hland] at hlands
      obtain ⟨rfl⟩ := hlands
      exact ⟨t, rfl, rfl⟩
    | failed => rw [hland] at hlands; exact nomatch hlands

end Landing

/-! ## Runs of dispatches

  A parse is a run of dispatches and one that ends it.  What the run has taken is told along with
  it, token by token. -/

/-- `Dispatches table reduce c ts c'`: some dispatches lead from `c` to `c'`, and they take the
    tokens `ts`. -/
inductive Dispatches (table : Table α) (reduce : α → Reduce σ) :
    Config σ α → List Token → Config σ α → Prop where
  | none (c : Config σ α) : Dispatches table reduce c [] c
  | more {c c' c'' : Config σ α} {ts : List Token} (h : step table reduce c = .more c')
      (rest : Dispatches table reduce c' ts c'') :
      Dispatches table reduce c (taken table c ++ ts) c''

/-- `Reaches table reduce la rule ts c`: parsing with a rule from `la` comes to `c` after it has
    taken the tokens `ts`. -/
def Reaches (table : Table α) (reduce : α → Reduce σ) (la : Lookahead σ) (rule : Text)
    (ts : List Token) (c : Config σ α) : Prop :=
  ∃ s t la', startState table rule = .ok s ∧ la.peek = (.ok t, la') ∧
    Dispatches table reduce { state := s, token := t, input := la' } ts c

/-- `Reads table reduce la rule ts v la'`: parsing with a rule from `la` takes the tokens `ts`,
    yields `v` and leaves `la'`. -/
def Reads (table : Table α) (reduce : α → Reduce σ) (la : Lookahead σ) (rule : Text)
    (ts : List Token) (v : Value) (la' : Lookahead σ) : Prop :=
  ∃ us c, Reaches table reduce la rule us c ∧ step table reduce c = .done (.ok v) la' ∧
    ts = us ++ taken table c

section Runs

variable {table : Table α} {reduce : α → Reduce σ} {c c' : Config σ α} {ts : List Token}

/-- With enough fuel the loop carries out a run that ends: one unit for each dispatch. -/
theorem Dispatches.run (h : Dispatches table reduce c ts c') {r : Except Failure Value}
    {la : Lookahead σ} (hdone : step table reduce c' = .done r la) :
    ∃ fuel, Parser.run table reduce fuel c = some (r, la) := by
  induction h with
  | none c => exact ⟨1, by rw [run_succ, hdone]; rfl⟩
  | more hstep rest ih =>
    obtain ⟨fuel, hfuel⟩ := ih hdone
    exact ⟨fuel + 1, by rw [run_succ, hstep]; exact hfuel⟩

/-- What the loop does within its fuel is a run up to the dispatch that ends it. -/
theorem dispatches_of_run {fuel : Nat} {r : Except Failure Value} {la : Lookahead σ}
    (h : run table reduce fuel c = some (r, la)) :
    ∃ ts c', Dispatches table reduce c ts c' ∧ step table reduce c' = .done r la := by
  -- each unit of fuel is one dispatch
  induction fuel generalizing c with
  | zero => exact nomatch h
  | succ fuel ih =>
    rw [run_succ] at h
    cases hstep : step table reduce c with
    | more c₁ =>
      rw [hstep] at h
      obtain ⟨ts, c', hrun, hdone⟩ := ih h
      exact ⟨_, c', .more hstep hrun, hdone⟩
    | done r' la' =>
      rw [hstep] at h
      obtain ⟨rfl, rfl⟩ := Prod.mk.inj (Option.some.inj h)
      exact ⟨[], c, .none c, hstep⟩

/-- A run that ends is a parse. -/
theorem Reaches.parse {la la' : Lookahead σ} {rule : Text} {r : Except Failure Value}
    (h : Reaches table reduce la rule ts c) (hdone : step table reduce c = .done r la') :
    ∃ fuel, Parser.parse (some table) reduce fuel la rule = some (r, la') := by
  obtain ⟨s, t, la₁, hstart, hpeek, hrun⟩ := h
  obtain ⟨fuel, hfuel⟩ := hrun.run hdone
  refine ⟨fuel, ?_⟩
  rw [Parser.parse, hstart]
  dsimp only
  rw [hpeek]
  exact hfuel

/-- **A successful parse is a run of dispatches**, up to one that ends it. -/
theorem parse_iff_reads (la la' : Lookahead σ) (rule : Text) (v : Value) :
    (∃ fuel, parse (some table) reduce fuel la rule = some (.ok v, la')) ↔
      ∃ ts, Reads table reduce la rule ts v la' := by
  constructor
  -- a parse that succeeds has a start state and a first token
  · rintro ⟨fuel, h⟩
    rw [parse] at h
    split at h
    · cases h
    · rename_i s hstart
      split at h
      · cases h
      · rename_i t la₁ hpeek
        obtain ⟨ts, c, hrun, hdone⟩ := dispatches_of_run h
        exact ⟨_, ts, c, ⟨s, t, la₁, hstart, hpeek, hrun⟩, hdone, rfl⟩
  · rintro ⟨ts, us, c, hreach, hdone, -⟩
    exact hreach.parse hdone

end Runs

end Parser

/-! ## What has been consumed

  The other half of a run, from the side of the source: it has given what was consumed, and perhaps
  one token more. -/

/-- `Gives s ts s'`: asked once for each of them, `s` gives the tokens `ts`, none of which is the
    end of input, and then it is `s'`. -/
inductive Gives : σ → List Token → σ → Prop where
  | nil (s : σ) : Gives s [] s
  | cons {s s₁ s' : σ} {t : Token} {ts : List Token} (hs : TokenSource.next s = (.ok t, s₁))
      (ht : t.isEof = false) (rest : Gives s₁ ts s') : Gives s (t :: ts) s'

namespace Gives

variable {s s' s'' : σ} {ts : List Token} {t : Token}

/-- What is given in two parts is given as a whole. -/
theorem append {us : List Token} (h : Gives s ts s') (h' : Gives s' us s'') :
    Gives s (ts ++ us) s'' := by
  induction h with
  | nil => exact h'
  | cons hs ht _ ih => exact .cons hs ht (ih h')

/-- A source gives the same with a log, which shows what it gave. -/
theorem of_recorded {r r' : Recorded σ} (h : Gives r ts r') :
    Gives r.source ts r'.source ∧ r'.log = r.log ++ ts.map .ok := by
  induction h with
  | nil => exact ⟨.nil _, (List.append_nil _).symm⟩
  | cons hs ht _ ih =>
    obtain ⟨hnext, hlog⟩ := next_recorded hs
    obtain ⟨hgives, hlog'⟩ := ih
    exact ⟨.cons hnext ht hgives, by rw [hlog', hlog, List.append_assoc]; rfl⟩

end Gives

namespace Lookahead

/-- `la.Attends s consumed t`: the source `s` has given the consumed tokens and was asked once more,
    and `t` is the token at hand. -/
def Attends (s : σ) (consumed : List Token) (la : Lookahead σ) (t : Token) : Prop :=
  ∃ rest, Gives s consumed rest ∧ (fresh rest).peek = (.ok t, la)

/-- `la.Rests s consumed`: the source `s` has given the consumed tokens, and the next one may have
    been looked at. -/
def Rests (s : σ) (consumed : List Token) (la : Lookahead σ) : Prop :=
  ∃ rest, Gives s consumed rest ∧ (la = fresh rest ∨ ∃ t, (fresh rest).peek = (.ok t, la))

/-- A new lookahead has asked for nothing. -/
theorem rests_fresh (s : σ) : (fresh s).Rests s [] := ⟨s, .nil s, Or.inl rfl⟩

variable {s : σ} {consumed : List Token} {la la' : Lookahead σ} {t t' : Token}

/-- A lookahead with a token at hand may rest between two parses. -/
theorem Attends.rests (h : la.Attends s consumed t) : la.Rests s consumed := by
  obtain ⟨rest, hgives, hrest⟩ := h
  exact ⟨rest, hgives, Or.inr ⟨t, hrest⟩⟩

/-- Looking at the next token ends the rest, whether or not it has been looked at before. -/
theorem Rests.attends (h : la.Rests s consumed) (hpeek : la.peek = (.ok t, la')) :
    la'.Attends s consumed t := by
  obtain ⟨rest, hgives, rfl | ⟨u, hrest⟩⟩ := h
  · exact ⟨rest, hgives, hpeek⟩
  -- looking twice is looking once
  · rw [peek_peek hrest] at hpeek
    obtain ⟨⟨rfl⟩, rfl⟩ := Prod.mk.inj hpeek
    exact ⟨rest, hgives, hrest⟩

/-- Getting the token that was looked at is the same as not having looked. -/
theorem get_of_fresh {rest : σ} (h : (fresh rest).peek = (.ok t, la)) (ht : t.isEof = false) :
    ∃ rest', TokenSource.next rest = (.ok t, rest') ∧ la.get = (.ok t, fresh rest') := by
  rw [get_of_token (peek_peek h) ht]
  -- the token came from the source, and not from its end
  obtain ⟨u, s', hs, ⟨-, rfl, -⟩ | ⟨-, rfl, rfl⟩⟩ := of_peek_fresh h
  · exact nomatch ht
  · exact ⟨s', hs, rfl⟩

/-- The token at hand can be looked at as often as one likes. -/
theorem Attends.peek (h : la.Attends s consumed t) : la.peek = (.ok t, la) := by
  obtain ⟨rest, -, hrest⟩ := h
  exact peek_peek hrest

/-- The token at hand is taken, and the next one is looked at. -/
theorem Attends.take (h : la.Attends s consumed t) (ht : t.isEof = false)
    (hpeek : la.get.2.peek = (.ok t', la')) : la'.Attends s (consumed ++ [t]) t' := by
  obtain ⟨rest, hgives, hrest⟩ := h
  obtain ⟨rest', hnext, hget⟩ := get_of_fresh hrest ht
  rw [hget] at hpeek
  exact ⟨rest', hgives.append (.cons hnext ht (.nil rest')), hpeek⟩

end Lookahead

namespace Parser

variable {α : Type} {table : Table α} {c : Config σ α} {s : σ} {consumed : List Token}

omit [TokenSource σ] in
/-- The end of input is never taken. -/
theorem isEof_of_takes (h : takes table c = true) : c.token.isEof = false := by
  unfold takes at h
  split at h
  · simp only [Bool.and_eq_true, Bool.not_eq_true'] at h
    exact h.2
  · exact nomatch h

/-- The input after a dispatch. -/
theorem attends_advance (h : c.input.Attends s consumed c.token) {t : Token} {la : Lookahead σ}
    (hadvance : advance table c = (.ok t, la)) : la.Attends s (consumed ++ taken table c) t := by
  -- a token that is taken joins the consumed ones, and the source is asked for another
  by_cases htakes : takes table c = true
  · rw [advance_of_takes htakes] at hadvance
    rw [taken_of_takes htakes]
    exact h.take (isEof_of_takes htakes) hadvance
  · rw [advance_of_not_takes htakes] at hadvance
    rw [taken_of_not_takes htakes, List.append_nil]
    obtain ⟨⟨rfl⟩, rfl⟩ := Prod.mk.inj hadvance
    exact h

variable {act : α → List Value → Option Value} {reduce : α → Reduce σ} {c' : Config σ α}
  {ts : List Token}

/-- The input after some dispatches. -/
theorem Dispatches.attends (h : Blind act reduce) (hrun : Dispatches table reduce c ts c')
    (hc : c.input.Attends s consumed c.token) :
    c'.input.Attends s (consumed ++ ts) c'.token := by
  induction hrun generalizing consumed with
  | none c =>
    rw [List.append_nil]
    exact hc
  | more hstep rest ih =>
    obtain ⟨hadvance, -⟩ := Poised.of_more hc.peek h hstep
    rw [← List.append_assoc]
    exact ih (attends_advance hc hadvance)

/-- The input wherever a parse comes to. -/
theorem Reaches.attends (h : Blind act reduce) {la : Lookahead σ} {rule : Text}
    (hreach : Reaches table reduce la rule ts c) (hla : la.Rests s consumed) :
    c.input.Attends s (consumed ++ ts) c.token := by
  obtain ⟨state, t, la', -, hpeek, hrun⟩ := hreach
  exact hrun.attends h (hla.attends hpeek)

/-- The input behind a successful parse.  The last dispatch may take a token as well, and then the
    one behind it has been looked at. -/
theorem Reads.rests (h : Blind act reduce) {la la' : Lookahead σ} {rule : Text} {v : Value}
    (hreads : Reads table reduce la rule ts v la') (hla : la.Rests s consumed) :
    la'.Rests s (consumed ++ ts) := by
  obtain ⟨us, c, hreach, hdone, rfl⟩ := hreads
  have hc := hreach.attends h hla
  obtain ⟨t, hadvance, -⟩ := Poised.of_done hc.peek h hdone
  rw [← List.append_assoc]
  exact (attends_advance hc hadvance).rests

end Parser

end Pushdown
