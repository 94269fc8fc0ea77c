/-
  No token is lost, doubled or moved.

  On its way from the source to a result a token passes through the queue of the lookahead, the
  values of the current rule and the saved values of the rules that wait for it.  With a table that
  reduces every rule to the list of its values, all of that is a tree under construction, and its
  leaves from left to right are the tokens that have been taken:

  * `held` reads these leaves off a configuration: first those of the outermost rule that waits, and
    those of the current rule at the end;
  * a token that is taken comes last among the values of the current rule, so it comes last among
    the leaves (`held_push`);
  * reducing a rule folds its values into one list, which then comes last among the values of the
    caller, and the leaves keep their order (`settle_keeps`);
  * so one dispatch adds the token that it takes, if it takes one (`landing_keeps`), and a run adds
    all that it takes (`Dispatches.held`).

  The result of a parse is what is left when there is no rule any more, and its leaves are all that
  was taken (`Reads.tokens_eq`).

  The other half is about the source.  What has been taken is a prefix of what the source gives, and
  the lookahead stands right behind it, with at most one token in its queue (`Rests.pulled`).  So
  tokens are not lost between two parses either: `Calls` is a sequence of parses on one parser, with
  any rules, and its tokens are put together.
-/
import Pushdown.Proofs.Parser.Buffer
import Pushdown.Proofs.Parser.Dispatch

namespace Pushdown

open Text (lit)
open Lookahead (fresh)

/-! ## Leaves

  The tokens of a value are its leaves from left to right.  A reduction to a list keeps all that is
  below it; others may drop some, and so the tables looked at here have no others
  (`Target.IsList`). -/

mutual
/-- The tokens in a value, from left to right. -/
def Value.tokens : Value → List Token
  | .token t => [t]
  | .list vs => Value.tokensOf vs
  | _ => []
/-- The tokens in some values, from left to right. -/
def Value.tokensOf : List Value → List Token
  | [] => []
  | v :: vs => v.tokens ++ Value.tokensOf vs
end

/-- The tokens of some values are those of the values, one after the other. -/
theorem Value.tokensOf_eq_flatMap (vs : List Value) : tokensOf vs = vs.flatMap tokens := by
  induction vs with
  | nil => rfl
  | cons v vs ih => rw [tokensOf, ih, List.flatMap_cons]

/-- The tokens of more values come behind. -/
theorem Value.tokensOf_append (vs ws : List Value) :
    tokensOf (vs ++ ws) = tokensOf vs ++ tokensOf ws := by
  simp only [tokensOf_eq_flatMap, List.flatMap_append]

/-- The target does not reduce, or it reduces to the list of all values. -/
def Target.IsList : Target Reduction → Prop
  | .state _ => True
  | .accept f _ => f = some .list

/-- What a lookup finds is an action that the table holds, whether it is found for the key or for
    the wildcard. -/
theorem Table.mem_actions_of_lookup {α : Type} {table : Table α} {s : Int} {key : Text}
    {m : Match α} (h : table.lookup s key = some m) : m.action ∈ table.actions := by
  have hmem {col : Nat} {a : Action α} (ha : table.actionAt? s col = some a) :
      a ∈ table.actions := by
    obtain ⟨i, -, hi⟩ := Option.bind_eq_some_iff.mp ha
    exact Array.mem_of_getElem? hi
  unfold lookup at h
  dsimp only at h
  split at h
  · rename_i a hexplicit
    obtain rfl := Option.some.inj h
    obtain ⟨col, -, hcol⟩ := Option.bind_eq_some_iff.mp hexplicit
    exact hmem hcol
  · obtain ⟨a, ha, rfl⟩ := Option.map_eq_some_iff.mp h
    exact hmem ha

namespace Parser

variable {σ α : Type} [TokenSource σ]

/-- The tokens that a parse under way holds, from the outermost rule to the current one. -/
def held (values : Array Value) : List (Frame α) → List Token
  | [] => Value.tokensOf values.toList
  | frame :: frames => held frame.saved frames ++ Value.tokensOf values.toList

/-- A value more in the current rule adds its tokens at the end. -/
theorem held_push (values : Array Value) (v : Value) (frames : List (Frame α)) :
    held (values.push v) frames = held values frames ++ v.tokens := by
  have hpush : Value.tokensOf (values.push v).toList =
      Value.tokensOf values.toList ++ v.tokens := by
    rw [Array.toList_push, Value.tokensOf_append, Value.tokensOf, Value.tokensOf, List.append_nil]
  cases frames with
  | nil => exact hpush
  | cons frame frames => rw [held, held, hpush, List.append_assoc]

/-- A landing that holds the tokens `ts`. -/
def Keeps (ts : List Token) : Landing Reduction → Prop
  | .state _ values frames => held values frames = ts ∧ ∀ frame ∈ frames, frame.next.IsList
  | .value v => v.tokens = ts
  | .failed => True

/-- Reducing rules to lists keeps what is held. -/
theorem settle_keeps (values : Array Value) (target : Target Reduction)
    (frames : List (Frame Reduction)) (htarget : target.IsList)
    (hframes : ∀ frame ∈ frames, frame.next.IsList) :
    Keeps (held values frames) (settle namedValue values target frames) := by
  -- only lists are built, so that a reduction neither fails nor drops a value
  fun_induction settle namedValue values target frames with
  | case1 values s frames => exact ⟨rfl, hframes⟩
  | case2 values f name frames hv => trivial
  | case3 values f name v hv =>
    obtain rfl : f = some .list := htarget
    obtain rfl := Option.some.inj hv
    rfl
  | case4 values f name v hv frame frames ih =>
    obtain rfl : f = some .list := htarget
    obtain rfl := Option.some.inj hv
    -- the list is one value more of the rule that waited, and its tokens stay where they were
    have hkeeps := ih (hframes frame List.mem_cons_self)
      fun frame' h => hframes frame' (List.mem_cons_of_mem frame h)
    rw [if_neg (by exact Bool.false_ne_true), held_push] at hkeeps
    exact hkeeps

variable {table : Table Reduction} {c c' : Config σ Reduction} {ts : List Token}

omit [TokenSource σ] in
/-- What is held after a dispatch: a token that it takes comes last. -/
theorem landing_keeps (hlist : ∀ a ∈ table.actions, a.next.IsList)
    (hframes : ∀ frame ∈ c.frames, frame.next.IsList) :
    Keeps (held c.values c.frames ++ taken table c) (landing table namedValue c) := by
  unfold landing
  split
  · trivial
  -- a call opens a rule that holds nothing yet
  · rename_i callee next exact hlookup
    have hnext : next.IsList := hlist _ (Table.mem_actions_of_lookup hlookup)
    have htakes : ¬ takes table c = true := by
      rw [takes, hlookup]
      exact Bool.false_ne_true
    rw [taken_of_not_takes htakes]
    exact ⟨rfl, List.forall_mem_cons.mpr ⟨hnext, hframes⟩⟩
  · rename_i next exact hlookup
    have hnext : next.IsList := hlist _ (Table.mem_actions_of_lookup hlookup)
    have hkeeps := settle_keeps
      (if takes table c then c.values.push (.token c.token) else c.values) next c.frames
      hnext hframes
    -- the token that is taken is the last value, and so its place among the leaves is the last one
    by_cases htakes : takes table c = true
    · rw [if_pos htakes, held_push] at hkeeps
      rw [taken_of_takes htakes, if_pos htakes]
      exact hkeeps
    · rw [if_neg htakes] at hkeeps
      rw [taken_of_not_takes htakes, if_neg htakes, List.append_nil]
      exact hkeeps

/-- **The leaves of what is under construction are the tokens that were taken**, in their order. -/
theorem Dispatches.held (hlist : ∀ a ∈ table.actions, a.next.IsList)
    (hrun : Dispatches table Reduction.apply c ts c') (hp : Poised c)
    (hframes : ∀ frame ∈ c.frames, frame.next.IsList) :
    Parser.held c'.values c'.frames = Parser.held c.values c.frames ++ ts ∧ Poised c' ∧
      ∀ frame ∈ c'.frames, frame.next.IsList := by
  induction hrun with
  | none c => exact ⟨(List.append_nil _).symm, hp, hframes⟩
  | more hstep rest ih =>
    obtain ⟨hadvance, hlanding⟩ := hp.of_more blind_apply hstep
    have hkeeps := landing_keeps hlist hframes
    rw [hlanding] at hkeeps
    obtain ⟨hheld, hframes'⟩ := hkeeps
    obtain ⟨hheld', hp', hlists⟩ := ih (hp.advance hadvance) hframes'
    exact ⟨by rw [hheld', hheld, List.append_assoc], hp', hlists⟩

/-- The leaves of what is under construction wherever a parse comes to.  It starts with nothing. -/
theorem Reaches.held (hlist : ∀ a ∈ table.actions, a.next.IsList) {la : Lookahead σ} {rule : Text}
    (hreach : Reaches table Reduction.apply la rule ts c) :
    Parser.held c.values c.frames = ts ∧ Poised c ∧ ∀ frame ∈ c.frames, frame.next.IsList := by
  obtain ⟨state, t, la', -, hpeek, hrun⟩ := hreach
  exact hrun.held hlist (Lookahead.peek_peek hpeek) nofun

/-- The leaves of a result are the tokens that the parse took. -/
theorem Reads.tokens_eq (hlist : ∀ a ∈ table.actions, a.next.IsList) {la la' : Lookahead σ}
    {rule : Text} {v : Value} (hreads : Reads table Reduction.apply la rule ts v la') :
    v.tokens = ts := by
  obtain ⟨us, c, hreach, hdone, rfl⟩ := hreads
  obtain ⟨hheld, hp, hframes⟩ := hreach.held hlist
  obtain ⟨t, -, hlanding⟩ := hp.of_done blind_apply hdone
  have hkeeps := landing_keeps hlist hframes
  rw [hlanding, hheld] at hkeeps
  exact hkeeps

/-- `Calls table reduce la ts vs la'`: some parses, one after the other and with any rules, all
    succeed.  They take the tokens `ts`, yield the values `vs` and lead from `la` to `la'`. -/
inductive Calls (table : Table α) (reduce : α → Reduce σ) :
    Lookahead σ → List Token → List Value → Lookahead σ → Prop where
  | none (la : Lookahead σ) : Calls table reduce la [] [] la
  | more {la la₁ la₂ : Lookahead σ} {rule : Text} {ts us : List Token} {v : Value} {vs : List Value}
      (h : Reads table reduce la rule ts v la₁) (rest : Calls table reduce la₁ us vs la₂) :
      Calls table reduce la (ts ++ us) (v :: vs) la₂

/-- The leaves of all results are all tokens that were taken, in the order of the parses. -/
theorem Calls.tokens_eq (hlist : ∀ a ∈ table.actions, a.next.IsList) {la la' : Lookahead σ}
    {vs : List Value} (h : Calls table Reduction.apply la ts vs la') :
    vs.flatMap Value.tokens = ts := by
  induction h with
  | none => rfl
  | more h rest ih => rw [List.flatMap_cons, h.tokens_eq hlist, ih]

/-- The input behind the last of the parses. -/
theorem Calls.rests {act : α → List Value → Option Value} {table : Table α} {reduce : α → Reduce σ}
    (hb : Blind act reduce) {la la' : Lookahead σ} {vs : List Value} {s : σ} {consumed : List Token}
    (h : Calls table reduce la ts vs la') (hla : la.Rests s consumed) :
    la'.Rests s (consumed ++ ts) := by
  induction h generalizing consumed with
  | none =>
    rw [List.append_nil]
    exact hla
  | more h rest ih =>
    rw [← List.append_assoc]
    exact ih (h.rests hb hla)

end Parser

/-! ## The source and the queue

  A token can be in the source, in the queue or in a value, and in only one of these at a time. -/

namespace Plain

/-- The tokens of two lists of answers. -/
theorem tokens_append (items items' : List Answer) :
    tokens (items ++ items') = tokens items ++ tokens items' := List.filterMap_append

/-- Of answers that are all tokens, none is left out. -/
theorem tokens_map_ok (ts : List Token) : tokens (ts.map .ok) = ts := by
  rw [tokens, List.filterMap_map]
  exact List.filterMap_some

end Plain

variable {σ : Type} [TokenSource σ]

namespace Gives

variable {s s' : σ} {ts : List Token}

/-- The tokens given come first in what a source yields. -/
theorem yields {items : List Answer} (h : Gives s ts s') (hy : Yields s items) :
    ∃ rest, items = ts.map .ok ++ rest ∧ Yields s' rest := by
  induction h generalizing items with
  | nil => exact ⟨items, rfl, hy⟩
  | cons hs ht _ ih =>
    obtain ⟨items', rfl, hy'⟩ := hy.of_token hs ht
    obtain ⟨rest, rfl, hrest⟩ := ih hy'
    exact ⟨rest, rfl, hrest⟩

/-- None of the tokens given is an end of input. -/
theorem filter_eq (h : Gives s ts s') : ts.filter (!·.isEof) = ts := by
  induction h with
  | nil => rfl
  | cons hs ht _ ih => rw [List.filter_cons_of_pos (by rw [ht]; rfl), ih]

end Gives

namespace Lookahead

omit [TokenSource σ] in
/-- The tokens that were pulled from the source. -/
def pulled (la : Lookahead (Recorded σ)) : List Token :=
  (Plain.tokens la.source.log).filter (!·.isEof)

/-- What was pulled and is not consumed is in the queue, and that is one token at most. -/
theorem Rests.pulled {s : σ} {consumed : List Token} {la : Lookahead (Recorded σ)}
    (h : la.Rests { source := s } consumed) :
    la.pulled = consumed ++ la.queue ∧ la.queue.length ≤ 1 := by
  obtain ⟨rest, hgives, hla⟩ := h
  have hlog : rest.log = consumed.map .ok := hgives.of_recorded.2
  -- one answer more in the log, which counts unless it is the end
  have hask (t : Token) : (Plain.tokens (consumed.map .ok ++ [.ok t])).filter (!·.isEof) =
      consumed ++ [t].filter (!·.isEof) := by
    rw [Plain.tokens_append, Plain.tokens_map_ok, List.filter_append, hgives.filter_eq]
    rfl
  -- either nothing has been looked at, or one more token
  obtain rfl | ⟨t, hpeek⟩ := hla
  · refine ⟨?_, Nat.zero_le 1⟩
    show (Plain.tokens rest.log).filter (!·.isEof) = consumed ++ []
    rw [hlog, Plain.tokens_map_ok, hgives.filter_eq, List.append_nil]
  · obtain ⟨u, rest', hnext, hla⟩ := of_peek_fresh hpeek
    have hlog' := (next_recorded hnext).2
    rw [hlog] at hlog'
    obtain ⟨ht, -, rfl⟩ | ⟨ht, -, rfl⟩ := hla
    · refine ⟨?_, Nat.zero_le 1⟩
      show (Plain.tokens rest'.log).filter (!·.isEof) = consumed ++ []
      rw [hlog', hask, List.filter_cons_of_neg (by rw [ht]; decide)]
      rfl
    · refine ⟨?_, Nat.le_refl 1⟩
      show (Plain.tokens rest'.log).filter (!·.isEof) = consumed ++ [u]
      rw [hlog', hask, List.filter_cons_of_pos (by rw [ht]; rfl)]
      rfl

/-- Whatever is asked of the lookahead now, it answers like a new one on the rest of the source. -/
theorem Rests.serve {s : σ} {consumed : List Token} {la : Lookahead (Recorded σ)}
    (h : la.Rests { source := s } consumed) :
    ∃ rest, Gives s consumed rest ∧
      ∀ rs, (serve Lookahead.handle la rs).1 = (serve Lookahead.handle (fresh rest) rs).1 := by
  obtain ⟨rest, hgives, hla⟩ := h
  refine ⟨rest.source, hgives.of_recorded.1, fun rs => ?_⟩
  have hbare := serve_bare (fresh rest) rs
  obtain rfl | ⟨t, hpeek⟩ := hla
  · exact hbare.symm
  · exact (serve_of_peek_fresh hpeek rs).trans hbare.symm

end Lookahead

namespace Parser

/-- **Tokens are conserved.**  Let a table reduce every rule to the list of its values, and let some
    parses on a new parser succeed.  Then the leaves of their results are the tokens that were
    taken.  These come first in what the source gives, and the lookahead goes on with the rest.  At
    any time, also in the middle of a further parse, at most one token is pulled from the source
    that is not taken, and the tree under construction has the others. -/
theorem tokens_conserved (table : Table Reduction) (hlist : ∀ a ∈ table.actions, a.next.IsList)
    (s : σ) (consumed : List Token) (vs : List Value) (la : Lookahead (Recorded σ))
    (hcalls : Calls table Reduction.apply (fresh { source := s }) consumed vs la) :
    vs.flatMap Value.tokens = consumed ∧
    (∃ rest, Gives s consumed rest ∧
      (∀ rs, (serve Lookahead.handle la rs).1 = (serve Lookahead.handle (fresh rest) rs).1) ∧
      ∀ items, Yields s items → ∃ ahead, items = consumed.map .ok ++ ahead ∧
        ∀ rs, (serve Lookahead.handle la rs).1 = (serve Plain.handle ahead rs).1) ∧
    (la.pulled = consumed ++ la.queue ∧ la.queue.length ≤ 1) ∧
    ∀ rule ts c, Reaches table Reduction.apply la rule ts c →
      held c.values c.frames = ts ∧ c.input.pulled = consumed ++ ts ++ c.input.queue ∧
        c.input.queue.length ≤ 1 := by
  have hrests : la.Rests { source := s } consumed := by
    have h := hcalls.rests blind_apply (Lookahead.rests_fresh _)
    rwa [List.nil_append] at h
  refine ⟨hcalls.tokens_eq hlist, ?_, hrests.pulled, ?_⟩
  -- what is still to come is the rest of what the source yields
  · obtain ⟨rest, hgives, hserve⟩ := hrests.serve
    refine ⟨rest, hgives, hserve, fun items hitems => ?_⟩
    obtain ⟨ahead, rfl, hahead⟩ := hgives.yields hitems
    exact ⟨ahead, rfl, fun rs =>
      (hserve rs).trans ((Lookahead.promises_of_yields hahead).serve rs).1⟩
  · intro rule ts c hreach
    exact ⟨(hreach.held hlist).1, (hreach.attends blind_apply hrests).rests.pulled⟩

/-- Nested groups in parentheses, as lists. -/
def nested : Builder Reduction :=
  let b : Builder Reduction := {}
  let b := b.on 0 (lit "(") ⟨none, .state 1⟩
  let b := b.on 1 (lit "(") ⟨some 0, .state 1⟩
  let b := b.on 1 (lit "x") ⟨none, .state 1⟩
  let b := b.on 1 (lit ")") ⟨none, .accept (some .list) []⟩
  b.rule (lit "group") 0

/-- Two groups are parsed, and the token behind them is in the queue. -/
theorem tokens_conserved_nested :
    let inner := [.token (op "("), .token (op "x"), .token (op ")")]
    let first := [.token (op "("), .list inner, .token (op ")")]
    let second := [.token (op "("), .token (op ")")]
    ∃ consumed la, Calls nested.draft Reduction.apply
      (fresh ({ source := ⟨["(", "(", "x", ")", ")", "(", ")", "y"].map (.ok ∘ op)⟩ } :
        Recorded Script)) consumed [.list first, .list second] la ∧
      la.queue = [op "y"] ∧ la.pulled = ["(", "(", "x", ")", ")", "(", ")", "y"].map op := by
  intro inner first second
  let pulls (ops : List String) : List Answer := ops.map (.ok ∘ op)
  have hactions : nested.draft.actions = #[⟨none, .state 1⟩, ⟨some 0, .state 1⟩, ⟨none, .state 1⟩,
    ⟨none, .accept (some .list) []⟩] := by cbv
  have hlist : ∀ a ∈ nested.draft.actions, a.next.IsList := by
    rw [hactions]
    simp [Target.IsList]
  have hfirst : ∃ fuel, parse (some nested.draft) Reduction.apply fuel
      (fresh ({ source := ⟨pulls ["(", "(", "x", ")", ")", "(", ")", "y"]⟩ } : Recorded Script))
      (lit "group") = some (.ok (.list first),
        ⟨⟨⟨pulls [")", "y"]⟩, pulls ["(", "(", "x", ")", ")", "("]⟩, [op "("], false⟩) :=
    ⟨6, by cbv⟩
  have hsecond : ∃ fuel, parse (some nested.draft) Reduction.apply fuel
      (⟨⟨⟨pulls [")", "y"]⟩, pulls ["(", "(", "x", ")", ")", "("]⟩, [op "("], false⟩ :
        Lookahead (Recorded Script)) (lit "group") = some (.ok (.list second),
        ⟨⟨⟨[]⟩, pulls ["(", "(", "x", ")", ")", "(", ")", "y"]⟩, [op "y"], false⟩) :=
    ⟨2, by cbv⟩
  obtain ⟨ts, hreads⟩ := (parse_iff_reads _ _ _ _).mp hfirst
  obtain ⟨us, hreads'⟩ := (parse_iff_reads _ _ _ _).mp hsecond
  have hcalls := Calls.more hreads (.more hreads' (.none _))
  obtain ⟨htokens, -, ⟨hpulled, -⟩, -⟩ := tokens_conserved nested.draft hlist _ _ _ _ hcalls
  refine ⟨_, _, hcalls, rfl, ?_⟩
  rw [hpulled, ← htokens]
  rfl

end Parser
end Pushdown
