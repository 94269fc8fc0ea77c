/-
  Parses end if the table has no empty cycles.

  A table may send a parse round and round without taking a token.  `Table.EmptyMove` tells from the
  entries alone which states a rule can go to that way: behind a wildcard or behind the end of the
  input, into a callee, and from a call to where the caller goes on, if the callee can be reduced
  with nothing taken (`Table.Empties`).  Nothing is said there about a particular input, stack or
  reduction.

  If no such moves lead from a state back to it they can only go on for so long, since a table that
  is handed out has finitely many states and none of the moves leaves it (`wellFounded_emptyMove`).
  So the states have a rank.

  The parse is cut at the tokens it takes, and there are three inductions, one in the other:

  * Up to the next token the induction is on the rank: a dispatch that takes nothing makes a move,
    and a call makes two, one into the callee and one behind it (`halts_state`).  A call would
    defeat an induction on the rank of the current state alone, since the caller goes on long after
    the callee has started.  So the statement is about a state with any frames below it, and it asks
    that the parse halts where the rule is handed over to them, but only if the rule can get there
    with nothing taken.
  * The frames below the current rule are left one by one.
  * The whole is an induction on the number of tokens that are left (`halts_continueAt`).  A source
    has finitely many, before it gives the end of input or fails (`RunsDry`).

  Reductions have to leave the lookahead alone (`Quiet`), since one that puts a token back each time
  would keep the parse going for ever.
-/
import Pushdown.Proofs.Table.Validation

namespace Pushdown

open Text (lit)

variable {α : Type}

/-! ## Moves that take nothing

  A parse makes progress when it takes a token, and between two tokens it moves from state to state.
  The moves are those of entries that take nothing, those of calls, and the way back from a callee
  that can end without taking anything. -/

namespace Table

/-- `t.Empties kind target`: with a token of this kind at hand, going on at the target can end the
    current rule, and the token is not taken. -/
inductive Empties (t : Table α) (kind : Text) : Target α → Prop where
  | accept (f : Option α) (name : Text) : Empties t kind (.accept f name)
  | stay {s : Int} {next : Target α} {exact : Bool}
      (h : t.lookup s kind = some ⟨⟨none, next⟩, exact⟩) (he : exact = false ∨ kind = [])
      (rest : Empties t kind next) : Empties t kind (.state s)
  | call {s callee : Int} {next : Target α} {exact : Bool}
      (h : t.lookup s kind = some ⟨⟨some callee, next⟩, exact⟩)
      (sub : Empties t kind (.state callee)) (rest : Empties t kind next) :
      Empties t kind (.state s)

/-- `t.EmptyMove s s'`: a rule can go from `s` to `s'` with no token taken. -/
inductive EmptyMove (t : Table α) : Int → Int → Prop where
  | other {s s' : Int} (h : t.entered? s wildcard = some ⟨none, .state s'⟩) : EmptyMove t s s'
  | ended {s s' : Int} (h : t.entered? s [] = some ⟨none, .state s'⟩) : EmptyMove t s s'
  | call {s callee : Int} {key : Text} {next : Target α}
      (h : t.entered? s key = some ⟨some callee, next⟩) : EmptyMove t s callee
  | back {s callee s' : Int} {key kind : Text}
      (h : t.entered? s key = some ⟨some callee, .state s'⟩)
      (he : t.Empties kind (.state callee)) : EmptyMove t s s'

/-- No moves that take nothing lead from a state back to it. -/
def Acyclic (t : Table α) : Prop := ∀ s, ¬ Relation.TransGen t.EmptyMove s s

variable {t : Table α} {s s' : Int} {key : Text} {a : Action α}

/-- It is enough that the states have ranks which every move makes less. -/
theorem acyclic_of_rank (rank : Int → Nat) (h : ∀ s s', t.EmptyMove s s' → rank s' < rank s) :
    t.Acyclic := by
  -- a way of several moves makes the rank less, too
  have hless : ∀ s s', Relation.TransGen t.EmptyMove s s' → rank s' < rank s := by
    intro s s' hmoves
    induction hmoves with
    | single hmove => exact h _ _ hmove
    | tail _ hmove ih => exact (h _ _ hmove).trans ih
  exact fun s hmoves => Nat.lt_irrefl (rank s) (hless s s hmoves)

namespace Coherent

/-- What is found was entered for the key or for the wildcard, and the match says which. -/
theorem entered?_of_lookup (h : t.Coherent) {exact : Bool}
    (hm : t.lookup s key = some ⟨a, exact⟩) :
    (exact = true ∧ t.entered? s key = some a) ∨
      (exact = false ∧ t.entered? s wildcard = some a) := by
  -- an entry for the key comes first, unless the key is the wildcard itself
  rw [h.lookup_eq, prefer, Option.or_eq_some_iff] at hm
  rcases hm with hown | ⟨-, hother⟩
  · obtain ⟨b, hb, hpair⟩ := Option.map_eq_some_iff.mp hown
    obtain ⟨rfl, rfl⟩ := Match.mk.inj hpair
    split at hb
    · cases hb
    · exact Or.inl ⟨rfl, hb⟩
  · obtain ⟨b, hb, hpair⟩ := Option.map_eq_some_iff.mp hother
    obtain ⟨rfl, rfl⟩ := Match.mk.inj hpair
    exact Or.inr ⟨rfl, hb⟩

/-- What was entered is found. -/
theorem exists_lookup_of_entered? (h : t.Coherent) (ha : t.entered? s key = some a) :
    ∃ exact, t.lookup s key = some ⟨a, exact⟩ := by
  rw [h.lookup_eq, prefer]
  by_cases hkey : key = wildcard
  · subst hkey
    rw [if_pos rfl, ha]
    exact ⟨false, rfl⟩
  · rw [if_neg hkey, ha]
    exact ⟨true, rfl⟩

/-- An entry that takes nothing and shifts is a move. -/
theorem move_of_stay (h : t.Coherent) {kind : Text} {exact : Bool}
    (hm : t.lookup s kind = some ⟨⟨none, .state s'⟩, exact⟩) (he : exact = false ∨ kind = []) :
    t.EmptyMove s s' := by
  rcases h.entered?_of_lookup hm with ⟨rfl, ha⟩ | ⟨-, ha⟩
  · obtain rfl : kind = [] := he.resolve_left nofun
    exact .ended ha
  · exact .other ha

/-- A rule in a state where all entries take a token is not reduced without one. -/
theorem not_empties (h : t.Coherent) {kind : Text}
    (htakes : ∀ key a, t.entered? s key = some a → a.call = none ∧ key ≠ wildcard ∧ key ≠ []) :
    ¬ t.Empties kind (.state s) := by
  intro hempties
  -- the first step of such a rule is an entry that stays or one that calls
  cases hempties with
  | stay hm he rest =>
    rcases h.entered?_of_lookup hm with ⟨rfl, ha⟩ | ⟨-, ha⟩
    · exact (htakes _ _ ha).2.2 (he.resolve_left nofun)
    · exact (htakes _ _ ha).2.1 rfl
  | call hm sub rest =>
    obtain ⟨key, ha⟩ := h.exists_entered?_of_lookup hm
    exact nomatch (htakes _ _ ha).1

/-- Moves start at states of the table. -/
theorem inRange_of_move (h : t.Coherent) (hmove : t.EmptyMove s s') : InRange t.states s := by
  cases hmove with
  | other ha => exact h.lt_states ha
  | ended ha => exact h.lt_states ha
  | call ha => exact h.lt_states ha
  | back ha => exact h.lt_states ha

end Coherent

/-- Moves end at states of the table, if the entries are closed. -/
theorem Closed.inRange_of_move (hclosed : t.Closed) (h : t.Coherent) (hmove : t.EmptyMove s s') :
    InRange t.states s' := by
  -- whatever entry the move comes from, it is one that leads there
  have hleads : ∀ {s key a}, t.entered? s key = some a → a.LeadsTo s' → InRange t.states s' := by
    intro s key a ha hs
    obtain ⟨exact, hm⟩ := h.exists_lookup_of_entered? ha
    exact hclosed.action s key _ hm s' hs
  cases hmove with
  | other ha => exact hleads ha (Or.inr rfl)
  | ended ha => exact hleads ha (Or.inr rfl)
  | call ha => exact hleads ha (Or.inl rfl)
  | back ha => exact hleads ha (Or.inr rfl)

/-- **Without cycles there is no way to move on and on.** -/
theorem wellFounded_emptyMove (h : t.Coherent) (hclosed : t.Closed) (hacyclic : t.Acyclic) :
    WellFounded fun s' s => t.EmptyMove s s' := by
  -- moves of any length are a strict order, and on finitely many states such an order has no way to
  -- go on for ever
  let Behind (s' s : Int) : Prop := Relation.TransGen t.EmptyMove s s'
  have hirrefl : Std.Irrefl Behind := ⟨hacyclic⟩
  have htrans : IsTrans Int Behind := ⟨fun _ _ _ h₁ h₂ => h₂.trans h₁⟩
  have horder : IsStrictOrder Int Behind := {}
  have hfinite : (Set.Ico (0 : Int) t.states).Finite := Set.finite_Ico 0 (t.states : Int)
  have hwf := Set.wellFoundedOn_iff.mp (hfinite.wellFoundedOn (r := Behind))
  refine Subrelation.wf (fun {s' s} hmove => ?_) hwf
  exact ⟨.single hmove, hclosed.inRange_of_move h hmove, h.inRange_of_move hmove⟩

end Table

/-! ## Sources that run dry

  Termination needs a bound on what can be taken.  A source that gives finitely many tokens has one,
  also if it fails again and again behind them. -/

section Sources

variable {σ : Type} [TokenSource σ]

/-- The source has no token to give: it gives the end of input, or it fails. -/
def IsDry (s : σ) : Prop := ∀ t s', TokenSource.next s = (.ok t, s') → t.isEof = true

/-- The source gives finitely many tokens. -/
def RunsDry (s : σ) : Prop := ∃ ts s', Gives s ts s' ∧ IsDry s'

/-- A list of tokens is a finite source. -/
theorem runsDry_list (ts : List Token) : RunsDry ts := by
  induction ts with
  | nil =>
    refine ⟨[], [], .nil _, fun t s' h => ?_⟩
    obtain ⟨⟨rfl⟩, rfl⟩ := Prod.mk.inj h
    rfl
  | cons t ts ih =>
    by_cases ht : t.isEof = true
    · refine ⟨[], t :: ts, .nil _, fun u s' h => ?_⟩
      obtain ⟨⟨rfl⟩, rfl⟩ := Prod.mk.inj h
      exact ht
    · obtain ⟨us, s', hgives, hdry⟩ := ih
      exact ⟨t :: us, s', .cons rfl (Bool.not_eq_true _ ▸ ht) hgives, hdry⟩

namespace Lookahead

/-- At most `n` tokens can be taken from the lookahead. -/
def Left (la : Lookahead σ) (n : Nat) : Prop :=
  (la.ended = true ∧ la.queue.length ≤ n) ∨
    ∃ ts s', Gives la.source ts s' ∧ IsDry s' ∧ la.queue.length + ts.length ≤ n

variable {la la' : Lookahead σ} {n : Nat} {t : Token}

/-- A source that runs dry leaves a bound on what can be taken. -/
theorem exists_left (la : Lookahead σ) (h : la.ended = true ∨ RunsDry la.source) :
    ∃ n, la.Left n := by
  rcases h with he | ⟨ts, s', hgives, hdry⟩
  · exact ⟨_, Or.inl ⟨he, Nat.le_refl _⟩⟩
  · exact ⟨_, Or.inr ⟨ts, s', hgives, hdry, Nat.le_refl _⟩⟩

/-- Looking at a token takes none. -/
theorem Left.peek (h : la.Left n) (hpeek : la.peek = (.ok t, la')) : la'.Left n := by
  cases peeks_of_peek hpeek with
  | ready => exact h
  | ended hq => exact Or.inl ⟨rfl, by rw [hq]; exact Nat.zero_le n⟩
  | pulled hq he hs ht =>
    rcases h with ⟨he', -⟩ | ⟨ts, s', hgives, hdry, hle⟩
    · exact nomatch he.symm.trans he'
    · cases hgives with
      | nil => exact nomatch ht.symm.trans (hdry _ _ hs)
      | cons hs' _ rest =>
        obtain ⟨-, rfl⟩ := Prod.mk.inj (hs'.symm.trans hs)
        rw [hq, List.length_nil, List.length_cons] at hle
        refine Or.inr ⟨_, s', rest, hdry, ?_⟩
        rw [List.length_singleton]
        omega

/-- A token that was looked at stands in the queue. -/
theorem queue_ne_nil (hpeek : la.peek = (.ok t, la)) (ht : t.isEof = false) : la.queue ≠ [] := by
  intro hq
  have hready : la.IsReady := (peeks_of_peek hpeek).isReady
  rw [hready.peek_eq, hq] at hpeek
  obtain ⟨⟨rfl⟩, -⟩ := Prod.mk.inj hpeek
  exact nomatch ht

/-- Taking a token leaves fewer. -/
theorem Left.take (h : la.Left n) (hpeek : la.peek = (.ok t, la)) (ht : t.isEof = false) :
    ∃ m < n, la.get.2.Left m := by
  have hpos : 0 < la.queue.length := List.length_pos_iff.mpr (queue_ne_nil hpeek ht)
  have htail : la.queue.tail.length = la.queue.length - 1 := List.length_tail
  rw [get_of_token hpeek ht]
  -- the queue is shorter by one, and the source has what it had
  rcases h with ⟨he, hle⟩ | ⟨ts, s', hgives, hdry, hle⟩
  · refine ⟨la.queue.length - 1, by omega, Or.inl ⟨he, ?_⟩⟩
    exact Nat.le_of_eq htail
  · refine ⟨la.queue.length - 1 + ts.length, by omega, Or.inr ⟨ts, s', hgives, hdry, ?_⟩⟩
    exact Nat.le_of_eq (congrArg (· + ts.length) htail)

end Lookahead

end Sources

/-! ## Parses that end

  The induction is on the tokens that are left, and for the same number of tokens on the moves that
  can be made before the next one is taken. -/

namespace Parser

open Lookahead

variable {σ : Type} [TokenSource σ]

/-- Reductions leave a lookahead alone at which a token has been looked at.  They may depend on it
    and look at the token again. -/
def Quiet (reduce : α → Reduce σ) : Prop :=
  ∀ f la t vs, la.peek = (.ok t, la) → (reduce f la vs).2 = la

/-- The named reductions are quiet. -/
theorem quiet_apply : Quiet (Reduction.apply : Reduction → Reduce σ) :=
  fun f la _ vs _ => blind_apply.input_eq f la vs

/-- What is left to do after a dispatch comes to an end. -/
def Halts (table : Table α) (reduce : α → Reduce σ) (progress : Progress σ α) : Prop :=
  ∃ n answer, finish table reduce n progress = some answer

section Halting

variable {table : Table α} {reduce : α → Reduce σ} {la : Lookahead σ} {t : Token}
  {values : Array Value} {frames : List (Frame α)} {target : Target α}

/-- What has ended has come to an end. -/
theorem halts_done (outcome : Except Failure Value) (la : Lookahead σ) :
    Halts table reduce (.done outcome la) := ⟨0, (outcome, la), rfl⟩

/-- One dispatch more. -/
theorem halts_more {c : Config σ α} (h : Halts table reduce (step table reduce c)) :
    Halts table reduce (.more c) := by
  obtain ⟨n, answer, hfin⟩ := h
  rw [← run_succ] at hfin
  exact ⟨n + 1, answer, hfin⟩

/-- Going on at a target halts if all goes well at the state, or behind the reduction. -/
theorem halts_target (hquiet : Quiet reduce) (hpeek : la.peek = (.ok t, la))
    (hstate : ∀ s, target = .state s → Halts table reduce (.more ⟨s, t, values, frames, la⟩))
    (haccept : target.isAccept = true → ∀ v, Halts table reduce (handOver reduce la v frames)) :
    Halts table reduce (continueAt reduce la t values target frames) := by
  cases target with
  | state s =>
    rw [continueAt]
    exact hstate s rfl
  | accept f name =>
    -- the reduction leaves the lookahead, so that the token is still at hand
    have hinput : (applyReduction reduce f la values.toList).2 = la := by
      cases f with
      | none => rfl
      | some f => exact hquiet f la t values.toList hpeek
    rw [continueAt_accept]
    rcases hred : applyReduction reduce f la values.toList with ⟨e | v, la'⟩
    · exact halts_done _ _
    · rw [hred] at hinput
      obtain rfl : la' = la := hinput
      exact haccept rfl v

/-- A caller goes on with the token at hand. -/
theorem handOver_of_peek (hpeek : la.peek = (.ok t, la)) (v : Value) (frame : Frame α) :
    handOver reduce la v (frame :: frames) =
      continueAt reduce la t (if v.isNone then frame.saved else frame.saved.push v) frame.next
        frames := by
  rw [handOver, hpeek]

/-- **Up to the next token.**  Let a parse halt behind the token at hand, once that is taken.  Then
    it halts from any state, if it does where the current rule is reduced with nothing taken.  The
    induction is on the rank of the state. -/
theorem halts_state (hcoherent : table.Coherent)
    (hwf : WellFounded fun s' s => table.EmptyMove s s') (hquiet : Quiet reduce)
    (hpeek : la.peek = (.ok t, la))
    (htaken : t.isEof = false → ∀ u la', la.get.2.peek = (.ok u, la') →
      ∀ values target frames, Halts table reduce (continueAt reduce la' u values target frames))
    (s : Int) : ∀ (values : Array Value) (frames : List (Frame α)),
      (table.Empties t.kind (.state s) → ∀ v, Halts table reduce (handOver reduce la v frames)) →
      Halts table reduce (.more ⟨s, t, values, frames, la⟩) := by
  induction s using hwf.induction with
  | h s ih =>
    intro values frames hback
    -- behind a move that takes nothing
    -- this is used twice, behind an entry that stays and behind a callee
    have htarget : ∀ {next : Target α} (values : Array Value),
        (∀ s', next = .state s' → table.EmptyMove s s') →
        (table.Empties t.kind next → table.Empties t.kind (.state s)) →
        Halts table reduce (continueAt reduce la t values next frames) := by
      intro next values hmove hempties
      refine halts_target hquiet hpeek (fun s' hs => ?_) (fun haccept => ?_)
      · subst hs
        exact ih s' (hmove s' rfl) values frames fun he => hback (hempties he)
      · cases next with
        | state s' => exact nomatch haccept
        | accept f name => exact hback (hempties (.accept f name))
    apply halts_more
    rcases hlook : table.lookup s t.kind with _ | ⟨⟨_ | callee, next⟩, exact⟩
    · rw [step, hlook]
      exact halts_done _ _
    · by_cases htake : (exact && !t.isEof) = true
      · -- the token is taken
        have ht : t.isEof = false := by
          rw [Bool.and_eq_true, Bool.not_eq_true'] at htake
          exact htake.2
        have hnext := htaken ht
        rw [get_of_token hpeek ht] at hnext
        rw [step, hlook]
        simp only [htake, ↓reduceIte, get_of_token hpeek ht]
        rcases hp : ({ la with queue := la.queue.tail } : Lookahead σ).peek with ⟨e | u, la'⟩
        · exact halts_done _ _
        · exact hnext u la' hp _ _ _
      · -- the token stays
        have he : exact = false ∨ t.kind = [] := by
          rw [Bool.and_eq_true, Bool.not_eq_true', not_and_or, Bool.not_eq_true, Bool.not_eq_false]
            at htake
          exact htake.imp_right of_decide_eq_true
        rw [step, hlook]
        simp only [htake, Bool.false_eq_true, ↓reduceIte]
        refine htarget values (fun s' hs => ?_) (fun hempties => .stay hlook he hempties)
        subst hs
        exact hcoherent.move_of_stay hlook he
    · -- a call, and then what the caller does next
      obtain ⟨key, hentry⟩ := hcoherent.exists_entered?_of_lookup hlook
      rw [step, hlook]
      -- the callee runs on top of the caller's frame; when it is reduced with nothing taken, the
      -- caller moves on
      refine ih callee (.call hentry) #[] (⟨next, values⟩ :: frames) fun hcallee v => ?_
      rw [handOver_of_peek hpeek]
      refine htarget _ (fun s' hs => ?_) (fun hempties => .call hlook hcallee hempties)
      subst hs
      exact .back hentry hcallee

/-- **All the way.**  The induction is on the number of tokens that are left, and then on the
    frames. -/
theorem halts_continueAt (hcoherent : table.Coherent)
    (hwf : WellFounded fun s' s => table.EmptyMove s s') (hquiet : Quiet reduce) (n : Nat) :
    ∀ (la : Lookahead σ) (t : Token), la.Left n → la.peek = (.ok t, la) →
      ∀ (values : Array Value) (target : Target α) (frames : List (Frame α)),
        Halts table reduce (continueAt reduce la t values target frames) := by
  induction n using Nat.strongRecOn with
  | ind n ih =>
    intro la t hleft hpeek
    -- behind the next token fewer are left
    have htaken : t.isEof = false → ∀ u la', la.get.2.peek = (.ok u, la') →
        ∀ (values : Array Value) (target : Target α) (frames : List (Frame α)),
          Halts table reduce (continueAt reduce la' u values target frames) := by
      intro ht u la' hnext
      obtain ⟨m, hm, hfewer⟩ := hleft.take hpeek ht
      exact ih m hm la' u (hfewer.peek hnext) (peek_peek hnext)
    -- with nothing assumed about the token, the frames are what is left to do
    have hgo : ∀ (frames : List (Frame α)),
        (∀ v, Halts table reduce (handOver reduce la v frames)) →
        ∀ (values : Array Value) (target : Target α),
          Halts table reduce (continueAt reduce la t values target frames) := by
      intro frames hback values target
      refine halts_target hquiet hpeek (fun s _ => ?_) (fun _ => hback)
      exact halts_state hcoherent hwf hquiet hpeek htaken s values frames fun _ => hback
    intro values target frames
    -- a rule that ends hands over to a frame, and there is one frame less
    induction frames generalizing values target with
    | nil => exact hgo [] (fun v => halts_done _ _) values target
    | cons frame frames ihframes =>
      refine hgo (frame :: frames) (fun v => ?_) values target
      rw [handOver_of_peek hpeek]
      exact ihframes _ _

end Halting

open Builder BuildStep in
/-- **Parses end.**  Let a table be handed out that has no cycle of moves which take nothing.  Let
    the source give finitely many tokens, before it gives the end of input or fails, or let it have
    ended already.  Let reductions leave the lookahead alone.  Then a parse with any rule comes to
    an end, with a value or a failure. -/
theorem parse_halts (steps : List (BuildStep α)) {table : Table α}
    (hok : (after steps).table.1 = .ok table) (hacyclic : table.Acyclic) {reduce : α → Reduce σ}
    (hquiet : Quiet reduce) (la : Lookahead σ) (hdry : la.ended = true ∨ RunsDry la.source)
    (rule : Text) : ∃ fuel answer, parse (some table) reduce fuel la rule = some answer := by
  have h := tells_after steps
  obtain ⟨rfl, -⟩ := table_of_ok hok
  have hwf := Table.wellFounded_emptyMove h.coherent (h.closed_of_ok hok) hacyclic
  -- without a start state or a first token the parse ends at once
  rcases hstart : startState (after steps).draft rule with e | s
  · refine ⟨0, (.error e, la), ?_⟩
    rw [parse, hstart]
  · rcases hpeek : la.peek with ⟨e | t, la'⟩
    · refine ⟨0, (.error e, la'), ?_⟩
      rw [parse, hstart]
      dsimp only
      rw [hpeek]
    · obtain ⟨n, hleft⟩ := la.exists_left hdry
      obtain ⟨fuel, answer, hfin⟩ := halts_continueAt h.coherent hwf hquiet n la' t
        (hleft.peek hpeek) (peek_peek hpeek) #[] (.state s) []
      refine ⟨fuel, answer, ?_⟩
      rw [parse, hstart]
      dsimp only
      rw [hpeek]
      exact hfin

open Builder BuildStep Entry in
/-- Groups may be nested to any depth, and there is no bound on the number of things in them.  The
    only moves that take nothing are the calls. -/
theorem parse_halts_groups :
    let steps : List (BuildStep Reduction) :=
      [.on 0 (lit "(") ⟨none, .state 1⟩, .on 1 (lit "(") ⟨some 0, .state 1⟩,
        .on 1 (lit "x") ⟨none, .state 1⟩, .on 1 (lit ";") ⟨some 2, .state 1⟩,
        .on 1 (lit ")") ⟨none, .accept (some .list) []⟩, .on 2 (lit ";") ⟨none, .state 3⟩,
        .otherwise 3 ⟨none, .accept (some .none) []⟩, .rule (lit "group") 0]
    (after steps).table.1 = .ok groups.draft ∧ groups.draft.Acyclic ∧
      ∃ fuel answer, parse (some groups.draft) Reduction.apply fuel
        ({ source := [op "(", op "x", op ";", op ")"] } : Lookahead (List Token)) (lit "group") =
          some answer := by
  intro steps
  have hok : (after steps).table.1 = .ok groups.draft := by cbv
  have h : Tells steps groups := tells_after steps
  -- all that is known of the table is read off the list of its entries
  have hmem : ∀ {s key a}, groups.draft.entered? s key = some a → ⟨s, key, a⟩ ∈ entries steps :=
    fun ha => mem_of_first? ((h.entered? _ _).symm.trans ha)
  have hstay : ∀ e ∈ entries steps,
      e.key ≠ [] ∧ (e.key = wildcard → e.action.next.isAccept = true) := by decide
  have hcall : ∀ e ∈ entries steps, ∀ callee ∈ e.action.call,
      e.state = 1 ∧ (callee = 0 ∨ callee = 2) := by decide
  have htake : ∀ e ∈ entries steps, e.state = 0 ∨ e.state = 2 →
      e.action.call = none ∧ e.key ≠ wildcard ∧ e.key ≠ [] := by decide
  have hacyclic : groups.draft.Acyclic := by
    refine Table.acyclic_of_rank (fun s => if s = 1 then 1 else 0) fun s s' hmove => ?_
    cases hmove with
    | other ha => exact absurd ((hstay _ (hmem ha)).2 rfl) Bool.false_ne_true
    | ended ha => exact absurd rfl (hstay _ (hmem ha)).1
    | call ha =>
      obtain ⟨hs, hcallee⟩ := hcall _ (hmem ha) _ rfl
      dsimp only at hs
      subst hs
      rcases hcallee with rfl | rfl <;> decide
    | back ha he =>
      -- both rules that are called take a token
      obtain ⟨-, hcallee⟩ := hcall _ (hmem ha) _ rfl
      exact absurd he (h.coherent.not_empties fun key a ha' => htake _ (hmem ha') hcallee)
  exact ⟨hok, hacyclic, parse_halts steps hok hacyclic quiet_apply _ (Or.inr (runsDry_list _)) _⟩

end Parser
end Pushdown
