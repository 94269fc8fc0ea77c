/-
  The parser with a stack of frames computes what a recursive parser would.

  `Runs` is the recursive parser, as a big-step relation on tapes.  It goes on at a target with the
  values that the current rule has so far.  At a state it looks up the head of the tape: an exact
  entry for a token takes the token off the tape and appends it to the values, a wildcard or the end
  of input takes nothing, and a call runs the callee on the same tape with no values and appends its
  result unless there is none.  At an accept the rule ends with what its reduction yields.  There is
  no stack in it: a call is a premise.

  `Parser.run` has one loop instead.  It saves the values of the caller in a frame, reduces as many
  rules as end at once, and holds a token that was looked at before.  What is between the two are
  three differences, and each of them is taken away by one notion:

  * the loop has a lookahead and a source where the relation has a tape, and a lookahead holds a
    tape (`Lookahead.Holds`), with a token at hand if it is ready (`Lookahead.IsReady`);
  * the loop goes on after a rule has ended, where a derivation is complete.  So runs are cut at the
    moment at which the current rule is reduced: `handOver` is what the loop does with the result of
    a rule, and `finish` is the rest of a run after a dispatch;
  * the loop has fuel, and the relation has none.  A run with too little fuel says nothing, and so
    one direction is an induction on the fuel and the other on the derivation.

  The two agree on every table (`parse_iff_parses`):

  * `finish_sound`: a run that ends splits, at the point where the current rule is reduced, into a
    derivation for the rule and a shorter run that hands the result to the frames below;
  * `finish_complete`: a derivation for a rule turns every run that starts with its result into a
    run that starts with the rule.

  Both speak of all stacks of frames at once, since a callee runs on top of its caller's frame.

  Reductions are arbitrary functions of the tape and the values (`Mirrors`).  Since a tape also
  carries data that only reductions touch, they may keep a record there of how they were called.
  Locations are not on the tape, so outcomes are compared without them (`Failure.unplaced`).
-/
import Mathlib
import Pushdown.Parser.Reduction
import Pushdown.Proofs.Parser.Tape
import Pushdown.Table.Builder

namespace Pushdown

/-- A failure without the place where it happened. -/
def Failure.unplaced : Failure → Failure
  | .unexpected e => .unexpected { e with location := {} }
  | .diagnostic d => .diagnostic { d with location := {} }
  | e => e

/-- An outcome without the place of its failure. -/
def unplaced (outcome : Except Failure Value) : Except Failure Value :=
  outcome.mapError Failure.unplaced

/-- What a reduction does, seen as a function of the tape and the values. -/
abbrev Act (μ : Type) := Tape μ → List Value → Except Failure Value × Tape μ

/-- The values of a rule after a result was handed to it; no value adds nothing. -/
def Value.addTo (v : Value) (vs : List Value) : List Value := if v.isNone then vs else vs ++ [v]

namespace Parser

open Text (lit)

variable {σ α μ : Type}

/-! ## The recursive parser

  A rule is a derivation of its own, and a call has the derivation of its callee in it.  There are
  no frames, and no token is held: the tape has a head.  Reductions read and write the tape, since
  they get at the input in the machine as well. -/

/-- What a reduction does; one that is left out yields no value. -/
def perform (act : α → Act μ) : Option α → Act μ
  | some f => act f
  | none => fun tape _ => (.ok .none, tape)

/-- `Runs table act target vs tape r tape'`: with the values `vs` so far, going on at `target` ends
    the current rule with the outcome `r` and leaves `tape'`. -/
inductive Runs (table : Table α) (act : α → Act μ) :
    Target α → List Value → Tape μ → Except Failure Value → Tape μ → Prop where
  /-- The rule ends with the outcome of its reduction. -/
  | accept {f : Option α} {name : Text} {vs : List Value} {tape tape' : Tape μ}
      {r : Except Failure Value} (h : perform act f tape vs = (r, tape')) :
      Runs table act (.accept f name) vs tape r tape'
  /-- No entry for the head of the tape. -/
  | stuck {s : Int} {vs : List Value} {tape : Tape μ}
      (h : table.lookup s tape.head.kind = none) :
      Runs table act (.state s) vs tape
        (.error (.unexpected ⟨s, table.expected s, tape.head, {}⟩)) tape
  /-- An exact match takes the token. -/
  | take {s : Int} {next : Target α} {vs : List Value} {t : Token} {ts : List Token} {u : μ}
      {r : Except Failure Value} {tape' : Tape μ}
      (h : table.lookup s t.kind = some ⟨⟨none, next⟩, true⟩) (ht : t.isEof = false)
      (rest : Runs table act next (vs ++ [.token t]) ⟨ts, u⟩ r tape') :
      Runs table act (.state s) vs ⟨t :: ts, u⟩ r tape'
  /-- A wildcard, or an entry for the end of input, takes nothing. -/
  | stay {s : Int} {next : Target α} {exact : Bool} {vs : List Value} {tape tape' : Tape μ}
      {r : Except Failure Value}
      (h : table.lookup s tape.head.kind = some ⟨⟨none, next⟩, exact⟩)
      (he : exact = false ∨ tape.head.isEof = true)
      (rest : Runs table act next vs tape r tape') :
      Runs table act (.state s) vs tape r tape'
  /-- A call runs the callee by itself and adds its result to the values of the caller. -/
  | call {s callee : Int} {next : Target α} {exact : Bool} {vs : List Value}
      {tape tape₁ tape' : Tape μ} {v : Value} {r : Except Failure Value}
      (h : table.lookup s tape.head.kind = some ⟨⟨some callee, next⟩, exact⟩)
      (sub : Runs table act (.state callee) [] tape (.ok v) tape₁)
      (rest : Runs table act next (v.addTo vs) tape₁ r tape') :
      Runs table act (.state s) vs tape r tape'
  /-- A callee that fails makes the caller fail. -/
  | callFails {s callee : Int} {next : Target α} {exact : Bool} {vs : List Value}
      {tape tape' : Tape μ} {e : Failure}
      (h : table.lookup s tape.head.kind = some ⟨⟨some callee, next⟩, exact⟩)
      (sub : Runs table act (.state callee) [] tape (.error e) tape') :
      Runs table act (.state s) vs tape (.error e) tape'

/-- The recursive parser started with a rule. -/
def Parses (table : Table α) (act : α → Act μ) (rule : Text) (tape : Tape μ)
    (r : Except Failure Value) (tape' : Tape μ) : Prop :=
  match startState table rule with
  | .error e => r = .error e ∧ tape' = tape
  | .ok s => Runs table act (.state s) [] tape r tape'

/-! ## The machine, cut where a rule is reduced

  A machine does not know where a derivation begins and ends.  It is cut at the one place where it
  does the same for all rules, which is where the result of a rule is handed to the frame that waits
  for it. -/

variable [TokenSource σ]

/-- Reductions on lookaheads do to the tape what `act` says. -/
def Mirrors (data : σ → μ) (reduce : α → Reduce σ) (act : α → Act μ) : Prop :=
  ∀ f la tape vs, la.Holds data tape →
    unplaced (reduce f la vs).1 = (act f tape vs).1 ∧
    (reduce f la vs).2.Holds data (act f tape vs).2

/-- What is left to do after a dispatch, with some fuel. -/
def finish (table : Table α) (reduce : α → Reduce σ) (n : Nat) :
    Progress σ α → Option (Except Failure Value × Lookahead σ)
  | .more c => run table reduce n c
  | .done outcome input => some (outcome, input)

/-- Hands the result of a rule to the innermost frame, or ends the parse with it. -/
def handOver (reduce : α → Reduce σ) (la : Lookahead σ) (v : Value) :
    List (Frame α) → Progress σ α
  | [] => .done (.ok v) la
  | frame :: frames =>
    match la.peek with
    | (.error e, la) => .done (.error e) la
    | (.ok token, la) =>
      continueAt reduce la token (if v.isNone then frame.saved else frame.saved.push v)
        frame.next frames

/-- One unit of fuel is one dispatch. -/
theorem run_succ (table : Table α) (reduce : α → Reduce σ) (n : Nat) (c : Config σ α) :
    run table reduce (n + 1) c = finish table reduce n (step table reduce c) := by
  rw [run]
  cases step table reduce c <;> rfl

/-- A rule that ends is reduced, and its result is handed over. -/
theorem continueAt_accept (reduce : α → Reduce σ) (la : Lookahead σ) (token : Token)
    (values : Array Value) (f : Option α) (name : Text) (frames : List (Frame α)) :
    continueAt reduce la token values (.accept f name) frames =
      match applyReduction reduce f la values.toList with
      | (.error e, la) => .done (.error e) la
      | (.ok v, la) => handOver reduce la v frames := by
  -- `continueAt` has the hand-over written out, once for no frame and once for some
  rw [continueAt.eq_def]
  dsimp only
  rcases applyReduction reduce f la values.toList with ⟨e | v, la'⟩
  · rfl
  · cases frames <;> rfl

/-- The values that are saved in a frame, with a result added, as a list. -/
theorem toList_saved (v : Value) (saved : Array Value) :
    (if v.isNone then saved else saved.push v).toList = v.addTo saved.toList := by
  unfold Value.addTo
  split
  · rfl
  · exact Array.toList_push

/-- A reduction that may be left out mirrors one that may be left out. -/
theorem Mirrors.applyReduction {data : σ → μ} {reduce : α → Reduce σ} {act : α → Act μ}
    (hact : Mirrors data reduce act) (f : Option α) {la : Lookahead σ} {tape : Tape μ}
    (vs : List Value) (h : la.Holds data tape) :
    unplaced (Parser.applyReduction reduce f la vs).1 = (perform act f tape vs).1 ∧
    (Parser.applyReduction reduce f la vs).2.Holds data (perform act f tape vs).2 := by
  cases f with
  | none => exact ⟨rfl, h⟩
  | some f => exact hact f la tape vs h

/-- Handing a result to a frame goes on where the frame says, with the head of the tape at hand. -/
theorem handOver_cons {data : σ → μ} {la : Lookahead σ} {tape : Tape μ} (reduce : α → Reduce σ)
    (h : la.Holds data tape) (v : Value) (frame : Frame α) (frames : List (Frame α)) :
    ∃ la', la'.Holds data tape ∧ la'.IsReady ∧
      handOver reduce la v (frame :: frames) =
        continueAt reduce la' tape.head (if v.isNone then frame.saved else frame.saved.push v)
          frame.next frames := by
  obtain ⟨la', hpeek, hholds, hready⟩ := h.peek
  refine ⟨la', hholds, hready, ?_⟩
  rw [handOver, hpeek]

/-! ## One dispatch, by what the look-up finds

  The configuration is one at which the loop dispatches: the token at hand is the head of the tape
  and has been looked at. -/

section Dispatch

variable {data : σ → μ} {table : Table α} {reduce : α → Reduce σ} {s : Int} {values : Array Value}
  {frames : List (Frame α)} {la : Lookahead σ} {tape : Tape μ} {next : Target α} {exact : Bool}

/-- Without an entry the parse ends here. -/
theorem step_stuck (h : table.lookup s tape.head.kind = none) :
    step table reduce ⟨s, tape.head, values, frames, la⟩ =
      .done (.error (.unexpected ⟨s, table.expected s, tape.head, la.location⟩)) la := by
  rw [step, h]

/-- A call goes on at the callee, with a new frame and no values. -/
theorem step_call {callee : Int}
    (h : table.lookup s tape.head.kind = some ⟨⟨some callee, next⟩, exact⟩) :
    step table reduce ⟨s, tape.head, values, frames, la⟩ =
      continueAt reduce la tape.head #[] (.state callee) (⟨next, values⟩ :: frames) := by
  rw [step, h]
  rfl

/-- An entry that takes nothing goes on with what is at hand. -/
theorem step_stay (h : table.lookup s tape.head.kind = some ⟨⟨none, next⟩, exact⟩)
    (he : exact = false ∨ tape.head.isEof = true) :
    step table reduce ⟨s, tape.head, values, frames, la⟩ =
      continueAt reduce la tape.head values next frames := by
  have hno : (exact && !tape.head.isEof) = false := by
    rcases he with he | he
    · rw [he, Bool.false_and]
    · rw [he, Bool.not_true, Bool.and_false]
  rw [step, h]
  simp only [hno]
  rfl

/-- An entry for the very token goes on behind it, with the token among the values. -/
theorem step_take {t : Token} {ts : List Token} {u : μ} (reduce : α → Reduce σ)
    (values : Array Value) (frames : List (Frame α)) (hla : la.Holds data ⟨t :: ts, u⟩)
    (hr : la.IsReady) (h : table.lookup s t.kind = some ⟨⟨none, next⟩, true⟩)
    (ht : t.isEof = false) :
    ∃ la', la'.Holds data ⟨ts, u⟩ ∧ la'.IsReady ∧
      step table reduce ⟨s, (Tape.mk (t :: ts) u).head, values, frames, la⟩ =
        continueAt reduce la' (Tape.mk ts u).head (values.push (.token t)) next frames := by
  -- taking the token moves on the tape, and the next one is looked at
  obtain ⟨la₁, hget, hla₁⟩ := hla.get hr
  obtain ⟨la₂, hpeek, hla₂, hr₂⟩ := hla₁.peek
  refine ⟨la₂, hla₂, hr₂, ?_⟩
  show step table reduce ⟨s, t, values, frames, la⟩ = _
  rw [step, h]
  simp only [ht, Bool.not_false, Bool.and_self, ↓reduceIte, hget, hpeek]

end Dispatch

/-! ## Runs are derivations

  From the machine to the derivation of the rule that is at hand.  What the machine does behind the
  end of that rule belongs to the callers, and `Ends` leaves it to them with the fuel that is
  left. -/

variable {data : σ → μ} {table : Table α} {reduce : α → Reduce σ} {act : α → Act μ}

/-- How a run ends that reaches the end of the current rule with the outcome `r` and the tape
    `tape'`: a failure ends the parse, and a value is handed to the frames with at most `n` fuel
    left. -/
def Ends (data : σ → μ) (table : Table α) (reduce : α → Reduce σ) (n : Nat)
    (frames : List (Frame α)) (r : Except Failure Value) (tape' : Tape μ)
    (answer : Except Failure Value × Lookahead σ) : Prop :=
  match r with
  | .error e => unplaced answer.1 = .error e ∧ answer.2.Holds data tape'
  | .ok v => ∃ la', la'.Holds data tape' ∧ ∃ m ≤ n,
      finish table reduce m (handOver reduce la' v frames) = some answer

/-- More fuel may be left than was counted. -/
theorem Ends.mono {n m : Nat} {frames : List (Frame α)} {r : Except Failure Value} {tape' : Tape μ}
    {answer : Except Failure Value × Lookahead σ}
    (h : Ends data table reduce n frames r tape' answer) (hnm : n ≤ m) :
    Ends data table reduce m frames r tape' answer := by
  cases r with
  | error e => exact h
  | ok v =>
    obtain ⟨la', hla', k, hk, hfin⟩ := h
    exact ⟨la', hla', k, Nat.le_trans hk hnm, hfin⟩

/-- A rule that is accepted ends with its reduction. -/
theorem accept_sound (hact : Mirrors data reduce act) {n : Nat} {f : Option α} {name : Text}
    {values : Array Value} {frames : List (Frame α)} {la : Lookahead σ} {tape : Tape μ}
    {answer : Except Failure Value × Lookahead σ} (hla : la.Holds data tape)
    (hfin : finish table reduce n
      (continueAt reduce la tape.head values (.accept f name) frames) = some answer) :
    ∃ r tape', Runs table act (.accept f name) values.toList tape r tape' ∧
      Ends data table reduce n frames r tape' answer := by
  obtain ⟨hr, htape⟩ := hact.applyReduction f values.toList hla
  rw [continueAt_accept] at hfin
  refine ⟨(perform act f tape values.toList).1, (perform act f tape values.toList).2,
    .accept rfl, ?_⟩
  -- a failure is the answer of the parse, and a value is left to the frames
  rcases hred : applyReduction reduce f la values.toList with ⟨e | v, la'⟩
  · rw [hred] at hfin hr htape
    obtain rfl : (.error e, la') = answer := Option.some.inj hfin
    rw [← hr]
    exact ⟨rfl, htape⟩
  · rw [hred] at hfin hr htape
    rw [← hr]
    exact ⟨la', htape, n, Nat.le_refl n, hfin⟩

/-- **A run that ends contains a derivation for the current rule.**  Induction on the fuel: a call
    uses the hypothesis twice, for the callee and then for the caller with what fuel the callee
    has left. -/
theorem finish_sound (hact : Mirrors data reduce act) : ∀ (n : Nat) (target : Target α)
    (values : Array Value) (frames : List (Frame α)) (la : Lookahead σ) (tape : Tape μ)
    (answer : Except Failure Value × Lookahead σ), la.Holds data tape → la.IsReady →
    finish table reduce n (continueAt reduce la tape.head values target frames) = some answer →
    ∃ r tape', Runs table act target values.toList tape r tape' ∧
      Ends data table reduce n frames r tape' answer := by
  intro n
  induction n using Nat.strongRecOn with
  | ind n ih =>
    intro target values frames la tape answer hla hready hfin
    -- at an accept the rule ends here, and at a state there is one dispatch more
    cases target with
    | accept f name => exact accept_sound hact hla hfin
    | state s =>
      cases n with
      | zero =>
        rw [continueAt, finish, run] at hfin
        contradiction
      | succ n =>
        have hrun : run table reduce (n + 1) ⟨s, tape.head, values, frames, la⟩ = some answer := by
          rw [continueAt] at hfin
          exact hfin
        rw [run_succ] at hrun
        rcases hlook : table.lookup s tape.head.kind with _ | ⟨⟨_ | callee, next⟩, exact⟩
        · -- no entry
          rw [step_stuck hlook] at hrun
          obtain rfl := Option.some.inj hrun
          exact ⟨_, _, .stuck hlook, rfl, hla⟩
        · -- no call: either the token is taken or the tape stays
          by_cases hexact : exact = false ∨ tape.head.isEof = true
          · rw [step_stay hlook hexact] at hrun
            obtain ⟨r, tape', hruns, hends⟩ :=
              ih n (Nat.lt_succ_self n) next values frames la tape answer hla hready hrun
            exact ⟨r, tape', .stay hlook hexact hruns, hends.mono (Nat.le_succ n)⟩
          · obtain ⟨hexact, heof⟩ := not_or.mp hexact
            rw [Bool.not_eq_false] at hexact
            rw [Bool.not_eq_true] at heof
            subst hexact
            obtain ⟨tokens, u⟩ := tape
            cases tokens with
            | nil => cases heof
            | cons t ts =>
              obtain ⟨la', hla', hready', hstep⟩ :=
                step_take reduce values frames hla hready hlook heof
              rw [hstep] at hrun
              obtain ⟨r, tape', hruns, hends⟩ := ih n (Nat.lt_succ_self n) next
                (values.push (.token t)) frames la' ⟨ts, u⟩ answer hla' hready' hrun
              rw [Array.toList_push] at hruns
              exact ⟨r, tape', .take hlook heof hruns, hends.mono (Nat.le_succ n)⟩
        · -- a call
          rw [step_call hlook] at hrun
          obtain ⟨r, tape₁, hsub, hends⟩ := ih n (Nat.lt_succ_self n) (.state callee) #[]
            (⟨next, values⟩ :: frames) la tape answer hla hready hrun
          -- a callee that fails is the end of the parse; its value is handed to the frame that the
          -- call has pushed, and the caller goes on with the fuel that is left
          cases r with
          | error e => exact ⟨_, _, .callFails hlook hsub, hends⟩
          | ok v =>
            obtain ⟨la₁, hla₁, m, hm, hfin₁⟩ := hends
            obtain ⟨la₂, hla₂, hready₂, heq⟩ := handOver_cons reduce hla₁ v ⟨next, values⟩ frames
            rw [heq] at hfin₁
            obtain ⟨r, tape', hruns, hends⟩ :=
              ih m (Nat.lt_succ_of_le hm) next _ frames la₂ tape₁ answer hla₂ hready₂ hfin₁
            rw [toList_saved] at hruns
            exact ⟨r, tape', .call hlook hsub hruns, hends.mono (Nat.le_succ_of_le hm)⟩

/-! ## Derivations are runs

  The other direction finds fuel for the machine.  `Leads` speaks of every answer that the callers
  may come to, so that derivations can be put one after the other. -/

/-- `progress` leads to the end of the current rule with the outcome `r` and the tape `tape'`: a
    failure is the answer of the parse, and for a value every answer from there is the answer of
    `progress`. -/
def Leads (data : σ → μ) (table : Table α) (reduce : α → Reduce σ) (frames : List (Frame α))
    (r : Except Failure Value) (tape' : Tape μ) (progress : Progress σ α) : Prop :=
  match r with
  | .error e => ∃ n answer, finish table reduce n progress = some answer ∧
      unplaced answer.1 = .error e ∧ answer.2.Holds data tape'
  | .ok v => ∃ la', la'.Holds data tape' ∧ ∀ m answer,
      finish table reduce m (handOver reduce la' v frames) = some answer →
      ∃ n, finish table reduce n progress = some answer

/-- A state is left by one dispatch. -/
theorem Leads.dispatch {frames : List (Frame α)} {r : Except Failure Value} {tape' : Tape μ}
    {s : Int} {token : Token} {values : Array Value} {la : Lookahead σ}
    (h : Leads data table reduce frames r tape'
      (step table reduce ⟨s, token, values, frames, la⟩)) :
    Leads data table reduce frames r tape'
      (continueAt reduce la token values (.state s) frames) := by
  rw [continueAt]
  cases r with
  | error e =>
    obtain ⟨n, answer, hfin, hrest⟩ := h
    -- the dispatch takes one unit of fuel
    rw [← run_succ] at hfin
    exact ⟨n + 1, answer, hfin, hrest⟩
  | ok v =>
    obtain ⟨la', hla', hall⟩ := h
    refine ⟨la', hla', fun m answer hm => ?_⟩
    obtain ⟨n, hn⟩ := hall m answer hm
    rw [← run_succ] at hn
    exact ⟨n + 1, hn⟩

/-- **A derivation for the current rule is carried out by the machine**, whatever frames are below
    it.  Induction on the derivation; for a call the callee runs on top of the caller's frame. -/
theorem finish_complete (hact : Mirrors data reduce act) {target : Target α} {vs : List Value}
    {tape tape' : Tape μ} {r : Except Failure Value} (h : Runs table act target vs tape r tape') :
    ∀ (values : Array Value) (frames : List (Frame α)) (la : Lookahead σ), values.toList = vs →
    la.Holds data tape → la.IsReady →
    Leads data table reduce frames r tape'
      (continueAt reduce la tape.head values target frames) := by
  induction h with
  -- in every other case one dispatch leads to a premise
  | @accept f name vs tape tape' r h =>
    intro values frames la hvs hla hready
    obtain ⟨hr, htape⟩ := hact.applyReduction f vs hla
    rw [h] at hr htape
    rw [continueAt_accept, hvs]
    rcases hred : applyReduction reduce f la vs with ⟨e | v, la'⟩
    · rw [hred] at hr htape
      dsimp only at hr
      subst hr
      exact ⟨0, (.error e, la'), rfl, rfl, htape⟩
    · rw [hred] at hr htape
      dsimp only at hr
      subst hr
      exact ⟨la', htape, fun m answer hm => ⟨m, hm⟩⟩
  | stuck h =>
    intro values frames la hvs hla hready
    apply Leads.dispatch
    rw [step_stuck h]
    exact ⟨0, _, rfl, rfl, hla⟩
  | take h ht rest ih =>
    intro values frames la hvs hla hready
    apply Leads.dispatch
    obtain ⟨la', hla', hready', hstep⟩ := step_take reduce values frames hla hready h ht
    rw [hstep]
    exact ih _ frames la' (by rw [Array.toList_push, hvs]) hla' hready'
  | stay h he rest ih =>
    intro values frames la hvs hla hready
    apply Leads.dispatch
    rw [step_stay h he]
    exact ih values frames la hvs hla hready
  | @call s callee next exact vs tape tape₁ tape' v r h sub rest ihsub ihrest =>
    intro values frames la hvs hla hready
    apply Leads.dispatch
    -- the frames differ from here on, so the goal is met through the answers
    rw [step_call h]
    obtain ⟨la₁, hla₁, hback⟩ := ihsub #[] (⟨next, values⟩ :: frames) la rfl hla hready
    obtain ⟨la₂, hla₂, hready₂, heq⟩ := handOver_cons reduce hla₁ v ⟨next, values⟩ frames
    rw [heq] at hback
    have hrest := ihrest _ frames la₂ (by rw [toList_saved, hvs]) hla₂ hready₂
    -- the outcome of the caller is the outcome of the whole rule
    cases r with
    | error e =>
      obtain ⟨n, answer, hfin, hans⟩ := hrest
      obtain ⟨n', hfin'⟩ := hback n answer hfin
      exact ⟨n', answer, hfin', hans⟩
    | ok w =>
      obtain ⟨la₃, hla₃, hback₃⟩ := hrest
      refine ⟨la₃, hla₃, fun m answer hm => ?_⟩
      obtain ⟨n, hn⟩ := hback₃ m answer hm
      exact hback n answer hn
  | @callFails s callee next exact vs tape tape' e h sub ih =>
    intro values frames la hvs hla hready
    apply Leads.dispatch
    rw [step_call h]
    exact ih #[] (⟨next, values⟩ :: frames) la rfl hla hready

/-! ## Reductions that record their calls

  The reductions that table descriptions can name do not touch the lookahead.  Here they also note
  in the user's data what they were called with, the last call first. -/

/-- What a named reduction does, seen as a function of the values. -/
def actOf (f : Reduction) : Act μ :=
  fun tape vs => (unplaced (f.apply (⟨[], [], false⟩ : Lookahead (List Token)) vs).1, tape)

/-- A named reduction that records its call. -/
def recording (f : Reduction) : Reduce (Carrying σ (List (Reduction × List Value))) :=
  fun la vs =>
    ((f.apply la vs).1, { la with source := ⟨la.source.source, (f, vs) :: la.source.data⟩ })

/-- What such a reduction does to a tape. -/
def recorded (f : Reduction) : Act (List (Reduction × List Value)) :=
  fun tape vs => ((actOf f tape vs).1, ⟨tape.tokens, (f, vs) :: tape.data⟩)

/-- Where the source stands shows in the places of failures only. -/
theorem unplaced_apply {τ : Type} [TokenSource τ] (f : Reduction) (la : Lookahead σ)
    (la' : Lookahead τ) (vs : List Value) :
    unplaced (f.apply la vs).1 = unplaced (f.apply la' vs).1 := by
  cases f with
  | number =>
    simp only [Reduction.apply, Reduction.numberOf]
    split
    · rfl
    · split <;> rfl
  | _ => rfl

/-- Named reductions that keep a record are functions of the tape and the values.  This is the case
    that shows in which order, and with which values, rules are reduced. -/
theorem recording_mirrors :
    Mirrors (fun s : Carrying σ _ => s.data) recording recorded := by
  intro f la tape vs hla
  -- only the data changes, and it is not the part of the tape that the source has to deliver
  obtain ⟨hd, ⟨rest, hts, hrest⟩, hq⟩ := hla
  refine ⟨unplaced_apply f la _ vs, ⟨?_, ⟨rest, hts, ?_⟩, hq⟩⟩
  · show (f, vs) :: la.source.data = (f, vs) :: tape.data
    rw [hd]
  · show if la.ended = true then rest = [] else _
    split at hrest
    · rename_i he
      rw [if_pos he]
      exact hrest
    · rename_i he
      rw [if_neg he]
      exact delivers_carrying.mpr (delivers_carrying.mp hrest)

/-! ## The parser and the recursive parser

  Without frames, the end of the rule is the end of the parse. -/

/-- The outermost rule: with no frame to return to, its outcome is the answer of the run. -/
theorem run_iff_runs (hact : Mirrors data reduce act) {la : Lookahead σ} {tape : Tape μ}
    (hla : la.Holds data tape) (hready : la.IsReady) (s : Int) (r : Except Failure Value)
    (tape' : Tape μ) :
    (∃ fuel outcome la', run table reduce fuel { state := s, token := tape.head, input := la } =
        some (outcome, la') ∧ unplaced outcome = r ∧ la'.Holds data tape') ↔
      Runs table act (.state s) [] tape r tape' := by
  constructor
  -- without a frame, handing over is the end
  · rintro ⟨fuel, outcome, la', hrun, rfl, hla'⟩
    obtain ⟨r, tape₁, hruns, hends⟩ :=
      finish_sound hact fuel (.state s) #[] [] la tape (outcome, la') hla hready hrun
    cases r with
    | error e =>
      obtain ⟨he, htape⟩ := hends
      rw [hla'.unique htape, he]
      exact hruns
    | ok v =>
      obtain ⟨la₁, hla₁, m, -, hfin⟩ := hends
      obtain ⟨rfl, rfl⟩ := Prod.mk.inj (Option.some.inj hfin)
      rw [hla'.unique hla₁]
      exact hruns
  · intro hruns
    have hleads := finish_complete hact hruns #[] [] la rfl hla hready
    cases r with
    | error e =>
      obtain ⟨n, answer, hfin, hans⟩ := hleads
      exact ⟨n, answer.1, answer.2, hfin, hans⟩
    | ok v =>
      obtain ⟨la', hla', hback⟩ := hleads
      obtain ⟨n, hn⟩ := hback 0 (.ok v, la') rfl
      exact ⟨n, .ok v, la', hn, rfl, hla'⟩

/-- An error about a rule or a start state has no place. -/
theorem unplaced_startState {table : Table α} {rule : Text} {e : Failure}
    (h : startState table rule = .error e) : unplaced (.error e) = .error e := by
  unfold startState at h
  split at h <;> split at h
  all_goals first | contradiction | (obtain rfl := Except.error.inj h; rfl)

/-- **An explicit stack computes what recursion does.**  For every table, every rule, every
    lookahead that holds a finite list of tokens and all reductions that are functions of tape and
    values: the parser yields an outcome and leaves a tape exactly if the recursive parser does. -/
theorem parse_iff_parses (data : σ → μ) (table : Table α) (reduce : α → Reduce σ)
    (act : α → Act μ) (hact : Mirrors data reduce act) (la : Lookahead σ) (tape : Tape μ)
    (hla : la.Holds data tape) (rule : Text) (r : Except Failure Value) (tape' : Tape μ) :
    (∃ fuel outcome la', parse (some table) reduce fuel la rule = some (outcome, la') ∧
        unplaced outcome = r ∧ la'.Holds data tape') ↔
      Parses table act rule tape r tape' := by
  unfold Parses
  cases hstart : startState table rule with
  | error e =>
    have hparse (fuel : Nat) : parse (some table) reduce fuel la rule = some (.error e, la) := by
      rw [parse, hstart]
    constructor
    · rintro ⟨fuel, outcome, la', h, rfl, hla'⟩
      rw [hparse] at h
      obtain ⟨rfl, rfl⟩ := Prod.mk.inj (Option.some.inj h)
      exact ⟨unplaced_startState hstart, hla'.unique hla⟩
    · rintro ⟨rfl, rfl⟩
      exact ⟨0, .error e, la, hparse 0, unplaced_startState hstart, hla⟩
  | ok s =>
    obtain ⟨la₁, hpeek, hla₁, hready₁⟩ := hla.peek
    have hparse (fuel : Nat) : parse (some table) reduce fuel la rule =
        run table reduce fuel { state := s, token := tape.head, input := la₁ } := by
      rw [parse, hstart]
      dsimp only
      rw [hpeek]
    simp only [hparse]
    exact run_iff_runs hact hla₁ hready₁ s r tape'

/-- Groups in parentheses.  A `;` is read by a rule of its own, which has no value. -/
def groups : Builder Reduction :=
  let b : Builder Reduction := {}
  let b := b.on 0 (lit "(") ⟨none, .state 1⟩
  let b := b.on 1 (lit "(") ⟨some 0, .state 1⟩
  let b := b.on 1 (lit "x") ⟨none, .state 1⟩
  let b := b.on 1 (lit ";") ⟨some 2, .state 1⟩
  let b := b.on 1 (lit ")") ⟨none, .accept (some .list) []⟩
  let b := b.on 2 (lit ";") ⟨none, .state 3⟩
  let b := b.otherwise 3 ⟨none, .accept (some .none) []⟩
  b.rule (lit "group") 0

/-- An operator as a token. -/
def op (s : String) : Token := ⟨lit s, lit s⟩

/-- Two groups, one in the other, with a `;` that adds no value.  The record shows the reductions in
    the order in which the rules end, the last one first, and the `y` behind the group is left. -/
theorem groups_parses :
    let item := Value.token (op "x")
    let inner := [.token (op "("), item, .token (op ")")]
    let outer := [.token (op "("), item, .list inner, .token (op ")")]
    groups.table.1 = .ok groups.draft ∧
    Parses groups.draft recorded (lit "group")
      ⟨[op "(", op "x", op ";", op "(", op "x", op ")", op ")", op "y"], []⟩
      (.ok (.list outer))
      ⟨[op "y"], [(.list, outer), (.list, inner), (.none, [.token (op ";")])]⟩ := by
  intro item inner outer
  refine ⟨by cbv, (parse_iff_parses Carrying.data groups.draft recording recorded
    recording_mirrors
    ⟨⟨[op "(", op "x", op ";", op "(", op "x", op ")", op ")", op "y"], []⟩, [], false⟩ _
    ⟨rfl, ⟨_, rfl, delivers_carrying.mpr (delivers_list _)⟩, by simp⟩ (lit "group") _ _).mp ?_⟩
  refine ⟨20, .ok (.list outer), ⟨⟨[], _⟩, [op "y"], false⟩, ?_, rfl, ⟨rfl, ⟨[], rfl, ?_⟩, ?_⟩⟩
  · cbv
  · exact delivers_carrying.mpr (delivers_list [])
  · decide

end Parser
end Pushdown
