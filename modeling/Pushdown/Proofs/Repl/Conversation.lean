/-
  What a session remembers.

  A conversation is a list of lines that were evaluated one after the other, each with the disk as
  it was then and with what came of it.  A session has a table, a rule and a search path, and a turn
  of a conversation changes at most one of the first two (`Turn.Changes`): a rule that is named
  replaces the rule, and a `:table` that does not fail replaces the table.  So the state of a
  session is what the last such turn has set (`Latest`), or what it was in the beginning.

  Which turns count is told from the text of a line, from the disk and from whether an error came of
  it (`Turn.SetsRule`, `Turn.SetsTable`), and what they give from the file that they name
  (`Disk.HoldsTable`).  None of these mentions the session, so that nothing of what is to be shown
  goes into saying it.

  The proof is one lemma on a turn and one induction on the conversation.
  `Turn.changes_of_evaluates` goes through the commands once.  Everything else about a turn is read
  off its few constructors: the path stays (`Changes.path_eq`), rule and table are set or stay
  (`Changes.rule_cases`, `Changes.table_cases`), and a failure changes nothing
  (`Changes.eq_of_error`).

  That a line has one outcome at most needs an argument as well.  Evaluation is computed with fuel,
  which is used up only by parsing, and more fuel does not change an outcome (`Session.eval_mono`).
  `Session.Evaluates` forgets the fuel.

  This is all that a line can see of the lines before it (`conversation_settled`).  Scripts and
  interactive sessions are conversations (`conversation_of_evalLines`).
-/
import Pushdown.Disk.Edit
import Pushdown.Repl.Session
import Mathlib.Tactic.SplitIfs

namespace Pushdown

open Text (lit)

/-! ## What is set last

  `Latest` says which of many turns the present state comes from.  It is told of lists of anything,
  with what counts and what it gives as parameters, since rules and tables are set in the same
  way. -/

/-- `Latest counts gives start xs y`: the last of `xs` that counts gives `y`, and if none counts,
    `y` is what was there at the start. -/
inductive Latest {τ β : Type} (counts : τ → Prop) (gives : τ → β → Prop) (start : β) :
    List τ → β → Prop
  | never {xs : List τ} (h : ∀ x ∈ xs, ¬ counts x) : Latest counts gives start xs start
  | last {before after : List τ} {x : τ} {y : β} (hx : counts x) (hy : gives x y)
      (hafter : ∀ u ∈ after, ¬ counts u) : Latest counts gives start (before ++ x :: after) y

namespace Latest

variable {τ β : Type} {counts : τ → Prop} {gives : τ → β → Prop} {start y z : β} {x : τ}
  {xs : List τ}

/-- At first there is what was there at the start. -/
theorem nil : Latest counts gives start [] start := .never (List.forall_mem_nil _)

/-- What is given last is given last with anything in front. -/
theorem last_cons {before after : List τ} {u : τ} (hu : counts u) (hz : gives u z)
    (hafter : ∀ w ∈ after, ¬ counts w) :
    Latest counts gives start (x :: (before ++ u :: after)) z := by
  rw [← List.cons_append]
  exact .last hu hz hafter

/-- What is first of all given counts as the start of the rest. -/
theorem cons_of_counts (hx : counts x) (hy : gives x y) (h : Latest counts gives y xs z) :
    Latest counts gives start (x :: xs) z := by
  cases h with
  | never h =>
    rw [← List.nil_append (x :: xs)]
    exact .last hx hy h
  | last hu hz hafter => exact last_cons hu hz hafter

/-- What does not count may come first. -/
theorem cons_of_not (hx : ¬ counts x) (h : Latest counts gives start xs z) :
    Latest counts gives start (x :: xs) z := by
  cases h with
  | never h => exact .never (List.forall_mem_cons.mpr ⟨hx, h⟩)
  | last hu hz hafter => exact last_cons hu hz hafter

/-- If each gives one thing at most, only one thing is given last. -/
theorem unique (hgives : ∀ x y z, gives x y → gives x z → y = z)
    (hy : Latest counts gives start xs y) (hz : Latest counts gives start xs z) : y = z := by
  -- either nothing counts, or there is a last thing that does
  have hsplit {y : β} (h : Latest counts gives start xs y) : (∀ x ∈ xs, ¬ counts x) ∧ y = start ∨
      ∃ before x after, xs = before ++ x :: after ∧ counts x ∧ gives x y ∧
        ∀ u ∈ after, ¬ counts u := by
    cases h with
    | never h => exact .inl ⟨h, rfl⟩
    | last hx hy hafter => exact .inr ⟨_, _, _, rfl, hx, hy, hafter⟩
  have hhead {x x' : τ} {after after' as : List τ} (h : x :: after = as ++ x' :: after')
      (hx' : counts x') (hafter : ∀ u ∈ after, ¬ counts u) : x = x' := by
    cases as with
    | nil => exact (List.cons.inj h).1
    | cons a as =>
      obtain ⟨-, rfl⟩ := List.cons.inj h
      exact absurd hx' (hafter x' List.mem_append_cons_self)
  rcases hsplit hy with ⟨hnone, rfl⟩ | ⟨before, x, after, rfl, hx, hxy, hafter⟩
  · rcases hsplit hz with ⟨-, rfl⟩ | ⟨before', x', after', rfl, hx', -, -⟩
    · rfl
    · exact absurd hx' (hnone x' List.mem_append_cons_self)
  · rcases hsplit hz with ⟨hnone, -⟩ | ⟨before', x', after', heq, hx', hxz, hafter'⟩
    · exact absurd hx (hnone x List.mem_append_cons_self)
    · -- neither of the two stands behind the other
      have hx : x = x' := by
        rcases List.append_eq_append_iff.mp heq with ⟨as, -, has⟩ | ⟨as, -, has⟩
        · exact hhead has hx' hafter
        · exact (hhead has hx hafter').symm
      exact hgives x y z hxy (hx ▸ hxz)

end Latest

/-! ## Turns

  A turn is told from its line, its disk and its outcome alone. -/

/-- The file of a path holds the description of a table. -/
def Disk.HoldsTable (d : Disk) (path : Text) (t : Table Reduction) : Prop :=
  ∃ node content spec, d.lookup path = .ok node ∧ d.content node = .ok content ∧
    TableSpec.read content = .ok spec ∧ spec.build Reduction.ofName? = .ok t

/-- A line that was evaluated, the disk as it was then, and what came of the line. -/
structure Turn where
  disk : Disk
  line : Text
  outcome : Evaluation

/-- The line is a command of the given words. -/
def IsCommand (line : Text) (words : List Text) : Prop :=
  ∃ t, line = Text.byte ':' :: t ∧ Text.words t = words

/-- The line is input, or names files with input. -/
def IsInput (line : Text) : Prop :=
  (∀ words, ¬ IsCommand line words) ∨ ∃ files, IsCommand line (lit "file" :: files)

namespace Turn

/-- A rule is named. -/
def SetsRule (x : Turn) : Prop := ∃ rule more, IsCommand x.line (lit "rule" :: rule :: more)

/-- The rule that is named. -/
def GivesRule (x : Turn) (rule : Text) : Prop :=
  ∃ more, IsCommand x.line (lit "rule" :: rule :: more)

/-- A `:table` that did not fail. -/
def SetsTable (x : Turn) : Prop :=
  (∃ args, IsCommand x.line (lit "table" :: args)) ∧ x.outcome.error = none

/-- The table of a `:table`: none, or that of the file which is named. -/
def GivesTable (x : Turn) (table : Option (Table Reduction)) : Prop :=
  IsCommand x.line [lit "table"] ∧ table = none ∨
    ∃ path more t, IsCommand x.line (lit "table" :: path :: more) ∧ x.disk.HoldsTable path t ∧
      table = some t

end Turn

namespace Session

/-- Evaluating a line comes to an end, with however many dispatches it takes. -/
def Evaluates (s : Session) (d : Disk) (line : Text) (e : Evaluation) : Prop :=
  ∃ fuel, s.eval fuel d line = some e

/-- The turns lead from a session to another one. -/
inductive Conversation : Session → List Turn → Session → Prop
  | nil (s : Session) : Conversation s [] s
  | cons {s s' : Session} {x : Turn} {turns : List Turn}
      (hx : s.Evaluates x.disk x.line x.outcome) (rest : Conversation x.outcome.session turns s') :
      Conversation s (x :: turns) s'

end Session

/-! ## One turn

  Every command is looked at once, in the order in which they are told apart. -/

/-- A table is loaded if and only if the file holds it. -/
theorem loadTable_eq_ok_iff {d : Disk} {path : Text} {t : Table Reduction} :
    loadTable d path = .ok t ↔ d.HoldsTable path t := by
  constructor
  · intro h
    unfold loadTable at h
    split at h
    · cases h
    · rename_i node hnode
      split at h
      · cases h
      · rename_i content hcontent
        split at h
        · cases h
        · rename_i spec hspec
          split at h
          · cases h
          · rename_i t' ht
            obtain rfl := Except.ok.inj h
            exact ⟨node, content, spec, hnode, hcontent, hspec, ht⟩
  · rintro ⟨node, content, spec, hnode, hcontent, hspec, ht⟩
    simp only [loadTable, hnode, hcontent, hspec, ht]

namespace IsCommand

variable {line : Text} {ws ws' : List Text}

/-- A command has these words and no others. -/
theorem unique (h : IsCommand line ws) (h' : IsCommand line ws') : ws = ws' := by
  obtain ⟨t, rfl, rfl⟩ := h
  obtain ⟨t', ht, rfl⟩ := h'
  rw [(List.cons.inj ht).2]

end IsCommand

namespace Session

variable {s : Session} {d : Disk} {line : Text} {e : Evaluation} {fuel : Nat}

/-- A command is evaluated by its words. -/
theorem eval_command (s : Session) (fuel : Nat) (d : Disk) {ws : List Text}
    (h : IsCommand line ws) : s.eval fuel d line = s.command fuel d ws := by
  obtain ⟨t, rfl, rfl⟩ := h
  rw [eval]
  exact if_pos rfl

/-- Any other line is input. -/
theorem eval_input (s : Session) (fuel : Nat) (d : Disk) (h : ∀ ws, ¬ IsCommand line ws) :
    s.eval fuel d line = s.run fuel d line [] := by
  unfold eval
  cases line with
  | nil => rfl
  | cons b t =>
    dsimp only
    rw [if_neg]
    rintro rfl
    exact h _ ⟨t, rfl, rfl⟩

/-- A line is a command or it is run as input. -/
theorem eval_cases (line : Text) :
    (∃ ws, IsCommand line ws ∧
      ∀ (s : Session) fuel d, s.eval fuel d line = s.command fuel d ws) ∨
    (∀ ws, ¬ IsCommand line ws) ∧
      ∀ (s : Session) fuel d, s.eval fuel d line = s.run fuel d line [] := by
  by_cases h : ∃ ws, IsCommand line ws
  · obtain ⟨ws, hws⟩ := h
    exact .inl ⟨ws, hws, fun s fuel d => s.eval_command fuel d hws⟩
  · have hinput := not_exists.mp h
    exact .inr ⟨hinput, fun s fuel d => s.eval_input fuel d hinput⟩

/-- Running input changes nothing. -/
theorem session_of_run {input : Text} {files : List Text} (h : s.run fuel d input files = some e) :
    e.session = s := by
  unfold run at h
  obtain ⟨⟨output, failure⟩, -, rfl⟩ := Option.map_eq_some_iff.mp h
  cases failure <;> rfl

end Session

/-- What a turn does to the table and the rule of a session. -/
inductive Turn.Changes (x : Turn) (s : Session) : Session → Prop
  | rule {name : Text} {more : List Text} (h : IsCommand x.line (lit "rule" :: name :: more))
      (he : x.outcome.error = none) : x.Changes s { s with rule := name }
  | noTable (h : IsCommand x.line [lit "table"]) (he : x.outcome.error = none) :
      x.Changes s { s with table := none }
  | table {path : Text} {more : List Text} {t : Table Reduction}
      (h : IsCommand x.line (lit "table" :: path :: more)) (ht : x.disk.HoldsTable path t)
      (he : x.outcome.error = none) : x.Changes s { s with table := some t }
  | nothing (hrule : ¬ x.SetsRule) (htable : ¬ x.SetsTable) : x.Changes s s

namespace Turn

variable {x : Turn} {s : Session} {ws : List Text}

/-- A command that neither names a rule nor is a `:table` without an error changes nothing. -/
theorem Changes.of_command (h : IsCommand x.line ws)
    (hrule : ∀ rule more, ws ≠ lit "rule" :: rule :: more)
    (htable : ∀ args, ws = lit "table" :: args → x.outcome.error ≠ none) : x.Changes s s := by
  refine .nothing ?_ ?_
  · rintro ⟨rule, more, h'⟩
    exact hrule rule more (h.unique h')
  · rintro ⟨⟨args, h'⟩, he⟩
    exact htable args (h.unique h') he

/-- A command that is neither `:rule` nor `:table` changes nothing. -/
theorem Changes.of_name {name : Text} {args : List Text} (h : IsCommand x.line (name :: args))
    (hrule : name ≠ lit "rule") (htable : name ≠ lit "table") : x.Changes s s :=
  .of_command h (fun _ _ heq => hrule (List.cons.inj heq).1)
    fun _ heq => absurd (List.cons.inj heq).1 htable

/-- A line that is no command changes nothing. -/
theorem Changes.of_not_command (h : ∀ ws, ¬ IsCommand x.line ws) : x.Changes s s :=
  .nothing (fun ⟨_, _, h'⟩ => h _ h') (fun ⟨⟨_, h'⟩, _⟩ => h _ h')

/-- A `:table` with a path takes the table that the file holds, or fails. -/
theorem changes_of_load {d : Disk} {line path : Text} {more : List Text} {fuel : Nat}
    {e : Evaluation} (hws : IsCommand line (lit "table" :: path :: more))
    (h : s.command fuel d (lit "table" :: path :: more) = some e) :
    (Turn.mk d line e).Changes s e.session := by
  rw [Session.command, if_neg (by decide), if_neg (by decide), if_pos rfl] at h
  rcases hload : loadTable d path with _ | t
  · rw [hload] at h
    obtain rfl := Option.some.inj h
    -- the error of loading stands in the outcome
    exact .of_command hws (fun _ _ heq => absurd (List.cons.inj heq).1 (by decide)) nofun
  · rw [hload] at h
    obtain rfl := Option.some.inj h
    exact .table hws (loadTable_eq_ok_iff.mp hload) rfl

/-- What a command changes, by its first word. -/
theorem changes_of_command {d : Disk} {line : Text} {fuel : Nat} {e : Evaluation}
    (hws : IsCommand line ws) (h : s.command fuel d ws = some e) :
    (Turn.mk d line e).Changes s e.session := by
  cases ws with
  | nil =>
    obtain rfl := Option.some.inj h
    exact .of_command hws nofun nofun
  | cons name args =>
    have hcommand := h
    unfold Session.command at h
    dsimp only at h
    split_ifs at h with hquit hrule htable hfile
    · obtain rfl := Option.some.inj h
      refine .of_name hws ?_ ?_ <;> rintro rfl <;> exact absurd hquit (by decide)
    · obtain rfl := hrule
      obtain rfl := Option.some.inj h
      cases args with
      | nil => exact .of_command hws nofun fun _ heq => absurd (List.cons.inj heq).1 (by decide)
      | cons rule more => exact .rule hws rfl
    · obtain rfl := htable
      cases args with
      | nil =>
        obtain rfl := Option.some.inj h
        exact .noTable hws rfl
      | cons path more => exact changes_of_load hws hcommand
    · obtain rfl := hfile
      rw [Session.session_of_run h]
      exact .of_name hws (by decide) (by decide)
    · obtain rfl := Option.some.inj h
      exact .of_name hws hrule htable

/-- **What a turn changes.** -/
theorem changes_of_evaluates (h : s.Evaluates x.disk x.line x.outcome) :
    x.Changes s x.outcome.session := by
  obtain ⟨fuel, h⟩ := h
  rcases Session.eval_cases x.line with ⟨ws, hws, heval⟩ | ⟨hinput, heval⟩
  · rw [heval] at h
    exact changes_of_command hws h
  · rw [heval] at h
    rw [Session.session_of_run h]
    exact .of_not_command hinput

namespace Changes

variable {s' : Session}

/-- The search path stays. -/
theorem path_eq (h : x.Changes s s') : s'.path = s.path := by
  cases h <;> rfl

/-- The rule is the one that is named, or it stays. -/
theorem rule_cases (h : x.Changes s s') :
    x.SetsRule ∧ x.GivesRule s'.rule ∨ ¬ x.SetsRule ∧ s'.rule = s.rule := by
  have hother {args : List Text} (h : IsCommand x.line (lit "table" :: args)) :
      ¬ x.SetsRule := by
    rintro ⟨rule, more, h'⟩
    exact absurd (List.cons.inj (h.unique h')).1 (by decide)
  cases h with
  | rule h he => exact .inl ⟨⟨_, _, h⟩, _, h⟩
  | noTable h he => exact .inr ⟨hother h, rfl⟩
  | table h ht he => exact .inr ⟨hother h, rfl⟩
  | nothing hrule htable => exact .inr ⟨hrule, rfl⟩

/-- The table is the one that is given, or it stays. -/
theorem table_cases (h : x.Changes s s') :
    x.SetsTable ∧ x.GivesTable s'.table ∨ ¬ x.SetsTable ∧ s'.table = s.table := by
  cases h with
  | rule h he =>
    refine .inr ⟨?_, rfl⟩
    rintro ⟨⟨args, h'⟩, -⟩
    exact absurd (List.cons.inj (h.unique h')).1 (by decide)
  | noTable h he => exact .inl ⟨⟨⟨_, h⟩, he⟩, .inl ⟨h, rfl⟩⟩
  | table h ht he => exact .inl ⟨⟨⟨_, h⟩, he⟩, .inr ⟨_, _, _, h, ht, rfl⟩⟩
  | nothing hrule htable => exact .inr ⟨htable, rfl⟩

/-- A turn that fails changes nothing. -/
theorem eq_of_error (h : x.Changes s s') (he : x.outcome.error ≠ none) : s' = s := by
  cases h with
  | rule _ he' => exact absurd he' he
  | noTable _ he' => exact absurd he' he
  | table _ _ he' => exact absurd he' he
  | nothing => rfl

/-- A turn that sets nothing changes nothing. -/
theorem eq_of_not (h : x.Changes s s') (hrule : ¬ x.SetsRule) (htable : ¬ x.SetsTable) :
    s' = s := by
  cases h with
  | rule h _ => exact absurd ⟨_, _, h⟩ hrule
  | noTable h he => exact absurd ⟨⟨_, h⟩, he⟩ htable
  | table h _ he => exact absurd ⟨⟨_, h⟩, he⟩ htable
  | nothing => rfl

end Changes

/-- One rule is named. -/
theorem GivesRule.unique {rule rule' : Text} (h : x.GivesRule rule) (h' : x.GivesRule rule') :
    rule = rule' := by
  obtain ⟨more, h⟩ := h
  obtain ⟨more', h'⟩ := h'
  exact (List.cons.inj (List.cons.inj (h.unique h')).2).1

/-- One table is given, since a file holds one at most. -/
theorem GivesTable.unique {table table' : Option (Table Reduction)} (h : x.GivesTable table)
    (h' : x.GivesTable table') : table = table' := by
  rcases h with ⟨h, rfl⟩ | ⟨path, more, t, h, ht, rfl⟩
  · rcases h' with ⟨-, rfl⟩ | ⟨path, more, t, h', -, -⟩
    · rfl
    · cases h.unique h'
  · rcases h' with ⟨h', -⟩ | ⟨path', more', t', h', ht', rfl⟩
    · cases h.unique h'
    · obtain ⟨rfl, -⟩ := List.cons.inj (List.cons.inj (h.unique h')).2
      rw [← loadTable_eq_ok_iff] at ht ht'
      rw [Except.ok.inj (ht.symm.trans ht')]

end Turn

/-! ## The outcome of a line

  Outcomes are compared between two sessions, and for this they must not depend on how much fuel
  there was. -/

namespace Parser

variable {σ α : Type} [TokenSource σ]

/-- More dispatches do not change what a parse returns. -/
theorem parse_mono {table : Option (Table α)} {reduce : α → Reduce σ} {n m : Nat}
    {la : Lookahead σ} {rule : Text} {r : Except Failure Value × Lookahead σ}
    (h : parse table reduce n la rule = some r) (hnm : n ≤ m) :
    parse table reduce m la rule = some r := by
  unfold parse at h ⊢
  split at h
  · exact h
  · split at h
    · exact h
    · split at h
      · exact h
      · exact run_mono h hnm

end Parser

namespace Session

variable {s : Session} {d : Disk} {line : Text} {e e' : Evaluation} {n m : Nat}

/-- Nor what comes of input. -/
theorem run_mono {input : Text} {files : List Text} (h : s.run n d input files = some e)
    (hnm : n ≤ m) : s.run m d input files = some e := by
  unfold run at h ⊢
  cases htable : s.table with
  | none =>
    rw [htable] at h
    exact h
  | some table =>
    rw [htable] at h
    obtain ⟨r, hr, rfl⟩ := Option.map_eq_some_iff.mp h
    refine Option.map_eq_some_iff.mpr ⟨r, ?_, rfl⟩
    dsimp only at hr ⊢
    unfold parseTokens at hr ⊢
    split at hr
    · cases hr
    · rename_i hparse
      rw [Parser.parse_mono hparse hnm]
      exact hr
    · rename_i hparse
      rw [Parser.parse_mono hparse hnm]
      exact hr

/-- Nor what comes of any line. -/
theorem eval_mono (h : s.eval n d line = some e) (hnm : n ≤ m) : s.eval m d line = some e := by
  rcases eval_cases line with ⟨ws, -, heval⟩ | ⟨-, heval⟩
  · rw [heval] at h ⊢
    cases ws with
    | nil => exact h
    | cons name args =>
      unfold command at h ⊢
      dsimp only at h ⊢
      split_ifs at h ⊢
      · exact h
      · exact h
      · exact h
      · exact run_mono h hnm
      · exact h
  · rw [heval] at h ⊢
    exact run_mono h hnm

/-- Without a table every line has an outcome, whatever it is. -/
theorem exists_eval (h : s.table = none) (fuel : Nat) (d : Disk) (line : Text) :
    ∃ e, s.eval fuel d line = some e := by
  have hrun (input : Text) (files : List Text) : ∃ e, s.run fuel d input files = some e := by
    unfold run
    rw [h]
    exact ⟨_, rfl⟩
  rcases eval_cases line with ⟨ws, -, heval⟩ | ⟨-, heval⟩
  · rw [heval]
    cases ws with
    | nil => exact ⟨_, rfl⟩
    | cons name args =>
      unfold command
      dsimp only
      split_ifs
      · exact ⟨_, rfl⟩
      · exact ⟨_, rfl⟩
      · cases args with
        | nil => exact ⟨_, rfl⟩
        | cons path more =>
          dsimp only
          cases loadTable d path <;> exact ⟨_, rfl⟩
      · exact hrun [] args
      · exact ⟨_, rfl⟩
  · rw [heval]
    exact hrun line []

/-- A line has one outcome at most. -/
theorem Evaluates.unique (h : s.Evaluates d line e) (h' : s.Evaluates d line e') : e = e' := by
  obtain ⟨n, h⟩ := h
  obtain ⟨m, h'⟩ := h'
  rcases Nat.le_total n m with hnm | hmn
  · exact Option.some.inj ((eval_mono h hnm).symm.trans h')
  · exact Option.some.inj (h.symm.trans (eval_mono h' hmn))

/-- A line of input or of files changes nothing. -/
theorem Evaluates.session_eq (h : s.Evaluates d line e) (hline : IsInput line) :
    e.session = s := by
  obtain ⟨n, h⟩ := h
  rcases hline with hline | ⟨files, hline⟩
  · rw [s.eval_input n d hline] at h
    exact session_of_run h
  · rw [s.eval_command n d hline] at h
    exact session_of_run h

/-! ## Conversations -/

namespace Conversation

variable {s' : Session} {turns before after : List Turn}

/-- A conversation can be stopped after any of its turns. -/
theorem of_append (h : Conversation s (before ++ after) s') :
    ∃ s₁, Conversation s before s₁ ∧ Conversation s₁ after s' := by
  induction before generalizing s with
  | nil => exact ⟨s, .nil s, h⟩
  | cons x before ih =>
    cases h with
    | cons hx rest =>
      obtain ⟨s₁, hbefore, hafter⟩ := ih rest
      exact ⟨s₁, .cons hx hbefore, hafter⟩

/-- The search path is the first one. -/
theorem path_eq (h : Conversation s turns s') : s'.path = s.path := by
  induction h with
  | nil => rfl
  | cons hx _ ih => rw [ih, (Turn.changes_of_evaluates hx).path_eq]

/-- **The rule is the one that was named last.** -/
theorem rule (h : Conversation s turns s') :
    Latest Turn.SetsRule Turn.GivesRule s.rule turns s'.rule := by
  induction h with
  | nil => exact .nil
  | cons hx _ ih =>
    rcases (Turn.changes_of_evaluates hx).rule_cases with ⟨hsets, hgives⟩ | ⟨hsets, hrule⟩
    · exact ih.cons_of_counts hsets hgives
    · rw [hrule] at ih
      exact ih.cons_of_not hsets

/-- **The table is that of the last `:table` which did not fail.** -/
theorem table (h : Conversation s turns s') :
    Latest Turn.SetsTable Turn.GivesTable s.table turns s'.table := by
  induction h with
  | nil => exact .nil
  | cons hx _ ih =>
    rcases (Turn.changes_of_evaluates hx).table_cases with ⟨hsets, hgives⟩ | ⟨hsets, htable⟩
    · exact ih.cons_of_counts hsets hgives
    · rw [htable] at ih
      exact ih.cons_of_not hsets

end Conversation

/-- **A session is what its last commands have made it.**  Let some lines be evaluated, one after
    the other, on disks that may change in between.  After any number of them the search path is
    still the first one, the rule is the one that was named last, and the table is that of the last
    `:table` which did not fail.  A line that fails changes nothing, and neither does one that does
    not set a rule or a table.  Whatever line of input or of files comes next, it leads to the same
    outcome as in a new session with this table, this rule and this path, and to none in one if it
    leads to none in the other. -/
theorem conversation_settled {s s' : Session} {turns : List Turn} (h : Conversation s turns s') :
    ∀ before after, turns = before ++ after → ∃ s₁,
      Conversation s before s₁ ∧ Conversation s₁ after s' ∧
      s₁.path = s.path ∧
      Latest Turn.SetsRule Turn.GivesRule s.rule before s₁.rule ∧
      Latest Turn.SetsTable Turn.GivesTable s.table before s₁.table ∧
      (∀ x later, after = x :: later →
        (x.outcome.error ≠ none → x.outcome.session = s₁) ∧
        (¬ x.SetsRule → ¬ x.SetsTable → x.outcome.session = s₁)) ∧
      ∀ rule table, Latest Turn.SetsRule Turn.GivesRule s.rule before rule →
        Latest Turn.SetsTable Turn.GivesTable s.table before table →
        ∀ d line, IsInput line →
          (∀ e, s₁.Evaluates d line e ↔ Evaluates ⟨table, rule, s.path⟩ d line e) ∧
          ∀ e e', s₁.Evaluates d line e → Evaluates ⟨table, rule, s.path⟩ d line e' →
            e' = e ∧ e.session = s₁ := by
  rintro before after rfl
  obtain ⟨s₁, hbefore, hafter⟩ := h.of_append
  refine ⟨s₁, hbefore, hafter, hbefore.path_eq, hbefore.rule, hbefore.table, ?_, ?_⟩
  · rintro x later rfl
    cases hafter with
    | cons hx _ =>
      have hchanges := Turn.changes_of_evaluates hx
      exact ⟨hchanges.eq_of_error, hchanges.eq_of_not⟩
  -- only one rule and one table can be the last that were set
  · intro rule table hrule htable d line hline
    obtain rfl := hrule.unique (fun _ _ _ h h' => h.unique h') hbefore.rule
    obtain rfl := htable.unique (fun _ _ _ h h' => h.unique h') hbefore.table
    rw [← hbefore.path_eq]
    exact ⟨fun e => Iff.rfl, fun e e' he he' => ⟨he'.unique he, he.session_eq hline⟩⟩

/-- A rule and a table are set, a table is asked for that is not there, a command is unknown, and
    the table is dropped in front of a line of input. -/
theorem conversation_settled_failing :
    let d := (Disk.empty []).write (lit "t") (lit "\x7b\"states\":[\x7b\x7d]\x7d")
    ∃ turns s', Conversation {} turns s' ∧
      turns.map Turn.line =
        [lit ":rule E", lit ":table t", lit ":table u", lit ":rest", lit ":table", lit "x 'y'"] ∧
      turns.map Turn.disk = List.replicate 6 d ∧
      (turns.take 5).map (·.outcome.error.isSome) = [false, false, true, true, false] ∧
      s'.path = [] ∧
      ∃ s₁, Conversation {} (turns.take 4) s₁ ∧ s₁.path = [] ∧ s₁.table.isSome = true := by
  intro d
  have hlines : ((eval 0 d {} (lit ":rule E")).bind fun e₁ =>
      (eval 0 d e₁.session (lit ":table t")).bind fun e₂ =>
      (eval 0 d e₂.session (lit ":table u")).bind fun e₃ =>
      (eval 0 d e₃.session (lit ":rest")).bind fun e₄ =>
      (eval 0 d e₄.session (lit ":table")).map fun e₅ =>
        ([e₁, e₂, e₃, e₄, e₅].map (·.error.isSome),
          e₄.session.table.isSome, e₅.session.table.isSome)) =
      some ([false, false, true, true, false], true, false) := by decide +kernel
  obtain ⟨e₁, h₁, hlines⟩ := Option.bind_eq_some_iff.mp hlines
  obtain ⟨e₂, h₂, hlines⟩ := Option.bind_eq_some_iff.mp hlines
  obtain ⟨e₃, h₃, hlines⟩ := Option.bind_eq_some_iff.mp hlines
  obtain ⟨e₄, h₄, hlines⟩ := Option.bind_eq_some_iff.mp hlines
  obtain ⟨e₅, h₅, hlines⟩ := Option.map_eq_some_iff.mp hlines
  obtain ⟨herrors, htables⟩ := Prod.mk.inj hlines
  obtain ⟨htable, hnone⟩ := Prod.mk.inj htables
  have hnone : e₅.session.table = none :=
    Option.not_isSome_iff_eq_none.mp (Bool.eq_false_iff.mp hnone)
  obtain ⟨e₆, h₆⟩ := exists_eval hnone 0 d (lit "x 'y'")
  have h : Conversation {}
      [⟨d, lit ":rule E", e₁⟩, ⟨d, lit ":table t", e₂⟩, ⟨d, lit ":table u", e₃⟩,
        ⟨d, lit ":rest", e₄⟩, ⟨d, lit ":table", e₅⟩, ⟨d, lit "x 'y'", e₆⟩] e₆.session :=
    .cons ⟨0, h₁⟩ <| .cons ⟨0, h₂⟩ <| .cons ⟨0, h₃⟩ <| .cons ⟨0, h₄⟩ <| .cons ⟨0, h₅⟩ <|
      .cons ⟨0, h₆⟩ <| .nil _
  refine ⟨_, _, h, rfl, rfl, herrors, ?_, ?_⟩
  · obtain ⟨s', -, hrest, hpath, -⟩ := conversation_settled h _ [] (List.append_nil _).symm
    cases hrest
    exact hpath
  · obtain ⟨s₁, hbefore, -, hpath, -⟩ :=
      conversation_settled h _ _ (List.take_append_drop 4 _).symm
    refine ⟨s₁, hbefore, hpath, ?_⟩
    -- four turns lead to the session in which the table is still there
    rcases hbefore with _ | ⟨-, _ | ⟨-, _ | ⟨-, _ | ⟨-, _ | _⟩⟩⟩⟩
    exact htable

/-! ## Scripts and interactive sessions

  A script is evaluated line by line, with white space trimmed and empty lines left out.  It is a
  conversation on one disk. -/

/-- Evaluating lines is a conversation on a single disk.  Its lines are the given ones without the
    blanks around them, except those with nothing on them, as far as they were evaluated; unless the
    end of the session counts, these are all lines.  What is shown is what its turns show. -/
theorem conversation_of_evalLines {s s' : Session} {fuel : Nat} {d : Disk} {quits : Bool}
    {lines : List Text} {out : Text} (h : s.evalLines fuel d quits lines = some (out, s')) :
    ∃ turns left, Conversation s turns s' ∧ (∀ x ∈ turns, x.disk = d) ∧
      (lines.map Text.trim).filter (· ≠ []) = turns.map Turn.line ++ left ∧
      (quits = false → left = []) ∧ out = turns.flatMap (·.outcome.output) := by
  induction lines generalizing s out with
  | nil =>
    obtain ⟨rfl, rfl⟩ := Prod.mk.inj (Option.some.inj h)
    exact ⟨[], [], .nil s, List.forall_mem_nil _, rfl, fun _ => rfl, rfl⟩
  | cons line lines ih =>
    rw [evalLines] at h
    dsimp only at h
    by_cases hline : Text.trim line = []
    · rw [if_pos hline] at h
      obtain ⟨turns, left, hturns, hdisk, hlines, hleft, hout⟩ := ih h
      refine ⟨turns, left, hturns, hdisk, ?_, hleft, hout⟩
      rw [List.map_cons, List.filter_cons_of_neg (by simpa using hline), hlines]
    · rw [if_neg hline] at h
      rcases heval : s.eval fuel d (Text.trim line) with _ | e
      · rw [heval] at h
        cases h
      · rw [heval] at h
        dsimp only at h
        have hfilter : (((line :: lines).map Text.trim).filter (· ≠ [])) =
            Text.trim line :: (lines.map Text.trim).filter (· ≠ []) := by
          rw [List.map_cons, List.filter_cons_of_pos (by simpa using hline)]
        split at h
        · rename_i hquits
          obtain ⟨rfl, rfl⟩ := Prod.mk.inj (Option.some.inj h)
          refine ⟨[⟨d, Text.trim line, e⟩], _, .cons ⟨fuel, heval⟩ (.nil _), by simp, hfilter, ?_,
            by simp⟩
          rintro rfl
          cases hquits
        · obtain ⟨⟨out', s''⟩, hrest, heq⟩ := Option.map_eq_some_iff.mp h
          obtain ⟨rfl, rfl⟩ := Prod.mk.inj heq
          obtain ⟨turns, left, hturns, hdisk, hlines, hleft, rfl⟩ := ih hrest
          refine ⟨⟨d, Text.trim line, e⟩ :: turns, left, .cons ⟨fuel, heval⟩ hturns,
            List.forall_mem_cons.mpr ⟨rfl, hdisk⟩, ?_, hleft, rfl⟩
          rw [hfilter, hlines]
          rfl

end Session
end Pushdown
