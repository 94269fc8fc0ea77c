/-
  What a parse error tells.

  A parse that gets stuck tells the state, the keys that would have been welcome, the token that it
  found and a place.  `Truthful` says that all of it is so, and that the token stays to be read: the
  lookahead still has it at hand, and the source is not asked for it again.

  Each of these facts comes from another corner of the program.  The state and the token are those
  of the dispatch that finds no entry (`Stuck`).  The keys are listed by a walk along a row of the
  matrix, while an entry is found by a lookup; that the two agree is a matter of tables only
  (`Table.Coherent.mem_expected_iff`).  That the token stays is a matter of lookaheads only, since
  what was looked at is taken without a question to the source (`Lookahead.get_of_peeked`).

  The place is the delicate part, since it is asked for when the parse gets stuck and not when the
  token is delivered.  It is right because the source is asked for one token only, when the one
  before it was taken (`Tracked`): as long as nothing is put back, whatever was asked of the parser
  before, the token at hand is what the source answered last.  A source with a log of its answers
  and places makes that visible (`Surveyed`).

  Sources and reductions have failures of their own, which a parse only passes on, and they may well
  look like parse errors.  Nothing can be said about what they tell, but it can be said where they
  come from, and that is the last thing that the parse did:

  * `Fails` is a failure on the way from a rule that ends to the state where the parse goes on;
  * `Breaks` is a failure of a dispatch that has an entry, and it allows for no other causes;
  * `PassedOn` is a parse that comes to such a dispatch, or fails to see its first token.

  One pass over the cases of a dispatch gives both what is left of the input and the cause of a
  failure (`fares_step`).  So a parse comes to one of two ends (`parse_cases`), and the second of
  them is truthful (`parse_truthful`).  That the first is really there, and that a token which is
  expected need not be accepted by the reduction of its entry, is what `parse_not_truthful` shows.
-/
import Pushdown.Proofs.Parser.Dispatch
import Pushdown.Proofs.Table.Sharing

namespace Pushdown

/-! ## The keys of a state

  The keys that a message lists and the entries that a dispatch finds are two views of one row of
  the matrix.  The column of the wildcard is left out of the list, and the list is put in order by a
  map. -/

namespace Dict

variable {β : Type} {l : List (Text × β)} {k : Text}

/-- A key is found if and only if some entry has it, whichever of its entries is found. -/
theorem isSome_find_iff {es : List (Text × β)} :
    (find k es).isSome = true ↔ k ∈ es.map Prod.fst := by
  -- the entry in front is the one that is found if it has the key
  induction es with
  | nil => exact iff_of_false nofun nofun
  | cons e es ih =>
    rw [find_cons, List.map_cons, List.mem_cons]
    by_cases hk : e.1 = k
    · rw [if_pos hk]
      exact iff_of_true rfl (Or.inl hk.symm)
    · rw [if_neg hk, ih]
      exact (or_iff_right fun h => hk h.symm).symm

/-- A map of bindings has the keys of the bindings. -/
theorem mem_keys_ofList_iff : k ∈ (ofList l).entries.map Prod.fst ↔ k ∈ l.map Prod.fst := by
  have hkeys : k ∈ (ofList l).entries.map Prod.fst ↔ (find k l.reverse).isSome = true := by
    rw [← get?_ofList, get?, isSome_find_iff]
  rw [hkeys, isSome_find_iff, List.map_reverse, List.mem_reverse]

end Dict

namespace Table

variable {α : Type} {t : Table α} {s : Int} {key : Text}

/-- The keys are listed in ascending order, since they pass through an ordered map. -/
theorem pairwise_expected (t : Table α) (s : Int) : (t.expected s).Pairwise (· < ·) := by
  unfold expected
  exact List.pairwise_map.mpr (Dict.ordered _)

/-- A cell of a row is an entry of the state. -/
theorem Coherent.exists_entry_of_mem_row (h : t.Coherent) {col : Nat} {v : Option Nat}
    (hmem : (col, v) ∈ t.dispatch.row s) :
    t.keys[col]? = some (t.keys.getD col []) ∧ ∃ a, (t.keys.getD col [], a) ∈ t.entries s := by
  obtain ⟨-, hcol, i, hi, rfl⟩ := h.cell s.toNat _ (SparseMatrix.mem_rowAt_of_mem_row hmem)
  refine ⟨?_, t.actions[i], List.mem_filterMap.mpr ⟨_, hmem, ?_⟩⟩
  · rw [Array.getD_eq_getD_getElem?, Array.getElem?_eq_getElem hcol]
    rfl
  · show Option.map _ (t.actions[i]?) = _
    rw [Array.getElem?_eq_getElem hi]
    rfl

/-- The keys that a state expects are those that it has an entry of their own for. -/
theorem Coherent.mem_expected_iff (h : t.Coherent) :
    key ∈ t.expected s ↔ key ≠ wildcard ∧ ∃ a, t.lookup s key = some ⟨a, true⟩ := by
  -- the listing walks along the row of the state and leaves out the column of the wildcard, which
  -- is the first one
  have hentries : key ∈ t.expected s ↔ key ≠ wildcard ∧ ∃ a, (key, a) ∈ t.entries s := by
    unfold expected
    rw [Dict.mem_keys_ofList_iff, List.map_map, List.map_map, List.mem_map]
    constructor
    · rintro ⟨⟨col, v⟩, hmem, rfl⟩
      obtain ⟨hmem, hcol⟩ := List.mem_filter.mp hmem
      obtain ⟨hkey, hentry⟩ := h.exists_entry_of_mem_row hmem
      -- keys are distinct, so that a second column of the wildcard is ruled out
      refine ⟨fun hwild => of_decide_eq_true hcol (h.unique hkey ?_), hentry⟩
      exact h.first.trans (congrArg some hwild.symm)
    · rintro ⟨hne, a, hentry⟩
      obtain ⟨⟨col, v⟩, hmem, hv⟩ := List.mem_filterMap.mp hentry
      obtain ⟨b, -, hb⟩ := Option.map_eq_some_iff.mp hv
      obtain ⟨rfl, rfl⟩ := Prod.mk.inj hb
      obtain ⟨hkey, -⟩ := h.exists_entry_of_mem_row hmem
      refine ⟨(col, v), List.mem_filter.mpr ⟨hmem, decide_eq_true fun hzero => hne ?_⟩, rfl⟩
      have hzero : col = 0 := hzero
      rw [hzero, h.first] at hkey
      rw [hzero]
      exact (Option.some.inj hkey).symm
  simp only [h.lookup_exact_iff, hentries, h.mem_entries_iff]
  constructor
  · rintro ⟨hne, a, ha⟩
    exact ⟨hne, a, hne, ha⟩
  · rintro ⟨hne, a, -, ha⟩
    exact ⟨hne, a, ha⟩

/-- Where nothing is found there is no entry, neither for the key nor for the wildcard. -/
theorem Coherent.not_mem_entries_of_lookup (h : t.Coherent) (hnone : t.lookup s key = none)
    (a : Action α) : (key, a) ∉ t.entries s ∧ (wildcard, a) ∉ t.entries s := by
  rw [h.lookup_eq, prefer, Option.or_eq_none_iff, Option.map_eq_none_iff,
    Option.map_eq_none_iff] at hnone
  obtain ⟨hown, hother⟩ := hnone
  rw [h.mem_entries_iff, h.mem_entries_iff, hother]
  have hne : none ≠ some a := (Option.some_ne_none a).symm
  refine ⟨?_, hne⟩
  by_cases hkey : key = wildcard
  · rw [hkey, hother]
    exact hne
  · rw [if_neg hkey] at hown
    rw [hown]
    exact hne

end Table

/-! ## Sources with a log of places

  A place is asked for when it is needed, and by then the source could have moved on.  The log keeps
  the place with each answer, so that "where the source stood then" is something that can be
  stated. -/

/-- A source that keeps a log of its answers, each with the place where the source stood then. -/
structure Surveyed (σ : Type) where
  source : σ
  log : List (Answer × Location) := []

variable {σ μ α : Type} [TokenSource σ]

/-- A request goes on to the source below, and the place is asked for right behind its answer. -/
instance : TokenSource (Surveyed σ) where
  next s :=
    let (answer, source) := TokenSource.next s.source
    (answer, ⟨source, s.log ++ [(answer, TokenSource.location source)]⟩)
  location s := TokenSource.location s.source

/-- Such a source, with data of the user beside it.  Reductions may write to the data, but not to
    the log. -/
abbrev Observed (σ μ : Type) := Carrying (Surveyed σ) μ

namespace Lookahead

variable {la la' : Lookahead (Observed σ μ)} {t : Token} {a : Answer}

/-- What the source answered last, and where it stood then. -/
def lastAnswer? (la : Lookahead (Observed σ μ)) : Option (Answer × Location) :=
  la.source.source.log.getLast?

/-- Nothing has been put back: the source was not asked since the token at hand was delivered. -/
inductive Tracked (la : Lookahead (Observed σ μ)) : Prop
  /-- No token is at hand. -/
  | idle (hq : la.queue = []) (he : la.ended = false)
  | ahead {t : Token} (hq : la.queue = [t]) (he : la.ended = false) (ht : t.isEof = false)
      (hlast : la.lastAnswer? = some (.ok t, la.location))
  | ended {t : Token} (hq : la.queue = []) (he : la.ended = true) (ht : t.isEof = true)
      (hlast : la.lastAnswer? = some (.ok t, la.location))

/-- The answer that a request gives is the last one of the log, with the place right behind it. -/
theorem lastAnswer?_of_next {s s' : Observed σ μ} (h : TokenSource.next s = (a, s')) :
    s'.source.log.getLast? = some (a, TokenSource.location s') := by
  obtain ⟨rfl, rfl⟩ := Prod.mk.inj h
  exact List.getLast?_concat

/-- A failure of the source shows in its log. -/
theorem lastAnswer?_of_peek {f : Failure} (hp : la.peek = (.error f, la')) :
    la'.lastAnswer? = some (.error f, la'.location) := by
  cases peeks_of_peek hp with
  | failed _ _ hs => exact lastAnswer?_of_next hs

/-- Looking keeps track: either nothing is asked, or what is asked for is put at hand. -/
theorem Tracked.peek (h : la.Tracked) (hp : la.peek = (a, la')) : la'.Tracked := by
  cases peeks_of_peek hp with
  | ready => exact h
  | failed hq he hs => exact .idle hq he
  | ended hq he hs ht => exact .ended hq rfl ht (lastAnswer?_of_next hs)
  | pulled hq he hs ht => exact .ahead rfl he ht (lastAnswer?_of_next hs)

/-- Taking a token keeps track: it leaves nothing at hand, and the end stays the end. -/
theorem Tracked.get (h : la.Tracked) (hg : la.get = (a, la')) : la'.Tracked := by
  rcases hpeek : la.peek with ⟨f | t, la₁⟩
  · rw [get_of_error hpeek] at hg
    obtain ⟨-, rfl⟩ := Prod.mk.inj hg
    exact h.peek hpeek
  · have hpeeked := h.peek hpeek
    by_cases ht : t.isEof = true
    · rw [get_of_eof hpeek ht] at hg
      obtain ⟨-, rfl⟩ := Prod.mk.inj hg
      exact hpeeked
    · rw [get_of_token hpeek (Bool.eq_false_iff.mpr ht)] at hg
      obtain ⟨-, rfl⟩ := Prod.mk.inj hg
      -- a token that was at hand is gone, and the source has not been asked for another one
      cases hpeeked with
      | idle hq he => exact .idle (by rw [hq]; rfl) he
      | ahead hq he => exact .idle (by rw [hq]; rfl) he
      | ended hq he ht hlast => exact .ended (by rw [hq]; rfl) he ht hlast

/-- The data of the user do not matter. -/
theorem Tracked.withData (h : la.Tracked) (data : μ) :
    Tracked { la with source := { la.source with data } } := by
  cases h with
  | idle hq he => exact .idle hq he
  | ahead hq he ht hlast => exact .ahead hq he ht hlast
  | ended hq he ht hlast => exact .ended hq he ht hlast

/-- The token at hand is what the source answered last, and there it stands. -/
theorem Tracked.lastAnswer? (h : la.Tracked) (hp : la.peek = (.ok t, la)) :
    ∃ u, la.lastAnswer? = some (.ok u, la.location) ∧ (u = t ∨ u.isEof = true ∧ t = .eof) := by
  have hready := (peeks_of_peek hp).isReady
  have ht := (Prod.mk.inj (hready.peek_eq.symm.trans hp)).1
  cases h with
  | idle hq he =>
    rcases hready with hne | he'
    · exact absurd hq hne
    · rw [he] at he'
      exact nomatch he'
  | @ahead u hq _ _ hlast =>
    rw [hq] at ht
    exact ⟨u, hlast, Or.inl (Except.ok.inj ht)⟩
  | @ended u hq _ hu hlast =>
    rw [hq] at ht
    exact ⟨u, hlast, Or.inr ⟨hu, (Except.ok.inj ht).symm⟩⟩

/-- A token that was looked at is taken without asking the source. -/
theorem get_of_peeked (hp : la.peek = (.ok t, la)) :
    la.get.1 = .ok t ∧ la.get.2.source = la.source := by
  by_cases ht : t.isEof = true
  · rw [get_of_eof hp ht]
    exact ⟨rfl, rfl⟩
  · rw [get_of_token hp (Bool.eq_false_iff.mpr ht)]
    exact ⟨rfl, rfl⟩

end Lookahead

namespace Parser

variable {table : Table α} {reduce : α → Reduce (Observed σ μ)}
  {la la₁ la' : Lookahead (Observed σ μ)} {c c' : Config (Observed σ μ) α}
  {f : Failure} {t : Token}

/-! ## What a parse does to its input

  Everything that a parse does to its lookahead is looking, taking and reducing, in some order.
  That is enough to know for what is kept by all of these. -/

/-- Reductions leave the lookahead alone.  All that they may change is the data of the user. -/
def LeavesInput (reduce : α → Reduce (Observed σ μ)) : Prop :=
  ∀ g la vs, ∃ data, (reduce g la vs).2 = { la with source := { la.source with data } }

/-- `Via reduce la la'`: looking, taking tokens and reducing lead from `la` to `la'`. -/
inductive Via (reduce : α → Reduce (Observed σ μ))
    (la : Lookahead (Observed σ μ)) : Lookahead (Observed σ μ) → Prop
  | refl : Via reduce la la
  | peek {la₁ la₂ : Lookahead (Observed σ μ)} {a : Answer} (h : Via reduce la la₁)
      (hp : la₁.peek = (a, la₂)) : Via reduce la la₂
  | get {la₁ la₂ : Lookahead (Observed σ μ)} {a : Answer} (h : Via reduce la la₁)
      (hg : la₁.get = (a, la₂)) : Via reduce la la₂
  | reduction {la₁ la₂ : Lookahead (Observed σ μ)} {g : Option α} {vs : List Value}
      {r : Except Failure Value} (h : Via reduce la la₁)
      (hr : applyReduction reduce g la₁ vs = (r, la₂)) : Via reduce la la₂

/-- Such ways can be put together. -/
theorem Via.trans (h : Via reduce la la₁) (h' : Via reduce la₁ la') : Via reduce la la' := by
  induction h' with
  | refl => exact h
  | peek _ hp ih => exact .peek ih hp
  | get _ hg ih => exact .get ih hg
  | reduction _ hr ih => exact .reduction ih hr

/-- Nothing on such a way puts a token back, so that track is kept all along. -/
theorem Via.tracked (hreduce : LeavesInput reduce) (h : Via reduce la la') (hla : la.Tracked) :
    la'.Tracked := by
  induction h with
  | refl => exact hla
  | peek _ hp ih => exact ih.peek hp
  | get _ hg ih => exact ih.get hg
  -- reductions may only touch the data, of which the log knows nothing
  | @reduction la₁ la₂ g vs r _ hr ih =>
    cases g with
    | none =>
      obtain ⟨-, rfl⟩ := Prod.mk.inj hr
      exact ih
    | some g =>
      obtain ⟨data, hdata⟩ := hreduce g la₁ vs
      have hla₂ : (reduce g la₁ vs).2 = la₂ := congrArg Prod.snd hr
      rw [← hla₂, hdata]
      exact ih.withData data

/-! ## What a failure comes from

  The two relations follow the control flow: a dispatch that takes its token, the rules that end
  then one after the other, and the reductions and questions on the way.  Each of them ends with the
  very failure that it is about, and so a failure is tied to the last thing that the parse has
  done. -/

/-- `Fails reduce f la' la values target frames`: going on at the target with the input `la` ends
    with the failure `f`, and `la'` is left.  It comes from the last thing that was done on the way,
    which is a reduction of a rule, or a question to the source behind one. -/
inductive Fails (reduce : α → Reduce (Observed σ μ)) (f : Failure)
    (la' : Lookahead (Observed σ μ)) :
    Lookahead (Observed σ μ) → Array Value → Target α → List (Frame α) → Prop
  /-- The rule at hand is reduced, and its reduction fails. -/
  | reduction {la : Lookahead (Observed σ μ)} {values : Array Value} {g : α} {name : Text}
      {frames : List (Frame α)} (hr : reduce g la values.toList = (.error f, la')) :
      Fails reduce f la' la values (.accept (some g) name) frames
  /-- The rule at hand is reduced, and the source fails when it is asked for the token behind. -/
  | source {la la₁ : Lookahead (Observed σ μ)} {values : Array Value} {g : Option α} {name : Text}
      {v : Value} {frame : Frame α} {frames : List (Frame α)}
      (hr : applyReduction reduce g la values.toList = (.ok v, la₁))
      (hp : la₁.peek = (.error f, la')) :
      Fails reduce f la' la values (.accept g name) (frame :: frames)
  /-- The rule at hand is reduced, and the failure comes from the rule that waited for it. -/
  | waiting {la la₁ la₂ : Lookahead (Observed σ μ)} {values : Array Value} {g : Option α}
      {name : Text} {v : Value} {t : Token} {frame : Frame α} {frames : List (Frame α)}
      (hr : applyReduction reduce g la values.toList = (.ok v, la₁))
      (hp : la₁.peek = (.ok t, la₂))
      (h : Fails reduce f la' la₂ (if v.isNone then frame.saved else frame.saved.push v)
        frame.next frames) :
      Fails reduce f la' la values (.accept g name) (frame :: frames)

/-- The same for an entry that may leave its reduction out; one that is left out does not fail. -/
theorem Fails.of_reduction {g : Option α} {name : Text} {values : Array Value}
    {frames : List (Frame α)} (hr : applyReduction reduce g la values.toList = (.error f, la')) :
    Fails reduce f la' la values (.accept g name) frames := by
  cases g with
  | none => exact nomatch hr
  | some g => exact .reduction hr

/-- `Breaks table reduce c f la'`: there is an entry for the token at hand, and yet the dispatch at
    `c` ends with the failure `f`. -/
inductive Breaks (table : Table α) (reduce : α → Reduce (Observed σ μ))
    (c : Config (Observed σ μ) α) (f : Failure) (la' : Lookahead (Observed σ μ)) : Prop
  /-- The token is taken, and the source fails when it is asked for the next one. -/
  | source (h : advance table c = (.error f, la'))
  /-- The token is taken or stays, and the failure comes from a rule that ends here. -/
  | rule {t : Token} {la : Lookahead (Observed σ μ)} {next : Target α} {exact : Bool}
      (hm : table.lookup c.state c.token.kind = some ⟨⟨none, next⟩, exact⟩)
      (h : advance table c = (.ok t, la))
      (hf : Fails reduce f la' la
        (if takes table c then c.values.push (.token c.token) else c.values) next c.frames)

/-- `PassedOn table reduce la rule f la'`: parsing with a rule from `la` ends with the failure `f`,
    which is not the parser's own.  The source answers with it when it is asked for the first token,
    or a dispatch that the parse comes to breaks with it. -/
inductive PassedOn (table : Table α) (reduce : α → Reduce (Observed σ μ))
    (la : Lookahead (Observed σ μ)) (rule : Text) (f : Failure)
    (la' : Lookahead (Observed σ μ)) : Prop
  | first {s : Int} (hs : startState table rule = .ok s) (hp : la.peek = (.error f, la'))
  | dispatch {ts : List Token} {c : Config (Observed σ μ) α}
      (h : Reaches table reduce la rule ts c) (hb : Breaks table reduce c f la')

/-- `EndsWith reduce f la`: the source answered last with the failure `f`, or a reduction yields it
    and leaves `la`. -/
def EndsWith (reduce : α → Reduce (Observed σ μ)) (f : Failure)
    (la : Lookahead (Observed σ μ)) : Prop :=
  (∃ place, la.lastAnswer? = some (.error f, place)) ∨ ∃ g la₀ vs, reduce g la₀ vs = (.error f, la)

/-- A failure of the source is the last answer in its log. -/
theorem EndsWith.of_peek (hp : la.peek = (.error f, la')) : EndsWith reduce f la' :=
  Or.inl ⟨_, Lookahead.lastAnswer?_of_peek hp⟩

/-- What a failure of a rule looks like from outside. -/
theorem Fails.endsWith {values : Array Value} {target : Target α} {frames : List (Frame α)}
    (h : Fails reduce f la' la values target frames) : EndsWith reduce f la' := by
  induction h with
  | reduction hr => exact Or.inr ⟨_, _, _, hr⟩
  | source _ hp => exact .of_peek hp
  | waiting _ _ _ ih => exact ih

/-- What a failure of a dispatch looks like from outside. -/
theorem Breaks.endsWith (h : Breaks table reduce c f la') : EndsWith reduce f la' := by
  cases h with
  | source h =>
    by_cases htakes : takes table c = true
    · rw [advance_of_takes htakes] at h
      exact .of_peek h
    · rw [advance_of_not_takes htakes] at h
      exact nomatch h
  | rule _ _ hf => exact hf.endsWith

/-- A failure that is passed on shows in the log of the source, or else in a reduction. -/
theorem PassedOn.endsWith {rule : Text} (h : PassedOn table reduce la rule f la') :
    EndsWith reduce f la' := by
  cases h with
  | first _ hp => exact .of_peek hp
  | dispatch _ hb => exact hb.endsWith

/-! ## What a dispatch comes to

  One lemma for a dispatch with an entry and one for a dispatch without.  The first one says which
  causes a failure can have, and the second one that the error is the parser's own. -/

/-- A dispatch with an entry goes on with a token that was looked at, or it ends, and if it fails
    there is a cause. -/
def Fares (reduce : α → Reduce (Observed σ μ)) (la : Lookahead (Observed σ μ))
    (cause : Failure → Lookahead (Observed σ μ) → Prop) : Progress (Observed σ μ) α → Prop
  | .more c => Via reduce la c.input ∧ Poised c
  | .done r la' => Via reduce la la' ∧ ∀ f, r = .error f → cause f la'

section Fares

variable {cause cause' : Failure → Lookahead (Observed σ μ) → Prop}

/-- A dispatch that fares well from a later input does so from an earlier one, and its failures have
    the causes that they had. -/
theorem Fares.trans {progress : Progress (Observed σ μ) α} (h : Via reduce la la₁)
    (h' : Fares reduce la₁ cause' progress) (hcause : ∀ f la', cause' f la' → cause f la') :
    Fares reduce la cause progress := by
  cases progress with
  | more c => exact ⟨h.trans h'.1, h'.2⟩
  | done r la' => exact ⟨h.trans h'.1, fun f hf => hcause f la' (h'.2 f hf)⟩

/-- A dispatch that ends with a failure fares well if the failure has a cause. -/
theorem Fares.error (h : Via reduce la la') (hcause : cause f la') :
    Fares reduce la cause (.done (.error f) la' : Progress (Observed σ μ) α) := by
  refine ⟨h, fun e he => ?_⟩
  rw [← Except.error.inj he]
  exact hcause

end Fares

/-- Rules are reduced until one of them goes on at a state, or until there is none left. -/
theorem fares_continueAt (hp : la.peek = (.ok t, la)) (values : Array Value) (target : Target α)
    (frames : List (Frame α)) :
    Fares reduce la (fun f la' => Fails reduce f la' la values target frames)
      (continueAt reduce la t values target frames) := by
  -- the induction follows the rules that wait: each of them is reduced with a value more
  induction frames generalizing la t values target with
  | nil =>
    cases target with
    | state s => exact ⟨.refl, hp⟩
    | accept g name =>
      rw [continueAt_accept]
      rcases hr : applyReduction reduce g la values.toList with ⟨e | v, la₁⟩
      · exact .error (.reduction .refl hr) (.of_reduction hr)
      · exact ⟨.reduction .refl hr, nofun⟩
  | cons frame frames ih =>
    cases target with
    | state s => exact ⟨.refl, hp⟩
    | accept g name =>
      rw [continueAt_accept]
      rcases hr : applyReduction reduce g la values.toList with ⟨e | v, la₁⟩
      · exact .error (.reduction .refl hr) (.of_reduction hr)
      -- the next rule goes on with whatever token is now at hand
      · dsimp only [handOver]
        have hvia : Via reduce la la₁ := .reduction .refl hr
        rcases hpeek : la₁.peek with ⟨e | t, la₂⟩
        · exact .error (hvia.peek hpeek) (.source hr hpeek)
        · exact (ih (Lookahead.peek_peek hpeek) _ _).trans (hvia.peek hpeek)
            fun _ _ hf => .waiting hr hpeek hf

variable (reduce) in
/-- One dispatch where there is an entry. -/
theorem fares_step {m : Match α} (hm : table.lookup c.state c.token.kind = some m)
    (hp : Poised c) : Fares reduce c.input (Breaks table reduce c) (step table reduce c) := by
  -- an entry without a call takes the token or leaves it; one with a call touches nothing
  obtain ⟨⟨_ | callee, next⟩, exact⟩ := m
  · have htakes : takes table c = (exact && !c.token.isEof) := by rw [takes, hm]
    rw [step, hm]
    dsimp only
    split
    · rename_i htaken
      rw [← htakes] at htaken
      -- the token is at hand, so that taking it cannot fail, but looking at the next one can
      obtain ⟨la₁, hget⟩ := get_of_peek hp
      have hvia : Via reduce c.input la₁ := .get .refl hget
      have hadvance : advance table c = la₁.peek := by rw [advance_of_takes htaken, hget]
      rw [hget]
      dsimp only
      rcases hpeek : la₁.peek with ⟨e | t, la₂⟩
      · exact .error (hvia.peek hpeek) (.source (hadvance.trans hpeek))
      · refine (fares_continueAt (Lookahead.peek_peek hpeek) _ _ _).trans (hvia.peek hpeek)
          fun f la' hf => .rule hm (hadvance.trans hpeek) ?_
        rw [if_pos htaken]
        exact hf
    · rename_i hkept
      rw [← htakes] at hkept
      refine (fares_continueAt hp _ _ _).trans .refl
        fun f la' hf => .rule hm (advance_of_not_takes hkept) ?_
      rw [if_neg hkept]
      exact hf
  · rw [step, hm]
    exact ⟨.refl, hp⟩

/-- `Stuck table la e`: the parse stands at a token without an entry, and says so with `e`. -/
def Stuck (table : Table α) (la : Lookahead (Observed σ μ)) (e : Unexpected) : Prop :=
  la.peek = (.ok e.found, la) ∧ table.lookup e.state e.found.kind = none ∧
    e.expected = table.expected e.state ∧ e.location = la.location

variable (reduce) in
/-- One dispatch where there is no entry. -/
theorem step_of_lookup_none (hnone : table.lookup c.state c.token.kind = none) (hp : Poised c) :
    ∃ e, step table reduce c = .done (.error (.unexpected e)) c.input ∧ Stuck table c.input e := by
  rw [step, hnone]
  exact ⟨_, rfl, hp, hnone, rfl, rfl⟩

/-- A run of dispatches looks, takes tokens and reduces, and after each of them a token is at
    hand. -/
theorem Dispatches.via {ts : List Token} (h : Dispatches table reduce c ts c') (hp : Poised c) :
    Via reduce c.input c'.input ∧ Poised c' := by
  induction h with
  | none c => exact ⟨.refl, hp⟩
  | @more c c₁ c₂ ts hstep rest ih =>
    cases hm : table.lookup c.state c.token.kind with
    | none =>
      -- a dispatch without an entry is the last one
      obtain ⟨e, hstuck, -⟩ := step_of_lookup_none reduce hm hp
      rw [hstuck] at hstep
      exact nomatch hstep
    | some m =>
      have hfares := fares_step reduce hm hp
      rw [hstep] at hfares
      obtain ⟨hvia, hp₁⟩ := hfares
      obtain ⟨hvia', hp'⟩ := ih hp₁
      exact ⟨hvia.trans hvia', hp'⟩

/-- The errors about rules and start states are not about tokens. -/
theorem startState_ne_unexpected {rule : Text} (e : Unexpected) :
    startState table rule ≠ .error (.unexpected e) := by
  unfold startState
  split
  · split <;> nofun
  · split <;> nofun

/-- **What a parse comes to.**  An error about an unexpected token is passed on, or the parse is
    stuck at that token. -/
theorem parse_cases {fuel : Nat} {rule : Text} {r : Except Failure Value}
    (h : parse (some table) reduce fuel la rule = some (r, la')) :
    Via reduce la la' ∧ ∀ e, r = .error (.unexpected e) →
      PassedOn table reduce la rule (.unexpected e) la' ∨ Stuck table la' e := by
  -- there are three places at which a parse may end: before the input is touched, at the first
  -- token, and at a dispatch
  rw [parse] at h
  split at h
  · rename_i e hstart
    obtain ⟨rfl, rfl⟩ := Prod.mk.inj (Option.some.inj h)
    refine ⟨.refl, fun e' he => ?_⟩
    rw [Except.error.inj he] at hstart
    exact absurd hstart (startState_ne_unexpected e')
  · rename_i s hstart
    split at h
    · rename_i e la₁ hpeek
      obtain ⟨rfl, rfl⟩ := Prod.mk.inj (Option.some.inj h)
      refine ⟨.peek .refl hpeek, fun e' he => Or.inl (.first hstart ?_)⟩
      rw [← Except.error.inj he]
      exact hpeek
    · rename_i t la₁ hpeek
      obtain ⟨ts, c, hrun, hdone⟩ := dispatches_of_run h
      obtain ⟨hvia, hp⟩ := hrun.via (Lookahead.peek_peek hpeek)
      -- the last dispatch of the run ends the parse; either it finds no entry, or its failure has a
      -- cause
      have hvia : Via reduce la c.input := Via.trans (.peek .refl hpeek) hvia
      cases hm : table.lookup c.state c.token.kind with
      | none =>
        obtain ⟨e, hstep, hstuck⟩ := step_of_lookup_none reduce hm hp
        rw [hstep] at hdone
        obtain ⟨rfl, rfl⟩ := Progress.done.inj hdone
        refine ⟨hvia, fun e' he => Or.inr ?_⟩
        rw [← Failure.unexpected.inj (Except.error.inj he)]
        exact hstuck
      | some m =>
        have hfares := fares_step reduce hm hp
        rw [hdone] at hfares
        exact ⟨hvia.trans hfares.1, fun e he =>
          Or.inl (.dispatch ⟨s, t, la₁, hstart, hpeek, hrun⟩ (hfares.2 _ he))⟩

/-! ## Parse errors

  A parser is used for one parse after the other, and in between its input can be looked at and
  taken from.  None of this puts a token back, and so an error is true of whatever the parser was
  used for before. -/

/-- `Undisturbed table reduce la`: nothing has been put back into `la`.  A parser that is new has
    looked at its input and taken tokens from it, and it has parsed, all in any order. -/
inductive Undisturbed (table : Table α) (reduce : α → Reduce (Observed σ μ)) :
    Lookahead (Observed σ μ) → Prop
  | fresh (s : σ) (data : μ) : Undisturbed table reduce (.fresh ⟨⟨s, []⟩, data⟩)
  | data {la : Lookahead (Observed σ μ)} (h : Undisturbed table reduce la) (data : μ) :
      Undisturbed table reduce { la with source := { la.source with data } }
  | peek {la : Lookahead (Observed σ μ)} (h : Undisturbed table reduce la) :
      Undisturbed table reduce la.peek.2
  | get {la : Lookahead (Observed σ μ)} (h : Undisturbed table reduce la) :
      Undisturbed table reduce la.get.2
  | parse {la la' : Lookahead (Observed σ μ)} {fuel : Nat} {rule : Text}
      {r : Except Failure Value} (h : Undisturbed table reduce la)
      (hparse : Parser.parse (some table) reduce fuel la rule = some (r, la')) :
      Undisturbed table reduce la'

/-- Whatever was asked of the parser before, track was kept. -/
theorem Undisturbed.tracked (hreduce : LeavesInput reduce) (h : Undisturbed table reduce la) :
    la.Tracked := by
  induction h with
  | fresh s data => exact .idle rfl rfl
  | data _ data ih => exact ih.withData data
  | peek _ ih => exact ih.peek rfl
  | get _ ih => exact ih.get rfl
  -- an earlier parse, be it successful or not, is a way of the same kind
  | parse _ hparse ih => exact (parse_cases hparse).1.tracked hreduce ih

/-- The error `e` is true of the table and of the input `la` that is left. -/
structure Truthful (table : Table α) (reduce : α → Reduce (Observed σ μ))
    (e : Unexpected) (la : Lookahead (Observed σ μ)) : Prop where
  /-- The state has no entry for the token, and none for any token. -/
  no_entry : ∀ a, (e.found.kind, a) ∉ table.entries e.state ∧ (wildcard, a) ∉ table.entries e.state
  ascending : e.expected.Pairwise (· < ·)
  /-- The expected keys are those that the state has an entry of their own for. -/
  expected : ∀ key, key ∈ e.expected ↔
    key ≠ wildcard ∧ ∃ a, table.lookup e.state key = some ⟨a, true⟩
  /-- With a token of an expected kind at hand, a dispatch in that state fails only if a reduction
      fails that it carries out, or the source when the dispatch asks it. -/
  welcome : ∀ c : Config (Observed σ μ) α, c.state = e.state → Poised c →
    c.token.kind ∈ e.expected → ∀ f la', step table reduce c = .done (.error f) la' →
      Breaks table reduce c f la'
  /-- The token stays to be looked at and to be taken, without asking the source. -/
  kept : la.peek = (.ok e.found, la) ∧ la.get.1 = .ok e.found ∧ la.get.2.source = la.source
  /-- The place is the one where the source stood when it had delivered the token. -/
  place : ∃ t, la.lastAnswer? = some (.ok t, e.location) ∧
    (t = e.found ∨ t.isEof = true ∧ e.found = .eof)

/-- A parse that is stuck tells the truth, if track was kept. -/
theorem Stuck.truthful {e : Unexpected} (hcoherent : table.Coherent) (hla : la.Tracked)
    (h : Stuck table la e) : Truthful table reduce e la := by
  obtain ⟨hp, hnone, hexpected, hlocation⟩ := h
  refine ⟨hcoherent.not_mem_entries_of_lookup hnone, ?_, ?_, ?_,
    ⟨hp, Lookahead.get_of_peeked hp⟩, ?_⟩
  · rw [hexpected]
    exact table.pairwise_expected e.state
  · intro key
    rw [hexpected]
    exact hcoherent.mem_expected_iff
  · intro c hc hp hkind f la' hstep
    rw [hexpected, ← hc] at hkind
    -- a welcome key has an entry, and then the dispatch has the causes of an entry
    obtain ⟨-, a, ha⟩ := hcoherent.mem_expected_iff.mp hkind
    have hfares := fares_step reduce ha hp
    rw [hstep] at hfares
    exact hfares.2 f rfl
  -- the place that is asked for now is the one that was logged with the token
  · rw [hlocation]
    exact hla.lastAnswer? hp

/-- **Parse errors tell the truth, and the token that they found stays to be read.**  This holds for
    every table that was handed out, every rule and every source, on a parser into which nothing was
    put back, whether it is new or has parsed before.  The exception is an error that the parse does
    not make but passes on: the reduction that it carried out last yielded it, or the source
    answered with it last. -/
theorem parse_truthful {steps : List (BuildStep α)} {table : Table α}
    (hok : (Builder.after steps).table.1 = .ok table)
    {reduce : α → Reduce (Observed σ μ)} (hreduce : LeavesInput reduce)
    {la la' : Lookahead (Observed σ μ)} (hla : Undisturbed table reduce la)
    {fuel : Nat} {rule : Text} {e : Unexpected}
    (h : parse (some table) reduce fuel la rule = some (.error (.unexpected e), la')) :
    PassedOn table reduce la rule (.unexpected e) la' ∨ Truthful table reduce e la' := by
  obtain ⟨rfl, -⟩ := Builder.table_of_ok hok
  have hcoherent := (Builder.tells_after steps).coherent
  obtain ⟨hvia, hcases⟩ := parse_cases h
  exact (hcases e rfl).imp_right fun hstuck =>
    hstuck.truthful hcoherent (hvia.tracked hreduce (hla.tracked hreduce))

/-- The reductions that are known by name do not make errors about tokens. -/
theorem apply_ne_unexpected (g : Reduction) (la : Lookahead σ) (vs : List Value) (e : Unexpected) :
    (g.apply la vs).1 ≠ .error (.unexpected e) := by
  intro h
  cases g with
  | number =>
    simp only [Reduction.apply, Reduction.numberOf] at h
    split at h
    · cases h
    · split at h <;> cases h
  | _ => cases h

open Text (lit) in
open BuildStep in
/-- A group is parsed, and then another one with a `y` in it, which no state knows. -/
theorem parse_truthful_groups :
    let steps : List (BuildStep Reduction) :=
      [.on 0 (lit "(") ⟨none, .state 1⟩, .on 1 (lit "(") ⟨some 0, .state 1⟩,
        .on 1 (lit "x") ⟨none, .state 1⟩, .on 1 (lit ";") ⟨some 2, .state 1⟩,
        .on 1 (lit ")") ⟨none, .accept (some .list) []⟩, .on 2 (lit ";") ⟨none, .state 3⟩,
        .otherwise 3 ⟨none, .accept (some .none) []⟩, .rule (lit "group") 0]
    let e : Unexpected := ⟨1, [lit "(", lit ")", lit ";", lit "x"], op "y", {}⟩
    (Builder.after steps).table.1 = .ok groups.draft ∧
    ∃ la la' : Lookahead (Observed Script Unit),
      Undisturbed groups.draft Reduction.apply la ∧ la.queue = [op "("] ∧
      parse (some groups.draft) Reduction.apply 2 la (lit "group") =
        some (.error (.unexpected e), la') ∧
      Truthful groups.draft Reduction.apply e la' := by
  intro steps e
  have hok : (Builder.after steps).table.1 = .ok groups.draft := by cbv
  have hreduce : LeavesInput (Reduction.apply : Reduction →
      Reduce (Observed Script Unit)) :=
    fun g la vs => ⟨la.source.data, blind_apply.input_eq g la vs⟩
  let s (ops : List String) : Script := ⟨ops.map (.ok ∘ op)⟩
  let log (ops : List String) : List (Answer × Location) := ops.map fun o => (.ok (op o), {})
  let la : Lookahead (Observed Script Unit) :=
    ⟨⟨⟨s ["y"], log ["(", "x", ")", "("]⟩, ()⟩, [op "("], false⟩
  let la' : Lookahead (Observed Script Unit) :=
    ⟨⟨⟨s [], log ["(", "x", ")", "(", "y"]⟩, ()⟩, [op "y"], false⟩
  have hfirst : parse (some groups.draft) Reduction.apply 3
      (.fresh ⟨⟨s ["(", "x", ")", "(", "y"], []⟩, ()⟩) (lit "group") =
        some (.ok (.list [.token (op "("), .token (op "x"), .token (op ")")]), la) := by cbv
  have hsecond : parse (some groups.draft) Reduction.apply 2 la (lit "group") =
      some (.error (.unexpected e), la') := by cbv
  have hla : Undisturbed groups.draft Reduction.apply la := .parse (.fresh _ ()) hfirst
  refine ⟨hok, la, la', hla, rfl, hsecond, ?_⟩
  rcases parse_truthful hok hreduce hla hsecond with hpassed | htruthful
  · rcases hpassed.endsWith with ⟨place, hlast⟩ | ⟨g, la₀, vs, hg⟩
    · cases hlast
    · exact absurd (congrArg Prod.fst hg) (apply_ne_unexpected g la₀ vs e)
  · exact htruthful

open Text (lit) in
/-- What the exceptions are for.  A reduction that leaves its input alone, or the source, may fail
    with an error about a token that was never read, and then the parse has that error to show and
    the token is not there to be looked at.  And what a state expects may still be refused: instead
    of a `B` an `A` is expected, but the reduction that its entry names wants a number. -/
theorem parse_not_truthful :
    let foreign : Unexpected := ⟨7, [], op "z", {}⟩
    let single : List (BuildStep Failure) :=
      [.on 0 (lit "x") ⟨none, .accept (some (.unexpected foreign)) []⟩, .rule (lit "single") 0]
    let number : List (BuildStep Reduction) :=
      [.on 0 (lit "A") ⟨none, .accept (some .number) []⟩, .rule (lit "T") 0]
    let refuse : Failure → Reduce (Observed Script Unit) := fun f la _ => (.error f, la)
    let input (answer : Answer) : Lookahead (Observed Script Unit) :=
      .fresh ⟨⟨⟨[answer]⟩, []⟩, ()⟩
    (∃ table, (Builder.after single).table.1 = .ok table ∧ LeavesInput refuse ∧
      ∀ answer ∈ [.ok (op "x"), .error (.unexpected foreign)],
        ∃ la, parse (some table) refuse 1 (input answer) (lit "single") =
            some (.error (.unexpected foreign), la) ∧
          la.peek.1 ≠ .ok foreign.found) ∧
    ∃ table, (Builder.after number).table.1 = .ok table ∧
      (∃ la, parse (some table) Reduction.apply 1 (input (.ok (op "B"))) (lit "T") =
        some (.error (.unexpected ⟨0, [lit "A"], op "B", {}⟩), la)) ∧
      ∃ la, parse (some table) Reduction.apply 1 (input (.ok (op "A"))) (lit "T") =
        some (.error (.diagnostic ⟨.error, {}, lit "number expected", none⟩), la) := by
  intro foreign single number refuse input
  let la (log : List Answer) (ended : Bool) : Lookahead (Observed Script Unit) :=
    ⟨⟨⟨⟨[]⟩, log.map (·, {})⟩, ()⟩, [], ended⟩
  have hrefused : parse (some (Builder.after single).draft) refuse 1 (input (.ok (op "x")))
      (lit "single") =
        some (.error (.unexpected foreign), la [.ok (op "x"), .ok .eof] true) := by cbv
  have hfailed : parse (some (Builder.after single).draft) refuse 1
      (input (.error (.unexpected foreign))) (lit "single") =
        some (.error (.unexpected foreign), la [.error (.unexpected foreign)] false) := by cbv
  refine ⟨⟨(Builder.after single).draft, by cbv, fun g la vs => ⟨la.source.data, rfl⟩, ?_⟩,
    (Builder.after number).draft, by cbv,
    ⟨⟨⟨⟨⟨[]⟩, [(.ok (op "B"), {})]⟩, ()⟩, [op "B"], false⟩, by cbv⟩,
    la [.ok (op "A"), .ok .eof] true, by cbv⟩
  refine List.forall_mem_cons.mpr ⟨⟨_, hrefused, ?_⟩,
    List.forall_mem_singleton.mpr ⟨_, hfailed, ?_⟩⟩
  · intro hfound
    cases hfound
  · intro hfound
    cases hfound

end Parser

end Pushdown
