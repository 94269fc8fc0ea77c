/-
  The order of members in a description does not matter.

  `Json.Shuffled` relates two values that differ only in the order of the members of `rules` and of
  the states, where no name occurs twice.  Reading them gives the same description, or none in both
  cases (`toOption_decode`): every member is decoded by itself, a map of distinct names does not
  depend on the order in which they come (`Dict.ofList_perm`), and one member that is refused is
  enough to refuse them all.

  What is made of a description is then the same, except that a map has no order of its own: nothing
  says in which order the rules are bound, and in which order their states are checked.
  `TableSpec.buildAlong` leaves both open.  Tables are the same for all orders, and if there is none
  the reason is of the same kind (`build_sameOutcome`); which of several bad rules is named in a
  message depends on the order.  `read_shuffled` puts the two together for texts.

  Results are compared as options and not with their errors.  A reader stops at the first member
  that it refuses, and which one that is does depend on the order: the field that an error names can
  differ between two texts that are both refused.  So `toOption` forgets the errors at the bottom
  already, and the lemmas carry it up through the reader, one for each of its functions.

  Members of the description itself keep their places.  A field that is given twice is decoded into
  what the first one left, and so their order can matter; the relation allows no exchange there.
-/
import Pushdown.Proofs.Table.Description
import Pushdown.Proofs.Table.Sharing
import Pushdown.Table.Reader

namespace Pushdown

open Text (lit)

/-! ## Maps of bindings in another order

  Bindings with distinct names make the same map in any order.  With names that occur twice they
  would not, as the last one counts. -/

namespace Dict

variable {β : Type} {l l' : List (Text × β)}

/-- What is found for a key is what is bound to it, if no key is bound twice. -/
theorem find_eq_some_iff_mem (hd : (l.map Prod.fst).Nodup) {k : Text} {v : β} :
    find k l = some v ↔ (k, v) ∈ l := by
  induction l with
  | nil => exact iff_of_false nofun nofun
  | cons e l ih =>
    rw [List.map_cons, List.nodup_cons] at hd
    rw [find_cons, List.mem_cons]
    by_cases hk : e.1 = k
    · rw [if_pos hk]
      constructor
      · intro hv
        exact Or.inl (Prod.ext hk.symm (Option.some.inj hv).symm)
      · rintro (rfl | hmem)
        · rfl
        · exact absurd (List.mem_map.mpr ⟨_, hmem, hk.symm⟩) hd.1
    · rw [if_neg hk, ih hd.2]
      exact (or_iff_right fun heq => hk (congrArg Prod.fst heq).symm).symm

/-- So it can be found in any order. -/
theorem find_perm (h : l.Perm l') (hd : (l.map Prod.fst).Nodup) (k : Text) :
    find k l = find k l' := by
  have hd' : (l'.map Prod.fst).Nodup := (h.map Prod.fst).nodup_iff.mp hd
  refine Option.ext fun v => ?_
  rw [find_eq_some_iff_mem hd, find_eq_some_iff_mem hd', h.mem_iff]

/-- If no key is bound twice, the order of the bindings does not matter. -/
theorem ofList_perm (h : l.Perm l') (hd : (l.map Prod.fst).Nodup) : ofList l = ofList l' := by
  refine ext_get? fun k => ?_
  have hrev : l.reverse.Perm l'.reverse := (List.reverse_perm l).trans (h.trans l'.reverse_perm.symm)
  rw [get?_ofList, get?_ofList]
  refine find_perm hrev ?_ k
  rw [List.map_reverse, List.nodup_reverse]
  exact hd

/-- No key of a map occurs twice. -/
theorem nodup_keys (d : Dict β) : (d.entries.map Prod.fst).Nodup := by
  refine List.Pairwise.map Prod.fst (fun e f hlt heq => ?_) d.ordered
  rw [heq] at hlt
  exact List.lt_irrefl f.1 hlt

end Dict

/-! ## Values with their members in another order

  The relation follows the layers of a description, and each layer says which order may change below
  it.  What it does not mention is the same on both sides. -/

namespace Json

/-- The same value, or the members of an object in another order, none of them named twice. -/
inductive Reordered : Json → Json → Prop where
  | same (v : Json) : Reordered v v
  | members {ms ms' : List (Text × Json)} (h : ms.Perm ms') (hd : (ms.map Prod.fst).Nodup) :
      Reordered (.object ms) (.object ms')

/-- The same value, or a list of which the items are reordered one by one. -/
inductive ItemsReordered : Json → Json → Prop where
  | same (v : Json) : ItemsReordered v v
  | items {vs vs' : List Json} (h : List.Forall₂ Reordered vs vs') :
      ItemsReordered (.array vs) (.array vs')

/-- Two members of the same name; the values differ at most in the order of the rules, or in the
    order of the members of some states. -/
inductive MemberShuffled : Text × Json → Text × Json → Prop where
  | same (m : Text × Json) : MemberShuffled m m
  | rules {name : Text} {v v' : Json} (hname : TableSpec.isField "rules" name = true)
      (h : Reordered v v') : MemberShuffled (name, v) (name, v')
  | states {name : Text} {v v' : Json} (hname : TableSpec.isField "states" name = true)
      (h : ItemsReordered v v') : MemberShuffled (name, v) (name, v')

/-- Descriptions that differ at most in the order of the members of `rules` and of the states. -/
inductive Shuffled : Json → Json → Prop where
  | same (v : Json) : Shuffled v v
  | description {ms ms' : List (Text × Json)} (h : List.Forall₂ MemberShuffled ms ms') :
      Shuffled (.object ms) (.object ms')

end Json

/-! ## Reading them

  One lemma for each function of the reader, from the members of a state up to the whole.  Where a
  function goes through members one by one, its results for two orders are the same members in two
  orders, or nothing both times. -/

namespace TableSpec

open Json

section Results

variable {ε β γ : Type}

/-- A result that is mapped is there if it was. -/
theorem toOption_map (r : Except ε β) (f : β → γ) : (r.map f).toOption = r.toOption.map f := by
  cases r <;> rfl

/-- A result of two steps is there if both are. -/
theorem toOption_bind (r : Except ε β) (f : β → Except ε γ) :
    (r >>= f).toOption = r.toOption.bind fun b => (f b).toOption := by
  cases r <;> rfl

/-- What is left of a result that was no error. -/
theorem toOption_eq_some {r : Except ε β} {b : β} : r.toOption = some b ↔ r = .ok b := by
  cases r <;> simp [Except.toOption]

/-- The path of an error does not matter to what is accepted. -/
theorem toOption_under (name : Text) (r : Except DecodeError β) :
    (under name r).toOption = r.toOption := by
  cases r <;> rfl

/-- All items are accepted if each of them is. -/
theorem mapM_eq_ok_iff {f : β → Except ε γ} {l : List β} {r : List γ} :
    l.mapM f = .ok r ↔ List.Forall₂ (fun b c => f b = .ok c) l r := by
  induction l generalizing r with
  | nil =>
    rw [List.mapM_nil, List.forall₂_nil_left_iff]
    exact ⟨fun h => (Except.ok.inj h).symm, fun h => congrArg _ h.symm⟩
  | cons b l ih =>
    rw [List.mapM_cons, ← toOption_eq_some, toOption_bind, Option.bind_eq_some_iff,
      List.forall₂_cons_left_iff]
    simp only [toOption_bind, Option.bind_eq_some_iff, toOption_eq_some, ih]
    constructor
    -- the first item and then the others
    · rintro ⟨c, hc, cs, hcs, hr⟩
      exact ⟨c, cs, hc, hcs, (Except.ok.inj hr).symm⟩
    · rintro ⟨c, cs, hc, hcs, rfl⟩
      exact ⟨c, hc, cs, hcs, rfl⟩

/-- If all items are accepted they are in any order. -/
theorem exists_mapM_of_perm {f : β → Except ε γ} {l l' : List β} (h : l.Perm l') {r' : List γ}
    (hr : l'.mapM f = .ok r') : ∃ r, l.mapM f = .ok r ∧ r.Perm r' := by
  obtain ⟨r, hr, hperm⟩ := List.perm_comp_forall₂ h (mapM_eq_ok_iff.mp hr)
  exact ⟨r, mapM_eq_ok_iff.mpr hr, hperm⟩

end Results

section Members

variable {β : Type} {value : Json → Except DecodeError β}

/-- Decoding members keeps their names. -/
theorem keys_of_mapM {ms : List (Text × Json)} {l : List (Text × β)}
    (h : (ms.mapM fun (name, v) => (under name (value v)).map fun b => (name, b)) = .ok l) :
    l.map Prod.fst = ms.map Prod.fst := by
  have hall := mapM_eq_ok_iff.mp h
  clear h
  induction hall with
  | nil => rfl
  | @cons m e ms l hm _ ih =>
    rw [← toOption_eq_some, toOption_map, Option.map_eq_some_iff] at hm
    obtain ⟨b, -, rfl⟩ := hm
    rw [List.map_cons, List.map_cons, ih]

/-- Members in another order make the same map. -/
theorem toOption_decodeMembers {ms ms' : List (Text × Json)} (h : ms.Perm ms')
    (hd : (ms.map Prod.fst).Nodup) (old : Dict β) :
    (decodeMembers value old ms).toOption = (decodeMembers value old ms').toOption := by
  -- one direction is enough, since permutations can be turned around
  have hone : ∀ {ms ms' : List (Text × Json)}, ms.Perm ms' → (ms.map Prod.fst).Nodup →
      ∀ {d : Dict β}, (decodeMembers value old ms').toOption = some d →
        (decodeMembers value old ms).toOption = some d := by
    intro ms ms' h hd d hd'
    unfold decodeMembers at hd' ⊢
    rw [toOption_map, Option.map_eq_some_iff] at hd'
    obtain ⟨l', hl', rfl⟩ := hd'
    obtain ⟨l, hl, hperm⟩ := exists_mapM_of_perm h (toOption_eq_some.mp hl')
    have hkeys : (l.map Prod.fst).Nodup := by
      rw [keys_of_mapM hl]
      exact hd
    rw [hl, Dict.ofList_perm hperm.symm ((hperm.map Prod.fst).nodup_iff.mp hkeys)]
    rfl
  have hd' : (ms'.map Prod.fst).Nodup := (h.map Prod.fst).nodup_iff.mp hd
  exact Option.ext fun d => ⟨hone h.symm hd', hone h hd⟩

end Members

/-- A state does not depend on the order of its actions. -/
theorem toOption_decodeState {v v' : Json} (h : v.Reordered v') (old : Dict ActionSpec) :
    (decodeState old v).toOption = (decodeState old v').toOption := by
  cases h with
  | same => rfl
  | members h hd => exact toOption_decodeMembers h hd old

/-- Rules do not depend on their order. -/
theorem toOption_decodeRules {v v' : Json} (h : v.Reordered v') (old : Dict Int) :
    (decodeRules old v).toOption = (decodeRules old v').toOption := by
  cases h with
  | same => rfl
  | members h hd => exact toOption_decodeMembers h hd old

/-- States in a list are decoded one by one, each into the slot that was there before. -/
theorem toOption_decodeItems {vs vs' : List Json} (h : List.Forall₂ Reordered vs vs') (i : Nat)
    (old : List (Dict ActionSpec)) :
    (decodeItems i old vs).toOption = (decodeItems i old vs').toOption := by
  have hcons : ∀ i (old : List (Dict ActionSpec)) v vs, (decodeItems i old (v :: vs)).toOption =
      (decodeState (old.headD ∅) v).toOption.bind fun st =>
        (decodeItems (i + 1) old.tail vs).toOption.map (st :: ·) := by
    intro i old v vs
    rw [decodeItems]
    cases decodeState (old.headD ∅) v with
    | error e => rfl
    | ok st => exact toOption_map _ _
  induction h generalizing i old with
  | nil => rfl
  | cons hv hvs ih => rw [hcons, hcons, toOption_decodeState hv, ih]

/-- A list of states does not depend on the orders within them. -/
theorem toOption_decodeStates {v v' : Json} (h : v.ItemsReordered v') (old : Slots) :
    (decodeStates old v).toOption = (decodeStates old v').toOption := by
  cases h with
  | same => rfl
  | items h =>
    cases h with
    | nil => rfl
    | @cons v v' vs vs' hv hvs =>
      unfold decodeStates
      dsimp only
      rw [toOption_map, toOption_map, toOption_decodeItems (.cons hv hvs), List.length_cons,
        List.length_cons, hvs.length_eq]

/-- A name is that of at most one member. -/
theorem isField_unique {field field' : String} {name : Text} (h : isField field name = true)
    (h' : isField field' name = true) : field = field' := by
  unfold isField at h h'
  have hchars : field.toList.map some = field'.toList.map some :=
    (of_decide_eq_true h).symm.trans (of_decide_eq_true h')
  exact String.toList_inj.mp (List.map_injective_iff.mpr (Option.some_injective _) hchars)

/-- A name that is one field is no other one. -/
theorem isField_ne {field field' : String} {name : Text} (h : isField field name = true)
    (hne : field ≠ field') : ¬isField field' name = true :=
  fun h' => hne (isField_unique h h')

/-- A member of the description does not depend on the orders within it. -/
theorem toOption_decodeMember {m m' : Text × Json} (h : MemberShuffled m m') (s : Draft) :
    (decodeMember s m.1 m.2).toOption = (decodeMember s m'.1 m'.2).toOption := by
  cases h with
  | same => rfl
  | @rules name v v' hname h =>
    have hstart : ¬isField "start" name = true := isField_ne hname (by decide)
    unfold decodeMember
    rw [if_neg hstart, if_neg hstart, if_pos hname, if_pos hname, toOption_map, toOption_map,
      toOption_under, toOption_under, toOption_decodeRules h]
  | @states name v v' hname h =>
    have hstart : ¬isField "start" name = true := isField_ne hname (by decide)
    have hrules : ¬isField "rules" name = true := isField_ne hname (by decide)
    unfold decodeMember
    rw [if_neg hstart, if_neg hstart, if_neg hrules, if_neg hrules, if_pos hname, if_pos hname,
      toOption_map, toOption_map, toOption_under, toOption_under, toOption_decodeStates h]

/-- Nor do all of them, in their places. -/
theorem toOption_decodeDraft {ms ms' : List (Text × Json)} (h : List.Forall₂ MemberShuffled ms ms')
    (s : Draft) :
    (ms.foldlM (fun s (name, v) => decodeMember s name v) s).toOption =
      (ms'.foldlM (fun s (name, v) => decodeMember s name v) s).toOption := by
  induction h generalizing s with
  | nil => rfl
  | cons hm _ ih =>
    rw [List.foldlM_cons, List.foldlM_cons, toOption_bind, toOption_bind, toOption_decodeMember hm]
    exact congrArg _ (funext ih)

/-- **Descriptions in which members stand in another order are read as the same description, or
    both are refused.** -/
theorem toOption_decode {v v' : Json} (h : v.Shuffled v') :
    (decode v).toOption = (decode v').toOption := by
  cases h with
  | same => rfl
  | description h =>
    unfold decode
    dsimp only
    rw [toOption_bind, toOption_bind, toOption_decodeDraft h]

end TableSpec

/-! ## Kinds of errors

  The message of an error may name another rule if the rules come in another order.  Its kind tells
  what is wrong and not where. -/

variable {α : Type}

/-- What a caller can tell errors apart by, other than their texts. -/
inductive ErrorKind where
  | conflict
  | invalidState
  | unknownRule
  | other
  deriving DecidableEq, Repr

/-- The kind of a build error. -/
def BuildError.kind : BuildError α → ErrorKind
  | .conflict _ _ _ _ => .conflict
  | .negativeState _ | .undefinedState _ _ => .invalidState

/-- The kind of a problem with an action. -/
def ActionProblem.kind : ActionProblem → ErrorKind
  | .undefinedCallee _ => .invalidState
  | .shiftOrAccept | .unknownReduction _ => .other

/-- The kind of an error in a description. -/
def SpecError.kind : SpecError α → ErrorKind
  | .action _ _ p => p.kind
  | .unknownStart _ => .unknownRule
  | .table e => e.kind

/-- Both made the same table, or both failed for reasons of the same kind. -/
inductive SameOutcome {ε : Type} (kind : ε → ErrorKind) :
    Except ε (Table α) → Except ε (Table α) → Prop where
  | built (t : Table α) : SameOutcome kind (.ok t) (.ok t)
  | failed {e e' : ε} (h : kind e = kind e') : SameOutcome kind (.error e) (.error e')

/-- An error of the builder is one of the description. -/
theorem SameOutcome.finish {r r' : Except (BuildError α) (Table α)}
    (h : SameOutcome BuildError.kind r r') :
    SameOutcome SpecError.kind
      (match r with
        | .ok t => .ok t
        | .error e => .error (.table e)) (r'.mapError .table) := by
  cases h with
  | built t => exact .built t
  | failed hkind => exact .failed hkind

/-! ## Building in any order of the rules

  Binding the rules commutes, since their names differ, and checking them in any order finds a bad
  one if there is any. -/

namespace Builder

/-- Every state that a table refers to, with its rules taken in some order. -/
def referencesAlong (t : Table α) (checked : List (Text × Int)) : List (Referrer × Int) :=
  references { t with rules := ∅, start := -1 }
  ++ checked.map (fun (name, s) => (Referrer.rule name, s))
  ++ t.start?.toList.map fun s => (Referrer.start, s)

/-- The first problem of the draft, if its rules are checked in some order. -/
def problemAlong? (b : Builder α) (checked : List (Text × Int)) : Option (BuildError α) :=
  b.error <|>
    ((referencesAlong b.draft checked).find? fun r => isUndefined b.draft r.2).map fun r =>
      .undefinedState r.1 r.2

/-- The table, or the first problem. -/
def tableAlong (b : Builder α) (checked : List (Text × Int)) : Except (BuildError α) (Table α) :=
  match b.problemAlong? checked with
  | some e => .error e
  | none => .ok b.draft

/-- In the order of the map, the references are those of the table. -/
theorem referencesAlong_entries (t : Table α) :
    referencesAlong t t.rules.entries = references t := by
  have hnone : references { t with rules := ∅, start := -1 } = _ :=
    (List.append_nil _).trans (List.append_nil _)
  rw [referencesAlong, hnone]
  rfl

/-- In the order of the map, the table is the one that the builder makes. -/
theorem tableAlong_entries (b : Builder α) : b.tableAlong b.draft.rules.entries = b.table.1 := by
  have hproblem : b.problemAlong? b.draft.rules.entries = b.problem? := by
    rw [problemAlong?, referencesAlong_entries]
    rfl
  rw [tableAlong, table, hproblem]
  cases b.problem? <;> rfl

/-- Whether something is found does not depend on the order, though what is found does. -/
theorem find?_isSome_of_perm {β : Type} {l l' : List β} (h : l.Perm l') (p : β → Bool) :
    (l.find? p).isSome = (l'.find? p).isSome := by
  refine Bool.eq_iff_iff.mpr ?_
  rw [List.find?_isSome, List.find?_isSome]
  exact exists_congr fun b => and_congr_left fun _ => h.mem_iff

/-- Which of several bad rules is found first is all that the order decides. -/
theorem problemAlong?_perm (b : Builder α) {checked checked' : List (Text × Int)}
    (h : checked.Perm checked') :
    (b.problemAlong? checked).map BuildError.kind =
      (b.problemAlong? checked').map BuildError.kind := by
  -- the kind is told by whether some reference is bad, and not by which
  have hkind : ∀ checked, (b.problemAlong? checked).map BuildError.kind =
      (b.error.map BuildError.kind).or
        (if ((referencesAlong b.draft checked).find? fun r => isUndefined b.draft r.2).isSome then
          some .invalidState else none) := by
    intro checked
    unfold problemAlong?
    cases b.error with
    | some e => rfl
    | none => cases (referencesAlong b.draft checked).find? fun r => isUndefined b.draft r.2 <;> rfl
  have hperm : (referencesAlong b.draft checked).Perm (referencesAlong b.draft checked') :=
    ((h.map _).append_left _).append_right _
  rw [hkind, hkind, find?_isSome_of_perm hperm]

/-- So the outcome is the same in another order, up to the kind of the error. -/
theorem sameOutcome_tableAlong (b : Builder α) {checked checked' : List (Text × Int)}
    (h : checked.Perm checked') :
    SameOutcome BuildError.kind (b.tableAlong checked) (b.tableAlong checked') := by
  have hkind := b.problemAlong?_perm h
  unfold tableAlong
  rcases hold : b.problemAlong? checked with _ | e <;>
  rcases hnew : b.problemAlong? checked' with _ | e' <;>
  rw [hold, hnew] at hkind
  · exact .built _
  · cases hkind
  · cases hkind
  · exact .failed (Option.some.inj hkind)

/-- Binding rules one by one. -/
theorem foldl_rule (l : List (Text × Int)) (b : Builder α) :
    l.foldl (fun b e => b.rule e.1 e.2) b = b.ruleAll (Dict.ofList l) := by
  induction l generalizing b with
  | nil =>
    have hrules : b.draft.rules.union (Dict.ofList []) = b.draft.rules :=
      (Dict.foldl_insert b.draft.rules []).symm
    unfold ruleAll
    rw [hrules]
    rfl
  | cons e l ih =>
    -- the first rule is bound before the others, and these override it
    have hrules : (b.draft.rules.insert e.1 e.2).union (Dict.ofList l) =
        b.draft.rules.union (Dict.ofList (e :: l)) := by
      rw [← Dict.foldl_insert, ← Dict.foldl_insert]
      rfl
    rw [List.foldl_cons, ih]
    unfold ruleAll
    rw [← hrules]
    rfl

end Builder

namespace TableSpec

open Builder BuildStep Entry

/-- The table of a description, where the rules are bound in one order and checked in another. -/
def buildAlong (spec : TableSpec) (reg : Registry α) (bound checked : List (Text × Int)) :
    Except (SpecError α) (Table α) :=
  let b : Builder α := spec.states.foldl (fun b _ => b.state.2) {}
  match enterStates reg 0 spec.states b with
  | .error e => .error e
  | .ok b =>
    let b := bound.foldl (fun b e => b.rule e.1 e.2) b
    let finish (b : Builder α) := (b.tableAlong checked).mapError .table
    if spec.start = [] then finish b
    else match spec.rules.get? spec.start with
      | none => .error (.unknownStart spec.start)
      | some s => finish (b.start s)

/-- No rule is bound before the rules are. -/
theorem rules_of_enterStates {reg : Registry α} {spec : TableSpec} {b : Builder α}
    (h : enterStates reg 0 spec.states (spec.states.foldl (fun b _ => b.state.2) {}) = .ok b) :
    b.draft.rules = ∅ := by
  rcases enterStates_cases 0 spec.states (spec.states.foldl (fun b _ => b.state.2) {}) with
    ⟨_, _, _, _, _, _, _, herr⟩ | ⟨-, hok⟩
  · cases h.symm.trans herr
  · obtain rfl := Except.ok.inj (h.symm.trans hok)
    have hafter := tells_after (List.replicate spec.states.length .state ++
      (entriesFrom reg 0 spec.states).map call)
    rw [after, List.foldl_append, ← foldl_allocate] at hafter
    -- neither allocating a state nor entering an action binds a rule
    refine Dict.ext_get? fun name => (hafter.rules name).trans (lastBound?_eq_none fun st hst => ?_)
    rcases List.mem_append.mp hst with hst | hst
    · rw [List.eq_of_mem_replicate hst]
      rfl
    · obtain ⟨e, -, rfl⟩ := List.mem_map.mp hst
      rfl

/-- **The order of the rules decides nothing but which of several bad rules is reported.** -/
theorem build_sameOutcome (reg : Registry α) (spec : TableSpec) {bound checked : List (Text × Int)}
    (hbound : bound.Perm spec.rules.entries) (hchecked : checked.Perm spec.rules.entries) :
    SameOutcome SpecError.kind (spec.build reg) (spec.buildAlong reg bound checked) := by
  have hbind : ∀ b : Builder α,
      bound.foldl (fun b e => b.rule e.1 e.2) b = b.ruleAll spec.rules := by
    intro b
    rw [foldl_rule, ← Dict.ofList_perm hbound.symm spec.rules.nodup_keys, Dict.ofList_entries]
  -- the rules of the draft are those of the description, in any order
  have hfinish : ∀ b : Builder α, b.draft.rules = spec.rules →
      SameOutcome BuildError.kind b.table.1 (b.tableAlong checked) := by
    intro b hrules
    rw [← hrules] at hchecked
    rw [← b.tableAlong_entries]
    exact b.sameOutcome_tableAlong hchecked.symm
  unfold build buildAlong
  dsimp only
  rcases henter : enterStates reg 0 spec.states
    (spec.states.foldl (fun b _ => b.state.2) ({} : Builder α)) with e | b
  · exact .failed rfl
  · have hrules : (b.ruleAll spec.rules).draft.rules = spec.rules := by
      show b.draft.rules.union spec.rules = spec.rules
      rw [rules_of_enterStates henter]
      exact Dict.ext_get? fun name => (Dict.get?_union ∅ spec.rules name).trans Option.or_none
    dsimp only
    rw [hbind]
    by_cases hstart : spec.start = []
    · rw [if_pos hstart, if_pos hstart]
      exact (hfinish _ hrules).finish
    · rw [if_neg hstart, if_neg hstart]
      rcases spec.rules.get? spec.start with _ | s
      · exact .failed rfl
      · exact (hfinish ((b.ruleAll spec.rules).start s) hrules).finish

/-! ## Texts -/

/-- **The order of members does not matter.**  Let two texts start with values that differ at most
    in the order of the members of `rules` and of the states, none of them named twice.  Then both
    describe a table or neither does.  If they do, the fingerprints are the same, and so is what is
    built: the same table, or an error of the same kind, in whatever order the rules are taken. -/
theorem read_shuffled (t t' : Text) {v v' : Json} (hv : Json.first t = .ok v)
    (hv' : Json.first t' = .ok v') (h : v.Shuffled v') :
    ((∃ spec, read t = .ok spec) ↔ ∃ spec', read t' = .ok spec') ∧
    ∀ spec spec', read t = .ok spec → read t' = .ok spec' →
      spec.fingerprint = spec'.fingerprint ∧
      ∀ reg : Registry α, SameOutcome SpecError.kind (spec.build reg) (spec'.build reg) ∧
        ∀ bound checked : List (Text × Int), bound.Perm spec'.rules.entries →
          checked.Perm spec'.rules.entries →
          SameOutcome SpecError.kind (spec.build reg) (spec'.buildAlong reg bound checked) := by
  have hread : ∀ {t : Text} {v : Json}, Json.first t = .ok v → read t = decode v := by
    intro t v hv
    unfold read
    rw [hv]
  have hsame : ∀ spec, read t = .ok spec ↔ read t' = .ok spec := by
    intro spec
    rw [hread hv, hread hv', ← toOption_eq_some, ← toOption_eq_some, toOption_decode h]
  refine ⟨exists_congr hsame, fun spec spec' hspec hspec' => ?_⟩
  obtain rfl : spec = spec' := Except.ok.inj (((hsame spec).mp hspec).symm.trans hspec')
  refine ⟨rfl, fun reg => ⟨?_, fun bound checked hbound hchecked => ?_⟩⟩
  · rcases spec.build reg with e | table
    · exact .failed rfl
    · exact .built table
  · exact build_sameOutcome reg spec hbound hchecked

/-- A description with two rules, both at states that do not exist. -/
def written : Text :=
  lit "\x7b\"rules\":\x7b\"A\":5,\"B\":7\x7d,"
    ++ lit "\"states\":[\x7b\"x\":\x7b\"shift\":0\x7d,\"y\":\x7b\"shift\":1\x7d\x7d]\x7d"

/-- The same in another order. -/
def rewritten : Text :=
  lit "\x7b\"rules\":\x7b\"B\":7,\"A\":5\x7d,"
    ++ lit "\"states\":[\x7b\"y\":\x7b\"shift\":1\x7d,\"x\":\x7b\"shift\":0\x7d\x7d]\x7d"

/-- The value of a text with rules at states and a single state with shifts. -/
def plain (rules shifts : List (Text × Text)) : Json :=
  .object [(lit "rules", .object (rules.map fun r => (r.1, .number r.2))),
    (lit "states", .array
      [.object (shifts.map fun a => (a.1, .object [(lit "shift", .number a.2)]))])]

/-- Both the rules and the shifts can be exchanged, if no name occurs twice. -/
theorem shuffled_plain {rules rules' shifts shifts' : List (Text × Text)}
    (hrules : rules.Perm rules') (hshifts : shifts.Perm shifts')
    (hr : (rules.map Prod.fst).Nodup) (hs : (shifts.map Prod.fst).Nodup) :
    (plain rules shifts).Shuffled (plain rules' shifts') := by
  have hkeys : ∀ {l : List (Text × Text)} (f : Text × Text → Json), (l.map Prod.fst).Nodup →
      ((l.map fun p => (p.1, f p)).map Prod.fst).Nodup := by
    intro l f hl
    rw [List.map_map]
    exact hl
  have hstate := Json.Reordered.members (hshifts.map _)
    (hkeys (fun a => .object [(lit "shift", .number a.2)]) hs)
  exact .description <|
    .cons (.rules (by decide +kernel) (.members (hrules.map _) (hkeys (fun r => .number r.2) hr))) <|
    .cons (.states (by decide +kernel) (.items (.cons hstate .nil))) .nil

/-- Both descriptions are read, and nothing is built of either.  Which of the rules is to blame
    depends on the order. -/
theorem read_shuffled_written : ∃ spec spec' : TableSpec,
    read written = .ok spec ∧ read rewritten = .ok spec' ∧ spec.fingerprint = spec'.fingerprint ∧
    SameOutcome SpecError.kind (spec.build fun _ => (none : Option Reduction))
      (spec'.buildAlong (fun _ => none) spec'.rules.entries spec'.rules.entries.reverse) := by
  have hv : Json.first written = .ok
      (plain [(lit "A", lit "5"), (lit "B", lit "7")] [(lit "x", lit "0"), (lit "y", lit "1")]) := by
    cbv
  have hv' : Json.first rewritten = .ok
      (plain [(lit "B", lit "7"), (lit "A", lit "5")] [(lit "y", lit "1"), (lit "x", lit "0")]) := by
    cbv
  have hok : (read written).toOption.isSome = true := by
    unfold read
    rw [hv]
    decide +kernel
  obtain ⟨hread, hsame⟩ := read_shuffled (α := Reduction) written rewritten hv hv'
    (shuffled_plain (.swap _ _ _) (.swap _ _ _) (by decide) (by decide))
  obtain ⟨spec, hspec⟩ := Option.isSome_iff_exists.mp hok
  have hspec : read written = .ok spec := toOption_eq_some.mp hspec
  obtain ⟨spec', hspec'⟩ := hread.mp ⟨spec, hspec⟩
  obtain ⟨hprint, hbuild⟩ := hsame spec spec' hspec hspec'
  exact ⟨spec, spec', hspec, hspec', hprint, (hbuild _).2 _ _ (.refl _) (List.reverse_perm _)⟩

end TableSpec
end Pushdown
