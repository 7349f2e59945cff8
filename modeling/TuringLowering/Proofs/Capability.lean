import TuringLowering.Proofs.Operation
import TuringLowering.RuleTable.Listing

/-!
This module contains the proof that the rules of a draft need no other features than those that are
enabled, whatever requests it was made of and whichever of them were refused.
-/

namespace TuringLowering

namespace Action

def isPreserve : Action → Bool
  | .preserve _ => true
  | _ => false

end Action

namespace FeatureSet

def allows (s : FeatureSet) : Action → Bool
  | .write _ m => s.supports m
  | .preserve m => s.supports m
  | .shift _ => s.enabled .gadgetShift
  | .markFirst _ => s.enabled .gadgetFirstCellMarker
  | .insertAfter _ _ => s.enabled .gadgetInsertAfterMarker

def width (s : FeatureSet) (use : TapeUse) : Nat :=
  if s.enabled .multiTape then use.count else 1

end FeatureSet

namespace Outcome

def keeps (o : Outcome) : Bool := o.actions.any Action.isPreserve

structure Conforms (s : FeatureSet) (width : Nat) (o : Outcome) : Prop where
  length : o.actions.length = width
  allowed : ∀ a ∈ o.actions, s.allows a = true

end Outcome

namespace RuleTable

structure Conforms (s : FeatureSet) (width : Nat) (t : RuleTable) : Prop where
  outcomes : ∀ o ∈ t.outcomes, o.Conforms s width
  wildcard : t.hasWildcard = true → s.enabled .wildcard = true
  groups : ∀ g ∈ t.groups, s.groups g.outcome.keeps = true
  -- Only a joint rule for one combination says that a cell is kept; others write it again.
  exact : ∀ rule ∈ t.exact, rule.2.keeps = true → s.enabled .multiTape = true

theorem mem_outcomes {t : RuleTable} {o : Outcome} :
    o ∈ t.outcomes
      ↔
    (∃ rule ∈ t.exact, rule.2 = o) ∨ (∃ g ∈ t.groups, g.outcome = o) ∨ t.wildcard = some o := by
  simp only [outcomes, List.mem_append, List.mem_map, Option.mem_toList, or_assoc]

theorem checked_of_bind {α : Type} {check : Except RuleError Unit} {t t' : α}
    (h : (do check; return t : Except RuleError α) = .ok t') : check = .ok () ∧ t' = t := by
  cases check with
  | error e => cases h
  | ok u =>
    cases h
    exact ⟨rfl, rfl⟩

namespace Conforms

variable {s : FeatureSet} {width : Nat} {t t' : RuleTable} {o : Outcome}

theorem empty : RuleTable.empty.Conforms s width where
  outcomes o h := by simp [mem_outcomes, RuleTable.empty] at h
  wildcard h := by cases h
  groups g h := by cases h
  exact rule h := by cases h

theorem addExact {c : Cell} {alphabet : Alphabet} (ht : t.Conforms s width)
    (ho : o.Conforms s width) (hkeep : o.keeps = true → s.enabled .multiTape = true)
    (h : RuleTable.addExact c o alphabet t = .ok t') : t'.Conforms s width := by
  obtain ⟨-, rfl⟩ := checked_of_bind h
  constructor
  . intro o' ho'
    rw [mem_outcomes] at ho'
    simp only [List.mem_append, List.mem_singleton] at ho'
    rcases ho' with ⟨rule, hrule | rfl, rfl⟩ | hgroup | hwild
    . exact ht.outcomes _ (mem_outcomes.mpr (.inl ⟨rule, hrule, rfl⟩))
    . exact ho
    . exact ht.outcomes _ (mem_outcomes.mpr (.inr (.inl hgroup)))
    . exact ht.outcomes _ (mem_outcomes.mpr (.inr (.inr hwild)))
  . exact ht.wildcard
  . exact ht.groups
  . intro rule hrule
    rcases List.mem_append.mp hrule with hold | hnew
    . exact ht.exact rule hold
    . rw [List.mem_singleton.mp hnew]
      exact hkeep

theorem addGroup {g : RuleGroup} {alphabet : Alphabet} (ht : t.Conforms s width)
    (ho : g.outcome.Conforms s width) (hgroup : s.groups g.outcome.keeps = true)
    (h : RuleTable.addGroup g alphabet t = .ok t') : t'.Conforms s width := by
  obtain ⟨-, rfl⟩ := checked_of_bind h
  constructor
  . intro o' ho'
    rw [mem_outcomes] at ho'
    simp only [List.mem_append, List.mem_singleton] at ho'
    rcases ho' with hexact | ⟨g', hg' | rfl, rfl⟩ | hwild
    . exact ht.outcomes _ (mem_outcomes.mpr (.inl hexact))
    . exact ht.outcomes _ (mem_outcomes.mpr (.inr (.inl ⟨g', hg', rfl⟩)))
    . exact ho
    . exact ht.outcomes _ (mem_outcomes.mpr (.inr (.inr hwild)))
  . exact ht.wildcard
  . intro g' hg'
    rcases List.mem_append.mp hg' with hold | hnew
    . exact ht.groups g' hold
    . rw [List.mem_singleton.mp hnew]
      exact hgroup
  . exact ht.exact

theorem addWildcard (ht : t.Conforms s width) (ho : o.Conforms s width)
    (hwild : s.enabled .wildcard = true) (h : RuleTable.addWildcard o t = .ok t') :
    t'.Conforms s width := by
  unfold RuleTable.addWildcard at h
  split at h
  . cases h
  . cases h
    constructor
    . intro o' ho'
      rw [mem_outcomes] at ho'
      rcases ho' with hexact | hgroup | hnew
      . exact ht.outcomes _ (mem_outcomes.mpr (.inl hexact))
      . exact ht.outcomes _ (mem_outcomes.mpr (.inr (.inl hgroup)))
      . cases hnew
        exact ho
    . intro _
      exact hwild
    . exact ht.groups
    . exact ht.exact

end Conforms

end RuleTable

namespace FeatureSet

variable {s : FeatureSet} {m : Move}

theorem supports_of_distance (h : m.distance = 1) : s.supports m = true := by
  simp only [supports, h]

theorem supports_step (h : m ≠ .stay) : s.supports m.step = true := by
  apply supports_of_distance
  have hoff : m.offset ≠ 0 := by
    intro hzero
    apply h
    cases m
    simp_all
  unfold Move.step Move.distance
  rw [Int.natAbs_sign]
  simp [hoff]

theorem supports_detour_fst (m : Move) : s.supports m.detour.1 = true := by
  unfold Move.detour
  split
  . rfl
  . next h => exact supports_step h

theorem detour_snd_le (h : s.supports m = false) {n : Nat} (hn : max 1 m.distance ≤ n + 1) :
    s.supports m.detour.2 = true ∨ max 1 m.detour.2.distance ≤ n := by
  unfold Move.detour
  split
  . left
    rfl
  . next hstay =>
    right
    have hzero : m.distance ≠ 0 := by
      intro hzero
      apply hstay
      cases m
      simp_all [Move.distance]
    have hone : m.distance ≠ 1 := by
      intro hone
      rw [supports_of_distance hone] at h
      cases h
    have hrest := m.distance_rest
    dsimp only
    omega

end FeatureSet

namespace Draft

structure Lowered (s : FeatureSet) (use : TapeUse) (d : Draft) : Prop where
  features : d.features = s
  tapes : d.tapes = use
  tables : ∀ e ∈ d.states.entries, e.2.Conforms s (s.width use)

namespace Lowered

variable {s : FeatureSet} {use : TapeUse} {d : Draft}

theorem table (h : d.Lowered s use) (name : String) :
    (d.states.table name).Conforms s (s.width use) := by
  unfold StateTables.table StateTables.find?
  cases hfind : d.states.entries.find? (·.1 = name) with
  | none => exact .empty
  | some e => exact h.tables e (List.mem_of_find?_eq_some hfind)

theorem ensure (h : d.Lowered s use) (name : String) :
    { d with states := d.states.ensure name }.Lowered s use where
  features := h.features
  tapes := h.tapes
  tables e he := by
    dsimp only [StateTables.ensure] at he
    split at he
    . exact h.tables e he
    . rcases List.mem_append.mp he with hold | hnew
      . exact h.tables e hold
      . rw [List.mem_singleton.mp hnew]
        exact .empty

theorem set (h : d.Lowered s use) (name : String) {t : RuleTable}
    (ht : t.Conforms s (s.width use)) :
    { d with states := d.states.set name t }.Lowered s use where
  features := h.features
  tapes := h.tapes
  tables e he := by
    obtain ⟨e', he', rfl⟩ := List.mem_map.mp he
    split
    . exact ht
    . exact h.tables e' he'

end Lowered

end Draft

namespace Outcome

variable {s : FeatureSet} {width : Nat} {next : String}

theorem Conforms.single {a : Action} (ha : s.allows a = true) (hw : width = 1) :
    (single a next).Conforms s width where
  length := hw.symm
  allowed b hb := by rwa [List.mem_singleton.mp hb]

theorem keeps_single_action (w : Writing) (m : Move) :
    (single (w.action m) next).keeps = (w == .keep) := by
  cases w <;> rfl

theorem allows_action (w : Writing) (m : Move) : s.allows (w.action m) = s.supports m := by
  cases w <;> rfl

end Outcome

namespace Build

open Draft (Lowered)

variable {s : FeatureSet} {use : TapeUse}

theorem addState_lowered (name : String) : Maintains (Lowered s use) (addState name) :=
  Maintains.modify fun _ hd => hd.ensure name

theorem addSymbol_lowered (c : Cell) : Maintains (Lowered s use) (addSymbol c) :=
  Maintains.modify fun _ hd => ⟨hd.features, hd.tapes, hd.tables⟩

theorem addRule_lowered (state : String)
    {add : Alphabet → RuleTable → Except RuleError RuleTable}
    (hadd : ∀ alphabet t t', t.Conforms s (s.width use) → add alphabet t = .ok t' →
      t'.Conforms s (s.width use)) :
    Maintains (Lowered s use) (addRule state add) := by
  intro d hd
  unfold after
  rw [addRule_apply]
  cases h : add d.alphabet (d.states.table state) with
  | ok t => exact (hd.ensure state).set state (hadd _ _ _ (hd.table state) h)
  | error cause => exact hd.ensure state

theorem addExact_lowered (state : String) (c : Cell) {o : Outcome}
    (ho : o.Conforms s (s.width use)) (hkeep : o.keeps = true → s.enabled .multiTape = true) :
    Maintains (Lowered s use) (addRule state (RuleTable.addExact c o)) :=
  addRule_lowered state fun _ _ _ ht h => ht.addExact ho hkeep h

theorem addWildcard_lowered (state : String) {o : Outcome} (ho : o.Conforms s (s.width use))
    (hwild : s.enabled .wildcard = true) :
    Maintains (Lowered s use) (addRule state fun _ => RuleTable.addWildcard o) :=
  addRule_lowered state fun _ _ _ ht h => ht.addWildcard ho hwild h

theorem addRules_lowered (state : String) (cells : List Cell) {grouped : Bool}
    {shared : Outcome} {each : Cell → Outcome} (source : Option JointPattern)
    (hshared : grouped = true →
      shared.Conforms s (s.width use) ∧ s.groups shared.keeps = true)
    (heach : ∀ c ∈ cells, (each c).Conforms s (s.width use) ∧
      ((each c).keeps = true → s.enabled .multiTape = true)) :
    Maintains (Lowered s use) (addRules state cells grouped shared each source) := by
  unfold addRules
  split
  . next hgrouped =>
    split
    . exact addState_lowered state
    . apply addRule_lowered
      intro alphabet t t' ht h
      exact ht.addGroup (hshared hgrouped).1 (hshared hgrouped).2 h
  . apply Maintains.forM
    intro c hc
    exact addExact_lowered state c (heach c hc).1 (heach c hc).2

theorem chain_lowered (key : ChainKey) (parts : List String) :
    Maintains (Lowered s use) (chain key parts) := by
  apply Maintains.get_bind
  intro d hd
  split
  . exact Maintains.pure _
  . apply Maintains.bind
    . intro _ _
      exact ⟨hd.features, hd.tapes, hd.tables⟩
    . intro _
      exact Maintains.pure _

theorem allows_action_of_feature {g : Gadget} (h : s.enabled g.kind.feature = true) :
    s.allows g.action = true := by
  cases g <;> exact h

section SingleTape

variable (hw : s.width use = 1)

include hw

theorem write_conforms (c : Cell) {m : Move} (next : String) (hm : s.supports m = true) :
    (Outcome.single (.write c m) next).Conforms s (s.width use) :=
  .single hm hw

theorem action_conforms (w : Writing) {m : Move} (next : String) (hm : s.supports m = true) :
    (Outcome.single (w.action m) next).Conforms s (s.width use) := by
  apply Outcome.Conforms.single
  . rw [Outcome.allows_action]
    exact hm
  . exact hw

theorem directForCells_lowered (origin : String) (cells : List Cell) (w : Writing) {m : Move}
    (next : String) (hm : s.supports m = true) :
    Maintains (Lowered s use) (directForCells origin cells w m next) := by
  apply Maintains.get_bind
  intro d hd
  rw [hd.features]
  apply addRules_lowered
  . intro hgrouped
    constructor
    . exact action_conforms hw w next hm
    . rw [Outcome.keeps_single_action]
      exact hgrouped
  . intro c _
    constructor
    . exact write_conforms hw _ next hm
    . intro hkeeps
      cases hkeeps

theorem direct_lowered (origin : String) (read : Pattern) (w : Writing) {m : Move}
    (next : String) (hm : s.supports m = true) :
    Maintains (Lowered s use) (direct origin read w m next) := by
  unfold direct
  cases read with
  | cell c =>
    apply addExact_lowered
    . exact write_conforms hw _ next hm
    . intro hkeeps
      cases hkeeps
  | oneOf cells => exact directForCells_lowered hw origin cells w next hm
  | any =>
    apply Maintains.enabled_bind
    intro d hd
    rw [hd.features]
    split
    . next hwild => exact addWildcard_lowered origin (action_conforms hw w next hm) hwild
    . apply Maintains.get_bind
      intro d' _
      exact directForCells_lowered hw origin _ w next hm

theorem transition_go_lowered (n : Nat) (origin : String) (read : Pattern) (w : Writing)
    (m : Move) (next : String) (h : s.supports m = true ∨ max 1 m.distance ≤ n) :
    Maintains (Lowered s use) (transition.go n origin read w m next) := by
  induction n generalizing origin read w m next with
  | zero =>
    have hm : s.supports m = true := by
      rcases h with h | h
      . exact h
      . omega
    exact direct_lowered hw origin read w next hm
  | succ n ih =>
    apply Maintains.get_bind
    intro d hd
    rw [hd.features]
    split
    . next hm => exact direct_lowered hw origin read w next hm
    . next hm =>
      apply Maintains.bind (chain_lowered _ _)
      intro (state, isNew)
      have hdirect :
          Maintains (Lowered s use) (direct origin read w m.detour.1 state) :=
        direct_lowered hw origin read w state (FeatureSet.supports_detour_fst m)
      dsimp only
      split
      . apply Maintains.bind
        . apply ih
          have hn : max 1 m.distance ≤ n + 1 := h.resolve_left hm
          exact FeatureSet.detour_snd_le (Bool.eq_false_iff.mpr hm) hn
        . intro _
          exact hdirect
      . exact hdirect

theorem transition_lowered (origin : String) (read : Pattern) (w : Writing) (m : Move)
    (next : String) : Maintains (Lowered s use) (transition origin read w m next) :=
  transition_go_lowered hw _ origin read w m next (.inr (Nat.le_refl _))

theorem addAction_lowered (origin : String) (read : Pattern) {a : Action} (next : String)
    (ha : s.allows a = true) (hkeep : a.isPreserve = false) :
    Maintains (Lowered s use) (addAction origin read a next) := by
  have ho : (Outcome.single a next).Conforms s (s.width use) := .single ha hw
  have hkeeps : (Outcome.single a next).keeps = false := by
    simpa [Outcome.keeps, Outcome.single] using hkeep
  have hmulti : (Outcome.single a next).keeps = true → s.enabled .multiTape = true := by
    rw [hkeeps]
    intro h
    cases h
  have hrules : ∀ cells, Maintains (Lowered s use)
      (addRules origin cells (s.enabled .multiMatch) (.single a next)
        (fun _ => .single a next) none) := by
    intro cells
    apply addRules_lowered
    . intro hgrouped
      refine ⟨ho, ?_⟩
      simp [FeatureSet.groups, hkeeps, hgrouped]
    . intro c _
      exact ⟨ho, hmulti⟩
  apply Maintains.enabled_bind
  intro d hd
  rw [hd.features]
  cases read with
  | cell c => exact addExact_lowered origin c ho hmulti
  | oneOf cells => exact hrules cells
  | any =>
    apply Maintains.enabled_bind
    intro d' hd'
    rw [hd'.features]
    split
    . next hwild => exact addWildcard_lowered origin ho hwild
    . apply Maintains.get_bind
      intro d'' _
      exact hrules _

theorem shiftChain_lowered (origin : String) (read : Pattern) (m : Move) (next : String) :
    Maintains (Lowered s use) (shiftChain origin read m next) := by
  apply Maintains.get_bind
  intro d _
  apply Maintains.forM
  intro symbol _
  apply Maintains.bind (chain_lowered _ _)
  intro (paste, isNew)
  dsimp only
  split
  . apply Maintains.bind
    . exact transition_lowered hw _ _ _ _ _
    . intro _
      exact transition_lowered hw _ _ _ _ _
  . exact transition_lowered hw _ _ _ _ _

theorem shift_lowered (origin : String) (read : Pattern) (m : Move) (next : String) :
    Maintains (Lowered s use) (shift origin read m next) := by
  apply Maintains.enabled_bind
  intro d hd
  rw [hd.features]
  split
  . next h => exact addAction_lowered hw origin read next h rfl
  . exact shiftChain_lowered hw origin read m next

theorem seekEnd_lowered (state next : String) :
    Maintains (Lowered s use) (seekEnd state next) := by
  apply Maintains.bind
  . exact transition_lowered hw _ _ _ _ _
  . intro _
    exact transition_lowered hw _ _ _ _ _

theorem markFirstChain_lowered (origin : String) (read : Pattern) (marker : Cell)
    (next : String) :
    Maintains (Lowered s use) (markFirstChain origin read marker next) := by
  apply Maintains.bind (chain_lowered _ _)
  intro (base, isNew)
  dsimp only
  split
  . apply Maintains.bind (transition_lowered hw _ _ _ _ _)
    intro _
    apply Maintains.bind (seekEnd_lowered hw _ _)
    intro _
    apply Maintains.bind (transition_lowered hw _ _ _ _ _)
    intro _
    exact shift_lowered hw _ _ _ _
  . exact Maintains.pure _

theorem insertAfterChain_lowered (origin : String) (read : Pattern) (marker insert : Cell)
    (next : String) :
    Maintains (Lowered s use) (insertAfterChain origin read marker insert next) := by
  apply Maintains.bind (chain_lowered _ _)
  intro (base, isNew)
  dsimp only
  split
  . apply Maintains.bind (transition_lowered hw _ _ _ _ _)
    intro _
    apply Maintains.bind (seekEnd_lowered hw _ _)
    intro _
    apply Maintains.bind (transition_lowered hw _ _ _ _ _)
    intro _
    apply Maintains.bind (shift_lowered hw _ _ _ _)
    intro _
    exact transition_lowered hw _ _ _ _ _
  . exact Maintains.pure _

theorem gadget_lowered (origin : String) (read : Pattern) (g : Gadget) (next : String) :
    Maintains (Lowered s use) (gadget origin read g next) := by
  apply Maintains.enabled_bind
  intro d hd
  rw [hd.features]
  split
  . next h =>
    apply addAction_lowered hw
    . exact allows_action_of_feature h
    . cases g <;> rfl
  . cases g with
    | shift m => exact shiftChain_lowered hw origin read m next
    | markFirst marker => exact markFirstChain_lowered hw origin read marker next
    | insertAfter marker insert => exact insertAfterChain_lowered hw origin read marker insert next

theorem directive_lowered (x : Directive) : Maintains (Lowered s use) (directive x) := by
  cases x with
  | transition origin read w m next => exact transition_lowered hw origin read w m next
  | gadget origin read g next => exact gadget_lowered hw origin read g next

theorem directives_lowered (xs : List Directive) :
    Maintains (Lowered s use) (directives xs) :=
  Maintains.forM fun x _ => directive_lowered hw x

theorem findHeads_lowered (r : Route) : Maintains (Lowered s use) (findHeads r) := by
  apply Maintains.get_bind
  intro d _
  apply Maintains.forM
  intro (c, n) _
  apply Maintains.hasState_bind
  intro known
  have hlast : ∀ b : Bool, Maintains (Lowered s use) (do
      if b || !(← hasRule (r.findState n) c.tagged) then
        directive (.replace (r.findState n) c.tagged c.tagged .right (r.findState (n + 1)))) := by
    intro b
    apply Maintains.hasRule_bind
    intro ruled
    split
    . exact directive_lowered hw _
    . exact Maintains.pure _
  dsimp only
  split
  . exact Maintains.bind (directive_lowered hw _) fun _ => hlast _
  . exact hlast _

theorem applyActions_lowered (r : Route) : Maintains (Lowered s use) (applyActions r) := by
  apply Maintains.get_bind
  intro d _
  apply Maintains.forM
  intro ((write, move), n) _
  apply Maintains.hasState_bind
  intro known
  split
  . exact directives_lowered hw _
  . exact Maintains.pure _

theorem route_lowered (r : Route) : Maintains (Lowered s use) (route r) := by
  have hrest : Maintains (Lowered s use) (do
      findHeads r
      applyActions r
      if !(← hasState (r.applyState 0)) then
        directives (r.record (← get).alphabet)) := by
    apply Maintains.bind (findHeads_lowered hw r)
    intro _
    apply Maintains.bind (applyActions_lowered hw r)
    intro _
    apply Maintains.hasState_bind
    intro known
    split
    . apply Maintains.get_bind
      intro d _
      exact directives_lowered hw _
    . exact Maintains.pure _
  apply Maintains.hasRule_bind
  intro known
  split
  . apply Maintains.bind (addSymbol_lowered _)
    intro _
    exact Maintains.bind (directives_lowered hw _) fun _ => hrest
  . exact hrest

theorem simulated_lowered (origin : String) (read : JointPattern) (writes : List Writing)
    (moves : List Move) (next : String) :
    Maintains (Lowered s use) (simulated origin read writes moves next) := by
  apply Maintains.get_bind
  intro d _
  apply Maintains.forM
  intro r _
  exact route_lowered hw r

theorem simulateTapes_lowered (count : Nat) (first : String) :
    Maintains (Lowered s use) (simulateTapes count first) := by
  apply Maintains.bind
  . exact Maintains.modify fun _ hd => ⟨hd.features, hd.tapes, hd.tables⟩
  intro _
  apply Maintains.bind (addSymbol_lowered _)
  intro _
  apply Maintains.bind (Maintains.forM fun v _ => addSymbol_lowered _)
  intro _
  apply Maintains.get_bind
  intro d _
  apply Maintains.bind (directives_lowered hw _)
  intro _
  apply Maintains.bind (addState_lowered _)
  intro _
  exact directives_lowered hw _

end SingleTape

theorem joint_conforms {writes : List Writing} {moves : List Move} (next : String)
    (hwrites : writes.length = s.width use) (hmoves : moves.length = s.width use)
    (hm : ∀ m ∈ moves, s.supports m = true) :
    (⟨List.zipWith Writing.action writes moves, next⟩ : Outcome).Conforms s (s.width use) := by
  constructor
  . simp [hwrites, hmoves]
  . intro a ha
    rw [← List.map_uncurry_zip_eq_zipWith] at ha
    obtain ⟨⟨w, m⟩, hmem, rfl⟩ := List.mem_map.mp ha
    rw [Function.uncurry_apply_pair, Outcome.allows_action]
    exact hm m (List.of_mem_zip hmem).2

theorem jointWrite_conforms {cells : List Cell} {moves : List Move} (next : String)
    (hcells : cells.length = s.width use) (hmoves : moves.length = s.width use)
    (hm : ∀ m ∈ moves, s.supports m = true) :
    (⟨List.zipWith Action.write cells moves, next⟩ : Outcome).Conforms s (s.width use) := by
  constructor
  . simp [hcells, hmoves]
  . intro a ha
    rw [← List.map_uncurry_zip_eq_zipWith] at ha
    obtain ⟨⟨c, m⟩, hmem, rfl⟩ := List.mem_map.mp ha
    exact hm m (List.of_mem_zip hmem).2

theorem keeps_joint {writes : List Writing} {moves : List Move} {next : String}
    (h : writes.length = moves.length) :
    (⟨List.zipWith Writing.action writes moves, next⟩ : Outcome).keeps = writes.contains .keep := by
  unfold Outcome.keeps
  dsimp only
  induction writes generalizing moves with
  | nil => rfl
  | cons w ws ih =>
    cases moves with
    | nil => cases h
    | cons m ms =>
      rw [List.zipWith_cons_cons, List.any_cons, ih (by simpa using h), List.contains_cons]
      cases w <;> rfl

theorem length_of_mem_combinations {options : List (List Cell)} {cells : List Cell}
    (h : cells ∈ combinations options) : cells.length = options.length := by
  induction options generalizing cells with
  | nil => simp_all [combinations]
  | cons first rest ih =>
    simp only [combinations, List.mem_flatMap, List.mem_map] at h
    obtain ⟨c, -, tail, htail, rfl⟩ := h
    simp [ih htail]

section RealTapes

variable {writes : List Writing} {moves : List Move} (hmulti : s.enabled .multiTape = true)
  (hwrites : writes.length = s.width use) (hmoves : moves.length = s.width use)
  (hm : ∀ m ∈ moves, s.supports m = true)

include hmulti hwrites hmoves hm

theorem jointForCells_lowered (origin : String) (reads : List (List Cell)) (next : String)
    (source : JointPattern) (hreads : ∀ read ∈ reads, read.length = s.width use) :
    Maintains (Lowered s use) (jointForCells origin reads writes moves next source) := by
  apply Maintains.get_bind
  intro d hd
  rw [hd.features]
  apply addRules_lowered
  . intro hgrouped
    refine ⟨joint_conforms next hwrites hmoves hm, ?_⟩
    rw [← hgrouped]
    congr 1
    apply keeps_joint
    rw [hwrites, hmoves]
  . intro c hc
    obtain ⟨read, hread, rfl⟩ := List.mem_map.mp hc
    refine ⟨jointWrite_conforms next ?_ hmoves hm, fun _ => hmulti⟩
    simp [Writing.ontoAll, Cell.components, hwrites, hreads read hread]

theorem jointPerTape_lowered (origin : String) (patterns : List Pattern) (next : String)
    (hpatterns : patterns.length = s.width use) :
    Maintains (Lowered s use) (jointPerTape origin patterns writes moves next) := by
  unfold jointPerTape
  split
  . apply addExact_lowered
    . exact joint_conforms next hwrites hmoves hm
    . intro _
      exact hmulti
  . apply Maintains.get_bind
    intro d _
    apply jointForCells_lowered hmulti hwrites hmoves hm
    intro read hread
    have hmem : read ∈ combinations (patterns.map (Pattern.cells d.alphabet.symbols)) := by
      split at hread
      . exact (List.mem_filter.mp hread).1
      . exact hread
    rw [length_of_mem_combinations hmem, List.length_map, hpatterns]

theorem joint_lowered (origin : String) (read : JointPattern) (next : String)
    (hread : ∀ patterns, read = .tapes patterns → patterns.length = s.width use) :
    Maintains (Lowered s use) (joint origin read writes moves next) := by
  apply Maintains.enabled_bind
  intro d hd
  rw [hd.features]
  split
  . next h =>
    exact addWildcard_lowered origin (joint_conforms next hwrites hmoves hm) h.2
  . apply jointPerTape_lowered hmulti hwrites hmoves hm
    cases read with
    | any => simp [JointPattern.perTape, hwrites]
    | tapes patterns => exact hread patterns rfl

end RealTapes

structure Fits (count : Nat) (t : JointTransition) : Prop where
  reads : ∀ patterns, t.read = .tapes patterns → patterns.length = count
  writes : t.writes.length = count
  moves : t.moves.length = count

theorem supports_of_not_isLong {m : Move} (hmulti : s.enabled .multiTape = true)
    (h : m.isLong = false) : s.supports m = true := by
  have hnone : s.enabled .moveNone = true := by
    simp_all [FeatureSet.enabled]
  have hm : m.distance = 0 ∨ m.distance = 1 := by
    simp only [Move.isLong, decide_eq_false_iff_not] at h
    omega
  rcases hm with hm | hm
  . simp only [FeatureSet.supports, hm, hnone]
  . exact FeatureSet.supports_of_distance hm

theorem supports_of_moveMulti {m : Move} (hmulti : s.enabled .multiTape = true)
    (h : s.enabled .moveMulti = true) : s.supports m = true := by
  by_cases hm : m.isLong = true
  . have hd : 1 < m.distance := by simpa [Move.isLong] using hm
    unfold FeatureSet.supports
    split
    . rfl
    . omega
    . exact h
  . exact supports_of_not_isLong hmulti (by simpa using hm)

theorem width_of_not_multiTape (h : s.enabled .multiTape = false) : s.width use = 1 := by
  simp [FeatureSet.width, h]

theorem jointDirect_lowered (t : JointTransition)
    (h : s.enabled .multiTape = true →
      Fits (s.width use) t ∧ ∀ m ∈ t.moves, s.supports m = true) :
    Maintains (Lowered s use) (jointTransition.direct t) := by
  apply Maintains.enabled_bind
  intro d hd
  rw [hd.features]
  split
  . next hmulti =>
    obtain ⟨hfits, hm⟩ := h hmulti
    exact joint_lowered hmulti hfits.writes hfits.moves hm t.origin t.read t.next hfits.reads
  . next hmulti =>
    apply simulated_lowered
    exact width_of_not_multiTape (by simpa using hmulti)

theorem jointTransition_go_lowered (n : Nat) (t : JointTransition)
    (hfits : s.enabled .multiTape = true → Fits (s.width use) t)
    (hn : ∀ m ∈ t.moves, m.distance ≤ n) :
    Maintains (Lowered s use) (jointTransition.go n t) := by
  induction n generalizing t with
  | zero =>
    apply jointDirect_lowered
    intro hmulti
    refine ⟨hfits hmulti, ?_⟩
    intro m hm
    apply supports_of_not_isLong hmulti
    have := hn m hm
    simp only [Move.isLong, decide_eq_false_iff_not]
    omega
  | succ n ih =>
    apply Maintains.enabled_bind
    intro d hd
    rw [hd.features]
    apply Maintains.enabled_bind
    intro d' hd'
    rw [hd'.features]
    dsimp only
    split
    . apply Maintains.bind (chain_lowered _ _)
      intro (state, isNew)
      have hdirect : Maintains (Lowered s use) (jointTransition.direct
          { t with moves := t.moves.map Move.step, next := state }) := by
        apply jointDirect_lowered
        intro hmulti
        obtain ⟨hreads, hwrites, hmoves⟩ := hfits hmulti
        refine ⟨⟨hreads, hwrites, by simpa using hmoves⟩, ?_⟩
        intro m hm
        obtain ⟨m', -, rfl⟩ := List.mem_map.mp hm
        exact supports_of_not_isLong hmulti m'.isLong_step
      dsimp only
      split
      . apply Maintains.bind
        . apply ih
          . intro hmulti
            obtain ⟨-, hwrites, hmoves⟩ := hfits hmulti
            refine ⟨?_, by simpa using hwrites, by simpa using hmoves⟩
            intro patterns hpatterns
            cases hpatterns
          . intro m hm
            obtain ⟨m', hm', rfl⟩ := List.mem_map.mp hm
            have := hn m' hm'
            have := m'.distance_rest
            omega
        . intro _
          exact hdirect
      . exact hdirect
    . next hsplit =>
      apply jointDirect_lowered
      intro hmulti
      refine ⟨hfits hmulti, ?_⟩
      intro m hm
      by_cases hmove : s.enabled .moveMulti = true
      . exact supports_of_moveMulti hmulti hmove
      . apply supports_of_not_isLong hmulti
        simp_all

theorem le_foldl_max {ns : List Nat} {n start : Nat} (h : n ∈ ns ∨ n ≤ start) :
    n ≤ ns.foldl max start := by
  induction ns generalizing start with
  | nil => simpa using h
  | cons k ns ih =>
    apply ih
    rcases h with h | h
    . rcases List.mem_cons.mp h with rfl | h
      . exact .inr (Nat.le_max_right _ _)
      . exact .inl h
    . exact .inr (Nat.le_trans h (Nat.le_max_left _ _))

theorem jointTransition_lowered (t : JointTransition)
    (hfits : s.enabled .multiTape = true → Fits (s.width use) t) :
    Maintains (Lowered s use) (jointTransition t) := by
  apply jointTransition_go_lowered _ _ hfits
  intro m hm
  exact le_foldl_max (.inl (List.mem_map_of_mem hm))

end Build

section Renaming

variable {s : FeatureSet} {width : Nat} (f : String → String)

@[simp]
theorem FeatureSet.allows_mapNames (a : Action) : s.allows (a.mapNames f) = s.allows a := by
  cases a <;> rfl

@[simp]
theorem Action.isPreserve_mapNames (a : Action) : (a.mapNames f).isPreserve = a.isPreserve := by
  cases a <;> rfl

@[simp]
theorem Outcome.keeps_mapNames (o : Outcome) : (o.mapNames f).keeps = o.keeps := by
  simp [Outcome.keeps, Outcome.mapNames, Function.comp_def]

theorem Outcome.Conforms.mapNames {o : Outcome} (h : o.Conforms s width) :
    (o.mapNames f).Conforms s width where
  length := by simp [Outcome.mapNames, h.length]
  allowed a ha := by
    obtain ⟨a', ha', rfl⟩ := List.mem_map.mp ha
    rw [FeatureSet.allows_mapNames]
    exact h.allowed a' ha'

theorem RuleTable.Conforms.mapNames {t : RuleTable} (h : t.Conforms s width) :
    (t.mapNames f).Conforms s width where
  outcomes o ho := by
    have ho : ∃ o' ∈ t.outcomes, o'.mapNames f = o := by
      simp only [mem_outcomes, RuleTable.mapNames, List.mem_map, Option.map_eq_some_iff] at ho ⊢
      grind
    obtain ⟨o', ho', rfl⟩ := ho
    exact (h.outcomes o' ho').mapNames f
  wildcard hwild := h.wildcard (by simpa [RuleTable.mapNames, hasWildcard] using hwild)
  groups g hg := by
    obtain ⟨g', hg', rfl⟩ := List.mem_map.mp hg
    simpa using h.groups g' hg'
  exact rule hrule := by
    obtain ⟨rule', hrule', rfl⟩ := List.mem_map.mp hrule
    simpa using h.exact rule' hrule'

end Renaming

namespace Draft

/-- The rules need enabled features only, and there are none before the use of tapes is settled. -/
structure Conforms (d : Draft) : Prop where
  tables : ∀ e ∈ d.states.entries, e.2.Conforms d.features (d.features.width d.tapes)
  undecided : d.tapes = .undecided → ∀ e ∈ d.states.entries, e.2 = .empty

theorem Conforms.lowered {d : Draft} (h : d.Conforms) : d.Lowered d.features d.tapes :=
  ⟨rfl, rfl, h.tables⟩

theorem Lowered.conforms {s : FeatureSet} {use : TapeUse} {d : Draft} (h : d.Lowered s use)
    (huse : use ≠ .undecided) : d.Conforms where
  tables := by
    rw [h.features, h.tapes]
    exact h.tables
  undecided hundecided := absurd (h.tapes ▸ hundecided) huse

theorem Conforms.new (start : String) : (new start).Conforms where
  tables e he := by cases he
  undecided _ e he := by cases he

theorem Conforms.mapNames {d : Draft} (h : d.Conforms) (f : String → String) :
    (d.mapNames f).Conforms where
  tables e he := by
    obtain ⟨e', he', rfl⟩ := List.mem_map.mp he
    exact (h.tables e' he').mapNames f
  undecided hundecided e he := by
    obtain ⟨e', he', rfl⟩ := List.mem_map.mp he
    have hempty := h.undecided hundecided e' he'
    dsimp only
    rw [hempty]
    rfl

theorem Conforms.avoid {d : Draft} (h : d.Conforms) (name : String) : (d.avoid name).Conforms := by
  unfold Draft.avoid
  split
  . have hmap := h.mapNames (d.guard.rename (.avoiding name))
    exact ⟨hmap.tables, hmap.undecided⟩
  . exact h

end Draft

namespace Build

open Draft (Lowered Conforms)

def Settled (use : TapeUse) (d : Draft) : Prop := d.Conforms ∧ d.tapes = use

theorem settled_of_lowered {α : Type} {use : TapeUse} (huse : use ≠ .undecided) {x : Build α}
    (h : ∀ s, Maintains (Lowered s use) x) : Maintains (Settled use) x := by
  rintro d ⟨hd, rfl⟩
  have hlowered := h d.features d hd.lowered
  exact ⟨hlowered.conforms huse, hlowered.tapes⟩

theorem avoid_settled (use : TapeUse) (name : String) : Maintains (Settled use) (avoid name) := by
  apply Maintains.modify
  rintro d ⟨hd, htapes⟩
  exact ⟨hd.avoid name, by rw [Draft.tapes_avoid, htapes]⟩

theorem checkUnsettled_bind {α : Type} {I : Draft → Prop} {k : Unit → Build α}
    (hk : ∀ d, I d → d.isUnsettled = true → I ((k ()).after d)) :
    Maintains I (checkUnsettled >>= k) := by
  intro d hd
  cases h : d.isUnsettled with
  | true =>
    have : checkUnsettled d = .ok () d := by
      rw [checkUnsettled, bind_of_ok (get_apply d), h]
      rfl
    unfold after
    rw [bind_of_ok this]
    exact hk d hd h
  | false =>
    have : checkUnsettled d = .error .settled d := by
      rw [checkUnsettled, bind_of_ok (get_apply d), h]
      rfl
    unfold after
    rw [bind_of_error this]
    exact hd

theorem declareAlphabets_conforms (input extra : List Cell) :
    Maintains Conforms (declareAlphabets input extra) := by
  apply checkUnsettled_bind
  intro d hd _
  exact ⟨hd.tables, hd.undecided⟩

theorem enableFeatures_conforms (features : List Feature) :
    Maintains Conforms (enableFeatures features) := by
  apply checkUnsettled_bind
  intro d _ hunsettled
  -- Without states there is nothing that the new features could contradict.
  have hempty : Maintains (fun d : Draft => d.states.entries = []) (features.forM fun f => do
      let s ← ofExcept ((← get).features.enable f)
      modify fun d => { d with features := s }) :=
    forM_enable_maintains (fun _ _ h => h) features
  have hd : d.states.entries = [] := by
    simp only [Draft.isUnsettled, Bool.and_eq_true, List.isEmpty_iff] at hunsettled
    exact hunsettled.1
  have h := hempty d hd
  constructor
  . intro e he
    rw [h] at he
    cases he
  . intro _ e he
    rw [h] at he
    cases he

theorem userState_conforms (name : String) : Maintains Conforms (userState name) := by
  apply Maintains.bind
  . exact Maintains.modify fun _ hd => hd.avoid name
  . intro _
    apply Maintains.modify
    intro d hd
    refine ⟨(hd.lowered.ensure name).tables, ?_⟩
    intro hundecided e he
    dsimp only [StateTables.ensure] at he
    split at he
    . exact hd.undecided hundecided e he
    . rcases List.mem_append.mp he with hold | hnew
      . exact hd.undecided hundecided e hold
      . rw [List.mem_singleton.mp hnew]

theorem width_single (s : FeatureSet) : s.width .single = 1 := by
  unfold FeatureSet.width
  split <;> rfl

theorem claimSingleTape_bind {call : Call} {k : Unit → Build Unit}
    (hk : Maintains (Settled .single) (k ())) :
    Maintains Conforms (claimSingleTape call >>= k) := by
  intro d hd
  cases htapes : d.tapes with
  | undecided =>
    have hclaim : claimSingleTape call d = .ok () { d with tapes := .single } := by
      rw [claimSingleTape, bind_of_ok (get_apply d), htapes]
      rfl
    have hsettled : Settled .single { d with tapes := .single } := by
      refine ⟨⟨?_, ?_⟩, rfl⟩
      . intro e he
        rw [hd.undecided htapes e he]
        exact .empty
      . intro hundecided
        cases hundecided
    unfold after
    rw [bind_of_ok hclaim]
    exact (hk _ hsettled).1
  | single =>
    have hclaim : claimSingleTape call d = .ok () d := by
      rw [claimSingleTape, bind_of_ok (get_apply d), htapes]
      rfl
    unfold after
    rw [bind_of_ok hclaim]
    exact (hk d ⟨hd, htapes⟩).1
  | multi count =>
    have hclaim : claimSingleTape call d = .error (.needsSingleTape call) d := by
      rw [claimSingleTape, bind_of_ok (get_apply d), htapes]
      rfl
    unfold after
    rw [bind_of_error hclaim]
    exact hd

theorem userDirective_conforms (x : Directive) : Maintains Conforms (userDirective x) := by
  have hsettled : ∀ x, Maintains (Settled .single) (directive x) := fun x =>
    settled_of_lowered (by simp) fun s => directive_lowered (width_single s) x
  cases x with
  | transition origin read w m next =>
    apply claimSingleTape_bind
    apply Maintains.bind (avoid_settled _ next)
    intro _
    apply Maintains.bind (avoid_settled _ origin)
    intro _
    exact hsettled (.transition origin read w m next)
  | gadget origin read g next =>
    apply claimSingleTape_bind
    apply Maintains.bind (avoid_settled _ origin)
    intro _
    apply Maintains.bind (avoid_settled _ next)
    intro _
    exact hsettled (.gadget origin read g next)

theorem openTapes_conforms (count : Nat) (first : String) {d : Draft} (hd : d.Conforms)
    (htapes : d.tapes = .undecided) : ((openTapes count first).after d).Conforms := by
  have hempty := (hd.avoid first).undecided (by rw [Draft.tapes_avoid, htapes])
  have hsettled : Settled (.multi count) { d.avoid first with tapes := .multi count } := by
    refine ⟨⟨?_, ?_⟩, rfl⟩
    . intro e he
      rw [hempty e he]
      exact .empty
    . intro hundecided
      cases hundecided
  have hrest : Maintains (Settled (.multi count)) (do
      if ← enabled .multiTape then
        modify fun d => { d with start := first }
        addState first
      else
        simulateTapes count first) := by
    apply settled_of_lowered (by simp)
    intro s
    apply Maintains.enabled_bind
    intro d' hd'
    rw [hd'.features]
    split
    . apply Maintains.bind
      . exact Maintains.modify fun _ h => ⟨h.features, h.tapes, h.tables⟩
      . intro _
        exact addState_lowered first
    . next hmulti =>
      apply simulateTapes_lowered
      exact width_of_not_multiTape (by simpa using hmulti)
  exact (hrest _ hsettled).1

theorem setTapes_conforms (count : Nat) (first : String) :
    Maintains Conforms (setTapes count first) := by
  intro d hd
  by_cases hcount : count ≤ 1
  . have : setTapes count first d = .error (.tooFewTapes count) d := by
      simp only [setTapes, if_pos hcount]
      rfl
    unfold after
    rw [this]
    exact hd
  . cases htapes : d.tapes with
    | undecided =>
      have : setTapes count first d = openTapes count first d := by
        rw [setTapes, if_neg hcount]
        dsimp only
        rw [bind_of_ok (get_apply d), htapes]
      unfold after
      rw [this]
      exact openTapes_conforms count first hd htapes
    | single =>
      have : setTapes count first d = .error .tapesAfterTransitions d := by
        rw [setTapes, if_neg hcount]
        dsimp only
        rw [bind_of_ok (get_apply d), htapes]
        rfl
      unfold after
      rw [this]
      exact hd
    | multi _ =>
      have : setTapes count first d = .error .tapesAlreadySet d := by
        rw [setTapes, if_neg hcount]
        dsimp only
        rw [bind_of_ok (get_apply d), htapes]
        rfl
      unfold after
      rw [this]
      exact hd

theorem checkArity_cases (expected actual : Nat) (what : PerTape) (d : Draft) :
    (checkArity expected actual what d = .ok () d ∧ actual = expected)
      ∨ ∃ e, checkArity expected actual what d = .error e d := by
  unfold checkArity
  split
  . next h => exact .inl ⟨rfl, h⟩
  . exact .inr ⟨_, rfl⟩

theorem checkArities_cases (count : Nat) (t : JointTransition) (d : Draft) :
    (checkArities count t d = .ok () d ∧ Fits count t)
      ∨ ∃ e, checkArities count t d = .error e d := by
  have hrest (hreads : ∀ patterns, t.read = .tapes patterns → patterns.length = count) :
      ((do
          checkArity count t.writes.length .outputs
          checkArity count t.moves.length .movements : Build Unit) d = .ok () d ∧ Fits count t)
        ∨ ∃ e, (do
          checkArity count t.writes.length .outputs
          checkArity count t.moves.length .movements : Build Unit) d = .error e d := by
    rcases checkArity_cases count t.writes.length .outputs d with ⟨hok, hwrites⟩ | ⟨e, he⟩
    . rw [bind_of_ok hok]
      rcases checkArity_cases count t.moves.length .movements d with ⟨hok, hmoves⟩ | ⟨e, he⟩
      . exact .inl ⟨hok, hreads, hwrites, hmoves⟩
      . exact .inr ⟨e, he⟩
    . exact .inr ⟨e, by rw [bind_of_error he]⟩
  unfold checkArities
  cases hread : t.read with
  | any =>
    apply hrest
    intro patterns hpatterns
    rw [hread] at hpatterns
    cases hpatterns
  | tapes patterns =>
    dsimp only
    rcases checkArity_cases count patterns.length .targets d with ⟨hok, hlength⟩ | ⟨e, he⟩
    . rw [bind_of_ok hok]
      apply hrest
      intro patterns' hpatterns'
      rw [hread] at hpatterns'
      cases hpatterns'
      exact hlength
    . exact .inr ⟨e, by rw [bind_of_error he]⟩

theorem checkArities_bind {I : Draft → Prop} {count : Nat} {t : JointTransition}
    {k : Unit → Build Unit} (hk : Fits count t → Maintains I (k ())) :
    Maintains I (checkArities count t >>= k) := by
  intro d hd
  unfold after
  rcases checkArities_cases count t d with ⟨hok, hfits⟩ | ⟨e, he⟩
  . rw [bind_of_ok hok]
    exact hk hfits d hd
  . rw [bind_of_error he]
    exact hd

theorem userJoint_conforms (t : JointTransition) : Maintains Conforms (userJoint t) := by
  intro d hd
  cases htapes : d.tapes with
  | multi count =>
    have hsettled : Maintains (Settled (.multi count)) (do
        checkArities count t
        avoid t.origin
        avoid t.next
        jointTransition t) := by
      apply checkArities_bind
      intro hfits
      apply Maintains.bind (avoid_settled _ t.origin)
      intro _
      apply Maintains.bind (avoid_settled _ t.next)
      intro _
      apply settled_of_lowered (by simp)
      intro s
      apply jointTransition_lowered
      intro hmulti
      simp only [FeatureSet.width, hmulti, TapeUse.count, if_true]
      exact hfits
    have hjoint := (hsettled d ⟨hd, htapes⟩).1
    unfold after at hjoint ⊢
    rw [userJoint, bind_of_ok (get_apply d), htapes]
    exact hjoint
  | undecided =>
    have : userJoint t d = .error (.needsTapeCount .joint) d := by
      rw [userJoint, bind_of_ok (get_apply d), htapes]
      rfl
    unfold after
    rw [this]
    exact hd
  | single =>
    have : userJoint t d = .error (.needsTapeCount .joint) d := by
      rw [userJoint, bind_of_ok (get_apply d), htapes]
      rfl
    unfold after
    rw [this]
    exact hd

theorem submit_conforms (r : Request) : Maintains Conforms (submit r) := by
  cases r with
  | alphabets input extra => exact declareAlphabets_conforms input extra
  | features features => exact enableFeatures_conforms features
  | state name => exact userState_conforms name
  | directive x => exact userDirective_conforms x
  | tapes count first => exact setTapes_conforms count first
  | joint t => exact userJoint_conforms t

end Build

namespace RuleTable.Conforms

variable {s : FeatureSet} {width : Nat} {t : RuleTable}

theorem multiMatch (h : t.Conforms s width) {g : RuleGroup} (hg : g ∈ t.groups) :
    s.enabled .multiMatch = true := by
  have hgroups := h.groups g hg
  simp only [FeatureSet.groups, Bool.and_eq_true] at hgroups
  exact hgroups.1

theorem multiMatchNoChange (h : t.Conforms s width) {g : RuleGroup} (hg : g ∈ t.groups)
    (hkeeps : ∃ m, .preserve m ∈ g.outcome.actions) : s.enabled .multiMatchNoChange = true := by
  have hgroups := h.groups g hg
  obtain ⟨m, hm⟩ := hkeeps
  have hkeeps : g.outcome.keeps = true := List.any_eq_true.mpr ⟨_, hm, rfl⟩
  simp only [FeatureSet.groups, hkeeps, Bool.and_eq_true, Bool.not_true, Bool.false_or] at hgroups
  exact hgroups.2

theorem exact_of_no_features (h : t.Conforms s 1) (hnone : ∀ f, s.has f = false)
    {entry : RuleEntry} (hentry : entry ∈ t.entries) :
    ∃ c w m next, entry = .exact c (.single (.write w m) next) ∧ m.distance = 1 := by
  have hdisabled : ∀ f, s.enabled f = false := by
    intro f
    simp [FeatureSet.enabled, hnone]
  have houtcome := h.outcomes entry.outcome (by
    rw [outcomes_eq_map_entries]
    exact List.mem_map_of_mem hentry)
  simp only [entries, List.mem_append, List.mem_map] at hentry
  rcases hentry with (⟨⟨c, o⟩, hrule, rfl⟩ | ⟨g, hg, rfl⟩) | ⟨o, ho, rfl⟩
  . obtain ⟨a, ha⟩ := List.length_eq_one_iff.mp houtcome.length
    have hallowed := houtcome.allowed a (by simp [ha])
    have hkeeps := h.exact _ hrule
    simp only [RuleEntry.outcome, Outcome.keeps, hdisabled] at ha hkeeps
    cases a with
    | write w m =>
      refine ⟨c, w, m, o.next, ?_, ?_⟩
      . rw [Outcome.single, ← ha]
      . simp only [FeatureSet.allows, FeatureSet.supports, hdisabled] at hallowed
        split at hallowed
        . assumption
        . cases hallowed
        . cases hallowed
    | preserve m => simp [ha, Action.isPreserve] at hkeeps
    | shift m => simp [FeatureSet.allows, hdisabled] at hallowed
    | markFirst marker => simp [FeatureSet.allows, hdisabled] at hallowed
    | insertAfter marker insert => simp [FeatureSet.allows, hdisabled] at hallowed
  . have := h.multiMatch hg
    rw [hdisabled] at this
    cases this
  . have := h.wildcard (by simp [hasWildcard, Option.mem_toList.mp ho])
    rw [hdisabled] at this
    cases this

end RuleTable.Conforms

/--
The rules of a draft use the enabled features only: no wildcard without its feature, no group
without its features, no movement and no gadget that the features do not provide, and on each of the
tapes one action. Without any feature this leaves exact rules that write and move by one cell.
-/
theorem rules_use_enabled_features (start : String) (requests : List Request) :
    let d := (Draft.new start).receive requests
    let s := d.features
    ∀ name table, (name, table) ∈ d.states.entries →
      (table.hasWildcard = true → s.enabled .wildcard = true) ∧
      (∀ g ∈ table.groups, s.enabled .multiMatch = true ∧
        ((∃ m, .preserve m ∈ g.outcome.actions) → s.enabled .multiMatchNoChange = true)) ∧
      (∀ o ∈ table.outcomes,
        (∀ c m, .write c m ∈ o.actions → s.supports m = true) ∧
        (∀ m, .preserve m ∈ o.actions → s.supports m = true) ∧
        (∀ m, .shift m ∈ o.actions → s.enabled .gadgetShift = true) ∧
        (∀ marker, .markFirst marker ∈ o.actions → s.enabled .gadgetFirstCellMarker = true) ∧
        (∀ marker insert, .insertAfter marker insert ∈ o.actions →
          s.enabled .gadgetInsertAfterMarker = true) ∧
        (∀ n, s.enabled .multiTape = true → d.tapes = .multi n → o.actions.length = n) ∧
        (s.enabled .multiTape = false ∨ (∀ n, d.tapes ≠ .multi n) → o.actions.length = 1)) ∧
      ((∀ f, s.has f = false) → ∀ entry ∈ table.entries, ∃ c w m next,
        entry = .exact c (.single (.write w m) next) ∧ m.distance = 1) := by
  intro d s name table hmem
  have hd : d.Conforms :=
    Draft.receive_induction Build.submit_conforms (Draft.Conforms.new start) requests
  have ht : table.Conforms s (s.width d.tapes) := hd.tables _ hmem
  refine ⟨ht.wildcard, fun g hg => ⟨ht.multiMatch hg, ht.multiMatchNoChange hg⟩, ?_, ?_⟩
  . intro o ho
    obtain ⟨hlength, hallowed⟩ := ht.outcomes o ho
    refine ⟨fun c m => hallowed (.write c m), fun m => hallowed (.preserve m),
      fun m => hallowed (.shift m), fun marker => hallowed (.markFirst marker),
      fun marker insert => hallowed (.insertAfter marker insert), ?_, ?_⟩
    . intro n hmulti htapes
      rw [hlength, FeatureSet.width, if_pos hmulti, htapes]
      rfl
    . intro hsingle
      rw [hlength, FeatureSet.width]
      split
      . next hmulti =>
        cases htapes : d.tapes with
        | multi n =>
          rcases hsingle with hsingle | hsingle
          . rw [hmulti] at hsingle
            cases hsingle
          . exact absurd htapes (hsingle n)
        | undecided => rfl
        | single => rfl
      . rfl
  . intro hnone entry hentry
    have hwidth : s.width d.tapes = 1 := by
      simp [FeatureSet.width, FeatureSet.enabled, hnone]
    rw [hwidth] at ht
    exact ht.exact_of_no_features hnone hentry

/-- A request that is refused and a name that widens the guard are among those that were submitted. -/
theorem rules_use_enabled_features_two_tapes :
    let t : JointTransition :=
      ⟨"q", .tapes [.oneOf (Cell.ofText "ab"), .any], [.put (.ofChar 'b'), .put (.ofChar 'a')],
        [⟨2⟩, .stay], "r"⟩
    let d := (Draft.new Draft.defaultStart).receive
      [.features [.multiMatch, .moveNone, .multiTape], .alphabets (Cell.ofText "ab") [],
        .tapes 2 "q", .joint t, .joint t, .state "Ω"]
    ("q", d.states.table "q") ∈ d.states.entries ∧
      (d.states.table "q").groups.length = 1 ∧
      ∀ o ∈ (d.states.table "q").outcomes, ∀ n, d.features.enabled .multiTape = true →
        d.tapes = .multi n → o.actions.length = n := by
  intro t d
  have hmem : ("q", d.states.table "q") ∈ d.states.entries := by decide +kernel
  refine ⟨hmem, by decide +kernel, ?_⟩
  intro o ho
  exact ((rules_use_enabled_features _ _ _ _ hmem).2.2.1 o ho).2.2.2.2.2.1

end TuringLowering
