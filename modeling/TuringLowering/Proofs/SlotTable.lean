import Mathlib.Data.List.AList
import TuringLowering.Proofs.Enumeration

/-!
This module contains the rules of a state in several copies: a map from symbols to slots, the symbols in the
order in which they were entered, and the groups. A slot holds the outcome of a rule, or the place of a group
among the groups. A call changes the copies one after the other, and it keeps what it has changed if it is
refused. The copies agree nevertheless, and they tell what a table does that has each rule once.
-/

namespace TuringLowering

inductive Slot where
  | exact (outcome : Outcome)
  /-- The symbol belongs to the group at this place. -/
  | group (index : Nat)
deriving DecidableEq

namespace Slot

def outcome? : Slot → Option Outcome
  | .exact o => some o
  | .group _ => none

def mapNames (f : String → String) : Slot → Slot
  | .exact o => .exact (o.mapNames f)
  | .group index => .group index

end Slot

structure SlotTable where
  slots : AList fun _ : Cell => Slot := ∅
  /-- The symbols that have a slot, in the order in which they got it. -/
  order : List Cell := []
  groups : List RuleGroup := []
  wildcard : Option Outcome := none

namespace SlotTable

def empty : SlotTable := {}

/-- A call that changes a table; the table is kept if the call is refused. -/
abbrev Call := EStateM RuleError SlotTable

def isEmpty (x : SlotTable) : Bool :=
  x.slots.entries.isEmpty && x.groups.isEmpty && x.wildcard.isNone

def hasWildcard (x : SlotTable) : Bool := x.wildcard.isSome

def contains (x : SlotTable) (c : Cell) : Bool := (x.slots.lookup c).isSome

/-- The wildcard is for symbols without a slot only; a slot is followed even if it leads nowhere. -/
def lookup (x : SlotTable) (c : Cell) : Option Outcome :=
  match x.slots.lookup c with
  | some (.exact o) => some o
  | some (.group index) => x.groups[index]?.map RuleGroup.outcome
  | none => x.wildcard

def uncovered (x : SlotTable) (candidates : List Cell) : List Cell :=
  candidates.filter fun c => (x.lookup c).isNone

def outcome? (x : SlotTable) (c : Cell) : Option Outcome := (x.slots.lookup c).bind Slot.outcome?

def entries (x : SlotTable) : List RuleEntry :=
  x.order.filterMap (fun c => (x.outcome? c).map (.exact c)) ++ x.groups.map .group
    ++ x.wildcard.toList.map .wildcard

/-- The outcomes of exact rules in the order of the map, which is not the one they were entered in. -/
def outcomes (x : SlotTable) : List Outcome :=
  x.slots.entries.filterMap (·.2.outcome?) ++ x.groups.map RuleGroup.outcome ++ x.wildcard.toList

def check (alphabet : Alphabet) (c : Cell) : Call Unit := do
  let x ← get
  if x.hasWildcard then throw (.afterWildcard c)
  else if x.contains c then throw (.taken c)
  else if alphabet.accepts c then pure ()
  else throw (.foreignSymbol c)

/-- Checks the symbols of a group in order; `seen` are those before them. -/
def checkAll (alphabet : Alphabet) (seen : List Cell) : List Cell → Call Unit
  | [] => pure ()
  | c :: cs => do
    check alphabet c
    if c ∈ seen then throw (.taken c)
    else checkAll alphabet (c :: seen) cs

def enter (slot : Slot) (c : Cell) : Call Unit :=
  modify fun x => { x with order := x.order ++ [c], slots := x.slots.insert c slot }

def addExact (cell : Cell) (outcome : Outcome) (alphabet : Alphabet) : Call Unit := do
  check alphabet cell
  enter (.exact outcome) cell

/-- The symbols are entered one by one, before the group that their slots refer to. -/
def addGroup (group : RuleGroup) (alphabet : Alphabet) : Call Unit := do
  checkAll alphabet [] group.cells
  let index := (← get).groups.length
  group.cells.forM (enter (.group index))
  modify fun x => { x with groups := x.groups ++ [group] }

def addWildcard (outcome : Outcome) : Call Unit := do
  if (← get).hasWildcard then throw .secondWildcard
  else modify fun x => { x with wildcard := some outcome }

/-- The map is made anew of renamed symbols, and the other copies are renamed each by itself. -/
def mapNames (f : String → String) (x : SlotTable) : SlotTable where
  slots := (x.slots.entries.map (.map (Cell.mapNames f) fun _ => Slot.mapNames f)).toAList
  order := x.order.map (Cell.mapNames f)
  groups := x.groups.map fun g =>
    { g with cells := g.cells.map (Cell.mapNames f), outcome := g.outcome.mapNames f }
  wildcard := x.wildcard.map (Outcome.mapNames f)

/-- The table that has each rule once. -/
def rules (x : SlotTable) : RuleTable where
  exact := x.order.filterMap fun c => (x.outcome? c).map (c, ·)
  groups := x.groups
  wildcard := x.wildcard

/--
The copies agree: each symbol with a slot is in the order once, and slots and groups refer to each other.
-/
structure Aligned (x : SlotTable) : Prop where
  nodup : x.order.Nodup
  mem_order : ∀ c, c ∈ x.order ↔ x.contains c = true
  member : ∀ c index,
    x.slots.lookup c = some (.group index) ↔ ∃ g, x.groups[index]? = some g ∧ c ∈ g.cells

theorem aligned_empty : empty.Aligned where
  nodup := List.nodup_nil
  mem_order c := by simp [empty, contains]
  member c index := by simp [empty]

namespace Aligned

variable {x : SlotTable} (h : x.Aligned)
include h

theorem exists_group {c : Cell} {index : Nat} (hslot : x.slots.lookup c = some (.group index)) :
    ∃ g, x.groups[index]? = some g ∧ c ∈ g.cells ∧ x.lookup c = some g.outcome := by
  obtain ⟨g, hg, hc⟩ := (h.member c index).mp hslot
  refine ⟨g, hg, hc, ?_⟩
  simp [lookup, hslot, hg]

theorem pairwise_disjoint : x.groups.Pairwise fun g g' => g.cells.Disjoint g'.cells := by
  rw [List.pairwise_iff_getElem]
  intro i j hi hj hlt c hc hc'
  have hslot := (h.member c i).mpr ⟨_, List.getElem?_eq_getElem hi, hc⟩
  have hslot' := (h.member c j).mpr ⟨_, List.getElem?_eq_getElem hj, hc'⟩
  rw [hslot, Option.some.injEq, Slot.group.injEq] at hslot'
  omega

theorem find?_exact (c : Cell) :
    x.rules.exact.find? (·.1 = c) = (x.outcome? c).map (c, ·) := by
  have hfind (cells : List Cell) :
      (cells.filterMap fun c' => (x.outcome? c').map (c', ·)).find? (·.1 = c)
        = if c ∈ cells then (x.outcome? c).map (c, ·) else none := by
    induction cells with
    | nil => rfl
    | cons c' cells ih =>
      rw [List.filterMap_cons]
      cases hc' : x.outcome? c' with
      | none =>
        simp only [Option.map_none, ih, List.mem_cons]
        by_cases heq : c = c'
        . simp [heq, hc']
        . simp [heq]
      | some o =>
        simp only [Option.map_some, List.find?_cons, ih, List.mem_cons]
        by_cases heq : c' = c
        . subst heq
          simp [hc']
        . simp [heq, Ne.symm heq]
  rw [rules, hfind]
  split
  . rfl
  . next hc =>
    rw [h.mem_order, contains, Option.not_isSome_iff_eq_none] at hc
    simp [outcome?, hc]

theorem find?_group (c : Cell) : x.groups.find? (c ∈ ·.cells)
    = match x.slots.lookup c with
      | some (.group index) => x.groups[index]?
      | _ => none := by
  cases hfind : x.groups.find? (c ∈ ·.cells) with
  | none =>
    rw [List.find?_eq_none] at hfind
    split
    . next index hslot =>
      obtain ⟨g, hg, hc⟩ := (h.member c index).mp hslot
      exact absurd (decide_eq_true hc) (hfind g (List.mem_of_getElem? hg))
    . rfl
  | some g =>
    obtain ⟨index, hg⟩ := List.mem_iff_getElem?.mp (List.mem_of_find?_eq_some hfind)
    have hc : c ∈ g.cells := by simpa using List.find?_some hfind
    rw [(h.member c index).mpr ⟨g, hg, hc⟩]
    exact hg.symm

theorem listed?_rules (c : Cell) : x.rules.listed? c
    = match x.slots.lookup c with
      | some (.exact o) => some o
      | some (.group index) => x.groups[index]?.map RuleGroup.outcome
      | none => none := by
  have hgroups : x.rules.groups = x.groups := rfl
  rw [RuleTable.listed?, h.find?_exact, hgroups, h.find?_group, outcome?]
  cases x.slots.lookup c with
  | none => rfl
  | some slot => cases slot <;> rfl

theorem covers_rules (c : Cell) : x.rules.covers c = x.contains c := by
  rw [RuleTable.covers, h.listed?_rules, contains]
  cases hslot : x.slots.lookup c with
  | none => rfl
  | some slot =>
    cases slot with
    | exact o => rfl
    | group index =>
      obtain ⟨g, hg, -⟩ := h.exists_group hslot
      simp [hg]

theorem lookup_rules (c : Cell) : x.rules.lookup c = x.lookup c := by
  rw [RuleTable.lookup, h.listed?_rules, lookup]
  cases hslot : x.slots.lookup c with
  | none => rfl
  | some slot =>
    cases slot with
    | exact o => rfl
    | group index =>
      obtain ⟨g, hg, -⟩ := h.exists_group hslot
      simp [hg]

theorem uncovered_rules (candidates : List Cell) :
    x.rules.uncovered candidates = x.uncovered candidates := by
  simp only [RuleTable.uncovered, uncovered, h.lookup_rules]

theorem order_perm : x.order.Perm x.slots.keys := by
  rw [List.perm_ext_iff_of_nodup h.nodup x.slots.keys_nodup]
  intro c
  rw [h.mem_order, contains, AList.lookup_isSome, AList.mem_keys]

theorem outcomes_perm : x.rules.outcomes.Perm x.outcomes := by
  have hslots : x.slots.entries.filterMap (·.2.outcome?) = x.slots.keys.filterMap x.outcome? := by
    rw [AList.keys, List.keys, List.filterMap_map]
    refine List.filterMap_congr fun e he => ?_
    have hlookup : x.slots.lookup e.1 = some e.2 := AList.mem_lookup_iff.mpr he
    rw [Function.comp_apply, outcome?, hlookup, Option.bind_some]
  have hexact : x.rules.exact.map Prod.snd = x.order.filterMap x.outcome? := by
    rw [rules, List.map_filterMap]
    simp [Function.comp_def]
  rw [RuleTable.outcomes, outcomes, hexact, hslots]
  exact ((h.order_perm.filterMap x.outcome?).append_right _).append_right _

/-- Without groups all slots hold outcomes, so there are rules if there are slots. -/
theorem isEmpty_rules : x.rules.isEmpty = x.isEmpty := by
  have hrules : x.rules.groups = x.groups ∧ x.rules.wildcard = x.wildcard := ⟨rfl, rfl⟩
  rw [RuleTable.isEmpty, isEmpty, hrules.1, hrules.2]
  cases hgroups : x.groups with
  | cons g groups => simp
  | nil =>
    congr 2
    have hexact : x.rules.exact = [] ↔ x.order = [] := by
      rw [rules, List.filterMap_eq_nil_iff, List.eq_nil_iff_forall_not_mem]
      refine forall₂_congr fun c hc => ?_
      obtain ⟨slot, hslot⟩ := Option.isSome_iff_exists.mp ((h.mem_order c).mp hc)
      cases slot with
      | exact o => simp [outcome?, hslot, Slot.outcome?]
      | group index =>
        obtain ⟨g, hg, -⟩ := h.exists_group hslot
        simp [hgroups] at hg
    have hslots : x.slots.entries = [] ↔ x.order = [] := by
      rw [← List.length_eq_zero_iff, ← List.length_eq_zero_iff, h.order_perm.length_eq, AList.keys, List.keys,
        List.length_map]
    rw [Bool.eq_iff_iff, List.isEmpty_iff, List.isEmpty_iff, hexact, hslots]

end Aligned

theorem entries_rules (x : SlotTable) : x.rules.entries = x.entries := by
  rw [RuleTable.entries, entries, rules, List.map_filterMap]
  simp [Function.comp_def]

theorem lookup_slots_mapNames {f : String → String} (hf : Function.Injective f) (x : SlotTable) (c : Cell) :
    (x.mapNames f).slots.lookup (c.mapNames f) = (x.slots.lookup c).map (Slot.mapNames f) := by
  rw [mapNames, AList.lookup_to_alist]
  exact List.dlookup_map _ (Cell.mapNames_injective hf) _ c

theorem exists_of_lookup_slots_mapNames {f : String → String} {x : SlotTable} {c' : Cell} {slot' : Slot}
    (h : (x.mapNames f).slots.lookup c' = some slot') :
    ∃ c slot, x.slots.lookup c = some slot ∧ c.mapNames f = c' ∧ slot.mapNames f = slot' := by
  rw [mapNames, AList.lookup_to_alist] at h
  obtain ⟨e, he, heq⟩ := List.mem_map.mp (List.of_mem_dlookup h)
  cases heq
  exact ⟨e.1, e.2, AList.mem_lookup_iff.mpr he, rfl, rfl⟩

theorem rules_mapNames {f : String → String} (hf : Function.Injective f) (x : SlotTable) :
    (x.mapNames f).rules = x.rules.mapNames f := by
  have hexact (c : Cell) : (x.mapNames f).outcome? (c.mapNames f) = (x.outcome? c).map (Outcome.mapNames f) := by
    rw [outcome?, lookup_slots_mapNames hf, outcome?]
    cases x.slots.lookup c with
    | none => rfl
    | some slot => cases slot <;> rfl
  have hrules : (x.mapNames f).rules.exact = (x.rules.mapNames f).exact := by
    have horder : (x.mapNames f).order = x.order.map (Cell.mapNames f) := rfl
    rw [rules, horder, List.filterMap_map, RuleTable.mapNames, rules, List.map_filterMap]
    refine List.filterMap_congr fun c _ => ?_
    rw [Function.comp_apply, hexact]
    cases x.outcome? c <;> rfl
  exact congrArg (fun exact => { x.rules.mapNames f with exact }) hrules

theorem lookup_slots_of_not_contains {x : SlotTable} {c : Cell} (h : x.contains c = false) :
    x.slots.lookup c = none := by
  simpa [contains] using h

def entered (slot : Slot) (cells : List Cell) (x : SlotTable) : SlotTable :=
  { x with
    order := x.order ++ cells
    slots := cells.foldl (fun slots c => slots.insert c slot) x.slots }

theorem forM_enter (slot : Slot) (cells : List Cell) (x : SlotTable) :
    cells.forM (enter slot) x = .ok () (x.entered slot cells) := by
  induction cells generalizing x with
  | nil =>
    rw [entered, List.append_nil]
    rfl
  | cons c cells ih =>
    have hcons : (c :: cells).forM (enter slot) x = cells.forM (enter slot) (x.entered slot [c]) := rfl
    rw [hcons, ih, entered, entered, entered, List.append_assoc]
    rfl

section

variable {slot : Slot} {cells : List Cell} {x : SlotTable}

theorem lookup_slots_entered (c : Cell) :
    (x.entered slot cells).slots.lookup c = if c ∈ cells then some slot else x.slots.lookup c := by
  have hfold (slots : AList fun _ : Cell => Slot) :
      (cells.foldl (fun slots c => slots.insert c slot) slots).lookup c
        = if c ∈ cells then some slot else slots.lookup c := by
    induction cells generalizing slots with
    | nil => rfl
    | cons c' cells ih =>
      rw [List.foldl_cons, ih]
      by_cases heq : c = c'
      . subst heq
        simp [AList.lookup_insert]
      . simp [heq, AList.lookup_insert_ne heq]
  exact hfold x.slots

variable (h : x.Aligned) (hfree : ∀ c ∈ cells, x.contains c = false)
include h hfree

theorem not_mem_order {c : Cell} (hc : c ∈ cells) : c ∉ x.order := by
  rw [h.mem_order, hfree c hc]
  exact Bool.false_ne_true

theorem rules_entered : (x.entered slot cells).rules
    = { x.rules with exact := x.rules.exact ++ cells.filterMap fun c => slot.outcome?.map (c, ·) } := by
  have hold : x.order.filterMap (fun c => ((x.entered slot cells).outcome? c).map (c, ·)) = x.rules.exact := by
    refine List.filterMap_congr fun c hc => ?_
    rw [outcome?, lookup_slots_entered, if_neg fun hmem => not_mem_order h hfree hmem hc, outcome?]
  have hnew : cells.filterMap (fun c => ((x.entered slot cells).outcome? c).map (c, ·))
      = cells.filterMap fun c => slot.outcome?.map (c, ·) := by
    refine List.filterMap_congr fun c hc => ?_
    rw [outcome?, lookup_slots_entered, if_pos hc, Option.bind_some]
  have horder : (x.entered slot cells).order = x.order ++ cells := rfl
  rw [rules, horder, List.filterMap_append, hold, hnew]
  rfl

theorem nodup_order_entered (hcells : cells.Nodup) : (x.entered slot cells).order.Nodup :=
  h.nodup.append hcells fun _ hc hmem => not_mem_order h hfree hmem hc

omit hfree in
theorem mem_order_entered (c : Cell) :
    c ∈ (x.entered slot cells).order ↔ (x.entered slot cells).contains c = true := by
  have horder : (x.entered slot cells).order = x.order ++ cells := rfl
  rw [horder, List.mem_append, h.mem_order, contains, contains, lookup_slots_entered]
  by_cases hc : c ∈ cells
  . simp [hc]
  . simp [hc]

end

def checked (x : SlotTable) : Except RuleError Unit → EStateM.Result RuleError SlotTable Unit
  | .ok _ => .ok () x
  | .error e => .error e x

/--
A call ends on a table as it does on the rules of the table: with the same error, and then nothing has
changed, or with copies that agree on the new rules.
-/
inductive Follows (x : SlotTable) :
    EStateM.Result RuleError SlotTable Unit → Except RuleError RuleTable → Prop where
  | accepted {x' : SlotTable} (h : x'.Aligned) : Follows x (.ok () x') (.ok x'.rules)
  | refused (e : RuleError) : Follows x (.error e x) (.error e)

theorem Follows.of_checked {x : SlotTable} {check rest : Call Unit} {result : Except RuleError Unit}
    {t : RuleTable} (hcheck : check x = x.checked result)
    (hrest : result = .ok () → x.Follows (rest x) (.ok t)) :
    x.Follows ((do check; rest) x) (do result; return t) := by
  cases result with
  | error e =>
    simp only [bind, EStateM.bind, hcheck, checked]
    exact .refused e
  | ok u =>
    simp only [bind, EStateM.bind, hcheck, checked]
    exact hrest rfl

namespace Aligned

variable {x : SlotTable} (h : x.Aligned)
include h

theorem check_apply (alphabet : Alphabet) (c : Cell) :
    check alphabet c x = x.checked (x.rules.checkCell alphabet c) := by
  have hwildcard : x.rules.hasWildcard = x.hasWildcard := rfl
  have hget : check alphabet c x = (if x.hasWildcard then throw (.afterWildcard c)
      else if x.contains c then throw (.taken c)
      else if alphabet.accepts c then pure ()
      else throw (.foreignSymbol c) : Call Unit) x := rfl
  rw [RuleTable.checkCell, hwildcard, h.covers_rules, hget]
  split
  . rfl
  . split
    . rfl
    . split <;> rfl

theorem checkAll_apply (alphabet : Alphabet) (seen cells : List Cell) :
    checkAll alphabet seen cells x = x.checked (x.rules.checkCells alphabet seen cells) := by
  induction cells generalizing seen with
  | nil => rfl
  | cons c cells ih =>
    rw [RuleTable.checkCells, checkAll]
    simp only [bind, EStateM.bind, h.check_apply]
    cases x.rules.checkCell alphabet c with
    | error e => rfl
    | ok u =>
      simp only [checked, Except.bind]
      split
      . rfl
      . exact ih (c :: seen)

theorem entered_exact {c : Cell} {o : Outcome} (hfree : x.contains c = false) :
    (x.entered (.exact o) [c]).Aligned where
  nodup := nodup_order_entered h (by simpa using hfree) (List.nodup_singleton c)
  mem_order := mem_order_entered h
  member c' index := by
    refine Iff.trans ?_ (h.member c' index)
    rw [lookup_slots_entered]
    split
    . next hc' =>
      rw [List.mem_singleton.mp hc', lookup_slots_of_not_contains hfree]
      simp
    . rfl

/-- The symbols of a new group have its place in their slots before it is there. -/
theorem entered_group {group : RuleGroup} (hfree : ∀ c ∈ group.cells, x.contains c = false)
    (hnodup : group.cells.Nodup) :
    { x.entered (.group x.groups.length) group.cells with groups := x.groups ++ [group] }.Aligned := by
  have horder : (x.entered (.group x.groups.length) group.cells).order.Nodup :=
    nodup_order_entered h hfree hnodup
  refine ⟨horder, mem_order_entered h, fun c index => ?_⟩
  have hplace : (∃ g, (x.groups ++ [group])[index]? = some g ∧ c ∈ g.cells)
      ↔ x.slots.lookup c = some (.group index) ∨ index = x.groups.length ∧ c ∈ group.cells := by
    rw [h.member]
    rcases Nat.lt_trichotomy index x.groups.length with hlt | heq | hgt
    . simp [List.getElem?_append_left hlt, Nat.ne_of_lt hlt]
    . simp [heq]
    . have hnone : (x.groups ++ [group])[index]? = none := by simp; omega
      simp [hnone, Nat.ne_of_gt hgt, Nat.le_of_lt hgt]
  refine Iff.trans ?_ hplace.symm
  refine (lookup_slots_entered c).congr_left.trans ?_
  split
  . next hc => simp [lookup_slots_of_not_contains (hfree c hc), hc, eq_comm]
  . next hc => simp [hc]

theorem mapNames {f : String → String} (hf : Function.Injective f) : (x.mapNames f).Aligned := by
  constructor
  case nodup => exact h.nodup.map (Cell.mapNames_injective hf)
  case mem_order =>
    intro c'
    have horder : (x.mapNames f).order = x.order.map (Cell.mapNames f) := rfl
    rw [horder, List.mem_map, contains]
    constructor
    . rintro ⟨c, hc, rfl⟩
      rw [lookup_slots_mapNames hf, Option.isSome_map]
      exact (h.mem_order c).mp hc
    . intro hc'
      obtain ⟨slot', hslot'⟩ := Option.isSome_iff_exists.mp hc'
      obtain ⟨c, slot, hslot, rfl, -⟩ := exists_of_lookup_slots_mapNames hslot'
      exact ⟨c, (h.mem_order c).mpr (Option.isSome_of_mem hslot), rfl⟩
  case member =>
    intro c' index
    have hgroups : (x.mapNames f).groups[index]? = x.groups[index]?.map fun g =>
        { g with cells := g.cells.map (Cell.mapNames f), outcome := g.outcome.mapNames f } := List.getElem?_map
    rw [hgroups]
    constructor
    . intro hslot'
      obtain ⟨c, slot, hslot, rfl, hgroup⟩ := exists_of_lookup_slots_mapNames hslot'
      cases slot with
      | exact o => cases hgroup
      | group i =>
        cases hgroup
        obtain ⟨g, hg, hc⟩ := (h.member c index).mp hslot
        exact ⟨_, Option.map_eq_some_iff.mpr ⟨g, hg, rfl⟩, List.mem_map_of_mem hc⟩
    . rintro ⟨g', hg', hc'⟩
      obtain ⟨g, hg, rfl⟩ := Option.map_eq_some_iff.mp hg'
      obtain ⟨c, hc, rfl⟩ := List.mem_map.mp hc'
      rw [lookup_slots_mapNames hf, (h.member c index).mpr ⟨g, hg, hc⟩]
      rfl

theorem addExact (c : Cell) (o : Outcome) (alphabet : Alphabet) :
    x.Follows (SlotTable.addExact c o alphabet x) (x.rules.addExact c o alphabet) := by
  refine .of_checked (h.check_apply alphabet c) fun hok => ?_
  have hfree : x.contains c = false := by
    rw [← h.covers_rules, RuleTable.covers, (RuleTable.lookup_of_checkCell hok).2.1]
    rfl
  have hrules : (x.entered (.exact o) [c]).rules
      = { x.rules with exact := x.rules.exact ++ [(c, o)] } := rules_entered h (by simpa using hfree)
  exact hrules ▸ Follows.accepted (h.entered_exact hfree)

theorem addGroup (group : RuleGroup) (alphabet : Alphabet) :
    x.Follows (SlotTable.addGroup group alphabet x) (x.rules.addGroup group alphabet) := by
  refine .of_checked (h.checkAll_apply alphabet [] group.cells) fun hok => ?_
  have hfree : ∀ c ∈ group.cells, x.contains c = false := by
    intro c hc
    have hlookup := (RuleTable.listed_of_checkCells hok c hc).1
    rw [← h.covers_rules, RuleTable.covers, (RuleTable.lookup_eq_none_iff.mp hlookup).1]
    rfl
  let entered := x.entered (.group x.groups.length) group.cells
  have hrules : { entered with groups := x.groups ++ [group] }.rules
      = { x.rules with groups := x.groups ++ [group] } := by
    have hexact : entered.rules.exact = x.rules.exact := by
      rw [rules_entered h hfree]
      simp [Slot.outcome?]
    exact congrArg (fun exact => { x.rules with exact, groups := x.groups ++ [group] }) hexact
  have hrun : (do
      group.cells.forM (enter (.group x.groups.length))
      modify fun x => { x with groups := x.groups ++ [group] } : Call Unit) x
        = .ok () { entered with groups := x.groups ++ [group] } := by
    simp only [bind, EStateM.bind, forM_enter]
    rfl
  refine hrun ▸ ?_
  exact hrules ▸ Follows.accepted (h.entered_group hfree (RuleTable.nodup_of_checkCells hok).1)

theorem addWildcard (o : Outcome) :
    x.Follows (SlotTable.addWildcard o x) (x.rules.addWildcard o) := by
  have hget : SlotTable.addWildcard o x = (if x.hasWildcard then throw .secondWildcard
      else modify fun x => { x with wildcard := some o } : Call Unit) x := rfl
  have hwildcard : x.rules.hasWildcard = x.hasWildcard := rfl
  rw [hget, RuleTable.addWildcard, hwildcard]
  split
  . exact .refused _
  . have haligned : { x with wildcard := some o }.Aligned := ⟨h.nodup, h.mem_order, h.member⟩
    exact .accepted haligned

end Aligned

end SlotTable

end TuringLowering
