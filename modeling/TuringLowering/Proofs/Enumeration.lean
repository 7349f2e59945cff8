import Mathlib.Data.List.Nodup
import TuringLowering.Proofs.Primitives

/-!
This module contains the proof that the rules of a state are listed as they are looked up. Whatever requests
a draft was made of, a symbol is listed by one entry at most, and no entry for certain symbols lists none.
-/

namespace TuringLowering

namespace RuleEntry

/-- The symbols that are listed; a wildcard lists none. -/
def cells : RuleEntry → List Cell
  | .exact c _ => [c]
  | .group g => g.cells
  | .wildcard _ => []

def isWildcard : RuleEntry → Bool
  | .wildcard _ => true
  | _ => false

end RuleEntry

namespace RuleTable

variable {t t' : RuleTable} {c : Cell} {alphabet : Alphabet}

def keys (t : RuleTable) : List Cell := t.entries.flatMap RuleEntry.cells

theorem keys_eq (t : RuleTable) :
    t.keys = t.exact.map Prod.fst ++ t.groups.flatMap RuleGroup.cells := by
  have hwildcard : (t.wildcard.toList.map RuleEntry.wildcard).flatMap RuleEntry.cells = [] := by
    rw [List.flatMap_eq_nil_iff]
    intro e he
    obtain ⟨o, _, rfl⟩ := List.mem_map.mp he
    rfl
  rw [keys, entries, List.flatMap_append, List.flatMap_append, hwildcard, List.append_nil]
  congr 1
  . rw [List.flatMap_map]
    exact List.flatMap_pure_eq_map Prod.fst t.exact
  . rw [List.flatMap_map]
    rfl

theorem listed?_eq_find?_entries (t : RuleTable) (c : Cell) :
    t.listed? c = (t.entries.find? (c ∈ ·.cells)).map RuleEntry.outcome := by
  have hexact {f : Cell × Outcome → RuleEntry} (hf : ∀ rule, f rule = .exact rule.1 rule.2) :
      (t.exact.map f).find? (c ∈ ·.cells) = (t.exact.find? (·.1 = c)).map f := by
    rw [List.find?_map]
    congr 2
    funext rule
    simp [hf, RuleEntry.cells, eq_comm]
  have hgroups : (t.groups.map RuleEntry.group).find? (c ∈ ·.cells)
      = (t.groups.find? (c ∈ ·.cells)).map RuleEntry.group := by
    rw [List.find?_map]
    rfl
  have hwildcard : (t.wildcard.toList.map RuleEntry.wildcard).find? (c ∈ ·.cells) = none := by
    rw [List.find?_eq_none]
    intro e he
    obtain ⟨o, _, rfl⟩ := List.mem_map.mp he
    simp [RuleEntry.cells]
  rw [entries, List.find?_append, List.find?_append, hexact fun _ => rfl, hgroups, hwildcard, listed?]
  cases t.exact.find? (·.1 = c) with
  | some rule => rfl
  | none => cases t.groups.find? (c ∈ ·.cells) <;> rfl

theorem covers_iff_mem_keys : t.covers c = true ↔ c ∈ t.keys := by
  rw [covers, listed?_eq_find?_entries, Option.isSome_map, List.find?_isSome, keys, List.mem_flatMap]
  simp

theorem covers_of_mem_cells {e : RuleEntry} (he : e ∈ t.entries) (hc : c ∈ e.cells) : t.covers c = true :=
  covers_iff_mem_keys.mpr (List.mem_flatMap.mpr ⟨e, he, hc⟩)

theorem not_mem_keys_of_lookup (h : t.lookup c = none) : c ∉ t.keys := by
  rw [← covers_iff_mem_keys, covers, (lookup_eq_none_iff.mp h).1]
  simp

theorem keys_mapNames (f : String → String) (t : RuleTable) :
    (t.mapNames f).keys = t.keys.map (Cell.mapNames f) := by
  rw [keys_eq, keys_eq, List.map_append, List.map_flatMap]
  simp [RuleTable.mapNames, List.flatMap_map, Function.comp_def]

structure Tidy (t : RuleTable) : Prop where
  nodup : t.keys.Nodup
  nonempty : ∀ g ∈ t.groups, g.cells ≠ []

namespace Tidy

theorem empty : RuleTable.empty.Tidy where
  nodup := List.nodup_nil
  nonempty _ hg := nomatch hg

theorem addExact {o : Outcome} (ht : t.Tidy) (h : RuleTable.addExact c o alphabet t = .ok t') :
    t'.Tidy := by
  obtain ⟨hnone, -, -⟩ := addExact_eq_ok h
  obtain ⟨-, rfl⟩ := eq_of_addExact h
  refine ⟨?_, ht.nonempty⟩
  have hperm : ({ t with exact := t.exact ++ [(c, o)] } : RuleTable).keys.Perm (c :: t.keys) := by
    rw [keys_eq, keys_eq, List.map_append, List.map_singleton, List.append_assoc]
    exact List.perm_middle
  rw [hperm.nodup_iff, List.nodup_cons]
  exact ⟨not_mem_keys_of_lookup hnone, ht.nodup⟩

end Tidy

theorem nodup_of_checkCells {seen cells : List Cell}
    (h : t.checkCells alphabet seen cells = .ok ()) : cells.Nodup ∧ ∀ c ∈ cells, c ∉ seen := by
  induction cells generalizing seen with
  | nil => exact ⟨List.nodup_nil, nofun⟩
  | cons c cells ih =>
    rw [checkCells] at h
    cases hc : t.checkCell alphabet c with
    | error e =>
      rw [hc] at h
      cases h
    | ok u =>
      rw [hc] at h
      change (if c ∈ seen then _ else _) = _ at h
      split at h
      . cases h
      . next hseen =>
        obtain ⟨hnodup, hnew⟩ := ih h
        refine ⟨List.nodup_cons.mpr ⟨fun hmem => hnew c hmem (.head _), hnodup⟩, ?_⟩
        rw [List.forall_mem_cons]
        exact ⟨hseen, fun c' hc' hmem => hnew c' hc' (.tail _ hmem)⟩

namespace Tidy

theorem addGroup {group : RuleGroup} (hne : group.cells ≠ []) (ht : t.Tidy)
    (h : RuleTable.addGroup group alphabet t = .ok t') : t'.Tidy := by
  obtain ⟨hnone, -⟩ := addGroup_eq_ok h
  obtain ⟨hcheck, rfl⟩ := eq_of_addGroup h
  constructor
  case nodup =>
    have hkeys : ({ t with groups := t.groups ++ [group] } : RuleTable).keys = t.keys ++ group.cells := by
      rw [keys_eq, keys_eq, List.flatMap_append, List.flatMap_singleton, List.append_assoc]
    rw [hkeys, List.nodup_append']
    refine ⟨ht.nodup, (nodup_of_checkCells hcheck).1, ?_⟩
    intro c hold hnew
    exact not_mem_keys_of_lookup (hnone c hnew).1 hold
  case nonempty =>
    intro g hg
    rcases List.mem_append.mp hg with hg | hg
    . exact ht.nonempty g hg
    . rwa [List.mem_singleton.mp hg]

theorem addWildcard {o : Outcome} (ht : t.Tidy) (h : RuleTable.addWildcard o t = .ok t') : t'.Tidy := by
  obtain ⟨-, rfl⟩ := eq_of_addWildcard h
  refine ⟨?_, ht.nonempty⟩
  have hkeys : ({ t with wildcard := some o } : RuleTable).keys = t.keys := by rw [keys_eq, keys_eq]
  rw [hkeys]
  exact ht.nodup

theorem mapNames {f : String → String} (hf : Function.Injective f) (ht : t.Tidy) :
    (t.mapNames f).Tidy := by
  constructor
  case nodup =>
    rw [keys_mapNames]
    exact ht.nodup.map (Cell.mapNames_injective hf)
  case nonempty =>
    intro g hg
    obtain ⟨g, hmem, rfl⟩ := List.mem_map.mp hg
    simpa using ht.nonempty g hmem

theorem filter_entries (ht : t.Tidy) {e : RuleEntry} (he : e ∈ t.entries) (hc : c ∈ e.cells) :
    t.entries.filter (c ∈ ·.cells) = [e] := by
  obtain ⟨before, behind, hentries⟩ := List.append_of_mem he
  have hnodup := ht.nodup
  rw [keys, hentries, List.flatMap_append, List.flatMap_cons, List.nodup_append'] at hnodup
  obtain ⟨-, hrest, hdisjoint⟩ := hnodup
  rw [List.nodup_append'] at hrest
  have hbefore : before.filter (c ∈ ·.cells) = [] := by
    rw [List.filter_eq_nil_iff]
    intro e' he' hmem
    exact hdisjoint (List.mem_flatMap_of_mem he' (of_decide_eq_true hmem)) (List.mem_append_left _ hc)
  have hbehind : behind.filter (c ∈ ·.cells) = [] := by
    rw [List.filter_eq_nil_iff]
    intro e' he' hmem
    exact hrest.2.2 hc (List.mem_flatMap_of_mem he' (of_decide_eq_true hmem))
  rw [hentries, List.filter_append, hbefore, List.filter_cons, if_pos (decide_eq_true hc), hbehind]
  rfl

theorem exists_entry (ht : t.Tidy) (hc : t.covers c = true) :
    ∃ e, t.entries.filter (c ∈ ·.cells) = [e] ∧ t.lookup c = some e.outcome := by
  obtain ⟨e, he, hcell⟩ := List.mem_flatMap.mp (covers_iff_mem_keys.mp hc)
  have hfilter := ht.filter_entries he hcell
  refine ⟨e, hfilter, ?_⟩
  rw [lookup, listed?_eq_find?_entries, ← List.head?_filter, hfilter]
  rfl

theorem isEmpty_iff (ht : t.Tidy) : t.isEmpty = true ↔ ∀ c, t.lookup c = none := by
  constructor
  . intro h c
    simp only [isEmpty, Bool.and_eq_true, List.isEmpty_iff, Option.isNone_iff_eq_none] at h
    obtain ⟨⟨hexact, hgroups⟩, hwildcard⟩ := h
    rw [lookup, listed?, hexact, hgroups, hwildcard]
    rfl
  . intro h
    have hkeys : t.keys = [] := List.eq_nil_iff_forall_not_mem.mpr fun c => not_mem_keys_of_lookup (h c)
    rw [keys_eq, List.append_eq_nil_iff, List.map_eq_nil_iff, List.flatMap_eq_nil_iff] at hkeys
    have hgroups : t.groups = [] :=
      List.eq_nil_iff_forall_not_mem.mpr fun g hg => ht.nonempty g hg (hkeys.2 g hg)
    have hwildcard : t.wildcard = none := (lookup_eq_none_iff.mp (h .blank)).2
    simp [isEmpty, hkeys.1, hgroups, hwildcard]

end Tidy

theorem length_filter_isWildcard (t : RuleTable) :
    (t.entries.filter RuleEntry.isWildcard).length = if t.hasWildcard then 1 else 0 := by
  have hexact {f : Cell × Outcome → RuleEntry} (hf : ∀ rule, f rule = .exact rule.1 rule.2) :
      (t.exact.map f).filter RuleEntry.isWildcard = [] := by
    rw [List.filter_eq_nil_iff]
    intro e he
    obtain ⟨rule, _, rfl⟩ := List.mem_map.mp he
    simp [hf, RuleEntry.isWildcard]
  have hgroups : (t.groups.map RuleEntry.group).filter RuleEntry.isWildcard = [] := by
    rw [List.filter_eq_nil_iff]
    intro e he
    obtain ⟨g, _, rfl⟩ := List.mem_map.mp he
    simp [RuleEntry.isWildcard]
  rw [entries, List.filter_append, List.filter_append, hexact fun _ => rfl, hgroups, hasWildcard]
  cases t.wildcard <;> rfl

/-- What holds of a table without rules and is kept by all that is done to tables. -/
structure Stable (P : RuleTable → Prop) : Prop where
  empty : P .empty
  addExact : ∀ {c o alphabet t t'}, P t → addExact c o alphabet t = .ok t' → P t'
  addGroup : ∀ {group alphabet t t'}, group.cells ≠ [] → P t → addGroup group alphabet t = .ok t' → P t'
  addWildcard : ∀ {o t t'}, P t → addWildcard o t = .ok t' → P t'
  mapNames : ∀ {f t}, Function.Injective f → P t → P (t.mapNames f)

theorem Tidy.stable : Stable Tidy :=
  ⟨empty, addExact, addGroup, addWildcard, mapNames⟩

end RuleTable

namespace Draft

def Every (P : RuleTable → Prop) (d : Draft) : Prop := ∀ e ∈ d.states.entries, P e.2

variable {P : RuleTable → Prop} (hP : RuleTable.Stable P) {d : Draft}
include hP

theorem Every.table (h : d.Every P) (s : String) : P (d.states.table s) := by
  unfold StateTables.table
  cases hfind : d.states.find? s with
  | none => exact hP.empty
  | some t => exact h _ (StateTables.mem_entries_of_find? hfind)

theorem Every.ensure (h : d.Every P) (s : String) : { d with states := d.states.ensure s }.Every P := by
  intro e he
  dsimp only [StateTables.ensure] at he
  split at he
  . exact h e he
  . rcases List.mem_append.mp he with he | he
    . exact h e he
    . rw [List.mem_singleton.mp he]
      exact hP.empty

theorem every_endures : Build.Endures (Every P) := by
  have hrule {s : String} {add : Alphabet → RuleTable → Except RuleError RuleTable}
      (hadd : ∀ a t t', P t → add a t = .ok t' → P t') : Build.Maintains (Every P) (Build.addRule s add) := by
    intro d hd
    rw [Build.after, Build.addRule_apply]
    cases hok : add d.alphabet (d.states.table s) with
    | error e => exact hd.ensure hP s
    | ok t =>
      intro e he
      obtain ⟨e', he', rfl⟩ := List.mem_map.mp he
      split
      . exact hadd _ _ _ (hd.table hP s) hok
      . exact hd.ensure hP s e' he'
  have hchain (key : ChainKey) (parts : List String) : Build.Maintains (Every P) (Build.chain key parts) := by
    intro d hd
    rw [Build.after, Build.chain_apply]
    cases d.chains.find? (·.1 = key) with
    | some _ => exact hd
    | none => exact hd
  exact
    { avoid := by
        intro d name hd
        refine avoid_induction name hd fun g hlt e he => ?_
        obtain ⟨e', he', rfl⟩ := List.mem_map.mp he
        exact hP.mapNames (fun _ _ => Guard.rename_injective (Nat.le_of_lt hlt)) (hd e' he')
      addState := fun s d hd => hd.ensure hP s
      addExact := fun _ _ _ => hrule fun _ _ _ => hP.addExact
      addGroup := fun _ _ hne => hrule fun _ _ _ => hP.addGroup hne
      addWildcard := fun _ _ => hrule fun _ _ _ => hP.addWildcard
      chain := hchain
      addSymbol := fun _ _ hd => hd
      withSegments := fun _ hd => hd
      declare := fun _ _ _ _ hd => hd
      settings := fun _ _ _ _ hd => hd }

end Draft

end TuringLowering
