import TuringLowering.Draft.Basic

/-!
This module contains the lemmas about the symbols and about the rules of states. A state that does not
exist has no rules, so that every name can be taken for a state with a table.
-/

namespace TuringLowering

namespace Alphabet

theorem accepts_of_mem_symbols {A : Alphabet} {m : Mark} {tag : Bool} (h : .atom m tag ∈ A.symbols) :
    A.accepts (.atom m tag) = true := decide_eq_true h

theorem accepts_mono {A A' : Alphabet} (h : ∀ c ∈ A.symbols, c ∈ A'.symbols) {c : Cell}
    (hc : A.accepts c = true) : A'.accepts c = true := by
  unfold accepts at hc ⊢
  induction c with
  | atom m head =>
    rw [Cell.fold_atom, decide_eq_true_eq] at hc ⊢
    exact h _ hc
  | tuple parts head ih =>
    rw [Cell.fold_tuple, List.all_map, List.all_eq_true] at hc ⊢
    intro c hmem
    exact ih c hmem (hc c hmem)

theorem mem_symbols_add {A : Alphabet} {c c' : Cell} :
    c ∈ (A.add c').symbols ↔ c ∈ A.symbols ∨ c = c' := by
  unfold add addNew
  dsimp only
  split
  . next h =>
    constructor
    . exact .inl
    . rintro (hc | rfl)
      . exact hc
      . exact h
  . simp

theorem nodup_addNew {cells : List Cell} (h : cells.Nodup) (c : Cell) : (addNew cells c).Nodup := by
  unfold addNew
  split
  . exact h
  . next hc =>
    rw [List.nodup_append]
    refine ⟨h, List.pairwise_singleton _ c, ?_⟩
    rintro b hb _ hc' rfl
    rw [List.mem_singleton.mp hc'] at hb
    exact hc hb

theorem nodup_foldl_addNew {cells : List Cell} (h : cells.Nodup) (new : List Cell) :
    (new.foldl addNew cells).Nodup := by
  induction new generalizing cells with
  | nil => exact h
  | cons c new ih => exact ih (nodup_addNew h c)

end Alphabet

namespace RuleTable

@[simp]
theorem listed?_empty (c : Cell) : empty.listed? c = none := rfl

@[simp]
theorem lookup_empty (c : Cell) : empty.lookup c = none := rfl

end RuleTable

namespace StateTables

def table (s : StateTables) (name : String) : RuleTable := (s.find? name).getD .empty

theorem lookup_eq (s : StateTables) (name : String) (c : Cell) :
    s.lookup name c = (s.table name).lookup c := by
  unfold lookup table
  cases s.find? name with
  | none => rfl
  | some t => rfl

theorem mem_entries_of_find? {s : StateTables} {name : String} {t : RuleTable}
    (h : s.find? name = some t) : (name, t) ∈ s.entries := by
  obtain ⟨e, he, rfl⟩ := Option.map_eq_some_iff.mp h
  have hname := List.find?_some he
  rw [decide_eq_true_eq] at hname
  rw [← hname]
  exact List.mem_of_find?_eq_some he

theorem lookup_of_empty {s : StateTables} (h : ∀ e ∈ s.entries, e.2 = .empty) (name : String) (c : Cell) :
    s.lookup name c = none := by
  rw [lookup]
  cases ht : s.find? name with
  | none => rfl
  | some t =>
    obtain rfl : t = .empty := h _ (mem_entries_of_find? ht)
    rfl

theorem find?_eq_none_iff {s : StateTables} {name : String} :
    s.find? name = none ↔ name ∉ s.names := by
  simp only [find?, names, Option.map_eq_none_iff, List.find?_eq_none, List.mem_map,
    decide_eq_true_eq]
  constructor
  . rintro h ⟨e, he, hname⟩
    exact h e he hname
  . intro h e he hname
    exact h ⟨e, he, hname⟩

theorem contains_iff {s : StateTables} {name : String} :
    s.contains name = true ↔ name ∈ s.names := by
  have h := @find?_eq_none_iff s name
  unfold contains
  cases hfind : s.find? name with
  | none => simpa [hfind] using h
  | some t => simpa [hfind] using h

theorem find?_append_new {s : StateTables} {name : String} (h : name ∉ s.names)
    (t : RuleTable) (other : String) :
    (⟨s.entries ++ [(name, t)]⟩ : StateTables).find? other
      =
    if other = name then some t else s.find? other := by
  unfold find?
  rw [List.find?_append]
  split
  . next heq =>
    subst heq
    have : s.entries.find? (fun e => decide (e.1 = other)) = none := by
      have := find?_eq_none_iff.mpr h
      simpa [find?] using this
    simp [this]
  . next hne =>
    have : ¬ name = other := fun h => hne h.symm
    simp [this]

theorem find?_ensure (s : StateTables) (name other : String) :
    (s.ensure name).find? other
      =
    if other = name then some (s.table name) else s.find? other := by
  unfold ensure
  split
  . next h =>
    split
    . next heq =>
      subst heq
      unfold contains at h
      unfold table
      obtain ⟨t, ht⟩ := Option.isSome_iff_exists.mp h
      rw [ht]
      rfl
    . rfl
  . next h =>
    have hnew : name ∉ s.names := by rwa [← contains_iff]
    rw [find?_append_new hnew]
    have : s.table name = .empty := by
      unfold table
      rw [find?_eq_none_iff.mpr hnew]
      rfl
    rw [this]

@[simp]
theorem table_ensure (s : StateTables) (name other : String) :
    (s.ensure name).table other = s.table other := by
  have h := find?_ensure s name other
  unfold table at h ⊢
  rw [h]
  split
  . next heq => rw [heq]; rfl
  . rfl

theorem lookup_ensure (s : StateTables) (name other : String) (c : Cell) :
    (s.ensure name).lookup other c = s.lookup other c := by
  rw [lookup_eq, table_ensure, ← lookup_eq]

theorem contains_ensure (s : StateTables) (name other : String) :
    (s.ensure name).contains other = (decide (other = name) || s.contains other) := by
  unfold contains
  rw [find?_ensure]
  by_cases h : other = name <;> simp [h]

theorem find?_set (s : StateTables) (name other : String) (t : RuleTable) :
    (s.set name t).find? other
      =
    if other = name then (s.find? name).map fun _ => t else s.find? other := by
  obtain ⟨entries⟩ := s
  unfold set find?
  induction entries with
  | nil => simp
  | cons e es ih =>
    rw [List.map_cons]
    by_cases he : e.1 = other
    . by_cases ho : other = name <;> simp [he, ho]
    . have hmapped : ¬ (if e.1 = name then (name, t) else e).1 = other := by
        split
        . next hname => exact hname ▸ he
        . exact he
      rw [List.find?_cons_of_neg (by simpa using hmapped), ih]
      split
      . next ho => rw [List.find?_cons_of_neg (by simpa [← ho] using he)]
      . rw [List.find?_cons_of_neg (by simpa using he)]

theorem table_set (s : StateTables) (name other : String) (t : RuleTable)
    (h : s.contains name) :
    (s.set name t).table other = if other = name then t else s.table other := by
  unfold contains at h
  obtain ⟨u, hu⟩ := Option.isSome_iff_exists.mp h
  unfold table
  rw [find?_set, hu]
  split <;> rfl

@[simp]
theorem names_set (s : StateTables) (name : String) (t : RuleTable) :
    (s.set name t).names = s.names := by
  unfold set names
  rw [List.map_map]
  apply List.map_congr_left
  intro e _
  simp only [Function.comp]
  split
  . next h => exact h.symm
  . rfl

theorem names_mapNames (f : String → String) (s : StateTables) :
    (s.mapNames f).names = s.names.map f := by
  simp [names, mapNames, Function.comp_def]

theorem nodup_names_ensure {s : StateTables} (h : s.names.Nodup) (name : String) :
    (s.ensure name).names.Nodup := by
  unfold ensure
  split
  . exact h
  . next hnew =>
    rw [contains_iff] at hnew
    have hnames : (⟨s.entries ++ [(name, .empty)]⟩ : StateTables).names = s.names ++ [name] :=
      List.map_append
    rw [hnames, List.nodup_append]
    refine ⟨h, List.pairwise_singleton _ name, ?_⟩
    rintro other hother _ hname rfl
    rw [List.mem_singleton.mp hname] at hother
    exact hnew hother

end StateTables

end TuringLowering
