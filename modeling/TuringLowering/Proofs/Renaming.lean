import TuringLowering.Proofs.Tables

/-!
This module contains the lemmas about renaming states throughout rules. As long as no two names become
one, rules are found, added and refused after a renaming as they were before it.
-/

namespace TuringLowering

namespace Mark

theorem mapNames_injective {f : String → String} (hf : Function.Injective f) :
    Function.Injective (Mark.mapNames f) := by
  intro m n h
  cases m <;> cases n <;> simp_all [mapNames]
  exact hf h

end Mark

namespace Cell

variable (f : String → String)

@[simp]
theorem mapNames_atom (m : Mark) (h : Bool) : mapNames f (.atom m h) = .atom (m.mapNames f) h := rfl

@[simp]
theorem mapNames_tuple (parts : List Cell) (h : Bool) :
    mapNames f (.tuple parts h) = .tuple (parts.map (mapNames f)) h := by
  unfold mapNames
  rw [fold_tuple]

theorem mapNames_injective {f : String → String} (hf : Function.Injective f) :
    Function.Injective (mapNames f) := by
  intro c
  induction c with
  | atom m h =>
    intro c' hc
    cases c' with
    | atom n k =>
      simp only [mapNames_atom, atom.injEq] at hc
      rw [Mark.mapNames_injective hf hc.1, hc.2]
    | tuple parts k =>
      rw [mapNames_atom, mapNames_tuple] at hc
      cases hc
  | tuple parts h ih =>
    intro c' hc
    cases c' with
    | atom n k =>
      rw [mapNames_atom, mapNames_tuple] at hc
      cases hc
    | tuple parts' k =>
      simp only [mapNames_tuple, tuple.injEq] at hc
      obtain ⟨hparts, rfl⟩ := hc
      congr 1
      induction parts generalizing parts' with
      | nil => cases parts' <;> simp_all
      | cons p ps ihps =>
        cases parts' with
        | nil => simp at hparts
        | cons q qs =>
          simp only [List.map_cons, List.cons.injEq] at hparts
          rw [ih p List.mem_cons_self hparts.1]
          rw [ihps (fun c hc => ih c (List.mem_cons_of_mem p hc)) qs hparts.2]

@[simp]
theorem mapNames_withHead (tag : Bool) (c : Cell) :
    mapNames f (c.withHead tag) = (mapNames f c).withHead tag := by
  cases c with
  | atom m h => rfl
  | tuple parts h => simp [withHead]

@[simp]
theorem mapNames_tagged (c : Cell) : mapNames f c.tagged = (mapNames f c).tagged :=
  mapNames_withHead f true c

@[simp]
theorem mapNames_components (c : Cell) :
    (mapNames f c).components = c.components.map (mapNames f) := by
  cases c with
  | atom m h => rfl
  | tuple parts h => simp [components]

end Cell

def RuleError.mapNames (f : String → String) : RuleError → RuleError
  | .afterWildcard c => .afterWildcard (c.mapNames f)
  | .taken c => .taken (c.mapNames f)
  | .foreignSymbol c => .foreignSymbol (c.mapNames f)
  | .secondWildcard => .secondWildcard

section

variable {f : String → String}

@[simp]
theorem Outcome.mapNames_single (a : Action) (next : String) :
    (Outcome.single a next).mapNames f = .single (a.mapNames f) (f next) := rfl

@[simp]
theorem RuleTable.hasWildcard_mapNames (t : RuleTable) :
    (t.mapNames f).hasWildcard = t.hasWildcard := by
  simp [hasWildcard, RuleTable.mapNames]

theorem RuleTable.addWildcard_mapNames (t : RuleTable) (o : Outcome) :
    addWildcard (o.mapNames f) (t.mapNames f)
      =
    ((addWildcard o t).map (RuleTable.mapNames f)).mapError (RuleError.mapNames f) := by
  unfold addWildcard
  rw [hasWildcard_mapNames]
  split <;> rfl

@[simp]
theorem RuleTable.mapNames_empty : RuleTable.empty.mapNames f = .empty := rfl

variable (hf : Function.Injective f)

include hf

theorem Cell.mapNames_inj {c c' : Cell} : c.mapNames f = c'.mapNames f ↔ c = c' :=
  ⟨fun h => mapNames_injective hf h, fun h => h ▸ rfl⟩

theorem Cell.mem_map_mapNames {c : Cell} {cells : List Cell} :
    c.mapNames f ∈ cells.map (mapNames f) ↔ c ∈ cells := by
  constructor
  . intro h
    obtain ⟨c', hc', heq⟩ := List.mem_map.mp h
    rwa [← mapNames_injective hf heq]
  . exact List.mem_map_of_mem

theorem Alphabet.accepts_mapNames (a : Alphabet) (c : Cell) :
    (a.mapNames f).accepts (c.mapNames f) = a.accepts c := by
  induction c with
  | atom m h =>
    have := @Cell.mem_map_mapNames f hf (.atom m h) a.symbols
    simp only [accepts, Cell.mapNames_atom, Cell.fold_atom, Alphabet.mapNames] at this ⊢
    simp [this]
  | tuple parts h ih =>
    simp only [accepts, Cell.mapNames_tuple, Cell.fold_tuple, List.map_map] at ih ⊢
    rw [List.all_map, List.all_map]
    apply Bool.eq_iff_iff.mpr
    simp only [List.all_eq_true, Function.comp, id]
    constructor
    . intro h c hc
      rw [← ih c hc]
      exact h c hc
    . intro h c hc
      rw [ih c hc]
      exact h c hc

namespace RuleTable

variable (t : RuleTable)

theorem listed?_mapNames (c : Cell) :
    (t.mapNames f).listed? (c.mapNames f) = (t.listed? c).map (Outcome.mapNames f) := by
  have hexact : (t.mapNames f).exact.find? (·.1 = c.mapNames f)
      = (t.exact.find? (·.1 = c)).map fun rule => (rule.1.mapNames f, rule.2.mapNames f) := by
    simp only [RuleTable.mapNames, List.find?_map]
    congr 2
    funext rule
    simp [Cell.mapNames_inj hf]
  have hgroups : (t.mapNames f).groups.find? (c.mapNames f ∈ ·.cells)
      = (t.groups.find? (c ∈ ·.cells)).map fun g =>
        { g with cells := g.cells.map (Cell.mapNames f), outcome := g.outcome.mapNames f } := by
    simp only [RuleTable.mapNames, List.find?_map]
    congr 2
    funext g
    simp [Cell.mem_map_mapNames hf]
  unfold listed?
  rw [hexact, hgroups]
  cases t.exact.find? (·.1 = c) with
  | some rule => rfl
  | none => cases t.groups.find? (c ∈ ·.cells) <;> rfl

theorem covers_mapNames (c : Cell) : (t.mapNames f).covers (c.mapNames f) = t.covers c := by
  unfold covers
  rw [listed?_mapNames hf]
  simp

theorem lookup_mapNames (c : Cell) :
    (t.mapNames f).lookup (c.mapNames f) = (t.lookup c).map (Outcome.mapNames f) := by
  unfold lookup
  rw [listed?_mapNames hf]
  cases t.listed? c with
  | some o => rfl
  | none => rfl

theorem uncovered_mapNames (candidates : List Cell) :
    (t.mapNames f).uncovered (candidates.map (Cell.mapNames f))
      =
    (t.uncovered candidates).map (Cell.mapNames f) := by
  unfold uncovered
  rw [List.filter_map]
  congr 2
  funext c
  simp [lookup_mapNames hf]

theorem checkCell_mapNames (a : Alphabet) (c : Cell) :
    (t.mapNames f).checkCell (a.mapNames f) (c.mapNames f)
      =
    (t.checkCell a c).mapError (RuleError.mapNames f) := by
  unfold checkCell
  rw [hasWildcard_mapNames, covers_mapNames hf, Alphabet.accepts_mapNames hf]
  split
  . rfl
  . split
    . rfl
    . split <;> rfl

theorem checkCells_mapNames (a : Alphabet) (seen cells : List Cell) :
    (t.mapNames f).checkCells (a.mapNames f) (seen.map (Cell.mapNames f))
        (cells.map (Cell.mapNames f))
      =
    (t.checkCells a seen cells).mapError (RuleError.mapNames f) := by
  induction cells generalizing seen with
  | nil => rfl
  | cons c cs ih =>
    simp only [List.map_cons, checkCells]
    rw [checkCell_mapNames hf]
    cases t.checkCell a c with
    | error e => rfl
    | ok u =>
      have := ih (c :: seen)
      rw [List.map_cons] at this
      by_cases hseen : c ∈ seen
      . simp only [Cell.mem_map_mapNames hf, hseen, if_true]
        rfl
      . simp only [Cell.mem_map_mapNames hf, hseen, if_false]
        exact this

theorem addExact_mapNames (c : Cell) (o : Outcome) (a : Alphabet) :
    addExact (c.mapNames f) (o.mapNames f) (a.mapNames f) (t.mapNames f)
      =
    ((addExact c o a t).map (RuleTable.mapNames f)).mapError (RuleError.mapNames f) := by
  unfold addExact
  rw [checkCell_mapNames hf]
  cases t.checkCell a c with
  | error e => rfl
  | ok u =>
    change Except.ok _ = Except.ok _
    simp [RuleTable.mapNames]

theorem addGroup_mapNames (cells : List Cell) (o : Outcome) (source : Option JointPattern)
    (a : Alphabet) :
    addGroup ⟨cells.map (Cell.mapNames f), o.mapNames f, source⟩ (a.mapNames f) (t.mapNames f)
      =
    ((addGroup ⟨cells, o, source⟩ a t).map (RuleTable.mapNames f)).mapError
      (RuleError.mapNames f) := by
  unfold addGroup
  have := checkCells_mapNames hf t a [] cells
  rw [List.map_nil] at this
  dsimp only
  rw [this]
  cases t.checkCells a [] cells with
  | error e => rfl
  | ok u =>
    change Except.ok _ = Except.ok _
    simp [RuleTable.mapNames]

end RuleTable

namespace StateTables

variable (s : StateTables)

theorem find?_mapNames (name : String) :
    (s.mapNames f).find? (f name) = (s.find? name).map (RuleTable.mapNames f) := by
  have hentries : (s.mapNames f).entries.find? (·.1 = f name)
      = (s.entries.find? (·.1 = name)).map fun e => (f e.1, e.2.mapNames f) := by
    simp only [StateTables.mapNames, List.find?_map]
    congr 2
    funext e
    simp [hf.eq_iff]
  unfold find?
  rw [hentries]
  cases s.entries.find? (·.1 = name) <;> rfl

theorem table_mapNames (name : String) :
    (s.mapNames f).table (f name) = (s.table name).mapNames f := by
  unfold table
  rw [find?_mapNames hf]
  cases s.find? name <;> rfl

theorem contains_mapNames (name : String) :
    (s.mapNames f).contains (f name) = s.contains name := by
  unfold contains
  rw [find?_mapNames hf]
  simp

theorem lookup_mapNames (name : String) (c : Cell) :
    (s.mapNames f).lookup (f name) (c.mapNames f)
      =
    (s.lookup name c).map (Outcome.mapNames f) := by
  rw [lookup_eq, lookup_eq, table_mapNames hf, RuleTable.lookup_mapNames hf]

theorem ensure_mapNames (name : String) :
    (s.mapNames f).ensure (f name) = (s.ensure name).mapNames f := by
  unfold ensure
  rw [contains_mapNames hf]
  split
  . rfl
  . simp [StateTables.mapNames]

theorem set_mapNames (name : String) (t : RuleTable) :
    (s.mapNames f).set (f name) (t.mapNames f) = (s.set name t).mapNames f := by
  unfold set StateTables.mapNames
  simp only [List.map_map, mk.injEq]
  apply List.map_congr_left
  intro e _
  simp only [Function.comp, hf.eq_iff]
  split <;> rfl

end StateTables

end

end TuringLowering
