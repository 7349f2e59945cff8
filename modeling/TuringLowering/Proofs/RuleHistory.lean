import TuringLowering.Proofs.SlotTable

/-!
This module contains the rules of one state as the result of a history of calls. The calls that were
accepted tell what the state does: at most one of them lists a symbol, at most one is for all other
symbols, and those that were refused have left no trace in any copy of the rules.
-/

namespace TuringLowering

/-- An attempt to add rules to a table, with the symbols that there are at that time. -/
inductive RuleCall where
  | exact (cell : Cell) (outcome : Outcome) (alphabet : Alphabet)
  | group (group : RuleGroup) (alphabet : Alphabet)
  | wildcard (outcome : Outcome)

namespace RuleCall

/-- The symbols that are listed. -/
def cells : RuleCall → List Cell
  | .exact c _ _ => [c]
  | .group g _ => g.cells
  | .wildcard _ => []

def outcome : RuleCall → Outcome
  | .exact _ o _ => o
  | .group g _ => g.outcome
  | .wildcard o => o

def isWildcard : RuleCall → Bool
  | .wildcard _ => true
  | _ => false

def apply : RuleCall → RuleTable → Except RuleError RuleTable
  | .exact c o alphabet, t => t.addExact c o alphabet
  | .group g alphabet, t => t.addGroup g alphabet
  | .wildcard o, t => t.addWildcard o

/-- The table that is there after a call, be it accepted or refused. -/
def after (x : RuleCall) (t : RuleTable) : RuleTable :=
  match x.apply t with
  | .ok t' => t'
  | .error _ => t

variable {x : RuleCall} {t t' : RuleTable} {e : RuleError}

theorem after_of_ok (h : x.apply t = .ok t') : x.after t = t' := by rw [after, h]

theorem after_of_error (h : x.apply t = .error e) : x.after t = t := by rw [after, h]

structure Extends (x : RuleCall) (t t' : RuleTable) : Prop where
  room : ∀ c ∈ x.cells, t.lookup c = none
  first : x.isWildcard = true → t.wildcard = none
  listed : ∀ c, t'.listed? c = if c ∈ x.cells then some x.outcome else t.listed? c
  wildcard : t'.wildcard = if x.isWildcard then some x.outcome else t.wildcard

theorem extends_of_ok (h : x.apply t = .ok t') : x.Extends t t' := by
  cases x with
  | exact c o alphabet =>
    refine ⟨?_, nofun, ?_, ?_⟩
    . simpa [cells] using (RuleTable.addExact_eq_ok h).1
    . simpa [cells, outcome] using RuleTable.listed?_addExact h
    . rw [(RuleTable.eq_of_addExact h).2]
      rfl
  | group g alphabet =>
    refine ⟨?_, nofun, RuleTable.listed?_addGroup h, ?_⟩
    . exact fun c hc => ((RuleTable.addGroup_eq_ok h).1 c hc).1
    . rw [(RuleTable.eq_of_addGroup h).2]
      rfl
  | wildcard o =>
    obtain ⟨hnone, rfl⟩ := RuleTable.eq_of_addWildcard h
    exact ⟨nofun, fun _ => hnone, fun _ => rfl, rfl⟩

/-- A symbol that has an outcome keeps it: listed symbols are not listed again, nor after a wildcard. -/
theorem Extends.lookup (h : x.Extends t t') {c : Cell} {o : Outcome} (hc : t.lookup c = some o) :
    t'.lookup c = some o := by
  have hcells : c ∉ x.cells := by
    intro hmem
    rw [h.room c hmem] at hc
    cases hc
  rw [RuleTable.lookup, h.listed, if_neg hcells, h.wildcard]
  rw [RuleTable.lookup] at hc
  cases hlisted : t.listed? c with
  | some o' => rwa [hlisted] at hc
  | none =>
    rw [hlisted] at hc
    split
    . next hwildcard =>
      rw [h.first hwildcard] at hc
      cases hc
    . exact hc

end RuleCall

namespace RuleTable

variable {t t' : RuleTable} {made : List RuleCall}

/-- The table after a history of calls. -/
def receive (t : RuleTable) (calls : List RuleCall) : RuleTable :=
  calls.foldl (fun t x => x.after t) t

/-- The calls of a history that are accepted. -/
def accepted : RuleTable → List RuleCall → List RuleCall
  | _, [] => []
  | t, x :: calls =>
    match x.apply t with
    | .ok t' => x :: accepted t' calls
    | .error _ => accepted t calls

theorem accepted_sublist (t : RuleTable) (calls : List RuleCall) : (t.accepted calls).Sublist calls := by
  induction calls generalizing t with
  | nil => exact .slnil
  | cons x calls ih =>
    unfold accepted
    split
    . exact (ih _).cons_cons x
    . exact (ih t).cons x

theorem lookup_receive {c : Cell} {o : Outcome} (h : t.lookup c = some o) (calls : List RuleCall) :
    (t.receive calls).lookup c = some o := by
  induction calls generalizing t with
  | nil => exact h
  | cons x calls ih =>
    rw [receive, List.foldl_cons, ← receive]
    apply ih
    unfold RuleCall.after
    split
    . next t' hok => exact (RuleCall.extends_of_ok hok).lookup h
    . exact h

/-- Calls that account for all rules of a table. -/
structure Reflects (t : RuleTable) (made : List RuleCall) : Prop where
  listed : ∀ c, t.listed? c = (made.find? (c ∈ ·.cells)).map RuleCall.outcome
  wildcard : t.wildcard = (made.find? (·.isWildcard)).map RuleCall.outcome
  once : ∀ c, (made.filter (c ∈ ·.cells)).length ≤ 1
  single : (made.filter (·.isWildcard)).length ≤ 1

theorem Reflects.apply (h : t.Reflects made) {x : RuleCall} (hok : x.apply t = .ok t') :
    t'.Reflects (made ++ [x]) := by
  have hx := RuleCall.extends_of_ok hok
  have hunlisted (c : Cell) (hc : c ∈ x.cells) : ∀ y ∈ made, c ∉ y.cells := by
    have hnone := (lookup_eq_none_iff.mp (hx.room c hc)).1
    rw [h.listed, Option.map_eq_none_iff, List.find?_eq_none] at hnone
    simpa using hnone
  have hno (hwildcard : x.isWildcard = true) : ∀ y ∈ made, ¬ y.isWildcard = true := by
    have hnone := hx.first hwildcard
    rwa [h.wildcard, Option.map_eq_none_iff, List.find?_eq_none] at hnone
  constructor
  case listed =>
    intro c
    rw [hx.listed, List.find?_append]
    split
    . next hc =>
      have hnone : made.find? (c ∈ ·.cells) = none := by
        rw [List.find?_eq_none]
        simpa using hunlisted c hc
      simp [hnone, hc]
    . next hc => simp [h.listed, hc]
  case wildcard =>
    rw [hx.wildcard, List.find?_append]
    split
    . next hwildcard =>
      rw [List.find?_eq_none.mpr (hno hwildcard)]
      simp [hwildcard]
    . next hwildcard => simp [h.wildcard, hwildcard]
  case once =>
    intro c
    rw [List.filter_append, List.length_append]
    by_cases hc : c ∈ x.cells
    . have hnone : made.filter (c ∈ ·.cells) = [] := by
        rw [List.filter_eq_nil_iff]
        simpa using hunlisted c hc
      simp [hnone, hc]
    . simpa [hc] using h.once c
  case single =>
    rw [List.filter_append, List.length_append]
    by_cases hwildcard : x.isWildcard = true
    . rw [List.filter_eq_nil_iff.mpr (hno hwildcard)]
      simp [hwildcard]
    . simpa [hwildcard] using h.single

theorem reflects_empty : empty.Reflects [] where
  listed _ := rfl
  wildcard := rfl
  once _ := Nat.zero_le 1
  single := Nat.zero_le 1

theorem Reflects.receive (h : t.Reflects made) (calls : List RuleCall) :
    (t.receive calls).Reflects (made ++ t.accepted calls) := by
  induction calls generalizing t made with
  | nil => rwa [accepted, List.append_nil]
  | cons x calls ih =>
    rw [RuleTable.receive, List.foldl_cons, ← RuleTable.receive, accepted]
    split
    . next t' hok =>
      rw [RuleCall.after_of_ok hok, List.append_cons]
      exact ih (h.apply hok)
    . next hrefused =>
      rw [RuleCall.after_of_error hrefused]
      exact ih h

theorem Reflects.lookup (h : t.Reflects made) (c : Cell) :
    t.lookup c = ((made.find? (c ∈ ·.cells)).map RuleCall.outcome
      <|> (made.find? (·.isWildcard)).map RuleCall.outcome) := by
  rw [RuleTable.lookup, h.listed, h.wildcard]

theorem Reflects.lookup_of_mem (h : t.Reflects made) {x : RuleCall} (hx : x ∈ made) {c : Cell}
    (hc : c ∈ x.cells) : t.lookup c = some x.outcome := by
  have hmem : x ∈ made.filter (c ∈ ·.cells) := List.mem_filter.mpr ⟨hx, decide_eq_true hc⟩
  obtain ⟨y, hy⟩ : ∃ y, made.filter (c ∈ ·.cells) = [y] :=
    List.length_eq_one_iff.mp (Nat.le_antisymm (h.once c) (List.length_pos_of_mem hmem))
  rw [hy, List.mem_singleton] at hmem
  rw [h.lookup, ← List.head?_filter, hy, hmem]
  rfl

end RuleTable

namespace RuleCall

/-- The call on a table whose rules are kept in copies. -/
def run : RuleCall → SlotTable.Call Unit
  | .exact c o alphabet => SlotTable.addExact c o alphabet
  | .group g alphabet => SlotTable.addGroup g alphabet
  | .wildcard o => SlotTable.addWildcard o

theorem run_follows {x : SlotTable} (h : x.Aligned) (call : RuleCall) :
    x.Follows (call.run x) (call.apply x.rules) := by
  cases call with
  | exact c o alphabet => exact h.addExact c o alphabet
  | group g alphabet => exact h.addGroup g alphabet
  | wildcard o => exact h.addWildcard o

end RuleCall

namespace SlotTable

/-- The table that a call leaves, be it accepted or refused. -/
def after (x : SlotTable) (call : RuleCall) : SlotTable :=
  match call.run x with
  | .ok _ x' => x'
  | .error _ x' => x'

def receive (x : SlotTable) (calls : List RuleCall) : SlotTable := calls.foldl after x

/-- The calls of a history that are accepted. -/
def accepted : SlotTable → List RuleCall → List RuleCall
  | _, [] => []
  | x, call :: calls =>
    match call.run x with
    | .ok _ x' => call :: accepted x' calls
    | .error _ x' => accepted x' calls

theorem Follows.cases {x : SlotTable} {result : EStateM.Result RuleError SlotTable Unit}
    {result' : Except RuleError RuleTable} (h : x.Follows result result') :
    (∃ x', result = .ok () x' ∧ result' = .ok x'.rules ∧ x'.Aligned)
      ∨ ∃ e, result = .error e x ∧ result' = .error e := by
  cases h with
  | accepted h => exact .inl ⟨_, rfl, rfl, h⟩
  | refused e => exact .inr ⟨e, rfl, rfl⟩

namespace Aligned

variable {x : SlotTable} (h : x.Aligned)
include h

theorem after (call : RuleCall) : (x.after call).Aligned ∧ (x.after call).rules = call.after x.rules := by
  rw [SlotTable.after, RuleCall.after]
  rcases (RuleCall.run_follows h call).cases with ⟨x', hrun, happly, haligned⟩ | ⟨e, hrun, happly⟩
  . rw [hrun, happly]
    exact ⟨haligned, rfl⟩
  . rw [hrun, happly]
    exact ⟨h, rfl⟩

theorem receive (calls : List RuleCall) :
    (x.receive calls).Aligned ∧ (x.receive calls).rules = x.rules.receive calls := by
  induction calls generalizing x with
  | nil => exact ⟨h, rfl⟩
  | cons call calls ih =>
    obtain ⟨haligned, hrules⟩ := h.after call
    have hcons : x.rules.receive (call :: calls) = (x.after call).rules.receive calls := by
      rw [hrules]
      rfl
    rw [hcons]
    exact ih haligned

theorem accepted (calls : List RuleCall) : x.accepted calls = x.rules.accepted calls := by
  induction calls generalizing x with
  | nil => rfl
  | cons call calls ih =>
    rw [SlotTable.accepted, RuleTable.accepted]
    rcases (RuleCall.run_follows h call).cases with ⟨x', hrun, happly, haligned⟩ | ⟨e, hrun, happly⟩
    . rw [hrun, happly]
      exact congrArg (call :: ·) (ih haligned)
    . rw [hrun, happly]
      exact ih h

/-- The accepted calls alone are accepted again, and lead to the same table. -/
theorem forM_accepted (calls : List RuleCall) :
    (x.accepted calls).forM RuleCall.run x = .ok () (x.receive calls) := by
  induction calls generalizing x with
  | nil => rfl
  | cons call calls ih =>
    rw [SlotTable.accepted, SlotTable.receive, List.foldl_cons, ← SlotTable.receive, SlotTable.after]
    rcases (RuleCall.run_follows h call).cases with ⟨x', hrun, -, haligned⟩ | ⟨e, hrun, -⟩
    . rw [hrun]
      simp only [List.forM_eq_forM, List.forM_cons, bind, EStateM.bind, hrun]
      exact ih haligned
    . rw [hrun]
      exact ih h

end Aligned

end SlotTable

/--
The rules of a state are those of the calls that were accepted. After any calls, the copies in which they are
kept agree: a slot that refers to a group leads to it, and a symbol is in one group at most. A refused call
changes nothing, also where it is part of an operation on a draft. A symbol has the outcome of the one call
that lists it, or else of the one wildcard, or else none; and an outcome stays, as do all once there is a
wildcard. The table that has each rule once accepts the same calls and tells the same.
-/
theorem accepted_calls_decide (calls : List RuleCall) :
    let x := SlotTable.empty.receive calls
    let t := RuleTable.empty.receive calls
    let made := SlotTable.empty.accepted calls
    (x.Aligned ∧ x.groups.Pairwise fun g g' => g.cells.Disjoint g'.cells)
    ∧ (∀ c index, x.slots.lookup c = some (.group index) →
      ∃ g, x.groups[index]? = some g ∧ c ∈ g.cells ∧ x.lookup c = some g.outcome)
    ∧ (∀ (call : RuleCall) e x', call.run x = .error e x' → x' = x)
    ∧ (∀ (call : RuleCall) (s : String) (d d' : Draft) (e : RequestError),
      Build.addRule s (fun _ => call.apply) d = .error e d' → d'.states.table = d.states.table)
    ∧ (made.Sublist calls ∧ made.forM RuleCall.run SlotTable.empty = .ok () x)
    ∧ (∀ c, (made.filter (c ∈ ·.cells)).length ≤ 1) ∧ (made.filter (·.isWildcard)).length ≤ 1
    ∧ (∀ call ∈ made, ∀ c ∈ call.cells, x.contains c = true ∧ x.lookup c = some call.outcome)
    ∧ (∀ c, x.lookup c = ((made.find? (c ∈ ·.cells)).map RuleCall.outcome
      <|> (made.find? (·.isWildcard)).map RuleCall.outcome))
    ∧ (∀ more c, x.contains c = true ∨ x.hasWildcard = true → (x.receive more).lookup c = x.lookup c)
    ∧ (RuleTable.empty.accepted calls = made ∧ ∀ call : RuleCall, x.Follows (call.run x) (call.apply t))
    ∧ (∀ c, t.lookup c = x.lookup c ∧ t.covers c = x.contains c)
    ∧ ∀ cells, t.uncovered cells = x.uncovered cells := by
  intro x t made
  obtain ⟨hx, hrules⟩ : x.Aligned ∧ x.rules = t := SlotTable.aligned_empty.receive calls
  have hmade : made = RuleTable.empty.accepted calls := SlotTable.aligned_empty.accepted calls
  have hreflects : t.Reflects made := hmade ▸ RuleTable.reflects_empty.receive calls
  have hlookup (c : Cell) : t.lookup c = x.lookup c := hrules ▸ hx.lookup_rules c
  have hcovers (c : Cell) : t.covers c = x.contains c := hrules ▸ hx.covers_rules c
  have hfollows (call : RuleCall) : x.Follows (call.run x) (call.apply t) :=
    hrules ▸ RuleCall.run_follows hx call
  refine ⟨⟨hx, hx.pairwise_disjoint⟩, fun _ _ => hx.exists_group, ?_, ?_, ⟨?_, ?_⟩, hreflects.once,
    hreflects.single, ?_, ?_, ?_, ⟨hmade.symm, hfollows⟩, fun c => ⟨hlookup c, hcovers c⟩, ?_⟩
  . intro call e x' hrefused
    rcases (hfollows call).cases with ⟨x'', hrun, -⟩ | ⟨e', hrun, -⟩
    . rw [hrun] at hrefused
      cases hrefused
    . rw [hrun] at hrefused
      cases hrefused
      rfl
  . intro call s d d' e hrefused
    rw [Build.eq_of_addRule_error hrefused]
    funext s'
    exact StateTables.table_ensure d.states s s'
  . exact hmade ▸ RuleTable.accepted_sublist _ calls
  . exact SlotTable.aligned_empty.forM_accepted calls
  . intro call hcall c hc
    rw [← hcovers, ← hlookup]
    refine ⟨?_, hreflects.lookup_of_mem hcall hc⟩
    rw [RuleTable.covers, hreflects.listed, Option.isSome_map, List.find?_isSome]
    exact ⟨call, hcall, decide_eq_true hc⟩
  . intro c
    rw [← hlookup]
    exact hreflects.lookup c
  . intro more c hsettled
    have hsome : t.lookup c ≠ none := by
      rw [Ne, RuleTable.lookup_eq_none_iff]
      rintro ⟨hlisted, hwildcard⟩
      have hnone : x.wildcard = none := (congrArg RuleTable.wildcard hrules).trans hwildcard
      rw [← hcovers] at hsettled
      simp [RuleTable.covers, SlotTable.hasWildcard, hlisted, hnone] at hsettled
    obtain ⟨o, ho⟩ := Option.ne_none_iff_exists'.mp hsome
    obtain ⟨hmore, hmorerules⟩ := hx.receive more
    rw [← hlookup, ho, ← hmore.lookup_rules, hmorerules, hrules, RuleTable.lookup_receive ho]
  . exact fun cells => hrules ▸ hx.uncovered_rules cells

end TuringLowering
