import TuringLowering.Proofs.RuleHistory

/-!
This module contains the tables of a draft as the result of a history: states are created, calls add rules to
them or are refused, and the guard grows, so that all copies of the rules are renamed. Requests do nothing
else to the tables. So the rules of every state are listed as they are looked up.
-/

namespace TuringLowering

theorem StateTables.table_of_mem {s : StateTables} (h : s.names.Nodup) {name : String} {t : RuleTable}
    (ht : (name, t) ∈ s.entries) : s.table name = t := by
  have hcontains : s.contains name = true := contains_iff.mpr (List.mem_map.mpr ⟨_, ht, rfl⟩)
  obtain ⟨t', ht'⟩ := Option.isSome_iff_exists.mp hcontains
  have heq := List.inj_on_of_nodup_map h (mem_entries_of_find? ht') ht rfl
  rw [table, ht', Option.getD_some]
  exact congrArg Prod.snd heq

theorem StateTables.set_table {s : StateTables} (h : s.names.Nodup) (name : String) :
    s.set name (s.table name) = s := by
  have hentries : s.entries.map (fun e => if e.1 = name then (name, s.table name) else e) = s.entries := by
    refine (List.map_congr_left fun e he => ?_).trans (List.map_id _)
    split
    . next hname => rw [← hname, table_of_mem h he, id]
    . rfl
  rw [set, hentries]

/-- A call for a group lists at least one symbol. -/
def RuleCall.Lists : RuleCall → Prop
  | .group g _ => g.cells ≠ []
  | _ => True

theorem RuleTable.Stable.after {P : RuleTable → Prop} (hP : Stable P) {call : RuleCall} (hlists : call.Lists)
    {t : RuleTable} (h : P t) : P (call.after t) := by
  unfold RuleCall.after
  split
  . next t' hok =>
    cases call with
    | exact c o alphabet => exact hP.addExact h hok
    | group g alphabet => exact hP.addGroup hlists h hok
    | wildcard o => exact hP.addWildcard h hok
  . exact h

/-- What is done to the tables of a draft. -/
inductive TableEvent where
  | state (name : String)
  | rule (name : String) (call : RuleCall) (lists : call.Lists)
  | growth (old new : Guard) (lt : old.size < new.size)

/-- The states of a draft with their rules in copies, in the order of creation. -/
structure SlotTables where
  entries : List (String × SlotTable) := []

namespace SlotTables

def names (s : SlotTables) : List String := s.entries.map Prod.fst

def table (s : SlotTables) (name : String) : SlotTable :=
  ((s.entries.find? (·.1 = name)).map Prod.snd).getD .empty

def ensure (s : SlotTables) (name : String) : SlotTables :=
  if name ∈ s.names then s else ⟨s.entries ++ [(name, .empty)]⟩

def set (s : SlotTables) (name : String) (x : SlotTable) : SlotTables :=
  ⟨s.entries.map fun e => if e.1 = name then (name, x) else e⟩

def mapNames (f : String → String) (s : SlotTables) : SlotTables :=
  ⟨s.entries.map fun (name, x) => (f name, x.mapNames f)⟩

/-- A call changes the table in place, so what it leaves is the table also if it is refused. -/
def meet (s : SlotTables) : TableEvent → SlotTables
  | .state name => s.ensure name
  | .rule name call _ =>
    let s := s.ensure name
    s.set name ((s.table name).after call)
  | .growth old new _ => s.mapNames (old.rename new)

def after (history : List TableEvent) : SlotTables := history.foldl meet {}

def rules (s : SlotTables) : StateTables := ⟨s.entries.map fun e => (e.1, e.2.rules)⟩

structure Aligned (s : SlotTables) : Prop where
  names : s.rules.names.Nodup
  tables : ∀ e ∈ s.entries, e.2.Aligned ∧ e.2.rules.Tidy

section

variable (s : SlotTables)

theorem rules_ensure (name : String) : (s.ensure name).rules = s.rules.ensure name := by
  have hnames : s.rules.contains name = true ↔ name ∈ s.names := by
    rw [StateTables.contains_iff]
    simp [StateTables.names, rules, names]
  unfold ensure StateTables.ensure
  by_cases hmem : name ∈ s.names
  . rw [if_pos hmem, if_pos (hnames.mpr hmem)]
  . rw [if_neg hmem, if_neg (mt hnames.mp hmem), rules, List.map_append]
    rfl

theorem rules_set (name : String) (x : SlotTable) : (s.set name x).rules = s.rules.set name x.rules := by
  rw [rules, set, StateTables.set, rules, List.map_map, List.map_map]
  congr 2
  funext e
  simp only [Function.comp_apply]
  split <;> rfl

theorem table_rules (name : String) : s.rules.table name = (s.table name).rules := by
  rw [StateTables.table, StateTables.find?, rules, List.find?_map, table]
  simp only [Function.comp_def]
  cases s.entries.find? (·.1 = name) <;> rfl

theorem rules_mapNames {f : String → String} (hf : Function.Injective f) :
    (s.mapNames f).rules = s.rules.mapNames f := by
  simp [rules, mapNames, StateTables.mapNames, Function.comp_def, SlotTable.rules_mapNames hf]

end

theorem mem_entries_table {s : SlotTables} {name : String} (h : name ∈ s.names) :
    (name, s.table name) ∈ s.entries := by
  obtain ⟨e, he, hname⟩ := List.mem_map.mp h
  unfold table
  cases hfind : s.entries.find? (·.1 = name) with
  | none =>
    rw [List.find?_eq_none] at hfind
    exact absurd (decide_eq_true hname) (hfind e he)
  | some e' =>
    have hname' : e'.1 = name := by simpa using List.find?_some hfind
    rw [← hname']
    exact List.mem_of_find?_eq_some hfind

namespace Aligned

variable {s : SlotTables} (h : s.Aligned)
include h

theorem table (name : String) : (s.table name).Aligned ∧ (s.table name).rules.Tidy := by
  unfold SlotTables.table
  cases hfind : s.entries.find? (·.1 = name) with
  | none => exact ⟨SlotTable.aligned_empty, RuleTable.Tidy.empty⟩
  | some e => exact h.tables e (List.mem_of_find?_eq_some hfind)

theorem ensure (name : String) : (s.ensure name).Aligned := by
  refine ⟨s.rules_ensure name ▸ StateTables.nodup_names_ensure h.names name, ?_⟩
  unfold SlotTables.ensure
  split
  . exact h.tables
  . intro e he
    rcases List.mem_append.mp he with he | he
    . exact h.tables e he
    . rw [List.mem_singleton.mp he]
      exact ⟨SlotTable.aligned_empty, RuleTable.Tidy.empty⟩

theorem set (name : String) {x : SlotTable} (hx : x.Aligned ∧ x.rules.Tidy) : (s.set name x).Aligned := by
  refine ⟨?_, fun e he => ?_⟩
  . rw [rules_set, StateTables.names_set]
    exact h.names
  . obtain ⟨e', he', rfl⟩ := List.mem_map.mp he
    split
    . exact hx
    . exact h.tables e' he'

theorem mapNames {f : String → String} (hf : Function.Injective f) : (s.mapNames f).Aligned := by
  refine ⟨?_, fun e he => ?_⟩
  . rw [rules_mapNames s hf, StateTables.names_mapNames]
    exact h.names.map hf
  . obtain ⟨e', he', rfl⟩ := List.mem_map.mp he
    obtain ⟨haligned, htidy⟩ := h.tables e' he'
    exact ⟨haligned.mapNames hf, (SlotTable.rules_mapNames hf e'.2).symm ▸ htidy.mapNames hf⟩

theorem meet (event : TableEvent) : (s.meet event).Aligned := by
  cases event with
  | state name => exact h.ensure name
  | rule name call lists =>
    obtain ⟨haligned, htidy⟩ := (h.ensure name).table name
    obtain ⟨hafter, hrules⟩ := haligned.after call
    exact (h.ensure name).set name ⟨hafter, hrules ▸ RuleTable.Tidy.stable.after lists htidy⟩
  | growth old new lt => exact h.mapNames fun _ _ => Guard.rename_injective (Nat.le_of_lt lt)

theorem rules_rule (name : String) (call : RuleCall) (lists : call.Lists) :
    (s.meet (.rule name call lists)).rules
      = match call.apply (s.rules.table name) with
        | .ok t => (s.rules.ensure name).set name t
        | .error _ => s.rules.ensure name := by
  have hensure := h.ensure name
  have htable : ((s.ensure name).table name).rules = (s.rules.ensure name).table name := by
    rw [← table_rules, rules_ensure]
  have hmeet : (s.meet (.rule name call lists)).rules
      = (s.rules.ensure name).set name (call.after ((s.rules.ensure name).table name)) := by
    rw [SlotTables.meet, rules_set, rules_ensure, ((hensure.table name).1.after call).2, htable]
  rw [hmeet, ← s.rules.table_ensure name name]
  cases happly : call.apply ((s.rules.ensure name).table name) with
  | ok t => rw [RuleCall.after_of_ok happly]
  | error e =>
    rw [RuleCall.after_of_error happly]
    exact StateTables.set_table (s.rules_ensure name ▸ hensure.names) name

end Aligned

theorem aligned_after (history : List TableEvent) : (after history).Aligned := by
  have hkeeps {s : SlotTables} (h : s.Aligned) : (history.foldl meet s).Aligned := by
    induction history generalizing s with
    | nil => exact h
    | cons event history ih => exact ih (h.meet event)
  exact hkeeps ⟨List.nodup_nil, nofun⟩

theorem after_append_singleton (history : List TableEvent) (event : TableEvent) :
    after (history ++ [event]) = (after history).meet event := by
  rw [after, List.foldl_append]
  rfl

def Continues (history : List TableEvent) (states : StateTables) : Prop :=
  ∃ more, states = (after (history ++ more)).rules

variable {history : List TableEvent}

theorem Continues.event {states states' : StateTables} (h : Continues history states) (event : TableEvent)
    (hevent : ∀ s : SlotTables, s.Aligned → states = s.rules → states' = (s.meet event).rules) :
    Continues history states' := by
  obtain ⟨more, hmore⟩ := h
  refine ⟨more ++ [event], ?_⟩
  rw [← List.append_assoc, after_append_singleton]
  exact hevent _ (aligned_after _) hmore

theorem Continues.addRule {s : String} {add : Alphabet → RuleTable → Except RuleError RuleTable}
    (call : Alphabet → RuleCall) (hcall : ∀ a t, (call a).apply t = add a t) (lists : ∀ a, (call a).Lists) :
    Build.Maintains (fun d => Continues history d.states) (Build.addRule s add) := by
  intro d hd
  rw [Build.after, Build.addRule_apply]
  let event : TableEvent := .rule s (call d.alphabet) (lists d.alphabet)
  have hrule (states : SlotTables) (hstates : states.Aligned) (heq : d.states = states.rules) :
      (states.meet event).rules
        = match add d.alphabet (d.states.table s) with
          | .ok t => (d.states.ensure s).set s t
          | .error _ => d.states.ensure s := by
    rw [hstates.rules_rule, ← heq, hcall]
  cases hok : add d.alphabet (d.states.table s) with
  | error e =>
    refine hd.event event fun states hstates heq => ?_
    rw [hrule states hstates heq, hok]
  | ok t =>
    refine hd.event event fun states hstates heq => ?_
    rw [hrule states hstates heq, hok]

/-- All that requests do to the tables of a draft is in a history. -/
theorem continues_endures (history : List TableEvent) :
    Build.Endures fun d => Continues history d.states where
  avoid := by
    intro d name hd
    refine Draft.avoid_induction (P := fun e => Continues history e.states) name hd fun g hlt => ?_
    refine hd.event (.growth d.guard g hlt) fun s _ heq => ?_
    have hf : Function.Injective (d.guard.rename g) := fun _ _ => Guard.rename_injective (Nat.le_of_lt hlt)
    have hgrown : (d.withGuard g).states = d.states.mapNames (d.guard.rename g) := rfl
    rw [hgrown, heq, ← s.rules_mapNames hf]
    rfl
  addState := by
    intro name d hd
    refine hd.event (.state name) fun s _ heq => ?_
    have hadded : ((Build.addState name).after d).states = d.states.ensure name := rfl
    rw [hadded, heq, ← s.rules_ensure name]
    rfl
  addExact := fun _ c o => .addRule (.exact c o) (fun _ _ => rfl) fun _ => trivial
  addGroup := fun _ group hne => .addRule (.group group) (fun _ _ => rfl) fun _ => hne
  addWildcard := fun _ o => .addRule (fun _ => .wildcard o) (fun _ _ => rfl) fun _ => trivial
  chain := by
    intro key parts d hd
    rw [Build.after, Build.chain_apply]
    cases d.chains.find? (·.1 = key) with
    | some _ => exact hd
    | none => exact hd
  addSymbol := fun _ _ hd => hd
  withSegments := fun _ hd => hd
  declare := fun _ _ _ _ hd => hd
  settings := fun _ _ _ _ hd => hd

end SlotTables

/--
The rules of every state are listed as they are looked up, after any requests. There is a history of the
tables, which further requests continue, and after every such history the table of a state is the one of the
draft. A symbol has a slot exactly if an entry lists it, which is then the only one and has the outcome that
is found; there is an entry for all other symbols exactly if there is a wildcard; the outcomes found in the
map, in the groups and for the wildcard are those of the entries; and a table is empty exactly if it has no
outcome for any symbol.
-/
theorem listing_agrees_with_lookup (start : String) (requests : List Request) :
    let d := (Draft.new start).receive requests
    (∃ history, d.states = (SlotTables.after history).rules)
    ∧ ∀ history, d.states = (SlotTables.after history).rules →
      (∀ next, ∃ more, (d.receive next).states = (SlotTables.after (history ++ more)).rules)
      ∧ ∀ name x, (name, x) ∈ (SlotTables.after history).entries →
        ((name, x.rules) ∈ d.states.entries ∧ x.rules.entries = x.entries
          ∧ x.rules.outcomes.Perm x.outcomes ∧ ∀ c, d.states.lookup name c = x.lookup c)
        ∧ (∀ c, x.contains c = true →
          ∃ e, x.entries.filter (c ∈ ·.cells) = [e] ∧ x.lookup c = some e.outcome)
        ∧ (∀ e ∈ x.entries, ∀ c ∈ e.cells, x.contains c = true)
        ∧ (x.entries.filter RuleEntry.isWildcard).length = (if x.hasWildcard then 1 else 0)
        ∧ (x.entries.map RuleEntry.outcome).Perm x.outcomes
        ∧ (x.isEmpty = true ↔ ∀ c, x.lookup c = none) := by
  intro d
  refine ⟨(SlotTables.continues_endures []).receive (d := .new start) ⟨[], rfl⟩ requests,
    fun history hd => ⟨fun next => ?_, fun name x hmem => ?_⟩⟩
  . refine (SlotTables.continues_endures history).receive ⟨[], ?_⟩ next
    rw [List.append_nil, hd]
  obtain ⟨hx, ht⟩ := (SlotTables.aligned_after history).tables _ hmem
  have hentry : (name, x.rules) ∈ d.states.entries := hd ▸ List.mem_map.mpr ⟨_, hmem, rfl⟩
  have htable : d.states.table name = x.rules :=
    StateTables.table_of_mem (hd ▸ (SlotTables.aligned_after history).names) hentry
  refine ⟨⟨hentry, x.entries_rules, hx.outcomes_perm, fun c => ?_⟩, ?_⟩
  . rw [StateTables.lookup_eq, htable, hx.lookup_rules]
  rw [← x.entries_rules, ← hx.isEmpty_rules, ← x.rules.outcomes_eq_map_entries]
  simp only [← hx.covers_rules, ← hx.lookup_rules]
  exact ⟨fun c => ht.exists_entry, fun e he c => RuleTable.covers_of_mem_cells he,
    x.rules.length_filter_isWildcard, hx.outcomes_perm, ht.isEmpty_iff⟩

/-- Two calls are refused, and the guard is widened in the name of a state that a group lists. -/
theorem listing_agrees_with_lookup_renamed :
    let request (read : Pattern) : Request := .directive (.pass "q" read .right "q")
    let requests := [.features [.multiMatch, .multiMatchNoChange, .wildcard],
      .alphabets (Cell.ofText "ab") [.state "Ω"], request (.oneOf [.ofChar 'a', .ofChar 'a']),
      request (.cell (.ofChar 'a')), request (.oneOf [.ofChar 'b', .state "Ω"]), request .any, request .any,
      .state "Ω"]
    let pass : Outcome := .single (.preserve .right) "q"
    let A : Alphabet := .declare (Cell.ofText "ab") [.state "Ω"]
    let history : List TableEvent :=
      [.rule "q" (.group ⟨[.ofChar 'a', .ofChar 'a'], pass, none⟩ A) (List.cons_ne_nil _ _),
        .rule "q" (.exact (.ofChar 'a') (.single (.write (.ofChar 'a') .right) "q") A) trivial,
        .rule "q" (.group ⟨[.ofChar 'b', .state "Ω"], pass, none⟩ A) (List.cons_ne_nil _ _),
        .rule "q" (.wildcard pass) trivial, .rule "q" (.wildcard pass) trivial,
        .growth .single ⟨2, by decide⟩ (by decide), .state "Ω"]
    let x := (SlotTables.after history).table "q"
    ((Draft.new "q").receive requests).states = (SlotTables.after history).rules
      ∧ ("q", x) ∈ (SlotTables.after history).entries
      ∧ x.slots.lookup (.state "ΩΩ") = some (.group 0) ∧ x.hasWildcard = true
      ∧ (∃ e, x.entries.filter (Cell.state "ΩΩ" ∈ ·.cells) = [e]
        ∧ x.lookup (.state "ΩΩ") = some e.outcome)
      ∧ (x.entries.filter RuleEntry.isWildcard).length = 1
      ∧ (x.entries.map RuleEntry.outcome).Perm x.outcomes := by
  intro request requests pass A history x
  have hstates : ((Draft.new "q").receive requests).states = (SlotTables.after history).rules := by
    decide +kernel
  have hmem : ("q", x) ∈ (SlotTables.after history).entries :=
    SlotTables.mem_entries_table (by decide +kernel)
  have hslot : x.slots.lookup (.state "ΩΩ") = some (.group 0) := by decide +kernel
  have hwildcard : x.hasWildcard = true := by decide +kernel
  obtain ⟨-, hlisted, -, hentry, houtcomes, -⟩ :=
    ((listing_agrees_with_lookup "q" requests).2 history hstates).2 "q" x hmem
  rw [hwildcard] at hentry
  exact ⟨hstates, hmem, hslot, hwildcard, hlisted _ (Option.isSome_of_mem hslot), hentry, houtcomes⟩

end TuringLowering
