import TuringLowering.Proofs.Enumeration
import TuringLowering.Proofs.Isomorphism
import TuringLowering.Proofs.Replacement
import TuringLowering.Proofs.Transparency

/-!
This module contains the proof that a draft stays the same when its guard is widened, but for the names that
contain it: nothing is lost or falls together, and the machine made of it runs as before.
-/

namespace TuringLowering

theorem Guard.faithful_rename {g g' : Guard} (h : g.size ≤ g'.size) : Faithful (g.rename g') where
  injective _ _ := rename_injective h
  verdict v := rename_of_clean (by cases v <;> decide) g g'

namespace Draft

structure Distinct (d : Draft) : Prop where
  names : d.states.names.Nodup
  symbols : d.alphabet.symbols.Nodup
  keys : (d.chains.map Prod.fst).Nodup

theorem Distinct.mapNames {d : Draft} (h : d.Distinct) {f : String → String} (hf : Function.Injective f) :
    (d.mapNames f).Distinct where
  names := by
    have hnames : (d.mapNames f).states.names = d.states.names.map f := StateTables.names_mapNames f d.states
    rw [hnames]
    exact h.names.map hf
  symbols := h.symbols.map (Cell.mapNames_injective hf)
  keys := by
    have hkeys : (d.mapNames f).chains.map Prod.fst = (d.chains.map Prod.fst).map (ChainKey.mapNames f) := by
      simp [Draft.mapNames, Function.comp_def]
    rw [hkeys]
    exact h.keys.map (ChainKey.mapNames_injective hf)

theorem Distinct.withGuard {d : Draft} (h : d.Distinct) {g : Guard} (hle : d.guard.size ≤ g.size) :
    (d.withGuard g).Distinct :=
  let renamed := h.mapNames (Guard.faithful_rename hle).injective
  ⟨renamed.names, renamed.symbols, renamed.keys⟩

theorem distinct_endures : Build.Endures Distinct := by
  have hrule {s : String} {add : Alphabet → RuleTable → Except RuleError RuleTable} :
      Build.Maintains Distinct (Build.addRule s add) := by
    intro d hd
    rw [Build.after, Build.addRule_apply]
    have hensure := StateTables.nodup_names_ensure hd.names s
    cases add d.alphabet (d.states.table s) with
    | error e => exact ⟨hensure, hd.symbols, hd.keys⟩
    | ok t => exact ⟨(StateTables.names_set _ s t).symm ▸ hensure, hd.symbols, hd.keys⟩
  have hsymbols {d : Draft} (hd : d.Distinct) {a : Alphabet} (ha : a.symbols.Nodup) :
      { d with alphabet := a }.Distinct := ⟨hd.names, ha, hd.keys⟩
  exact
    { avoid := fun d name hd => avoid_induction name hd fun g hlt => hd.withGuard (Nat.le_of_lt hlt)
      addState := fun s d hd => ⟨StateTables.nodup_names_ensure hd.names s, hd.symbols, hd.keys⟩
      addExact := fun _ _ _ => hrule
      addGroup := fun _ _ _ => hrule
      addWildcard := fun _ _ => hrule
      chain := by
        intro key parts d hd
        rw [Build.after, Build.chain_apply]
        cases hfind : d.chains.find? (·.1 = key) with
        | some _ => exact hd
        | none =>
          refine ⟨hd.names, hd.symbols, ?_⟩
          rw [List.find?_eq_none] at hfind
          dsimp only
          rw [List.map_append, List.map_singleton, ← List.concat_eq_append]
          refine hd.keys.concat fun hmem => ?_
          obtain ⟨e, he, hkey⟩ := List.mem_map.mp hmem
          exact hfind e he (by simpa using hkey)
      addSymbol := fun name d hd => hsymbols hd (Alphabet.nodup_addNew hd.symbols _)
      withSegments := by
        intro d hd
        unfold Alphabet.withSegments
        split
        . exact hd
        . exact hsymbols hd (Alphabet.nodup_foldl_addNew hd.symbols _)
      declare := fun d _ _ _ hd => hsymbols hd (Alphabet.nodup_foldl_addNew List.nodup_nil _)
      settings := fun d _ _ _ hd => ⟨hd.names, hd.symbols, hd.keys⟩ }

theorem distinct_receive (start : String) (requests : List Request) :
    ((Draft.new start).receive requests).Distinct :=
  have hnew : (Draft.new start).Distinct :=
    ⟨List.nodup_nil, Alphabet.nodup_foldl_addNew List.nodup_nil _, List.nodup_nil⟩
  distinct_endures.receive hnew requests

theorem avoid_eq_withGuard (d : Draft) (name : String) : d.avoid name = d.withGuard (d.avoid name).guard :=
  avoid_induction (P := fun e => e = d.withGuard e.guard) name d.withGuard_guard.symm fun _ _ => rfl

theorem compile_withGuard (d : Draft) (g : Guard) :
    (d.withGuard g).compile = d.compile.mapNames (d.guard.rename g) := rfl

/-- One draft is another with its states renamed, throughout and such that nothing is lost or there twice. -/
structure Renames (r : String → String) (d d' : Draft) : Prop where
  start : d'.start = r d.start
  names : d'.states.names = d.states.names.map r ∧ d'.states.names.Nodup
  symbols : d'.alphabet.symbols = d.alphabet.symbols.map (Cell.mapNames r) ∧ d'.alphabet.symbols.Nodup
  chains : d'.chains = d.chains.map (fun e => (e.1.mapNames r, r e.2)) ∧ (d'.chains.map Prod.fst).Nodup
  tables : ∀ s, d'.states.find? (r s) = (d.states.find? s).map (RuleTable.mapNames r)
  keys : ∀ s t, d'.states.find? (r s) = some t →
    t.keys = (d.states.table s).keys.map (Cell.mapNames r) ∧ t.keys.Nodup

theorem renames_withGuard {d : Draft} (hdistinct : d.Distinct) (htidy : d.Every RuleTable.Tidy) {g : Guard}
    (hle : d.guard.size ≤ g.size) : Renames (d.guard.rename g) d (d.withGuard g) := by
  have hdistinct' := hdistinct.withGuard hle
  have hr := (Guard.faithful_rename hle).injective
  have htables (s : String) : (d.withGuard g).states.find? (d.guard.rename g s)
      = (d.states.find? s).map (RuleTable.mapNames (d.guard.rename g)) :=
    StateTables.find?_mapNames hr d.states s
  exact
    { start := rfl
      names := ⟨StateTables.names_mapNames _ _, hdistinct'.names⟩
      symbols := ⟨rfl, hdistinct'.symbols⟩
      chains := ⟨rfl, hdistinct'.keys⟩
      tables := htables
      keys := by
        intro s t' ht'
        rw [htables, Option.map_eq_some_iff] at ht'
        obtain ⟨t, ht, rfl⟩ := ht'
        have htable : d.states.table s = t := by rw [StateTables.table, ht, Option.getD_some]
        rw [htable, RuleTable.keys_mapNames]
        exact ⟨rfl, (htidy _ (StateTables.mem_entries_of_find? ht)).nodup.map (Cell.mapNames_injective hr)⟩ }

end Draft

/--
Whatever requests a draft was made of and whatever name it avoids, its guard is then the shortest run of guard
characters, no shorter than before, that the name does not contain. To replace the old guard by the new one is
injective, and the states, symbols, rules and keys of the draft are those from before with the guard replaced.
So what is looked up for a renamed state and cell, and whether a cell is accepted, is as before. On an input
of literals, the machines made of the two drafts go through the same configurations but for the guard, step by
step, and come to the same verdict.
-/
theorem guard_growth_isomorphism (start : String) (requests : List Request) (name : String) :
    let d := (Draft.new start).receive requests
    let d' := d.avoid name
    let r := d.guard.rename d'.guard
    (d'.guard.text.toList = List.replicate d'.guard.size Guard.mark
        ∧ 0 < d'.guard.size
        ∧ ¬ d'.guard.text.toList <:+: name.toList
        ∧ d.guard.size ≤ d'.guard.size
        ∧ ∀ g : Guard, d.guard.size ≤ g.size → ¬ g.text.toList <:+: name.toList → d'.guard.size ≤ g.size)
      ∧ (∀ s, r s = String.ofList (replaceAll d.guard.text.toList d'.guard.text.toList s.toList))
      ∧ Function.Injective r
      ∧ Draft.Renames r d d'
      ∧ (∀ s c, d'.states.lookup (r s) (c.mapNames r) = (d.states.lookup s c).map (Outcome.mapNames r))
      ∧ (∀ c, d'.alphabet.accepts (c.mapNames r) = d.alphabet.accepts c)
      ∧ (∀ s c, d'.compile.lookup (r s) (c.mapNames r) = (d.compile.lookup s c).mapNames r)
      ∧ ∀ (texts : List String) (k : Nat),
          let ran := d.compile.ran (texts.map Cell.literal) k
          let ran' := d'.compile.ran (texts.map Cell.literal) k
          ran'.1 = ran.1 ∧ ran'.2.config = ran.2.config.mapNames r := by
  intro d d' r
  have hle : d.guard.size ≤ d'.guard.size := d.size_le_avoid name
  have hr : Faithful r := Guard.faithful_rename hle
  have hd' : d' = d.withGuard d'.guard := d.avoid_eq_withGuard name
  have htidy : d.Every RuleTable.Tidy :=
    (Draft.every_endures RuleTable.Tidy.stable).receive (d := .new start) (fun _ he => nomatch he) requests
  have hcompile : d'.compile = d.compile.mapNames r :=
    (congrArg Draft.compile hd').trans (d.compile_withGuard d'.guard)
  refine ⟨⟨?_, d'.guard.size_pos, ?_, hle, fun g hg hname => ?_⟩, ?_, hr.injective, ?_, ?_, ?_, ?_, ?_⟩
  . rw [Guard.text, String.toList_ofList, Guard.run]
  . exact Guard.free_iff_not_occurs.mp (d.free_avoid name)
  . exact (d.size_avoid_le_iff name g).mpr ⟨hg, Guard.free_iff_not_occurs.mpr hname⟩
  . exact fun s => d.guard.rename_eq_replaceAll d'.guard s
  . rw [hd']
    exact Draft.renames_withGuard (Draft.distinct_receive start requests) htidy hle
  . intro s c
    rw [hd']
    exact StateTables.lookup_mapNames hr.injective d.states s c
  . intro c
    rw [hd']
    exact Alphabet.accepts_mapNames hr.injective d.alphabet c
  . intro s c
    rw [hcompile]
    exact Machine.lookup_mapNames hr d.compile s c
  . intro texts k
    have hword : (texts.map Cell.literal).map (Cell.mapNames r) = texts.map Cell.literal := by
      rw [List.map_map]
      rfl
    have hran := Machine.ran_mapNames hr d.compile (texts.map Cell.literal) k
    rwa [hword, ← hcompile] at hran

/-- A name with two guard characters, which a draft with a generated state is to avoid. -/
theorem guard_growth_isomorphism_generated :
    let d := (Draft.new "q").receive
      [.alphabets [.literal "a"] [], .directive (.pass "q" .any (.rightBy 2) Verdict.accept.state)]
    let d' := d.avoid "aΩΩb"
    d'.guard.text = "ΩΩΩ"
      ∧ d.states.names = ["Ω_1R_Ω_ACCEPT_Ω", "q"]
      ∧ d'.states.names = ["ΩΩΩ_1R_ΩΩΩ_ACCEPT_ΩΩΩ", "q"]
      ∧ ∀ k, (d'.compile.ran [.literal "a"] k).1 = (d.compile.ran [.literal "a"] k).1 := by
  intro d d'
  have hnames : d.states.names = ["Ω_1R_Ω_ACCEPT_Ω", "q"] := by decide +kernel
  obtain ⟨_, _, _, hrenames, _, _, _, hran⟩ := guard_growth_isomorphism "q"
    [.alphabets [.literal "a"] [], .directive (.pass "q" .any (.rightBy 2) Verdict.accept.state)] "aΩΩb"
  refine ⟨by decide +kernel, hnames, ?_, fun k => (hran ["a"] k).1⟩
  refine hrenames.names.1.trans ?_
  rw [show d.states.names = _ from hnames]
  decide +kernel

end TuringLowering
