import TuringLowering.Proofs.JointAdmission

/-!
This module contains what the features for matching have to do with which requests are accepted. Whether
symbols share a rule makes no difference at all, and what is accepted with wildcards is accepted without
them, since a wildcard and the rules for all symbols that are left leave equally little room.
-/

namespace TuringLowering

def FeatureSet.AgreeExcept (features : List Feature) (s s' : FeatureSet) : Prop :=
  ∀ f, f ∉ features → s.has f = s'.has f

/-- The second set differs from the first one in the way symbols are matched, and in no other. -/
structure FeatureSet.Resembles (s s' : FeatureSet) : Prop where
  other : s.AgreeExcept [.multiMatch, .multiMatchNoChange, .wildcard] s'
  wildcard : s'.has .wildcard = true → s.has .wildcard = true

namespace FeatureSet.Resembles

variable {s s' : FeatureSet} (h : s.Resembles s')

include h

theorem enabled {f : Feature} (hf : f ∉ [Feature.multiMatch, .multiMatchNoChange, .wildcard]) :
    s.enabled f = s'.enabled f := by
  unfold FeatureSet.enabled
  rw [h.other f hf, h.other .moveNone (by decide), h.other .multiTape (by decide)]

theorem supports (m : Move) : s.supports m = s'.supports m := by
  unfold FeatureSet.supports
  rw [h.enabled (by decide), h.enabled (by decide)]

end FeatureSet.Resembles

namespace RuleTable

variable {t t' : RuleTable} {alphabet : Alphabet}

theorem isNone_lookup (t : RuleTable) (c : Cell) :
    (t.lookup c).isNone = (!t.covers c && !t.hasWildcard) := by
  unfold lookup covers hasWildcard
  cases t.listed? c <;> cases t.wildcard <;> rfl

theorem covers_addExact {c : Cell} {o : Outcome} (h : addExact c o alphabet t = .ok t') (x : Cell) :
    t'.covers x = true ↔ x = c ∨ t.covers x = true := by
  rw [covers, listed?_addExact h, covers]
  split <;> simp [*]

theorem covers_addGroup {group : RuleGroup} (h : addGroup group alphabet t = .ok t') (x : Cell) :
    t'.covers x = true ↔ x ∈ group.cells ∨ t.covers x = true := by
  rw [covers, listed?_addGroup h, covers]
  split <;> simp [*]

theorem hasWildcard_addExact {c : Cell} {o : Outcome} (h : addExact c o alphabet t = .ok t') :
    t'.hasWildcard = t.hasWildcard := by
  rw [(eq_of_addExact h).2, hasWildcard, hasWildcard]

theorem hasWildcard_addGroup {group : RuleGroup} (h : addGroup group alphabet t = .ok t') :
    t'.hasWildcard = t.hasWildcard := by
  rw [(eq_of_addGroup h).2, hasWildcard, hasWildcard]

structure SameRoom (t t' : RuleTable) : Prop where
  covers : ∀ c, t.covers c = t'.covers c
  wildcard : t.hasWildcard = t'.hasWildcard

namespace SameRoom

theorem refl (t : RuleTable) : t.SameRoom t := ⟨fun _ => rfl, rfl⟩

variable (h : t.SameRoom t')

include h

theorem checkCell (c : Cell) : t.checkCell alphabet c = t'.checkCell alphabet c := by
  unfold RuleTable.checkCell
  rw [h.covers, h.wildcard]

theorem checkCells (seen cells : List Cell) :
    t.checkCells alphabet seen cells = t'.checkCells alphabet seen cells := by
  induction cells generalizing seen with
  | nil => rfl
  | cons c cells ih => simp only [RuleTable.checkCells, h.checkCell, ih]

end SameRoom

/--
Tables that leave room for the same rules, or a wildcard on one side and rules for all keys in `K` on the
other.
-/
def Parallel (strict : Prop) (K : Cell → Prop) (t t' : RuleTable) : Prop :=
  t.SameRoom t'
    ∨ ¬ strict ∧ t.hasWildcard = true ∧ t'.hasWildcard = false ∧ ∀ c, K c → t'.covers c = true

theorem Parallel.isNone_lookup {strict : Prop} {K : Cell → Prop} (h : Parallel strict K t t') {c : Cell}
    (hc : strict ∨ K c) : (t.lookup c).isNone = (t'.lookup c).isNone := by
  rw [RuleTable.isNone_lookup, RuleTable.isNone_lookup]
  rcases h with h | ⟨hstrict, hwild, _, hcovers⟩
  . rw [h.covers, h.wildcard]
  . simp [hwild, hcovers c (hc.resolve_left hstrict)]

theorem covers_mapNames_iff {f : String → String} (hf : Function.Injective f) (t : RuleTable) (c : Cell) :
    (t.mapNames f).covers c = true ↔ ∃ c', t.covers c' = true ∧ c = c'.mapNames f := by
  constructor
  . intro h
    by_cases hc : ∃ c', c = Cell.mapNames f c'
    . obtain ⟨c', rfl⟩ := hc
      rw [covers_mapNames hf] at h
      exact ⟨c', h, rfl⟩
    . exfalso
      unfold covers listed? at h
      have hexact : (t.mapNames f).exact.find? (·.1 = c) = none := by
        rw [List.find?_eq_none]
        intro rule hrule
        obtain ⟨rule, _, rfl⟩ := List.mem_map.mp hrule
        simpa using fun h : rule.1.mapNames f = c => hc ⟨rule.1, h.symm⟩
      have hgroups : (t.mapNames f).groups.find? (c ∈ ·.cells) = none := by
        rw [List.find?_eq_none]
        intro group hgroup
        obtain ⟨group, _, rfl⟩ := List.mem_map.mp hgroup
        simp only [decide_eq_true_eq, List.mem_map, not_exists, not_and]
        exact fun x _ h => hc ⟨x, h.symm⟩
      rw [hexact, hgroups] at h
      cases h
  . rintro ⟨c', h, rfl⟩
    rwa [covers_mapNames hf]

theorem SameRoom.mapNames {f : String → String} (hf : Function.Injective f) (h : t.SameRoom t') :
    (t.mapNames f).SameRoom (t'.mapNames f) := by
  refine ⟨fun c => ?_, ?_⟩
  . rw [Bool.eq_iff_iff, covers_mapNames_iff hf, covers_mapNames_iff hf]
    simp only [h.covers]
  . rw [hasWildcard_mapNames, hasWildcard_mapNames, h.wildcard]

end RuleTable

namespace Build

variable {α β : Type} {R : Draft → Draft → Prop} {strict : Prop}

/--
What goes through on the one side goes through on the other, with the same result; if `strict`, what is
refused on the one side is refused on the other, for the same reason.
-/
def Matched (R : Draft → Draft → Prop) (strict : Prop) :
    (r r' : EStateM.Result RequestError Draft α) → Prop
  | .ok a e, r' => ∃ e', r' = .ok a e' ∧ R e e'
  | .error err _, r' => strict → ∃ e', r' = .error err e'

def Tracks (R : Draft → Draft → Prop) (strict : Prop) (x x' : Build α) : Prop :=
  ∀ d d', R d d' → Matched R strict (x d) (x' d')

namespace Tracks

theorem pure (a : α) : Tracks R strict (Pure.pure a) (Pure.pure a) := fun _ d' h => ⟨d', rfl, h⟩

theorem throw (e : RequestError) :
    Tracks R strict (MonadExcept.throw e : Build α) (MonadExcept.throw e) := fun _ d' _ _ => ⟨d', rfl⟩

theorem bind_ok {x x' : Build α} {k k' : α → Build β} (hx : Tracks R strict x x')
    (hk : ∀ a d e, x d = .ok a e → Tracks R strict (k a) (k' a)) :
    Tracks R strict (x >>= k) (x' >>= k') := by
  intro d d' h
  have hxd := hx d d' h
  cases hrun : x d with
  | ok a e =>
    rw [hrun] at hxd
    obtain ⟨e', hrun', he⟩ := hxd
    rw [bind_of_ok hrun, bind_of_ok hrun']
    exact hk a d e hrun e e' he
  | error err e =>
    rw [hrun] at hxd
    rw [bind_of_error hrun]
    intro hstrict
    obtain ⟨e', hrun'⟩ := hxd hstrict
    exact ⟨e', bind_of_error hrun' k'⟩

theorem bind {x x' : Build α} {k k' : α → Build β} (hx : Tracks R strict x x')
    (hk : ∀ a, Tracks R strict (k a) (k' a)) : Tracks R strict (x >>= k) (x' >>= k') :=
  bind_ok hx fun a _ _ _ => hk a

theorem get_bind {k k' : Draft → Build β}
    (hk : ∀ d d', R d d' → Tracks R strict (k d) (k' d')) :
    Tracks R strict (get >>= k) (get >>= k') := fun d d' h => hk d d' h d d' h

theorem of_modify {f : Draft → Draft} (hf : ∀ d d', R d d' → R (f d) (f d')) :
    Tracks R strict (modify f) (modify f) := fun d d' h => ⟨f d', rfl, hf d d' h⟩

theorem forM {xs : List α} {k k' : α → Build Unit} (hk : ∀ x ∈ xs, Tracks R strict (k x) (k' x)) :
    Tracks R strict (xs.forM k) (xs.forM k') := by
  induction xs with
  | nil => exact pure ()
  | cons x xs ih =>
    rw [List.forall_mem_cons] at hk
    exact bind hk.1 fun _ => ih hk.2

theorem enabled_bind {f : Feature} {k k' : Bool → Build β}
    (hk : ∀ d d', R d d' → Tracks R strict (k (d.features.enabled f)) (k' (d'.features.enabled f))) :
    Tracks R strict (enabled f >>= k) (enabled f >>= k') := fun d d' h => hk d d' h d d' h

end Tracks

end Build

namespace Draft

structure Lists (state : String) (cells : List Cell) (d d' : Draft) : Prop where
  rest : d' = { d with states := d'.states }
  other : ∀ s, s ≠ state → d'.states.table s = d.states.table s
  covers : ∀ c, (d'.states.table state).covers c = true
    ↔ c ∈ cells ∨ (d.states.table state).covers c = true
  wildcard : (d'.states.table state).hasWildcard = (d.states.table state).hasWildcard

variable {d d' : Draft} {state : String} {cells : List Cell}

theorem Lists.nil (d : Draft) (state : String) : d.Lists state [] d :=
  ⟨rfl, fun _ _ => rfl, fun _ => by simp, rfl⟩

theorem table_set_ensure (d : Draft) (state : String) (t : RuleTable) (s : String) :
    ((d.states.ensure state).set state t).table s = if s = state then t else d.states.table s := by
  rw [StateTables.table_set _ _ _ _ (by simp [StateTables.contains_ensure]), StateTables.table_ensure]

theorem Lists.of_table {t : RuleTable}
    (hcovers : ∀ c, t.covers c = true ↔ c ∈ cells ∨ (d.states.table state).covers c = true)
    (hwildcard : t.hasWildcard = (d.states.table state).hasWildcard) :
    d.Lists state cells { d with states := (d.states.ensure state).set state t } := by
  refine ⟨rfl, fun s hs => ?_, fun c => ?_, ?_⟩ <;> dsimp only
  . rw [table_set_ensure, if_neg hs]
  . rw [table_set_ensure, if_pos rfl, hcovers]
  . rw [table_set_ensure, if_pos rfl, hwildcard]

theorem Lists.trans {d'' : Draft} {cells' : List Cell} (h : d.Lists state cells d')
    (h' : d'.Lists state cells' d'') : d.Lists state (cells' ++ cells) d'' := by
  refine ⟨?_, fun s hs => ?_, fun c => ?_, ?_⟩
  . rw [h'.rest, h.rest]
  . rw [h'.other s hs, h.other s hs]
  . rw [h'.covers, h.covers, List.mem_append, or_assoc]
  . rw [h'.wildcard, h.wildcard]

end Draft

namespace Build

variable {d e : Draft} {state : String} {seen : List Cell}

theorem addExact_lists {c : Cell} (o : Outcome) (he : d.Lists state seen e)
    (hseen : ∀ x ∈ seen, d.alphabet.accepts x = true) :
    match (d.states.table state).checkCells d.alphabet seen [c] with
    | .ok _ => ∃ e', addRule state (RuleTable.addExact c o) e = .ok () e' ∧ d.Lists state (c :: seen) e'
    | .error cause => ∃ e', addRule state (RuleTable.addExact c o) e = .error (.rule state cause) e' := by
  have hcheck : (e.states.table state).checkCell e.alphabet c
      = (d.states.table state).checkCells d.alphabet seen [c] := by
    have halphabet : e.alphabet = d.alphabet := by rw [he.rest]
    simp only [RuleTable.checkCells, RuleTable.checkCell, he.wildcard, he.covers, halphabet, bind,
      Except.bind]
    by_cases hmem : c ∈ seen
    . cases (d.states.table state).hasWildcard <;> cases (d.states.table state).covers c
        <;> simp [hmem, hseen c hmem]
    . cases (d.states.table state).hasWildcard <;> cases (d.states.table state).covers c
        <;> cases d.alphabet.accepts c <;> simp [hmem]
  rw [← hcheck, addRule_apply]
  cases hc : (e.states.table state).checkCell e.alphabet c with
  | error cause =>
    have hadd : RuleTable.addExact c o e.alphabet (e.states.table state) = .error cause := by
      rw [RuleTable.addExact, hc]
      rfl
    rw [hadd]
    exact ⟨_, rfl⟩
  | ok _ =>
    obtain ⟨t, hadd⟩ : ∃ t, RuleTable.addExact c o e.alphabet (e.states.table state) = .ok t := by
      rw [RuleTable.addExact, hc]
      exact ⟨_, rfl⟩
    have hcovers (x : Cell) : t.covers x = true ↔ x ∈ [c] ∨ (e.states.table state).covers x = true := by
      rw [RuleTable.covers_addExact hadd, List.mem_singleton]
    rw [hadd]
    exact ⟨_, rfl, he.trans (.of_table hcovers (RuleTable.hasWildcard_addExact hadd))⟩

theorem forM_addExact_lists (each : Cell → Outcome) (cells : List Cell) (he : d.Lists state seen e)
    (hseen : ∀ x ∈ seen, d.alphabet.accepts x = true) :
    match (d.states.table state).checkCells d.alphabet seen cells with
    | .ok _ => ∃ e', (cells.forM fun c => addRule state (RuleTable.addExact c (each c))) e = .ok () e'
        ∧ d.Lists state (cells.reverse ++ seen) e'
    | .error cause => ∃ e', (cells.forM fun c => addRule state (RuleTable.addExact c (each c))) e
        = .error (.rule state cause) e' := by
  induction cells generalizing seen e with
  | nil => exact ⟨e, rfl, he⟩
  | cons c cells ih =>
    have hcons : (d.states.table state).checkCells d.alphabet seen (c :: cells)
        = (d.states.table state).checkCells d.alphabet seen [c] >>= fun _ =>
          (d.states.table state).checkCells d.alphabet (c :: seen) cells := by
      simp only [RuleTable.checkCells, bind, Except.bind]
      cases (d.states.table state).checkCell d.alphabet c with
      | error cause => rfl
      | ok _ => by_cases hmem : c ∈ seen <;> simp [hmem]
    have hfirst := @addExact_lists d e state seen c (each c) he hseen
    rw [hcons, List.forM_eq_forM, List.forM_cons]
    cases hc : (d.states.table state).checkCells d.alphabet seen [c] with
    | error cause =>
      rw [hc] at hfirst
      obtain ⟨e', hrun⟩ := hfirst
      exact ⟨e', bind_of_error hrun _⟩
    | ok _ =>
      rw [hc] at hfirst
      obtain ⟨e', hrun, he'⟩ := hfirst
      have haccepts := (RuleTable.listed_of_checkCells hc c List.mem_cons_self).2
      have hrest := ih he' (List.forall_mem_cons.mpr ⟨haccepts, hseen⟩)
      rw [bind_of_ok hrun, List.reverse_cons, List.append_assoc]
      exact hrest

theorem addRules_lists (state : String) (cells : List Cell) (grouped : Bool) (shared : Outcome)
    (each : Cell → Outcome) (source : Option JointPattern) (d : Draft) :
    match (d.states.table state).checkCells d.alphabet [] cells with
    | .ok _ => ∃ d', addRules state cells grouped shared each source d = .ok () d'
        ∧ d.Lists state cells d'
    | .error cause => ∃ d', addRules state cells grouped shared each source d
        = .error (.rule state cause) d' := by
  unfold addRules
  cases grouped with
  | true =>
    rw [if_pos rfl]
    split
    . next hcheck =>
      split
      . next hempty =>
        obtain rfl := List.isEmpty_iff.mp hempty
        refine ⟨_, rfl, ⟨rfl, fun s _ => ?_, fun c => ?_, ?_⟩⟩ <;> dsimp only
        . exact StateTables.table_ensure _ _ _
        . simp
        . simp
      . obtain ⟨t, hadd⟩ : ∃ t, RuleTable.addGroup ⟨cells, shared, source⟩ d.alphabet
            (d.states.table state) = .ok t := by
          rw [RuleTable.addGroup, hcheck]
          exact ⟨_, rfl⟩
        rw [addRule_apply, hadd]
        exact ⟨_, rfl, .of_table (RuleTable.covers_addGroup hadd) (RuleTable.hasWildcard_addGroup hadd)⟩
    . next cause hcheck =>
      have hne : cells.isEmpty = false := by
        cases cells with
        | nil => cases hcheck
        | cons c cells => rfl
      have hadd : RuleTable.addGroup ⟨cells, shared, source⟩ d.alphabet (d.states.table state)
          = .error cause := by
        rw [RuleTable.addGroup, hcheck]
        rfl
      rw [hne, if_neg Bool.false_ne_true, addRule_apply, hadd]
      exact ⟨_, rfl⟩
  | false =>
    rw [if_neg Bool.false_ne_true]
    have hcells := forM_addExact_lists each cells (.nil d state) (List.forall_mem_nil _)
    split
    . next hcheck =>
      rw [hcheck] at hcells
      obtain ⟨d', hrun, hlists⟩ := hcells
      refine ⟨d', hrun, ⟨hlists.rest, hlists.other, fun c => ?_, hlists.wildcard⟩⟩
      rw [hlists.covers, List.append_nil, List.mem_reverse]
    . next hcheck =>
      rw [hcheck] at hcells
      exact hcells

theorem addRules_singleton (state : String) (c : Cell) (shared : Outcome) (each : Cell → Outcome)
    (source : Option JointPattern) :
    addRules state [c] false shared each source = addRule state (RuleTable.addExact c (each c)) := by
  funext d
  rw [addRules, if_neg Bool.false_ne_true, List.forM_eq_forM, List.forM_cons, List.forM_nil]
  cases hrun : addRule state (RuleTable.addExact c (each c)) d with
  | ok a d' => rw [bind_of_ok hrun]; rfl
  | error e d' => rw [bind_of_error hrun]

end Build

/-- What rules for all symbols cover: a symbol, or one from each of several tapes. -/
def TapeUse.Key (symbols : List Cell) : TapeUse → Cell → Prop
  | .single, c => c ∈ symbols
  | .multi n, c => ∃ cells, cells.length = n ∧ (∀ x ∈ cells, x ∈ symbols) ∧ c = .joint cells
  | .undecided, c => c ∈ symbols ∨ ∃ cells, (∀ x ∈ cells, x ∈ symbols) ∧ c = .joint cells

theorem Cell.exists_map_mapNames {f : String → String} {symbols cells : List Cell}
    (h : ∀ c ∈ cells, c ∈ symbols.map (mapNames f)) :
    ∃ cells' : List Cell, (∀ c ∈ cells', c ∈ symbols) ∧ cells = cells'.map (mapNames f) := by
  induction cells with
  | nil => exact ⟨[], List.forall_mem_nil _, rfl⟩
  | cons c cells ih =>
    rw [List.forall_mem_cons] at h
    obtain ⟨c', hc', rfl⟩ := List.mem_map.mp h.1
    obtain ⟨cells', hcells', rfl⟩ := ih h.2
    exact ⟨c' :: cells', List.forall_mem_cons.mpr ⟨hc', hcells'⟩, rfl⟩

theorem TapeUse.exists_key {f : String → String} {symbols : List Cell} {u : TapeUse} {c : Cell}
    (h : u.Key (symbols.map (Cell.mapNames f)) c) : ∃ c', u.Key symbols c' ∧ c = c'.mapNames f := by
  have hsymbol (hc : c ∈ symbols.map (Cell.mapNames f)) : ∃ c' ∈ symbols, c = c'.mapNames f := by
    obtain ⟨c', hc', rfl⟩ := List.mem_map.mp hc
    exact ⟨c', hc', rfl⟩
  cases u with
  | single => exact hsymbol h
  | multi n =>
    obtain ⟨cells, hlength, hcells, rfl⟩ := h
    obtain ⟨cells', hcells', rfl⟩ := Cell.exists_map_mapNames hcells
    rw [List.length_map] at hlength
    exact ⟨.joint cells', ⟨cells', hlength, hcells', rfl⟩, (Cell.mapNames_tuple f cells' false).symm⟩
  | undecided =>
    rcases h with hc | ⟨cells, hcells, rfl⟩
    . obtain ⟨c', hc', rfl⟩ := hsymbol hc
      exact ⟨c', .inl hc', rfl⟩
    . obtain ⟨cells', hcells', rfl⟩ := Cell.exists_map_mapNames hcells
      exact ⟨.joint cells', .inr ⟨cells', hcells', rfl⟩, (Cell.mapNames_tuple f cells' false).symm⟩

abbrev FeatureSet.SameWildcard (s s' : FeatureSet) : Prop := s.has .wildcard = s'.has .wildcard

def Cell.IsSteady (c : Cell) : Prop := ∀ g g' : Guard, c.mapNames (g.rename g') = c

/--
Drafts made with the features `F` and `F'` by the same requests, which use the tapes as given and rely on
the symbols with `S`.
-/
structure Draft.Parallel (F F' : FeatureSet) (S : Cell → Prop) (u : TapeUse) (d d' : Draft) : Prop where
  features : d.features = F
  rest : d' = { d with features := F', states := d'.states }
  tapes : d.tapes = u
  tables : ∀ s, (d.states.table s).Parallel (F.SameWildcard F') (u.Key d.alphabet.symbols)
    (d'.states.table s)
  orderly : ¬ F.SameWildcard F' → d.alphabet.IsOrderly
  known : ∀ c, S c → c ∈ d.alphabet.symbols

namespace Draft.Parallel

variable {F F' : FeatureSet} {S : Cell → Prop} {u : TapeUse} {d d' e e' : Draft} {state : String}

theorem features' (h : d.Parallel F F' S u d') : d'.features = F' := by rw [h.rest]

theorem alphabet (h : d.Parallel F F' S u d') : d'.alphabet = d.alphabet := by rw [h.rest]

theorem guard (h : d.Parallel F F' S u d') : d'.guard = d.guard := by rw [h.rest]

theorem chains (h : d.Parallel F F' S u d') : d'.chains = d.chains := by rw [h.rest]

theorem of_tables (h : d.Parallel F F' S u d') (he : e = { d with states := e.states })
    (he' : e' = { d' with states := e'.states })
    (htables : ∀ s, (e.states.table s).Parallel (F.SameWildcard F') (u.Key d.alphabet.symbols)
      (e'.states.table s)) : e.Parallel F F' S u e' := by
  have halphabet : e.alphabet = d.alphabet := by rw [he]
  refine ⟨?_, ?_, ?_, ?_, ?_, ?_⟩
  . rw [he]
    exact h.features
  . rw [he', he, h.rest]
  . rw [he]
    exact h.tapes
  . rw [halphabet]
    exact htables
  . rw [halphabet]
    exact h.orderly
  . rw [halphabet]
    exact h.known

theorem lists {cells : List Cell} (h : d.Parallel F F' S u d') (he : d.Lists state cells e)
    (he' : d'.Lists state cells e') : e.Parallel F F' S u e' := by
  apply h.of_tables he.rest he'.rest
  intro s
  by_cases hs : s = state
  . subst hs
    rcases h.tables s with hsame | ⟨hstrict, hwild, hwild', hcovers⟩
    . refine .inl ⟨fun c => ?_, ?_⟩
      . rw [Bool.eq_iff_iff, he.covers, he'.covers, hsame.covers]
      . rw [he.wildcard, he'.wildcard, hsame.wildcard]
    . refine .inr ⟨hstrict, ?_, ?_, fun c hc => ?_⟩
      . rw [he.wildcard, hwild]
      . rw [he'.wildcard, hwild']
      . rw [he'.covers]
        exact .inr (hcovers c hc)
  . rw [he.other s hs, he'.other s hs]
    exact h.tables s

/-- A wildcard on the one side stands for rules for all symbols on the other. -/
theorem expand {cells : List Cell} {o : Outcome} {t : RuleTable} (h : d.Parallel F F' S u d')
    (hstrict : ¬ F.SameWildcard F') (hadd : RuleTable.addWildcard o (d.states.table state) = .ok t)
    (he' : d'.Lists state cells e')
    (hcells : ∀ c, u.Key d.alphabet.symbols c →
      c ∈ cells ∨ (d'.states.table state).covers c = true) :
    { d with states := (d.states.ensure state).set state t }.Parallel F F' S u e' := by
  apply h.of_tables rfl he'.rest
  intro s
  dsimp only
  rw [table_set_ensure]
  split
  . next hs =>
    subst hs
    unfold RuleTable.addWildcard at hadd
    split at hadd
    . cases hadd
    . next hwild =>
      cases hadd
      rcases h.tables s with hsame | ⟨_, hwild', _⟩
      . refine .inr ⟨hstrict, rfl, ?_, fun c hc => (he'.covers c).mpr (hcells c hc)⟩
        rw [he'.wildcard, ← hsame.wildcard]
        exact Bool.eq_false_iff.mpr hwild
      . exact absurd hwild' hwild
  . next hs =>
    rw [he'.other s hs]
    exact h.tables s

theorem uncovered (h : d.Parallel F F' S .single d') (origin : String) :
    d'.uncovered origin = d.uncovered origin := by
  have heq (d : Draft) : d.uncovered origin
      = d.alphabet.symbols.filter fun c => ((d.states.table origin).lookup c).isNone := by
    unfold Draft.uncovered StateTables.table
    cases d.states.find? origin with
    | none => simp
    | some t => rfl
  rw [heq, heq, h.alphabet]
  apply List.filter_congr
  intro c hc
  exact ((h.tables origin).isNone_lookup (.inr hc)).symm

theorem withGuard (h : d.Parallel F F' S u d') (hS : ∀ c, S c → c.IsSteady) {g : Guard}
    (hle : d.guard.size ≤ g.size) : (d.withGuard g).Parallel F F' S u (d'.withGuard g) := by
  have hinj : Function.Injective (d.guard.rename g) := Build.rename_inj hle
  refine ⟨h.features, ?_, h.tapes, ?_, ?_, ?_⟩
  . unfold Draft.withGuard
    rw [h.guard]
    unfold Draft.mapNames
    rw [h.rest]
  . intro s
    have hd : (d.withGuard g).states = d.states.mapNames (d.guard.rename g) := rfl
    have hd' : (d'.withGuard g).states = d'.states.mapNames (d.guard.rename g) := by
      rw [← h.guard]
      rfl
    rw [hd, hd']
    by_cases hs : ∃ s', s = d.guard.rename g s'
    . obtain ⟨s, rfl⟩ := hs
      rw [StateTables.table_mapNames hinj, StateTables.table_mapNames hinj]
      rcases h.tables s with hsame | ⟨hstrict, hwild, hwild', hcovers⟩
      . exact .inl (hsame.mapNames hinj)
      . refine .inr ⟨hstrict, ?_, ?_, fun c hc => ?_⟩
        . rw [RuleTable.hasWildcard_mapNames, hwild]
        . rw [RuleTable.hasWildcard_mapNames, hwild']
        . obtain ⟨c', hc', rfl⟩ := TapeUse.exists_key hc
          rw [RuleTable.covers_mapNames hinj]
          exact hcovers c' hc'
    . have hnew (states : StateTables) : (states.mapNames (d.guard.rename g)).table s = .empty := by
        unfold StateTables.table
        rw [StateTables.find?_eq_none_iff.mpr, Option.getD_none]
        intro hmem
        obtain ⟨e, he, hname⟩ := List.mem_map.mp hmem
        obtain ⟨e, _, rfl⟩ := List.mem_map.mp he
        exact hs ⟨e.1, hname.symm⟩
      rw [hnew, hnew]
      exact .inl (.refl _)
  . intro hstrict
    exact (h.orderly hstrict).mapNames hinj
  . intro c hc
    exact List.mem_map.mpr ⟨c, h.known c hc, hS c hc d.guard g⟩

theorem avoid (h : d.Parallel F F' S u d') (hS : ∀ c, S c → c.IsSteady) (name : String) :
    (d.avoid name).Parallel F F' S u (d'.avoid name) := by
  unfold Draft.avoid
  rw [h.guard]
  split
  . next hoccurs =>
    apply h.withGuard hS
    simp only [Guard.occursIn, decide_eq_true_eq] at hoccurs
    exact Nat.le_succ_of_le hoccurs
  . exact h

end Draft.Parallel

namespace Build

section

variable {F F' : FeatureSet} {S : Cell → Prop} {u : TapeUse}

theorem addRules_tracks (state : String) (cells : List Cell) {grouped grouped' : Bool}
    {shared shared' : Outcome} {each each' : Cell → Outcome} {source source' : Option JointPattern} :
    Tracks (Draft.Parallel F F' S u) (F.SameWildcard F')
      (addRules state cells grouped shared each source)
      (addRules state cells grouped' shared' each' source') := by
  intro d d' h
  have hd := addRules_lists state cells grouped shared each source d
  have hd' := addRules_lists state cells grouped' shared' each' source' d'
  rw [h.alphabet] at hd'
  rcases h.tables state with hsame | ⟨hstrict, hwild, _⟩
  . rw [← hsame.checkCells] at hd'
    cases hcheck : (d.states.table state).checkCells d.alphabet [] cells with
    | ok _ =>
      rw [hcheck] at hd hd'
      obtain ⟨e, hrun, he⟩ := hd
      obtain ⟨e', hrun', he'⟩ := hd'
      rw [hrun]
      exact ⟨e', hrun', h.lists he he'⟩
    | error cause =>
      rw [hcheck] at hd hd'
      obtain ⟨e, hrun⟩ := hd
      rw [hrun]
      exact fun _ => hd'
  . -- Next to a wildcard, only rules for no symbols at all go through.
    cases cells with
    | nil =>
      obtain ⟨e, hrun, he⟩ := hd
      obtain ⟨e', hrun', he'⟩ := hd'
      rw [hrun]
      exact ⟨e', hrun', h.lists he he'⟩
    | cons c cells =>
      have hcheck : (d.states.table state).checkCells d.alphabet [] (c :: cells)
          = .error (.afterWildcard c) := by
        rw [RuleTable.checkCells, RuleTable.checkCell, hwild]
        rfl
      rw [hcheck] at hd
      obtain ⟨e, hrun⟩ := hd
      rw [hrun]
      exact fun h => absurd h hstrict

theorem addExact_tracks (state : String) (c : Cell) {o o' : Outcome} :
    Tracks (Draft.Parallel F F' S u) (F.SameWildcard F') (addRule state (RuleTable.addExact c o))
      (addRule state (RuleTable.addExact c o')) := by
  rw [← addRules_singleton state c o (fun _ => o) none, ← addRules_singleton state c o' (fun _ => o') none]
  exact addRules_tracks state [c]

theorem addWildcard_tracks (state : String) {o o' : Outcome} :
    Tracks (Draft.Parallel F F' S u) (F.SameWildcard F')
      (addRule state fun _ => RuleTable.addWildcard o)
      (addRule state fun _ => RuleTable.addWildcard o') := by
  intro d d' h
  rw [addRule_apply, addRule_apply]
  unfold RuleTable.addWildcard
  rcases h.tables state with hsame | ⟨hstrict, hwild, _⟩
  . rw [← hsame.wildcard]
    cases (d.states.table state).hasWildcard with
    | true => exact fun _ => ⟨_, rfl⟩
    | false =>
      refine ⟨_, rfl, h.of_tables rfl rfl fun s => ?_⟩
      rw [Draft.table_set_ensure, Draft.table_set_ensure]
      split
      . exact .inl ⟨hsame.covers, rfl⟩
      . exact h.tables s
  . rw [hwild]
    exact fun h => absurd h hstrict

theorem addWildcard_expands {d d' : Draft} (h : d.Parallel F F' S u d') (hstrict : ¬ F.SameWildcard F')
    {state : String} {cells : List Cell} (hnodup : cells.Nodup)
    (hcells : ∀ c, c ∈ cells ↔ u.Key d.alphabet.symbols c ∧ (d'.states.lookup state c).isNone = true)
    (haccepts : ∀ c ∈ cells, d.alphabet.accepts c = true) {o : Outcome} {grouped : Bool}
    {shared : Outcome} {each : Cell → Outcome} {source : Option JointPattern} :
    Matched (Draft.Parallel F F' S u) (F.SameWildcard F')
      (addRule state (fun _ => RuleTable.addWildcard o) d)
      (addRules state cells grouped shared each source d') := by
  simp only [StateTables.lookup_eq] at hcells
  rw [addRule_apply]
  cases hadd : RuleTable.addWildcard o (d.states.table state) with
  | error cause => exact fun h => absurd h hstrict
  | ok t =>
    have hd' := addRules_lists state cells grouped shared each source d'
    rw [RuleTable.checkCells_eq_ok hnodup (fun _ _ => List.not_mem_nil) (by
      intro c hc
      rw [h.alphabet]
      exact ⟨Option.isNone_iff_eq_none.mp ((hcells c).mp hc).2, haccepts c hc⟩)] at hd'
    obtain ⟨e', hrun', he'⟩ := hd'
    refine ⟨e', hrun', h.expand hstrict hadd he' fun c hc => ?_⟩
    have hnone := hcells c
    rw [RuleTable.isNone_lookup] at hnone
    cases hcovers : (d'.states.table state).covers c with
    | true => exact .inr rfl
    | false =>
      refine .inl (hnone.mpr ⟨hc, ?_⟩)
      unfold RuleTable.addWildcard at hadd
      split at hadd
      . cases hadd
      . next hwild =>
        rcases h.tables state with hsame | ⟨_, hwild', _⟩
        . rw [hcovers, ← hsame.wildcard, Bool.eq_false_iff.mpr hwild]
          rfl
        . exact absurd hwild' hwild

end

end Build

end TuringLowering
