import TuringLowering.Proofs.Interleaving
import TuringLowering.Proofs.Succession

/-!
This module contains the relays of a draft after any requests on a single tape. They have the rules that
they should have, whichever requests were refused and however often the guard was widened on the way.
-/

namespace TuringLowering

/-- The rules of a state that treats all symbols alike, and to which nothing else was added. -/
def RuleTable.uniform (F : FeatureSet) (symbols : List Cell) (w : Writing) (m : Move)
    (next : String) : RuleTable :=
  if F.enabled .wildcard then { wildcard := some (.single (w.action m) next) }
  else if F.groups (w == .keep) then { groups := [⟨symbols, .single (w.action m) next, none⟩] }
  else { exact := symbols.map fun c => (c, .single (.write (w.onto c) m) next) }

theorem RuleTable.mapNames_uniform (f : String → String) (F : FeatureSet) (symbols : List Cell)
    (w : Writing) (m : Move) (next : String) :
    (uniform F symbols w m next).mapNames f
      = uniform F (symbols.map (Cell.mapNames f)) (w.mapNames f) m (f next) := by
  have hkeeps : (w.mapNames f == .keep) = (w == .keep) := by
    cases w <;> rfl
  unfold uniform
  rw [hkeeps]
  split
  . simp [RuleTable.mapNames]
  . split
    . simp [RuleTable.mapNames]
    . simp [RuleTable.mapNames, Function.comp_def, Action.mapNames]

theorem StateTables.table_of_find? {s : StateTables} {name : String} {t : RuleTable}
    (h : s.find? name = some t) : s.table name = t := by
  rw [table, h, Option.getD_some]

namespace Build

theorem find?_addRule {s : String} {add : Alphabet → RuleTable → Except RuleError RuleTable}
    {d : Draft} {t : RuleTable} (h : add d.alphabet (d.states.table s) = .ok t) :
    ∃ d', addRule s add d = .ok () d' ∧ d'.alphabet = d.alphabet ∧ d'.states.find? s = some t := by
  refine ⟨{ d with states := (d.states.ensure s).set s t }, ?_, rfl, ?_⟩
  . rw [addRule_apply, h]
  . rw [StateTables.find?_set, if_pos rfl, StateTables.find?_ensure, if_pos rfl]
    rfl

theorem find?_forM_addExact {s : String} {each : Cell → Outcome} {cells : List Cell}
    (hnodup : cells.Nodup) (hne : cells ≠ []) {d : Draft}
    (h : ∀ c ∈ cells, d.states.lookup s c = none ∧ d.alphabet.accepts c = true) :
    ∃ d', (cells.forM fun c => addRule s (RuleTable.addExact c (each c))) d = .ok () d'
      ∧ d'.states.find? s = some { d.states.table s with
        exact := (d.states.table s).exact ++ cells.map fun c => (c, each c) } := by
  induction cells generalizing d with
  | nil => exact absurd rfl hne
  | cons c cells ih =>
    rw [List.nodup_cons] at hnodup
    rw [List.forall_mem_cons] at h
    have hnone : (d.states.table s).lookup c = none := by rw [← StateTables.lookup_eq, h.1.1]
    have hadd : RuleTable.addExact c (each c) d.alphabet (d.states.table s)
        = .ok { d.states.table s with exact := (d.states.table s).exact ++ [(c, each c)] } := by
      rw [RuleTable.addExact, RuleTable.checkCell_eq_ok hnone h.1.2]
      rfl
    obtain ⟨d₁, hrule, halphabet, hfind⟩ := find?_addRule hadd
    have htable := StateTables.table_of_find? hfind
    cases cells with
    | nil =>
      refine ⟨d₁, ?_, by rw [hfind]; rfl⟩
      exact forM_cons_eq_ok.mpr ⟨d₁, hrule, rfl⟩
    | cons c' cells =>
      obtain ⟨d', hforM, hfind'⟩ := @ih hnodup.2 (List.cons_ne_nil _ _) d₁ (by
        intro x hx
        rw [StateTables.lookup_eq, htable, (RuleTable.addExact_eq_ok hadd).2.2, if_neg,
          ← StateTables.lookup_eq, halphabet]
        . exact h.2 x hx
        . rintro rfl
          exact hnodup.1 hx)
      refine ⟨d', forM_cons_eq_ok.mpr ⟨d₁, hrule, hforM⟩, ?_⟩
      rw [hfind', htable]
      simp

theorem find?_direct_any {d : Draft} {s : String}
    (hA : ¬ d.features.enabled .wildcard = true → d.alphabet.IsOrderly)
    (hne : d.alphabet.symbols ≠ []) (hfind : d.states.find? s = none) (w : Writing) (m : Move)
    (next : String) : ∃ d', direct s .any w m next d = .ok () d'
      ∧ d'.states.find? s = some (.uniform d.features d.alphabet.symbols w m next) := by
  have htable : d.states.table s = .empty := by rw [StateTables.table, hfind, Option.getD_none]
  have hnone (c : Cell) : d.states.lookup s c = none := by
    rw [StateTables.lookup, hfind, Option.bind_none]
  have huncovered : d.uncovered s = d.alphabet.symbols := by rw [Draft.uncovered, hfind]
  unfold direct RuleTable.uniform
  dsimp only
  rw [bind_of_ok (enabled_apply .wildcard d)]
  split
  . obtain ⟨d', hrule, _, hfind'⟩ := @find?_addRule s
      (fun _ => RuleTable.addWildcard (.single (w.action m) next)) d _ (by rw [htable]; rfl)
    exact ⟨d', hrule, hfind'⟩
  . next hwildcard =>
    have hA := hA hwildcard
    rw [bind_of_ok (get_apply d), huncovered, directForCells, bind_of_ok (get_apply d), addRules]
    split
    . rw [if_neg (by simpa using hne)]
      obtain ⟨d', hrule, _, hfind'⟩ := @find?_addRule s
        (RuleTable.addGroup ⟨d.alphabet.symbols, .single (w.action m) next, none⟩) d _ (by
          rw [htable, RuleTable.addGroup, RuleTable.checkCells_eq_ok hA.nodup
            (fun _ _ => List.not_mem_nil) fun c hc => ⟨rfl, hA.accepts c hc⟩]
          rfl)
      exact ⟨d', hrule, hfind'⟩
    . obtain ⟨d', hforM, hfind'⟩ := @find?_forM_addExact s
        (fun c => .single (.write (w.onto c) m) next) _ hA.nodup hne d
        fun c hc => ⟨hnone c, hA.accepts c hc⟩
      refine ⟨d', hforM, ?_⟩
      rw [hfind', htable]
      rfl

theorem settled_openTapes (n : Nat) (first : String) (d : Draft) :
    ((openTapes n first).after d).tapes = .multi n
      ∧ ((openTapes n first).after d).features = (d.avoid first).features := by
  let I (e : Draft) : Prop := e.tapes = .multi n ∧ e.features = (d.avoid first).features
  have hdirectives (xs : List Directive) : Maintains I (directives xs) := by
    intro e he
    have hamends := directives_amend xs e (.refl e)
    exact ⟨hamends.tapes.trans he.1, hamends.features.trans he.2⟩
  have hmodify {f : Draft → Draft} (hf : ∀ e, (f e).tapes = e.tapes ∧ (f e).features = e.features) :
      Maintains I (modify f : Build Unit) :=
    Maintains.modify fun e he => ⟨(hf e).1.trans he.1, (hf e).2.trans he.2⟩
  have hopened : Maintains I (do
      if ← enabled .multiTape then
        modify fun d => { d with start := first }
        addState first
      else
        simulateTapes n first) := by
    apply Maintains.enabled_bind
    intro e _
    split
    . exact .bind (hmodify fun _ => ⟨rfl, rfl⟩) fun _ => hmodify fun _ => ⟨rfl, rfl⟩
    . refine .bind (hmodify fun _ => ⟨rfl, rfl⟩) fun _ => .bind (hmodify fun _ => ⟨rfl, rfl⟩) fun _ => ?_
      refine .bind (.forM fun v _ => hmodify fun _ => ⟨rfl, rfl⟩) fun _ => ?_
      apply Maintains.get_bind
      intro e' _
      exact .bind (hdirectives _) fun _ => .bind (hmodify fun _ => ⟨rfl, rfl⟩) fun _ => hdirectives _
  exact hopened { d.avoid first with tapes := .multi n } ⟨rfl, rfl⟩

end Build

/-- A cell that widening the guard leaves as it is, and from whose written form a guard is told apart. -/
structure Cell.Lasting (c : Cell) : Prop where
  kept : ∀ g g' : Guard, c.mapNames (g.rename g') = c
  apart : ∀ g : Guard, g.Apart c.display
  free : ∀ g : Guard, 1 < g.size → g.Free c.display

theorem Cell.Lasting.of_clean {c : Cell} (h : Guard.Clean c.display) : c.Lasting :=
  ⟨fun _ _ => mapNames_of_clean h, .of_clean h, fun g _ => h.free g⟩

theorem Cell.IsLetter.lasting {c : Cell} (h : c.IsLetter) : c.Lasting :=
  ⟨fun _ _ => h.nameless _, h.apart, fun _ => h.free⟩

def Alphabet.Atoms (C : Cell → Prop) (A : Alphabet) : Prop :=
  ∀ c ∈ A.symbols, C c ∧ ∃ m tag, c = .atom m tag

theorem Alphabet.Atoms.orderly {C : Cell → Prop} {A : Alphabet} (h : A.Atoms C)
    (hnodup : A.symbols.Nodup) : A.IsOrderly := by
  refine ⟨hnodup, ?_⟩
  intro c hc
  obtain ⟨m, tag, rfl⟩ := (h c hc).2
  exact accepts_of_mem_symbols hc

/-- The cells for which a request asks for a shift by name. -/
def Request.carried : Request → List Cell
  | .directive x => x.carried
  | _ => []

theorem Build.enableFeatures_maintains {I : Draft → Prop}
    (h : ∀ d, I d → d.isUnsettled = true → ∀ F, I { d with features := F }) (features : List Feature) :
    Maintains I (enableFeatures features) := by
  apply checkUnsettled_bind
  intro d hd hunsettled
  have hsame : Maintains (fun e => ∃ F, e = { d with features := F }) _ :=
    forM_enable_maintains (fun e F ⟨_, he⟩ => ⟨F, by rw [he]⟩) features
  obtain ⟨F, hF⟩ := hsame d ⟨d.features, rfl⟩
  rw [hF]
  exact h d hd hunsettled F

namespace Relay

def mapNext (f : String → String) : Relay → Relay
  | .continuation m next => .continuation m (f next)
  | .paste c m next => .paste c m (f next)

variable {C : Cell → Prop} {F : FeatureSet} {f : String → String} {s r : Relay}

theorem Within.mapNext (h : s.Within C) : (s.mapNext f).Within C := by
  cases s <;> exact h

theorem writing_mapNext (f : String → String) (s : Relay) : (s.mapNext f).writing = s.writing := by
  cases s <;> rfl

theorem move_mapNext (f : String → String) (s : Relay) : (s.mapNext f).move = s.move := by
  cases s <;> rfl

theorem next_mapNext (f : String → String) (s : Relay) : (s.mapNext f).next = f s.next := by
  cases s <;> rfl

theorem rest?_mapNext (f : String → String) (s : Relay) :
    (s.mapNext f).rest? F = (s.rest? F).map (Relay.mapNext f) := by
  unfold rest?
  rw [move_mapNext, next_mapNext]
  split <;> rfl

theorem key_mapNext_of_key (h : s.key = r.key) : (s.mapNext f).key = (r.mapNext f).key := by
  cases s <;> cases r <;> simp_all [key, Relay.mapNext]

variable {g g' : Guard}

theorem key_of_rest? (h : r ∈ s.rest? F) :
    r.key.mapNames (g.rename g') = (r.mapNext (g.rename g')).key := by
  unfold rest? at h
  split at h
  . cases h
  . cases h
    simp only [key, Relay.mapNext, ChainKey.mapNames, List.map_cons, List.map_nil,
      Guard.rename_of_clean (Guard.clean_move _)]

theorem name_of_key (h : s.key.mapNames (g.rename g') = (s.mapNext (g.rename g')).key) :
    g.rename g' (s.name g) = (s.mapNext (g.rename g')).name g' := by
  rw [name, Guard.rename_wrap, ← ChainKey.nameParts_mapNames, h, name]

theorem exists_of_mapNames (hC : ∀ c, C c → c.Lasting) (hlt : g.size < g'.size) {k : ChainKey}
    (hs : s.Within C) (h : k.mapNames (g.rename g') = s.key) :
    ∃ s₀ : Relay, s₀.Within C ∧ s₀.key = k ∧ s₀.mapNext (g.rename g') = s := by
  have hle := Nat.le_of_lt hlt
  have hwide : 1 < g'.size := Nat.lt_of_le_of_lt g.size_pos hlt
  have hsame {text text' : String} (hfree : g'.Free text') (heq : g.rename g' text = text') :
      text = text' := by
    rw [← heq] at hfree
    rw [← heq, Guard.rename_eq_of_free hle hfree]
  obtain ⟨kind, parts⟩ := k
  cases s with
  | continuation m next =>
    simp only [key, ChainKey.mapNames, ChainKey.mk.injEq, List.map_eq_cons_iff, List.map_eq_nil_iff] at h
    obtain ⟨rfl, display, _, rfl, hm, next₀, _, rfl, rfl, rfl⟩ := h
    obtain rfl := hsame ((Guard.clean_move m).free g') hm
    exact ⟨.continuation m next₀, trivial, rfl, rfl⟩
  | paste c m next =>
    simp only [key, ChainKey.mapNames, ChainKey.mk.injEq, List.map_eq_cons_iff, List.map_eq_nil_iff] at h
    obtain ⟨rfl, symbol, _, rfl, hc, display, _, rfl, hm, next₀, _, rfl, rfl, rfl⟩ := h
    obtain rfl := hsame ((Guard.clean_move m).free g') hm
    obtain rfl := hsame ((hC c hs).free g' hwide) hc
    exact ⟨.paste c m next₀, hs, rfl, rfl⟩

end Relay

theorem Relay.table_eq {b : Draft} {C : Cell → Prop} {s : Relay} (hb : b.Grounds C)
    (hne : b.alphabet.symbols ≠ []) :
    s.table b = some (.uniform b.features b.alphabet.symbols s.writing
      (if b.features.supports s.move then s.move else s.move.detour.1)
      (((s.rest? b.features).map (Relay.name b.guard)).getD s.next)) := by
  have hfind := hb.find? (s.name b.guard)
  unfold Relay.table Relay.rule Relay.rest?
  by_cases hsupports : b.features.supports s.move = true
  . obtain ⟨d', hdirect, hfind'⟩ := Build.find?_direct_any hb.orderly hne hfind s.writing s.move s.next
    simp only [if_pos hsupports]
    rw [Build.after, hdirect, hfind']
    rfl
  . obtain ⟨d', hdirect, hfind'⟩ := Build.find?_direct_any hb.orderly hne hfind s.writing
      s.move.detour.1 (Relay.name b.guard (.continuation s.move.detour.2 s.next))
    simp only [if_neg hsupports]
    rw [Build.after, hdirect, hfind']
    rfl

namespace Draft

variable {b d : Draft} {C : Cell → Prop} {g : Guard}

section

variable (hC : ∀ c, C c → c.Lasting) (hb : b.Grounds C) (hb' : (b.withGuard g).Grounds C)
include hC

theorem Grounds.withGuard (hb : b.Grounds C) (hsymbols : ∀ c ∈ b.alphabet.symbols, C c) :
    (b.withGuard g).Grounds C ∧ (b.withGuard g).alphabet = b.alphabet := by
  have halphabet : (b.withGuard g).alphabet = b.alphabet := by
    change b.alphabet.mapNames _ = _
    unfold Alphabet.mapNames
    rw [List.map_congr_left fun c hc => (hC c (hsymbols c hc)).kept _ _, List.map_id']
  refine ⟨⟨?_, ?_, by rw [halphabet]; exact hb.orderly, fun c hc => (hC c hc).apart _⟩, halphabet⟩
  . change b.states.mapNames _ = _
    rw [hb.states]
    rfl
  . change b.chains.map _ = _
    rw [hb.chains]
    rfl

include hb hb'

theorem table_withGuard {s : Relay} (hs : s.Within C) (hne : b.alphabet.symbols ≠ []) :
    (s.mapNext (b.guard.rename g)).table (b.withGuard g)
      = (s.table b).map (RuleTable.mapNames (b.guard.rename g)) := by
  have hwriting : s.writing.mapNames (b.guard.rename g) = s.writing := by
    cases s with
    | continuation m next => rfl
    | paste c m next => exact congrArg Writing.put ((hC c hs).kept _ _)
  have hsymbols : (b.withGuard g).alphabet.symbols
      = b.alphabet.symbols.map (Cell.mapNames (b.guard.rename g)) := rfl
  rw [Relay.table_eq hb' (by rw [hsymbols]; exact fun h => hne (List.map_eq_nil_iff.mp h)),
    Relay.table_eq hb hne, hsymbols, Option.map_some, RuleTable.mapNames_uniform, hwriting]
  have hguard : (b.withGuard g).guard = g := rfl
  have hfeatures : (b.withGuard g).features = b.features := rfl
  rw [Relay.writing_mapNext, Relay.move_mapNext, Relay.next_mapNext, Relay.rest?_mapNext, hguard,
    hfeatures]
  cases hrest : s.rest? b.features with
  | none => rfl
  | some r =>
    simp only [Option.map_some, Option.getD_some]
    rw [Relay.name_of_key (Relay.key_of_rest? hrest)]

theorem Stocked.withGuard (h : d.Stocked b C fun _ => False) (hlt : b.guard.size < g.size)
    (hne : b.alphabet.symbols ≠ []) : (d.withGuard g).Stocked (b.withGuard g) C fun _ => False := by
  have hle := Nat.le_of_lt hlt
  have hle' : d.guard.size ≤ g.size := by rwa [h.guard]
  have hwide : 1 < g.size := Nat.lt_of_le_of_lt b.guard.size_pos hlt
  have hkeys {k : ChainKey} : k ∈ (d.withGuard g).keys
      ↔ ∃ k₀ ∈ d.keys, k₀.mapNames (b.guard.rename g) = k := by
    simp only [keys, List.mem_map, mem_chains_withGuard, h.guard]
    constructor
    . rintro ⟨_, ⟨e, he, rfl⟩, rfl⟩
      exact ⟨e.1, ⟨e, he, rfl⟩, rfl⟩
    . rintro ⟨_, ⟨e, he, rfl⟩, rfl⟩
      exact ⟨_, ⟨e, he, rfl⟩, rfl⟩
  have hfind {s : Relay}
      (hs : s.key.mapNames (b.guard.rename g) = (s.mapNext (b.guard.rename g)).key) :
      (d.withGuard g).states.find? ((s.mapNext (b.guard.rename g)).name g)
        = (d.states.find? (s.name b.guard)).map (RuleTable.mapNames (b.guard.rename g)) := by
    have := find?_withGuard hle' (s.name b.guard)
    rwa [h.guard, Relay.name_of_key hs] at this
  refine ⟨rfl, h.features, ?_, ?_, ?_, ?_, ?_⟩
  . change d.alphabet.mapNames (d.guard.rename g) = _
    rw [h.alphabet, h.guard]
    rfl
  . intro e he
    obtain ⟨e₀, he₀, rfl⟩ := mem_chains_withGuard.mp he
    change d.guard.rename g e₀.2 = _
    rw [h.named e₀ he₀, h.guard, Guard.rename_wrap, ← ChainKey.nameParts_mapNames]
    rfl
  . intro s hs hmem _
    obtain ⟨k₀, hk₀, hkey⟩ := hkeys.mp hmem
    obtain ⟨s₀, hs₀, rfl, rfl⟩ := Relay.exists_of_mapNames hC hlt hs hkey
    obtain ⟨r, hr, hrkey, hrtable⟩ := h.stocked s₀ hs₀ hk₀ not_false
    refine ⟨r.mapNext (b.guard.rename g), hr.mapNext, Relay.key_mapNext_of_key hrkey, ?_⟩
    rw [table_withGuard hC hb hb' hr hne, ← hrtable]
    exact hfind hkey
  . intro s hs hnot
    by_contra hfound
    -- The state was there under its old name, so its key was, and the key was renamed with it.
    obtain ⟨name, hname, hold⟩ := exists_of_find?_withGuard hle' hfound
    change s.name g = _ at hname
    rw [h.guard] at hname
    have hback : (s.mapNext (g.rename b.guard)).name b.guard = name := by
      have hkey : s.key.mapNames (g.rename b.guard) = (s.mapNext (g.rename b.guard)).key := by
        have hmove (m : Move) : g.rename b.guard m.display = m.display :=
          Guard.rename_of_clean (Guard.clean_move m) _ _
        cases s with
        | continuation m next => simp [Relay.key, Relay.mapNext, ChainKey.mapNames, hmove]
        | paste c m next =>
          simp [Relay.key, Relay.mapNext, ChainKey.mapNames, hmove,
            Guard.rename_of_free ((hC c hs).free g hwide)]
      rw [← Relay.name_of_key hkey, hname, Guard.rename_rename hle, Guard.rename_self]
    have hmem : (s.mapNext (g.rename b.guard)).key ∈ d.keys := by
      by_contra hmem
      rw [← hback] at hold
      exact hold (h.fresh _ hs.mapNext (.inl hmem))
    have hformed := (Relay.formed hb.apart (hs.mapNext (f := g.rename b.guard))).mapNames hle
    have hsame : s.key
        = (s.mapNext (g.rename b.guard)).key.mapNames (b.guard.rename g) := by
      apply (Relay.formed (fun c hc => (hC c hc).apart g) hs).eq_of_wrap hformed s.isStep_key
      rw [ChainKey.nameParts_mapNames, ← Guard.rename_wrap]
      change s.name g = b.guard.rename g ((s.mapNext (g.rename b.guard)).name b.guard)
      rw [hback, hname]
    exact hnot.elim (fun hnot => hnot (hkeys.mpr ⟨_, hmem, hsame.symm⟩)) id
  . intro s hs hmem _ r hr
    obtain ⟨k₀, hk₀, hkey⟩ := hkeys.mp hmem
    obtain ⟨s₀, hs₀, rfl, rfl⟩ := Relay.exists_of_mapNames hC hlt hs hkey
    rw [Relay.rest?_mapNext] at hr
    obtain ⟨r₀, hr₀, rfl⟩ := Option.map_eq_some_iff.mp hr
    refine ⟨hkeys.mpr ⟨r₀.key, (h.closed s₀ hs₀ hk₀ not_false r₀ hr₀).1, ?_⟩, not_false⟩
    exact Relay.key_of_rest? hr₀

end

def bare (d : Draft) : Draft :=
  { start := d.start, features := d.features, alphabet := d.alphabet, guard := d.guard }

theorem bare_withGuard (d : Draft) (g : Guard) : (d.withGuard g).bare = d.bare.withGuard g := rfl

namespace Stocked

theorem addState (h : d.Stocked b C fun _ => False) {name : String} (hname : d.guard.Free name) :
    ((Build.addState name).after d).Stocked b C fun _ => False := by
  apply h.of_states rfl
  intro s _
  change (d.states.ensure name).find? (s.name b.guard) = _
  rw [StateTables.find?_ensure, if_neg]
  rw [← h.guard]
  exact (Guard.Belongs.self.ne_relay hname s).symm

theorem withTapes (h : d.Stocked b C fun _ => False) (use : TapeUse) :
    ({ d with tapes := use } : Draft).Stocked b C fun _ => False :=
  ⟨h.guard, h.features, h.alphabet, h.named, h.stocked, h.fresh, h.closed⟩

theorem of_fresh (hchains : d.chains = []) (hstates : d.states = {}) :
    d.Stocked d.bare C fun _ => False := by
  have hkeys : d.keys = [] := by rw [keys, hchains, List.map_nil]
  refine ⟨rfl, rfl, rfl, ?_, ?_, ?_, ?_⟩
  . rw [hchains]
    exact List.forall_mem_nil _
  . rw [hkeys]
    exact fun s _ hmem => absurd hmem List.not_mem_nil
  . rw [hstates]
    exact fun _ _ _ => rfl
  . rw [hkeys]
    exact fun s _ hmem => absurd hmem List.not_mem_nil

end Stocked

structure Supplies (C : Cell → Prop) (d : Draft) : Prop where
  orderly : d.alphabet.IsOrderly
  blank : .blank ∈ d.alphabet.symbols
  symbols : ∀ c ∈ d.alphabet.symbols, C c
  stocked : d.Stocked d.bare C fun _ => False

namespace Supplies

section

variable (hC : ∀ c, C c → c.Lasting)
include hC

theorem grounds (h : d.Supplies C) : d.bare.Grounds C :=
  ⟨rfl, rfl, fun _ => h.orderly, fun c hc => (hC c hc).apart _⟩

omit hC in
theorem symbols_ne_nil (h : d.Supplies C) : d.alphabet.symbols ≠ [] :=
  List.ne_nil_of_mem h.blank

theorem alphabet_withGuard (h : d.Supplies C) (g : Guard) : (d.withGuard g).alphabet = d.alphabet :=
  (Grounds.withGuard hC (h.grounds hC) h.symbols).2

theorem alphabet_avoid (h : d.Supplies C) (name : String) :
    (d.avoid name).alphabet = d.alphabet :=
  avoid_induction (P := fun e => e.alphabet = d.alphabet) name rfl fun g _ => h.alphabet_withGuard hC g

theorem withGuard (h : d.Supplies C) {g : Guard} (hlt : d.guard.size < g.size) :
    (d.withGuard g).Supplies C := by
  have halphabet := h.alphabet_withGuard hC g
  refine ⟨by rw [halphabet]; exact h.orderly, by rw [halphabet]; exact h.blank,
    by rw [halphabet]; exact h.symbols, ?_⟩
  rw [bare_withGuard]
  exact h.stocked.withGuard hC (h.grounds hC) (Grounds.withGuard hC (h.grounds hC) h.symbols).1 hlt
    h.symbols_ne_nil

theorem avoid (h : d.Supplies C) (name : String) : (d.avoid name).Supplies C :=
  avoid_induction name h fun _ => h.withGuard hC

theorem directive (h : d.Supplies C) (htapes : ∀ n, d.tapes ≠ .multi n) {x : Directive}
    (horigin : d.guard.Free x.origin) (hread : ∀ c ∈ x.carried, C c) :
    ((Build.directive x).after d).Supplies C := by
  have hself : AgreeOn d.bare x.origin d d := ⟨fun _ _ => rfl, fun _ _ => Iff.rfl⟩
  have hgrown := (Build.directive_coupled (h.grounds hC) horigin h.symbols rfl hread d d
    ⟨.refl h.stocked htapes, .refl h.stocked htapes, hself⟩).after.1.left
  have hstocked := hgrown.stocked
  have hbare : ((Build.directive x).after d).bare = d.bare := by
    rw [bare, hgrown.start, hstocked.features, hstocked.alphabet, hstocked.guard]
    rfl
  have halphabet : ((Build.directive x).after d).alphabet = d.alphabet := hstocked.alphabet
  exact ⟨by rw [halphabet]; exact h.orderly, by rw [halphabet]; exact h.blank,
    by rw [halphabet]; exact h.symbols, by rwa [hbare]⟩

end

theorem addState (h : d.Supplies C) {name : String} (hname : d.guard.Free name) :
    ((Build.addState name).after d).Supplies C :=
  ⟨h.orderly, h.blank, h.symbols, h.stocked.addState hname⟩

theorem of_fresh (horderly : d.alphabet.IsOrderly) (hblank : .blank ∈ d.alphabet.symbols)
    (hsymbols : ∀ c ∈ d.alphabet.symbols, C c) (hchains : d.chains = []) (hstates : d.states = {}) :
    d.Supplies C :=
  ⟨horderly, hblank, hsymbols, .of_fresh hchains hstates⟩

end Supplies

theorem Supplies.withTapes (h : d.Supplies C) (use : TapeUse) :
    ({ d with tapes := use } : Draft).Supplies C :=
  ⟨h.orderly, h.blank, h.symbols, h.stocked.withTapes use⟩

/-- A fact about drafts that is kept by all that requests on a single tape do. -/
structure Kept (I : Draft → Prop) (X : Directive → Prop) : Prop where
  tapes : ∀ d, I d → ∀ n, d.tapes ≠ .multi n
  alphabets : ∀ input extra, Build.Maintains I (Build.declareAlphabets input extra)
  features : ∀ features, Build.Maintains I (Build.enableFeatures features)
  claim : ∀ d, I d → I { d with tapes := .single }
  avoid : ∀ d name, I d → I (d.avoid name)
  state : ∀ d name, I d → d.guard.Free name → I ((Build.addState name).after d)
  directive : ∀ d x, X x → I d → d.tapes = .single → d.guard.Free x.origin →
    I ((Build.directive x).after d)

namespace Kept

variable {I : Draft → Prop} {X : Directive → Prop}

theorem submit (h : Kept I X) (hd : I d) {r : Request} (hr : ∀ x, r = .directive x → X x) :
    (∃ n first, r = .tapes n first ∧ 2 ≤ n ∧ d.tapes = .undecided) ∨ I ((Build.submit r).after d) := by
  cases r with
  | alphabets input extra => exact .inr (h.alphabets input extra d hd)
  | features features => exact .inr (h.features features d hd)
  | state name => exact .inr (h.state _ name (h.avoid d name hd) (d.free_avoid name))
  | directive x =>
    right
    obtain ⟨a, b, hfree, hsubmit⟩ := submit_directive x (h.tapes d hd)
    rw [Build.after, hsubmit]
    apply h.directive _ x (hr x rfl)
    . exact h.avoid _ b (h.avoid _ a (h.claim d hd))
    . rw [tapes_avoidBoth]
    . exact (hfree _).mp (free_avoidBoth _ a b) _ List.mem_cons_self
  | tapes count first =>
    by_cases hcount : count ≤ 1
    . right
      change I ((Build.setTapes count first).after d)
      rw [Build.setTapes, if_pos hcount]
      exact hd
    . by_cases htapes : d.tapes = .undecided
      . exact .inl ⟨count, first, rfl, Nat.lt_of_not_le hcount, htapes⟩
      . exact .inr ((after_setTapes htapes count first).symm ▸ hd)
  | joint t =>
    right
    change I ((Build.userJoint t).after d)
    rw [Build.after, Build.userJoint, Build.bind_of_ok (Build.get_apply d)]
    cases htapes : d.tapes with
    | multi n => exact absurd htapes (h.tapes d hd n)
    | single => exact hd
    | undecided => exact hd

theorem exists_opening (h : Kept I X) (hd : I d) (rs : List Request)
    (hrs : ∀ x, .directive x ∈ rs → X x) :
    (∃ rs₁ n first rs₂, rs = rs₁ ++ .tapes n first :: rs₂ ∧ 2 ≤ n ∧ (d.receive rs₁).tapes = .undecided
        ∧ I (d.receive rs₁))
      ∨ I (d.receive rs) := by
  induction rs generalizing d with
  | nil => exact .inr hd
  | cons r rs ih =>
    rcases h.submit hd fun x hx => hrs x (List.mem_cons.mpr (.inl hx.symm)) with
      ⟨n, first, rfl, hn, htapes⟩ | hkept
    . exact .inl ⟨[], n, first, rs, rfl, hn, htapes, hd⟩
    . rcases ih hkept fun x hx => hrs x (List.mem_cons_of_mem r hx) with
        ⟨rs₁, n, first, rs₂, rfl, hn, htapes, hI⟩ | hI
      . exact .inl ⟨r :: rs₁, n, first, rs₂, rfl, hn, htapes, hI⟩
      . exact .inr hI

theorem receive (h : Kept I X) (hd : I d) (rs : List Request) (hrs : ∀ x, .directive x ∈ rs → X x) :
    (∃ n, (d.receive rs).tapes = .multi n) ∨ I (d.receive rs) := by
  rcases h.exists_opening hd rs hrs with ⟨rs₁, n, first, rs₂, rfl, hn, htapes, _⟩ | hI
  . left
    refine ⟨n, ?_⟩
    rw [receive_append, receive_cons]
    have hopened : ((Build.submit (.tapes n first)).after (d.receive rs₁)).tapes = .multi n := by
      rw [Build.after, Build.submit, Build.setTapes_apply hn first htapes]
      exact (Build.settled_openTapes n first _).1
    rw [(later_receive (by rw [hopened]; simp) rs₂).tapes, hopened]
  . exact .inr hI

theorem of_undecided (htapes : ∀ d, I d → d.tapes = .undecided)
    (halphabet : ∀ d input extra, I d → I { d with alphabet := .declare input extra })
    (hfeatures : ∀ d F, I d → I { d with features := F }) (havoid : ∀ d name, I d → I (d.avoid name))
    (hstate : ∀ d name, I d → d.guard.Free name → I ((Build.addState name).after d)) :
    Kept (fun d => I d ∨ d.tapes = .single) fun _ => True := by
  constructor
  . rintro d (h | h) n
    . rw [htapes d h]
      nofun
    . rw [h]
      nofun
  . intro input extra
    apply Build.checkUnsettled_bind
    exact fun d h _ => h.imp_left (halphabet d input extra)
  . apply Build.enableFeatures_maintains
    exact fun d h _ F => h.imp_left (hfeatures d F)
  . exact fun d _ => .inr rfl
  . exact fun d name h => h.imp (havoid d name) (tapes_avoid d name).trans
  . exact fun d name h hname => h.imp_left fun h => hstate d name h hname
  . intro d x _ _ hsingle _
    right
    rw [(Build.directive_amends (S := fun _ => True) (fun _ _ => trivial) trivial d (.refl d)
      (x := x)).tapes, hsingle]

end Kept

theorem fresh_of_isUnsettled (hidle : d.tapes = .undecided → d.chains = [])
    (h : d.isUnsettled = true) : d.tapes = .undecided ∧ d.chains = [] ∧ d.states = {} := by
  simp only [isUnsettled, Bool.and_eq_true, List.isEmpty_iff, beq_iff_eq] at h
  exact ⟨h.2, hidle h.2, congrArg StateTables.mk h.1⟩

structure Single (C : Cell → Prop) (d : Draft) : Prop where
  tapes : ∀ n, d.tapes ≠ .multi n
  idle : d.tapes = .undecided → d.chains = []
  supplies : d.alphabet.Atoms C → d.Supplies C

namespace Single

theorem of_fresh (htapes : d.tapes = .undecided) (hchains : d.chains = []) (hstates : d.states = {})
    (hA : d.alphabet.Atoms C → d.alphabet.IsOrderly ∧ .blank ∈ d.alphabet.symbols) : d.Single C := by
  refine ⟨fun n => by rw [htapes]; nofun, fun _ => hchains, ?_⟩
  intro hatoms
  obtain ⟨horderly, hblank⟩ := hA hatoms
  exact .of_fresh horderly hblank (fun c hc => (hatoms c hc).1) hchains hstates

theorem claim (h : d.Single C) : ({ d with tapes := .single } : Draft).Single C :=
  ⟨fun _ => nofun, nofun, fun hA => (h.supplies hA).withTapes .single⟩

theorem addState (h : d.Single C) {name : String} (hname : d.guard.Free name) :
    ((Build.addState name).after d).Single C :=
  ⟨h.tapes, h.idle, fun hA => (h.supplies hA).addState hname⟩

variable (hC : ∀ c, C c → c.Lasting)
include hC

theorem avoid (h : d.Single C) (name : String) : (d.avoid name).Single C := by
  refine avoid_induction name h fun g hlt => ⟨h.tapes, ?_, ?_⟩
  . intro htapes
    change d.chains.map _ = []
    rw [h.idle htapes, List.map_nil]
  . intro hA
    apply Supplies.withGuard hC _ hlt
    apply h.supplies
    intro c hc
    -- A cell that widening the guard leads to stays as it is when this is undone.
    have hc' := hA _ (List.mem_map_of_mem hc)
    have hsame : c.mapNames (d.guard.rename g) = c := by
      have hback : g.rename d.guard ∘ d.guard.rename g = id := funext fun text => by
        rw [Function.comp, Guard.rename_rename (Nat.le_of_lt hlt), Guard.rename_self, id]
      rw [← (hC _ hc'.1).kept g d.guard, Cell.mapNames_mapNames, hback, Cell.mapNames_id]
      rfl
    rwa [hsame] at hc'

theorem directive (h : d.Single C) {x : Directive} (horigin : d.guard.Free x.origin)
    (hread : ∀ c ∈ x.carried, C c) (htapes : d.tapes = .single) :
    ((Build.directive x).after d).Single C := by
  have hamends := Build.directive_amends (S := fun _ => True) (fun _ _ => trivial) trivial d
    (.refl d) (x := x)
  refine ⟨?_, ?_, ?_⟩
  . rw [hamends.tapes]
    exact h.tapes
  . rw [hamends.tapes, htapes]
    nofun
  . intro hA
    exact (h.supplies fun c hc => hA c (hamends.symbols c hc)).directive hC h.tapes horigin hread

omit hC in
theorem fresh (h : d.Single C) (hunsettled : d.isUnsettled = true) :
    d.tapes = .undecided ∧ d.chains = [] ∧ d.states = {} :=
  fresh_of_isUnsettled h.idle hunsettled

omit hC in
theorem declareAlphabets (input extra : List Cell) :
    Build.Maintains (Single C) (Build.declareAlphabets input extra) := by
  apply Build.checkUnsettled_bind
  intro d h hunsettled
  obtain ⟨htapes, hchains, hstates⟩ := h.fresh hunsettled
  apply of_fresh
  . exact htapes
  . exact hchains
  . exact hstates
  . intro hA
    refine ⟨hA.orderly (Alphabet.nodup_foldl_addNew List.nodup_nil _), ?_⟩
    exact Build.mem_foldl_addNew.mpr (.inl (List.mem_append_right _ (List.mem_singleton_self _)))

omit hC in
theorem enableFeatures (features : List Feature) :
    Build.Maintains (Single C) (Build.enableFeatures features) := by
  apply Build.enableFeatures_maintains
  intro d h hunsettled F
  obtain ⟨htapes, hchains, hstates⟩ := h.fresh hunsettled
  exact of_fresh htapes hchains hstates fun hA => ⟨(h.supplies hA).orderly, (h.supplies hA).blank⟩

theorem kept : Kept (Single C) fun x => ∀ c ∈ x.carried, C c where
  tapes _ h := h.tapes
  alphabets := declareAlphabets
  features := enableFeatures
  claim _ h := h.claim
  avoid _ name h := h.avoid hC name
  state _ _ h hname := h.addState hname
  directive _ _ hread h htapes horigin := h.directive hC horigin hread htapes

end Single

/-- Whatever was requested for a single tape, its relays have the rules that they should have. -/
theorem supplies_receive (hC : ∀ c, C c → c.Lasting) (start : String) {rs : List Request}
    (hrs : ∀ r ∈ rs, ∀ c ∈ r.carried, C c)
    (htapes : ∀ n, ((new start).receive rs).tapes ≠ .multi n)
    (hA : ((new start).receive rs).alphabet.Atoms C) : ((new start).receive rs).Supplies C := by
  have hnew : (new start).Single C := by
    apply Single.of_fresh rfl rfl rfl
    intro hA
    exact ⟨hA.orderly (List.pairwise_singleton _ _), List.mem_singleton_self _⟩
  rcases (Single.kept hC).receive hnew rs fun x hx => hrs _ hx with ⟨n, hn⟩ | hsingle
  . exact absurd hn (htapes n)
  . exact hsingle.supplies hA

end Draft

end TuringLowering
