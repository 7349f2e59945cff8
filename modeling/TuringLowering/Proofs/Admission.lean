import Mathlib.Data.List.Nodup
import TuringLowering.Proofs.Inventory
import TuringLowering.Proofs.Realization

/-!
This module contains the conditions under which directives go through, whatever the features are: a
directive is not refused if no earlier one is about a cell that it names.
-/

namespace TuringLowering

namespace RuleTable

variable {t : RuleTable} {alphabet : Alphabet}

theorem checkCell_eq_ok {c : Cell} (hnone : t.lookup c = none) (hc : alphabet.accepts c = true) :
    t.checkCell alphabet c = .ok () := by
  rw [lookup_eq_none_iff] at hnone
  rw [checkCell, hasWildcard, hnone.2, covers, hnone.1, if_neg (by simp), if_neg (by simp), if_pos hc]

theorem checkCells_eq_ok {seen cells : List Cell} (hnodup : cells.Nodup)
    (hseen : ∀ c ∈ cells, c ∉ seen)
    (h : ∀ c ∈ cells, t.lookup c = none ∧ alphabet.accepts c = true) :
    t.checkCells alphabet seen cells = .ok () := by
  induction cells generalizing seen with
  | nil => rfl
  | cons c cells ih =>
    rw [List.forall_mem_cons] at hseen h
    rw [List.nodup_cons] at hnodup
    rw [checkCells, checkCell_eq_ok h.1.1 h.1.2]
    show (if c ∈ seen then _ else _) = _
    rw [if_neg hseen.1]
    apply ih hnodup.2 _ h.2
    intro x hx
    rw [List.mem_cons, not_or]
    exact ⟨fun heq => hnodup.1 (heq ▸ hx), hseen.2 x hx⟩

theorem exists_addExact {c : Cell} (hnone : t.lookup c = none) (hc : alphabet.accepts c = true)
    (o : Outcome) : ∃ t', addExact c o alphabet t = .ok t' := by
  rw [addExact, checkCell_eq_ok hnone hc]
  exact ⟨_, rfl⟩

theorem exists_addGroup {group : RuleGroup} (hnodup : group.cells.Nodup)
    (h : ∀ c ∈ group.cells, t.lookup c = none ∧ alphabet.accepts c = true) :
    ∃ t', addGroup group alphabet t = .ok t' := by
  rw [addGroup, checkCells_eq_ok hnodup (fun _ _ => List.not_mem_nil) h]
  exact ⟨_, rfl⟩

theorem exists_addWildcard {c : Cell} (hnone : t.lookup c = none) (o : Outcome) :
    ∃ t', addWildcard o t = .ok t' := by
  rw [lookup_eq_none_iff] at hnone
  rw [addWildcard, hasWildcard, hnone.2, if_neg (by simp)]
  exact ⟨_, rfl⟩

end RuleTable

structure Alphabet.IsOrderly (A : Alphabet) : Prop where
  nodup : A.symbols.Nodup
  accepts : ∀ c ∈ A.symbols, A.accepts c = true

theorem Alphabet.IsOrderly.mapNames {A : Alphabet} (h : A.IsOrderly) {f : String → String}
    (hf : Function.Injective f) : (A.mapNames f).IsOrderly := by
  refine ⟨h.nodup.map (Cell.mapNames_injective hf), fun c hc => ?_⟩
  obtain ⟨c', hc', rfl⟩ := List.mem_map.mp hc
  exact (Alphabet.accepts_mapNames hf A c').trans (h.accepts c' hc')

/-- A state has no rules for the cells that a pattern names, and is open to more. -/
structure Draft.Admits (d : Draft) (origin : String) (read : Pattern) : Prop where
  nodup : (read.cells []).Nodup
  accepts : ∀ c ∈ read.cells [], d.alphabet.accepts c = true
  free : ∀ c ∈ read.cells [], d.states.lookup origin c = none
  room : read = .any → ∃ c, d.states.lookup origin c = none

namespace Draft

variable {d d' : Draft} {origin : String} {read : Pattern}

theorem Admits.of_lookup (h : d.Admits origin read) (halphabet : d'.alphabet = d.alphabet)
    (hlookup : ∀ c, d'.states.lookup origin c = d.states.lookup origin c) :
    d'.Admits origin read := by
  refine ⟨h.nodup, ?_, ?_, ?_⟩
  . rw [halphabet]
    exact h.accepts
  . simp only [hlookup]
    exact h.free
  . simp only [hlookup]
    exact h.room

theorem Admits.of_find? (hfind : d.states.find? origin = none) (hnodup : (read.cells []).Nodup)
    (haccepts : ∀ c ∈ read.cells [], d.alphabet.accepts c = true) : d.Admits origin read := by
  have hnone (c : Cell) : d.states.lookup origin c = none := by
    rw [StateTables.lookup, hfind, Option.bind_none]
  exact ⟨hnodup, haccepts, fun c _ => hnone c, fun _ => ⟨.blank, hnone _⟩⟩

theorem nodup_uncovered (h : d.alphabet.symbols.Nodup) : (d.uncovered origin).Nodup := by
  unfold uncovered
  split
  . exact h.filter _
  . exact h

end Draft

namespace Build

variable {d : Draft} {origin next : String} {read : Pattern} {m : Move}

theorem exists_addRule {add : Alphabet → RuleTable → Except RuleError RuleTable}
    (h : ∃ t, add d.alphabet (d.states.table origin) = .ok t) :
    ∃ d', addRule origin add d = .ok () d' := by
  obtain ⟨t, ht⟩ := h
  rw [addRule_apply, ht]
  exact ⟨_, rfl⟩

theorem exists_addRule_exact {c : Cell} (hnone : d.states.lookup origin c = none)
    (hc : d.alphabet.accepts c = true) (o : Outcome) :
    ∃ d', addRule origin (RuleTable.addExact c o) d = .ok () d' := by
  rw [StateTables.lookup_eq] at hnone
  exact exists_addRule (RuleTable.exists_addExact hnone hc o)

theorem exists_addRule_wildcard {c : Cell} (hnone : d.states.lookup origin c = none) (o : Outcome) :
    ∃ d', addRule origin (fun _ => RuleTable.addWildcard o) d = .ok () d' := by
  rw [StateTables.lookup_eq] at hnone
  exact exists_addRule (RuleTable.exists_addWildcard hnone o)

theorem exists_addRules {cells : List Cell} (hnodup : cells.Nodup)
    (h : ∀ c ∈ cells, d.states.lookup origin c = none ∧ d.alphabet.accepts c = true)
    (grouped : Bool) (shared : Outcome) (each : Cell → Outcome) (source : Option JointPattern) :
    ∃ d', addRules origin cells grouped shared each source d = .ok () d' := by
  unfold addRules
  cases grouped with
  | true =>
    rw [if_pos rfl]
    split
    . exact ⟨_, rfl⟩
    . simp only [StateTables.lookup_eq] at h
      exact exists_addRule (RuleTable.exists_addGroup hnodup h)
  | false =>
    rw [if_neg nofun]
    induction cells generalizing d with
    | nil => exact ⟨_, rfl⟩
    | cons c cells ih =>
      rw [List.nodup_cons] at hnodup
      rw [List.forall_mem_cons] at h
      obtain ⟨d₁, hc⟩ := exists_addRule_exact h.1.1 h.1.2 (each c)
      have hadds : d.Adds origin (.cell c) (fun _ _ => True) d₁ := .of_addExact trivial hc
      obtain ⟨d₂, hcells⟩ := @ih d₁ hnodup.2 (by
        intro x hx
        refine ⟨hadds.missing x (fun heq => hnodup.1 (heq ▸ hx)) (h.2 x hx).1, ?_⟩
        rw [hadds.alphabet]
        exact (h.2 x hx).2)
      exact ⟨d₂, forM_cons_eq_ok.mpr ⟨d₁, hc, hcells⟩⟩

theorem uncovered_admits (hA : d.alphabet.IsOrderly) :
    ∀ c ∈ d.uncovered origin, d.states.lookup origin c = none ∧ d.alphabet.accepts c = true := by
  intro c hc
  rw [Draft.mem_uncovered] at hc
  exact ⟨hc.2, hA.accepts c hc.1⟩

theorem exists_direct (hA : ¬ d.features.enabled .wildcard = true → d.alphabet.IsOrderly)
    (h : d.Admits origin read) (w : Writing) (m : Move) (next : String) :
    ∃ d', direct origin read w m next d = .ok () d' := by
  cases read with
  | cell c =>
    exact exists_addRule_exact (h.free c (List.mem_singleton_self c))
      (h.accepts c (List.mem_singleton_self c)) _
  | oneOf cells =>
    exact exists_addRules h.nodup (fun c hc => ⟨h.free c hc, h.accepts c hc⟩) _ _ _ _
  | any =>
    obtain ⟨c, hc⟩ := h.room rfl
    unfold direct
    dsimp only
    rw [bind_of_ok (enabled_apply .wildcard d)]
    split
    . exact exists_addRule_wildcard hc _
    . next hwildcard =>
      exact exists_addRules (Draft.nodup_uncovered (hA hwildcard).nodup) (uncovered_admits (hA hwildcard))
        _ _ _ _

theorem exists_addAction (hA : d.alphabet.IsOrderly) (h : d.Admits origin read) (a : Action)
    (next : String) : ∃ d', addAction origin read a next d = .ok () d' := by
  unfold addAction
  rw [bind_of_ok (enabled_apply .multiMatch d)]
  cases read with
  | cell c =>
    exact exists_addRule_exact (h.free c (List.mem_singleton_self c))
      (h.accepts c (List.mem_singleton_self c)) _
  | oneOf cells =>
    exact exists_addRules h.nodup (fun c hc => ⟨h.free c hc, h.accepts c hc⟩) _ _ _ _
  | any =>
    obtain ⟨c, hc⟩ := h.room rfl
    dsimp only
    rw [bind_of_ok (enabled_apply .wildcard d)]
    split
    . exact exists_addRule_wildcard hc _
    . exact exists_addRules (Draft.nodup_uncovered hA.nodup) (uncovered_admits hA) _ _ _ _

section

variable {B : List Cell} {N : String → Prop} {opened : ChainKey → Prop}

theorem chain_ok (k : ChainKey) (d : Draft) :
    (∃ name, chain k k.nameParts d = .ok (name, false) d ∧ (k, name) ∈ d.chains)
      ∨ chain k k.nameParts d = .ok (d.guard.wrap k.nameParts, true) (d.withChain k)
        ∧ ∀ e ∈ d.chains, e.1 ≠ k := by
  cases hchain : chain k k.nameParts d with
  | error e d' =>
    rw [chain_apply] at hchain
    split at hchain
    . cases hchain
    . cases hchain
  | ok r d' =>
    obtain ⟨name, isNew⟩ := r
    rcases chain_cases hchain with ⟨rfl, hmem, rfl⟩ | ⟨rfl, hfresh, rfl, rfl⟩
    . exact .inl ⟨name, rfl, hmem⟩
    . exact .inr ⟨rfl, hfresh⟩

theorem exists_transition_go (n : Nat) (hA : d.alphabet.IsOrderly) (hd : d.Sound B N opened)
    (horigin : d.Known N origin) (h : d.Admits origin read)
    (hopened : ∀ m' next', m'.weight < m.weight → ¬ opened (.continuation m' next')) (w : Writing) :
    ∃ d', transition.go n origin read w m next d = .ok () d' := by
  induction n generalizing origin next read w m d opened with
  | zero => exact exists_direct (fun _ => hA) h w m next
  | succ n ih =>
    rw [transition.go, bind_of_ok (get_apply d)]
    split
    . exact exists_direct (fun _ => hA) h w m next
    . next hsupports =>
      have hm := Move.distance_ne_one_of_not_supports hsupports
      have hweight := Move.weight_detour_lt hm
      rcases chain_ok (.continuation m.detour.2 next) d with ⟨state, hchain, _⟩ | ⟨hchain, hfresh⟩
      . obtain ⟨d', hdirect⟩ := exists_direct (fun _ => hA) h w m.detour.1 state
        exact ⟨d', bind_eq_ok.mpr ⟨_, _, hchain, hdirect⟩⟩
      . have hformed : (ChainKey.continuation m.detour.2 next).Formed d.guard :=
          .continuation _ _
        have hmem := Draft.mem_withChain.mpr (.inr (Eq.refl
          (ChainKey.continuation m.detour.2 next, d.guard.wrap _)))
        have hfind := hd.find?_fresh hformed (.inl rfl) hfresh
        have hunknown := hd.not_known_of_fresh hformed (.inl rfl) hfresh
        have hsound := hd.withChain hformed
        have hopened' : ∀ m' next', m'.weight < m.detour.2.weight →
            ¬ (opened (.continuation m' next')
              ∨ ChainKey.continuation m' next' = .continuation m.detour.2 next) := by
          rintro m' next' hlt (hopen | heq)
          . exact hopened m' next' (Nat.lt_trans hlt hweight) hopen
          . simp only [ChainKey.mk.injEq, List.cons.injEq, true_and] at heq
            rw [Move.display_injective heq.1] at hlt
            exact Nat.lt_irrefl _ hlt
        have hknown : (d.withChain (.continuation m.detour.2 next)).Known N
            (d.guard.wrap (ChainKey.continuation m.detour.2 next).nameParts) :=
          .inr ⟨_, hmem, by simp, .inl rfl⟩
        have hempty : (d.withChain (.continuation m.detour.2 next)).Admits
            (d.guard.wrap (ChainKey.continuation m.detour.2 next).nameParts) .any :=
          .of_find? hfind List.nodup_nil (List.forall_mem_nil _)
        obtain ⟨d₁, hgo⟩ := @ih (d.withChain (.continuation m.detour.2 next)) _ next _ m.detour.2 _ hA
          hsound hknown hempty hopened' .keep
        have hlow := transition_go_lowers n hgo hsound hknown hopened'
        have hadmits : d₁.Admits origin read := by
          apply h.of_lookup hlow.grows.alphabet
          intro c
          apply hlow.grows.lookup_other (fun heq => hunknown (heq ▸ horigin))
          exact (@Draft.withChain_grows N (fun _ => False) (fun _ => True) d _ trivial).known horigin
        obtain ⟨d', hdirect⟩ := exists_direct (fun _ => hlow.grows.alphabet ▸ hA) hadmits w m.detour.1
          (d.guard.wrap (ChainKey.continuation m.detour.2 next).nameParts)
        exact ⟨d', bind_eq_ok.mpr ⟨_, _, hchain, bind_eq_ok.mpr ⟨_, _, hgo, hdirect⟩⟩⟩

theorem exists_transition (hA : d.alphabet.IsOrderly) (hd : d.Sound B N opened)
    (horigin : d.Known N origin) (h : d.Admits origin read)
    (hopened : ∀ m next, ¬ opened (.continuation m next)) (w : Writing) (m : Move)
    (next : String) : ∃ d', transition origin read w m next d = .ok () d' :=
  exists_transition_go _ hA hd horigin h (fun m' next' _ => hopened m' next') w

theorem forM_singleton {α : Type} (x : α) (f : α → Build Unit) : [x].forM f = f x :=
  bind_pure (f x)

theorem shiftChain_cons {c : Cell} {cells : List Cell} {d d' : Draft} :
    shiftChain origin (.oneOf (c :: cells)) m next d = .ok () d'
      ↔ ∃ d₁, shiftChain origin (.cell c) m next d = .ok () d₁
        ∧ shiftChain origin (.oneOf cells) m next d₁ = .ok () d' := by
  unfold shiftChain
  simp only [bind_of_ok (get_apply _), Pattern.cells, forM_singleton]
  exact forM_cons_eq_ok

theorem exists_shiftChain_cell (hA : d.alphabet.IsOrderly) (hd : d.Sound B N opened)
    (hapart : d.SymbolsApart) (horigin : d.Known N origin) (hopened : ∀ k, IsStep k → ¬ opened k)
    {c : Cell} (hc : c ∈ d.alphabet.symbols) (hnone : d.states.lookup origin c = none) (m : Move)
    (next : String) : ∃ d', shiftChain origin (.cell c) m next d = .ok () d' := by
  have hadmits : d.Admits origin (.cell c) := by
    refine ⟨List.pairwise_singleton _ c, ?_, ?_, by simp⟩
    . intro x hx
      rw [List.mem_singleton.mp hx]
      exact hA.accepts c hc
    . intro x hx
      rwa [List.mem_singleton.mp hx]
  unfold shiftChain
  simp only [bind_of_ok (get_apply _), Pattern.cells, forM_singleton]
  rcases chain_ok (.paste c m next) d with ⟨paste, hchain, _⟩ | ⟨hchain, hfresh⟩
  . obtain ⟨d', hcarry⟩ := exists_transition hA hd horigin hadmits (fun _ _ => hopened _ (.inl rfl))
      (.put .blank) .right paste
    exact ⟨d', bind_eq_ok.mpr ⟨_, _, hchain, hcarry⟩⟩
  . have hformed : (ChainKey.paste c m next).Formed d.guard := .paste (hapart c hc) m next
    have hmem := Draft.mem_withChain.mpr (.inr (Eq.refl
      (ChainKey.paste c m next, d.guard.wrap (ChainKey.paste c m next).nameParts)))
    have hempty : (d.withChain (.paste c m next)).Admits
        (d.guard.wrap (ChainKey.paste c m next).nameParts) .any :=
      .of_find? (hd.find?_fresh hformed (.inr rfl) hfresh) List.nodup_nil (List.forall_mem_nil _)
    obtain ⟨d₁, hpaste⟩ := @exists_transition (d.withChain (.paste c m next)) _ _ B N _ hA
      (hd.withChain hformed) (.inr ⟨_, hmem, by simp, .inl rfl⟩) hempty (by
        rintro m' next' (hopen | heq)
        . exact hopened _ (.inl rfl) hopen
        . simp at heq) (.put c) m next
    obtain ⟨hsound, hgrows, _⟩ := paste_generated hpaste hd hc (hapart c hc) hopened hfresh
    obtain ⟨d', hcarry⟩ := exists_transition (hgrows.alphabet ▸ hA) hsound (hgrows.known horigin)
      (hadmits.of_lookup hgrows.alphabet (hgrows.lookup_other id horigin))
      (fun _ _ => hopened _ (.inl rfl)) (.put .blank) .right
      (d.guard.wrap (ChainKey.paste c m next).nameParts)
    exact ⟨d', bind_eq_ok.mpr ⟨_, _, hchain, bind_eq_ok.mpr ⟨_, _, hpaste, hcarry⟩⟩⟩

theorem exists_shiftChain_cells (hA : d.alphabet.IsOrderly) (hd : d.Sound B N opened)
    (hapart : d.SymbolsApart) (horigin : d.Known N origin) (hopened : ∀ k, IsStep k → ¬ opened k)
    {cells : List Cell} (hnodup : cells.Nodup)
    (h : ∀ c ∈ cells, c ∈ d.alphabet.symbols ∧ d.states.lookup origin c = none) (m : Move)
    (next : String) : ∃ d', shiftChain origin (.oneOf cells) m next d = .ok () d' := by
  induction cells generalizing d with
  | nil => exact ⟨d, rfl⟩
  | cons c cells ih =>
    rw [List.nodup_cons] at hnodup
    rw [List.forall_mem_cons] at h
    obtain ⟨d₁, hc⟩ := exists_shiftChain_cell hA hd hapart horigin hopened h.1.1 h.1.2 m next
    have hlow := shiftChain_lowers hc hd hapart horigin hopened (by simpa [Pattern.cells] using h.1.1)
    have halphabet := hlow.grows.alphabet
    obtain ⟨d', hcells⟩ := ih (halphabet ▸ hA) hlow.sound (hapart.grows hlow.grows)
      (hlow.grows.known horigin) hnodup.2 (by
        intro x hx
        rw [halphabet]
        refine ⟨(h.2 x hx).1, hlow.missing x ?_ (h.2 x hx).2⟩
        exact fun heq => hnodup.1 (heq ▸ hx))
    exact ⟨d', shiftChain_cons.mpr ⟨d₁, hc, hcells⟩⟩

theorem exists_shiftChain (hA : d.alphabet.IsOrderly) (hd : d.Sound B N opened)
    (hapart : d.SymbolsApart) (horigin : d.Known N origin) (hopened : ∀ k, IsStep k → ¬ opened k)
    (h : d.Admits origin read) (hread : ∀ c ∈ read.cells [], c ∈ d.alphabet.symbols) (m : Move)
    (next : String) : ∃ d', shiftChain origin read m next d = .ok () d' := by
  cases read with
  | cell c =>
    exact exists_shiftChain_cell hA hd hapart horigin hopened (hread c (List.mem_singleton_self c))
      (h.free c (List.mem_singleton_self c)) m next
  | oneOf cells =>
    exact exists_shiftChain_cells hA hd hapart horigin hopened h.nodup
      (fun c hc => ⟨hread c hc, h.free c hc⟩) m next
  | any =>
    exact exists_shiftChain_cells hA hd hapart horigin hopened (Draft.nodup_uncovered hA.nodup)
      (fun c hc => Draft.mem_uncovered.mp hc) m next

theorem exists_shift (hA : d.alphabet.IsOrderly) (hd : d.Sound B N opened)
    (hapart : d.SymbolsApart) (horigin : d.Known N origin) (hopened : ∀ k, IsStep k → ¬ opened k)
    (h : d.Admits origin read) (hread : ∀ c ∈ read.cells [], c ∈ d.alphabet.symbols) (m : Move)
    (next : String) : ∃ d', shift origin read m next d = .ok () d' := by
  rw [shift, bind_of_ok (enabled_apply .gadgetShift d)]
  split
  . exact exists_addAction hA h _ next
  . exact exists_shiftChain hA hd hapart horigin hopened h hread m next

theorem exists_transition_fresh (hA : d.alphabet.IsOrderly) (hd : d.Sound B N opened)
    (horigin : d.Known N origin) (hfind : d.states.find? origin = none) {c : Cell}
    (hc : d.alphabet.accepts c = true) (hopened : ∀ k, IsStep k → ¬ opened k) (w : Writing)
    (m : Move) (next : String) :
    ∃ d', transition origin (.cell c) w m next d = .ok () d' ∧ d'.Admits origin .any := by
  have hadmits : d.Admits origin (.cell c) := by
    refine .of_find? hfind (List.pairwise_singleton _ c) ?_
    intro x hx
    rwa [List.mem_singleton.mp hx]
  have hcontinuation : ∀ m next, ¬ opened (.continuation m next) := fun _ _ => hopened _ (.inl rfl)
  obtain ⟨d', hok⟩ := exists_transition hA hd horigin hadmits hcontinuation w m next
  refine ⟨d', hok, List.nodup_nil, nofun, nofun, fun _ => ⟨.joint [c], ?_⟩⟩
  apply (transition_lowers hok hd horigin hcontinuation).missing
  . intro heq
    have := congrArg sizeOf heq
    simp at this
    omega
  . rw [StateTables.lookup, hfind, Option.bind_none]

theorem chain_new (hd : d.Sound B N opened) {k : ChainKey} (hkind : k.kind ≠ .jointMove)
    (hname : ∀ e ∈ d.chains, e.1.kind ≠ .jointMove → e.2 ≠ d.guard.wrap k.nameParts) :
    chain k k.nameParts d = .ok (d.guard.wrap k.nameParts, true) (d.withChain k) := by
  rcases chain_ok k d with ⟨name, _, hmem⟩ | ⟨hchain, _⟩
  . exact absurd (hd.formed _ hmem hkind).2 (hname _ hmem hkind)
  . exact hchain

section

variable {k : ChainKey} {target : String} {stop : Cell} (hA : d.alphabet.IsOrderly)
  (hd : d.Sound B N fun _ => False) (hapart : d.SymbolsApart) (horigin : d.Known N origin)
  (h : d.Admits origin read)
  (hname : ∀ e ∈ d.chains, e.1.kind ≠ .jointMove → e.2 ≠ d.guard.wrap k.nameParts)

include hA hd hapart horigin h hname

theorem exists_carrying (hkind : k.kind = .markFirst ∨ k.kind = .insertAfter)
    (hk : k.Formed d.guard) (hstop : d.alphabet.accepts stop = true) (out : Cell) (target : String) :
    ∃ base d₁ d₂ d₃ d', base = d.guard.wrap k.nameParts
      ∧ transition origin read .keep .right (base ++ "_findEnd") (d.withChain k) = .ok () d₁
      ∧ seekEnd (base ++ "_findEnd") (base ++ "_doShifts") d₁ = .ok () d₂
      ∧ transition (base ++ "_doShifts") (.cell stop) (.put out) .right target d₂ = .ok () d₃
      ∧ shift (base ++ "_doShifts") .any (.leftBy 2) (base ++ "_doShifts") d₃ = .ok () d' := by
  obtain ⟨base, hbase⟩ : ∃ base, base = d.guard.wrap k.nameParts := ⟨_, rfl⟩
  have hsuffixes : "_findEnd" ∈ chainSuffixes ∧ "_doShifts" ∈ chainSuffixes := by decide
  obtain ⟨hfindEnd, hdoShifts⟩ := hsuffixes
  have hopened : ∀ x, IsStep x → ¬ (False ∨ x = k) := by
    rintro x hx (hfalse | rfl)
    . exact hfalse
    . rcases hx with hx | hx <;> simp [hx] at hkind
  have hcontinuation : ∀ m next, ¬ (False ∨ ChainKey.continuation m next = k) :=
    fun _ _ => hopened _ (.inl rfl)
  have hjoint : k.kind ≠ .jointMove := by
    intro h
    simp [h] at hkind
  have hmem : (k, base) ∈ (d.withChain k).chains :=
    Draft.mem_withChain.mpr (.inr (by rw [hbase]))
  have hknown (suffix : String) (hmem' : suffix ∈ chainSuffixes) :
      (d.withChain k).Known N (base ++ suffix) :=
    .inr ⟨_, hmem, hjoint, .inr ⟨suffix, hmem', rfl⟩⟩
  have hunknown (suffix : String) (hmem' : suffix ∈ chainSuffixes) :
      ¬ d.Known N (base ++ suffix) := by
    rw [hbase]
    exact hd.not_known_suffix hk hname hmem'
  have hnew : d.Grows N (fun _ => False) (fun _ => True) (d.withChain k) :=
    Draft.withChain_grows trivial
  -- Each of the states is without rules when it is first given some.
  obtain ⟨d₁, hstart⟩ := @exists_transition (d.withChain k) _ _ B N _ hA (hd.withChain hk)
    (hnew.known horigin) (h.of_lookup rfl fun _ => rfl) hcontinuation .keep .right (base ++ "_findEnd")
  have low₁ := transition_lowers hstart (hd.withChain hk) (hnew.known horigin) hcontinuation
  have hnone (suffix : String) (hmem' : suffix ∈ chainSuffixes) :
      d₁.states.find? (base ++ suffix) = none := by
    have hne : base ++ suffix ≠ origin := by
      rintro rfl
      exact hunknown suffix hmem' horigin
    rw [low₁.grows.other _ hne (hknown suffix hmem')]
    exact hd.find?_of_not_known (hunknown suffix hmem')
  have hA₁ : d₁.alphabet.IsOrderly := low₁.grows.alphabet ▸ hA
  have hfind := low₁.grows.known (hknown _ hfindEnd)
  have hdo := low₁.grows.known (hknown _ hdoShifts)
  obtain ⟨d₂, hturn, hrest⟩ := exists_transition_fresh hA₁ low₁.sound hfind (hnone _ hfindEnd)
    (low₁.sound.accepts _ hd.blank) hopened (.put .blank) .left (base ++ "_doShifts")
  have low₂ := transition_lowers hturn low₁.sound hfind hcontinuation
  have hA₂ : d₂.alphabet.IsOrderly := low₂.grows.alphabet ▸ hA₁
  obtain ⟨d₃, hpass⟩ := exists_transition hA₂ low₂.sound (low₂.grows.known hfind) hrest hcontinuation
    .keep .right (base ++ "_findEnd")
  have low₃ := transition_lowers hpass low₂.sound (low₂.grows.known hfind) hcontinuation
  have grows₃ := low₂.grows.trans low₃.grows
  have hA₃ : d₃.alphabet.IsOrderly := low₃.grows.alphabet ▸ hA₂
  have hne : base ++ "_doShifts" ≠ base ++ "_findEnd" := by
    intro h
    exact absurd (chainSuffixes_inj hdoShifts hfindEnd h).2 (by decide)
  have hdoNone : d₃.states.find? (base ++ "_doShifts") = none := by
    rw [grows₃.other _ hne hdo]
    exact hnone _ hdoShifts
  have hstop₃ : d₃.alphabet.accepts stop = true := by
    rw [grows₃.alphabet, low₁.grows.alphabet]
    exact hstop
  obtain ⟨d₄, hexit, hrest₄⟩ := exists_transition_fresh hA₃ low₃.sound (grows₃.known hdo) hdoNone
    hstop₃ hopened (.put out) .right target
  have low₄ := transition_lowers hexit low₃.sound (grows₃.known hdo) hcontinuation
  obtain ⟨d', hshift⟩ := exists_shift (low₄.grows.alphabet ▸ hA₃) low₄.sound
    ((((hapart.grows hnew).grows low₁.grows).grows grows₃).grows low₄.grows)
    (low₄.grows.known (grows₃.known hdo)) hopened hrest₄ nofun (.leftBy 2) (base ++ "_doShifts")
  exact ⟨base, d₁, d₃, d₄, d', hbase, hstart, bind_eq_ok.mpr ⟨_, _, hturn, hpass⟩, hexit, hshift⟩

end

theorem exists_gadget (hA : d.alphabet.IsOrderly) (hd : d.Sound B N fun _ => False)
    (hapart : d.SymbolsApart) (horigin : d.Known N origin) (h : d.Admits origin read)
    (hread : ∀ c ∈ read.cells [], c ∈ d.alphabet.symbols) {x : Gadget}
    (hx : ∀ marker insert, x = .insertAfter marker insert → d.alphabet.accepts marker = true)
    (hname : ∀ k, x.key? origin read next = some k →
      ∀ e ∈ d.chains, e.1.kind ≠ .jointMove → e.2 ≠ d.guard.wrap k.nameParts) :
    ∃ d', gadget origin read x next d = .ok () d' := by
  unfold gadget
  rw [bind_of_ok (enabled_apply _ d)]
  split
  . exact exists_addAction hA h _ next
  . cases x with
    | shift m => exact exists_shiftChain hA hd hapart horigin (fun _ _ => id) h hread m next
    | markFirst marker =>
      have hchain := chain_new (k := .markFirst origin read marker next) hd nofun (hname _ rfl)
      obtain ⟨base, d₁, d₂, d₃, d', rfl, hstart, hseek, hstop, hshift⟩ := exists_carrying hA hd hapart
        horigin h (hname _ rfl) (.inl rfl) (.markFirst _ _ _ _) (hd.accepts _ hd.blank) marker next
      refine ⟨d', bind_eq_ok.mpr ⟨_, _, hchain, ?_⟩⟩
      dsimp only
      rw [if_pos rfl, bind_of_ok hstart, bind_of_ok hseek, bind_of_ok hstop, hshift]
    | insertAfter marker insert =>
      have hchain := chain_new (k := .insertAfter origin read marker insert next) hd nofun
        (hname _ rfl)
      obtain ⟨base, d₁, d₂, d₃, d₄, hbase, hstart, hseek, hstop, hshift⟩ := exists_carrying hA hd
        hapart horigin h (hname _ rfl) (.inr rfl) (.insertAfter _ _ _ _ _) (hx _ _ rfl) marker
        (d.guard.wrap (ChainKey.insertAfter origin read marker insert next).nameParts ++ "_doInsert")
      obtain ⟨hlow, _, _, hknown, hnone⟩ := carrying_lowers hbase hstart hseek hstop hshift (.inr rfl)
        (.insertAfter _ _ _ _ _) hd hapart horigin
      obtain ⟨d', hinsert, _⟩ := exists_transition_fresh (hlow.grows.alphabet ▸ hA) hlow.sound
        (hknown "_doInsert" (by decide)).2 hnone (hlow.sound.accepts _ hd.blank) (fun _ _ => id)
        (.put insert) .right next
      subst hbase
      refine ⟨d', bind_eq_ok.mpr ⟨_, _, hchain, ?_⟩⟩
      dsimp only
      rw [if_pos rfl, bind_of_ok hstart, bind_of_ok hseek, bind_of_ok hstop, bind_of_ok hshift,
        hinsert]

end

end Build

namespace ChainKey

theorem Formed.parts_of_carrying {g : Guard} {k : ChainKey} (h : Formed g k)
    (hk : ¬ Build.IsStep k) :
    ∃ tag origin read rest, Guard.Clean tag ∧ k.parts = origin :: read :: rest
      ∧ k.nameParts = [tag, origin, read] := by
  cases h with
  | continuation m next => exact absurd (.inl rfl) hk
  | paste _ m next => exact absurd (.inr rfl) hk
  | markFirst origin read _ _ => exact ⟨_, origin, read, _, by decide, rfl, rfl⟩
  | insertAfter origin read _ _ _ => exact ⟨_, origin, read, _, by decide, rfl, rfl⟩

end ChainKey

theorem Guard.behind_of_wrap {g : Guard} {tag tag' : String} {parts parts' : List String}
    {p p' : String} (htag : Clean tag) (htag' : Clean tag')
    (h : g.wrap (tag :: p :: parts) = g.wrap (tag' :: p' :: parts')) :
    g.behind (p :: parts) = g.behind (p' :: parts') := by
  have htext := congrArg String.toList h
  rw [toList_wrap, toList_wrap, List.append_cancel_left_eq] at htext
  exact (behind_inj_of_apart (.of_clean htag g) (.of_clean htag' g) htext).2

namespace Directive

variable {xs : List Directive} {x : Directive} {B : List Cell}

theorem parts_of_key? {k : ChainKey} (g : Guard) (h : x.key? = some k) :
    k.Formed g ∧ ∃ rest, k.parts = x.origin :: x.read.display :: rest := by
  cases x with
  | transition _ _ _ _ _ => cases h
  | gadget origin read x next =>
    cases x with
    | shift m => cases h
    | markFirst marker =>
      cases h
      exact ⟨.markFirst _ _ _ _, _, rfl⟩
    | insertAfter marker insert =>
      cases h
      exact ⟨.insertAfter _ _ _ _ _, _, rfl⟩

/-- No earlier directive is about a cell that the directive names, and it is about a cell of `B`. -/
structure Joins (B : List Cell) (xs : List Directive) (x : Directive) : Prop where
  nodup : (x.read.cells []).Nodup
  unserved : ∀ c ∈ x.read.cells [], serving xs x.origin c = none
  useful : ∃ c ∈ x.read.cells B, serving xs x.origin c = none

instance (B : List Cell) (xs : List Directive) (x : Directive) : Decidable (x.Joins B xs) :=
  decidable_of_iff ((x.read.cells []).Nodup ∧ (∀ c ∈ x.read.cells [], serving xs x.origin c = none)
    ∧ ∃ c ∈ x.read.cells B, serving xs x.origin c = none)
    ⟨fun h => ⟨h.1, h.2.1, h.2.2⟩, fun h => ⟨h.nodup, h.unserved, h.useful⟩⟩

theorem Joins.exists_matches (h : x.Joins B xs) :
    ∃ c, x.read.Matches c ∧ serving xs x.origin c = none := by
  obtain ⟨c, hc, hserving⟩ := h.useful
  refine ⟨c, ?_, hserving⟩
  cases hread : x.read with
  | cell c' =>
    rw [hread] at hc
    exact List.mem_singleton.mp hc
  | oneOf cells =>
    rw [hread] at hc
    exact hc
  | any => trivial

end Directive

namespace Draft

variable {d : Draft} {B : List Cell} {N : String → Prop} {xs : List Directive} {x : Directive}

/-- A directive that joins those before it goes through. -/
theorem Obeys.exists_directive (h : d.Obeys B N xs) (hA : d.alphabet.IsOrderly)
    (hapart : d.SymbolsApart) (horigin : N x.origin) (hjoins : x.Joins B xs)
    (hread : ∀ c ∈ x.read.cells [], c ∈ d.alphabet.symbols)
    (hmarker : ∀ origin read marker insert next,
      x = .gadget origin read (.insertAfter marker insert) next → d.alphabet.accepts marker = true)
    (hname : ∀ k, x.key? = some k →
      ∀ e ∈ d.chains, e.1.kind ≠ .jointMove → e.2 ≠ d.guard.wrap k.nameParts) :
    ∃ d', Build.directive x d = .ok () d' := by
  have hadmits : d.Admits x.origin x.read := by
    refine ⟨hjoins.nodup, fun c hc => hA.accepts c (hread c hc), ?_, fun _ => ?_⟩
    . exact fun c hc => h.unserved _ _ horigin (hjoins.unserved c hc)
    . obtain ⟨c, _, hc⟩ := hjoins.exists_matches
      exact ⟨c, h.unserved _ _ horigin hc⟩
  cases x with
  | transition origin read w m next =>
    exact Build.exists_transition hA h.sound (.inl horigin) hadmits (fun _ _ => id) w m next
  | gadget origin read x next =>
    apply Build.exists_gadget hA h.sound hapart (.inl horigin) hadmits hread _ hname
    rintro marker insert rfl
    exact hmarker _ _ _ _ _ rfl

namespace Realizes

variable {A : Alphabet}

theorem isOrderly (hA : A.IsLettered) (hnodup : A.declared.Nodup) (h : d.Realizes A xs) :
    d.alphabet.IsOrderly := by
  rw [h.alphabet]
  refine ⟨hA.symbols ▸ hnodup, ?_⟩
  rw [hA.symbols]
  exact fun c hc => hA.accepts hc

theorem name_free (hA : A.IsLettered) (h : d.Realizes A xs) (hread : x.read.Over (· ∈ A.declared))
    (horigin : d.guard.Free x.origin) (hjoins : x.Joins A.declared xs) {k : ChainKey}
    (hk : x.key? = some k) :
    ∀ e ∈ d.chains, e.1.kind ≠ .jointMove → e.2 ≠ d.guard.wrap k.nameParts := by
  intro e he hkind heq
  obtain ⟨hformed, hwrap⟩ := h.obeys.sound.formed e he hkind
  obtain ⟨hkformed, rest, hparts⟩ := Directive.parts_of_key? d.guard hk
  have hsame := hwrap.symm.trans heq
  have hstep : ¬ Build.IsStep e.1 := by
    intro hstep
    rw [hformed.eq_of_wrap hkformed hstep hsame] at hstep
    exact Directive.not_isStep_of_key? hk hstep
  obtain ⟨tag, origin, read, rest₁, htag, hparts₁, hname₁⟩ := hformed.parts_of_carrying hstep
  obtain ⟨tag', origin', read', rest₂, htag', hparts₂, hname₂⟩ :=
    hkformed.parts_of_carrying (Directive.not_isStep_of_key? hk)
  obtain ⟨z, hz, read₀, rest₃, hstems, hpattern⟩ := h.requested e he hstep
  rw [hparts₂, List.cons.injEq, List.cons.injEq] at hparts
  rw [hparts₁, List.cons.injEq, List.cons.injEq] at hstems
  rw [hname₁, hname₂] at hsame
  have hbehind := Guard.behind_of_wrap htag htag' hsame
  have hfree : d.guard.Free origin := hstems.1 ▸ (h.names z hz).1
  have hfree' : d.guard.Free origin' := hparts.1 ▸ horigin
  obtain ⟨horigins, hreads⟩ := Guard.behind_inj_of_apart (.inl hfree) (.inl hfree') hbehind
  have hread₀ : x.read = z.read := by
    apply hpattern _ (hread.mono hA.letters)
    rw [← hparts.2.1, ← hstems.2.1]
    exact (Guard.behind_inj_last hreads).symm
  obtain ⟨c, hc, hserving⟩ := hjoins.exists_matches
  have hserves : z.serves x.origin c = true := by
    rw [Directive.serves_eq_true_iff, ← hread₀]
    exact ⟨by rw [← hstems.1, horigins, hparts.1], hc⟩
  rw [Directive.serving, List.find?_eq_none] at hserving
  exact hserving z hz hserves

theorem exists_directive (hA : A.IsLettered) (hnodup : A.declared.Nodup) (h : d.Realizes A xs)
    (hx : x.Over (· ∈ A.declared)) (horigin : d.guard.Free x.origin)
    (hjoins : x.Joins A.declared xs) : ∃ d', Build.directive x d = .ok () d' := by
  have hread := Directive.over_read hx
  have hsymbols : d.alphabet.symbols = A.declared := by rw [h.alphabet, hA.symbols]
  apply h.obeys.exists_directive (h.isOrderly hA hnodup) _ horigin hjoins
  . intro c hc
    rw [hsymbols]
    exact hread.of_mem_cells hc
  . rintro origin read marker insert next rfl
    rw [h.alphabet]
    exact hA.accepts hx.2.1
  . exact fun k hk => h.name_free hA hread horigin hjoins hk
  . intro c hc
    rw [hsymbols] at hc
    exact (hA.letters c hc).apart _

end Realizes

end Draft

end TuringLowering
