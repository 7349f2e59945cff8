import TuringLowering.Proofs.Chains
import TuringLowering.Proofs.Mention
import TuringLowering.Proofs.Renaming

/-!
This module contains the proof that the generated states of a draft on one tape stay in order when its
guard is widened.
-/

namespace TuringLowering

namespace Guard

variable {g g' : Guard}

theorem rename_eq_of_free (hle : g.size ≤ g'.size) {text : String}
    (h : g'.Free (g.rename g' text)) : g.rename g' text = text := by
  have hback := rename_rename hle g text
  rw [rename_self, rename_of_free h] at hback
  exact hback

theorem Generates.not_free {s : String} (h : g.Generates s) : ¬ g.Free s := by
  have hlong (parts : List String) (suffix : String) :
      g.size ≤ longestRun (g.wrap parts ++ suffix).toList := by
    rw [String.toList_append, toList_wrap, List.append_assoc]
    exact le_longestRun_run_append _ _
  obtain ⟨part, parts, rfl | ⟨suffix, _, rfl⟩⟩ := h
  . have := hlong (part :: parts) ""
    rw [String.append_empty] at this
    exact Nat.not_lt.mpr this
  . exact Nat.not_lt.mpr (hlong _ _)

theorem isTerminal_rename (hle : g.size ≤ g'.size) (s : String) :
    isTerminal (g.rename g' s) = isTerminal s := by
  have hclean {s : String} (h : isTerminal s = true) : Clean s := by
    intro hmark
    rw [isTerminal_of_mem_mark hmark] at h
    cases h
  rw [Bool.eq_iff_iff]
  constructor
  . intro h
    rwa [rename_eq_of_free hle ((hclean h).free g')] at h
  . intro h
    rwa [rename_of_clean (hclean h)]

end Guard

/-- A cell in which no state is named. -/
def Cell.Nameless (c : Cell) : Prop := ∀ f, c.mapNames f = c

theorem Action.mapNames_of_over {a : Action} {f : String → String}
    (h : a.Over fun c => c.mapNames f = c) : a.mapNames f = a := by
  cases a with
  | write c m => rw [mapNames, h]
  | preserve m => rfl
  | shift m => rfl
  | markFirst marker => rw [mapNames, h]
  | insertAfter marker insert => rw [mapNames, h.1, h.2]

theorem Action.mapNames_of_nameless {a : Action} (h : a.Over Cell.Nameless)
    (f : String → String) : a.mapNames f = a :=
  mapNames_of_over (h.mono fun _ hc => hc f)

namespace Alphabet

variable {a : Alphabet}

theorem mapNames_of_accepts {f : String → String} (h : ∀ c ∈ a.symbols, c.mapNames f = c) {c : Cell}
    (hc : a.accepts c = true) : c.mapNames f = c := by
  induction c with
  | atom m tag =>
    apply h
    simpa [accepts] using hc
  | tuple parts tag ih =>
    simp only [accepts, Cell.fold_tuple, List.all_map, List.all_eq_true] at hc
    rw [Cell.mapNames_tuple, Cell.tuple.injEq]
    refine ⟨?_, rfl⟩
    rw [List.map_congr_left fun c hc' => ih c hc' (hc c hc')]
    exact List.map_id' parts

variable (h : ∀ c ∈ a.symbols, c.Nameless)

include h

theorem mapNames_of_nameless (f : String → String) : a.mapNames f = a := by
  unfold mapNames
  rw [List.map_congr_left fun c hc => h c hc f, List.map_id']

theorem nameless_of_accepts {c : Cell} (hc : a.accepts c = true) : c.Nameless :=
  fun f => mapNames_of_accepts (fun c hc => h c hc f) hc

end Alphabet

theorem RuleTable.lookup_of_mapNames {t : RuleTable} {f : String → String} {c : Cell}
    (h : (t.mapNames f).lookup c ≠ none) :
    (∀ x, t.lookup x ≠ none) ∨ ∃ c₀, c = c₀.mapNames f ∧ t.lookup c₀ ≠ none := by
  have hsome {c : Cell} (hc : t.listed? c ≠ none) : t.lookup c ≠ none := by
    obtain ⟨o, ho⟩ := Option.ne_none_iff_exists'.mp hc
    simp [lookup, ho]
  cases hlisted : (t.mapNames f).listed? c with
  | none =>
    left
    have hwild : t.wildcard ≠ none := by
      intro hnone
      have hnone' : (t.mapNames f).wildcard = none := by simp [mapNames, hnone]
      rw [lookup, hlisted, hnone'] at h
      exact h rfl
    obtain ⟨o, ho⟩ := Option.ne_none_iff_exists'.mp hwild
    intro x
    cases hx : t.listed? x <;> simp [lookup, hx, ho]
  | some o =>
    right
    unfold listed? at hlisted
    cases hexact : (t.mapNames f).exact.find? (·.1 = c) with
    | some rule =>
      obtain ⟨⟨c₀, o₀⟩, hmem, rfl⟩ := List.mem_map.mp (List.mem_of_find?_eq_some hexact)
      have hc : c₀.mapNames f = c := by simpa using List.find?_some hexact
      refine ⟨c₀, hc.symm, hsome ?_⟩
      unfold listed?
      cases hfind : t.exact.find? (·.1 = c₀) with
      | some rule => simp
      | none => exact absurd (List.find?_eq_none.mp hfind _ hmem) (by simp)
    | none =>
      simp only [hexact, Option.map_eq_some_iff] at hlisted
      obtain ⟨group, hgroup, _⟩ := hlisted
      obtain ⟨group₀, hmem, rfl⟩ := List.mem_map.mp (List.mem_of_find?_eq_some hgroup)
      have hc : c ∈ group₀.cells.map (Cell.mapNames f) := by simpa using List.find?_some hgroup
      obtain ⟨c₀, hc₀, rfl⟩ := List.mem_map.mp hc
      refine ⟨c₀, rfl, hsome ?_⟩
      unfold listed?
      cases t.exact.find? (·.1 = c₀) with
      | some rule => simp
      | none =>
        cases hfind : t.groups.find? (c₀ ∈ ·.cells) with
        | some group => simp
        | none => exact absurd (List.find?_eq_none.mp hfind _ hmem) (by simpa using hc₀)

namespace Draft

variable {d : Draft} {g : Guard} {B : List Cell}

theorem alphabet_withGuard (hd : d.Over Cell.Nameless) : (d.withGuard g).alphabet = d.alphabet :=
  Alphabet.mapNames_of_nameless hd.symbols _

section

variable (hd : d.Over Cell.Nameless) (hle : d.guard.size ≤ g.size)

include hle

theorem find?_withGuard (s : String) :
    (d.withGuard g).states.find? (d.guard.rename g s)
      =
    (d.states.find? s).map (RuleTable.mapNames (d.guard.rename g)) :=
  StateTables.find?_mapNames (fun _ _ => Guard.rename_injective hle) d.states s

theorem exists_of_find?_withGuard {s : String} (h : (d.withGuard g).states.find? s ≠ none) :
    ∃ s₀, s = d.guard.rename g s₀ ∧ d.states.find? s₀ ≠ none := by
  have hmem : ∃ s₀, s = d.guard.rename g s₀ := by
    unfold StateTables.find? at h
    rw [ne_eq, Option.map_eq_none_iff] at h
    obtain ⟨e, he⟩ := Option.ne_none_iff_exists'.mp h
    obtain ⟨e₀, _, heq⟩ := List.mem_map.mp (List.mem_of_find?_eq_some he)
    have hname : e.1 = s := by simpa using List.find?_some he
    exact ⟨e₀.1, by rw [← hname, ← heq]⟩
  obtain ⟨s₀, rfl⟩ := hmem
  rw [find?_withGuard hle, ne_eq, Option.map_eq_none_iff] at h
  exact ⟨s₀, rfl, h⟩

theorem lookup_withGuard {s : String} {c : Cell} (hc : c.Nameless) :
    (d.withGuard g).states.lookup (d.guard.rename g s) c
      =
    (d.states.lookup s c).map (Outcome.mapNames (d.guard.rename g)) := by
  have := StateTables.lookup_mapNames (fun _ _ => Guard.rename_injective hle) d.states s c
  rwa [hc] at this

theorem lookup_of_withGuard {s : String} {c : Cell}
    (h : (d.withGuard g).states.lookup (d.guard.rename g s) c ≠ none) :
    (∀ x, d.states.lookup s x ≠ none)
      ∨ ∃ c₀, c = c₀.mapNames (d.guard.rename g) ∧ d.states.lookup s c₀ ≠ none := by
  rw [StateTables.lookup, find?_withGuard hle] at h
  unfold StateTables.lookup
  cases hfind : d.states.find? s with
  | none => simp [hfind] at h
  | some t =>
    rw [hfind] at h
    exact RuleTable.lookup_of_mapNames h

include hd

theorem over_withGuard : (d.withGuard g).Over Cell.Nameless := by
  refine ⟨?_, ?_⟩
  . rw [alphabet_withGuard hd]
    exact hd.symbols
  . intro s c o hc ho
    have hfind : (d.withGuard g).states.find? s ≠ none := by
      intro hnone
      rw [StateTables.lookup, hnone] at ho
      cases ho
    obtain ⟨s₀, rfl, _⟩ := exists_of_find?_withGuard hle hfind
    rw [lookup_withGuard hle hc, Option.map_eq_some_iff] at ho
    obtain ⟨o₀, ho₀, rfl⟩ := ho
    intro a ha
    obtain ⟨a₀, ha₀, rfl⟩ := List.mem_map.mp ha
    have hover := hd.rules s₀ c o₀ hc ho₀ a₀ ha₀
    rwa [Action.mapNames_of_nameless hover]

theorem Step.withGuard {s s' : String} {t t' : Tape} (h : d.Step (s, t) (s', t')) :
    (d.withGuard g).Step (d.guard.rename g s, t) (d.guard.rename g s', t') := by
  cases h with
  | @rule _ _ _ a running accepts lookup =>
    have hfocus := Alphabet.nameless_of_accepts hd.symbols accepts
    have ha : a.Over Cell.Nameless := Outcome.over_single.mp (hd.rules _ _ _ hfocus lookup)
    apply Step.rule
    . rwa [Guard.isTerminal_rename hle]
    . rwa [alphabet_withGuard hd]
    . rw [lookup_withGuard hle hfocus, lookup,
        Option.map_some, Outcome.mapNames_single, Action.mapNames_of_nameless ha]

theorem Reaches.withGuard {s s' : String} {v v' : View} (h : d.Reaches s v s' v') :
    (d.withGuard g).Reaches (d.guard.rename g s) v (d.guard.rename g s') v' := by
  intro t ht
  obtain ⟨t', ht', hsteps⟩ := h t ht
  refine ⟨t', ht', ?_⟩
  apply Relation.TransGen.lift (fun x : String × Tape => (d.guard.rename g x.1, x.2)) _ _ _ hsteps
  rintro ⟨s, t⟩ ⟨s', t'⟩ hstep
  exact Step.withGuard hd hle hstep

end

theorem mem_chains_withGuard {e : ChainKey × String} :
    e ∈ (d.withGuard g).chains
      ↔ ∃ e₀ ∈ d.chains, e = (e₀.1.mapNames (d.guard.rename g), d.guard.rename g e₀.2) := by
  simp only [Draft.withGuard, Draft.mapNames, List.mem_map]
  constructor
  . rintro ⟨e₀, he₀, rfl⟩
    exact ⟨e₀, he₀, rfl⟩
  . rintro ⟨e₀, he₀, rfl⟩
    exact ⟨e₀, he₀, rfl⟩

end Draft

namespace ChainKey

variable {g g' : Guard} {k : ChainKey}

theorem Formed.mapNames (hle : g.size ≤ g'.size) (h : k.Formed g) :
    (k.mapNames (g.rename g')).Formed g' := by
  have hmove (m : Move) : g.rename g' m.display = m.display :=
    Guard.rename_of_clean (Guard.clean_move m) g g'
  cases h with
  | continuation m next =>
    simp only [ChainKey.mapNames, List.map_cons, List.map_nil, hmove]
    exact .continuation m _
  | paste apart m next =>
    simp only [ChainKey.mapNames, List.map_cons, List.map_nil, hmove]
    exact .paste (apart.rename hle) m _
  | markFirst _ _ _ _ => exact .markFirst _ _ _ _
  | insertAfter _ _ _ _ _ => exact .insertAfter _ _ _ _ _

theorem nameParts_mapNames (k : ChainKey) (g g' : Guard) :
    (k.mapNames (g.rename g')).nameParts = k.nameParts.map (g.rename g') := by
  have hclean {text : String} (h : Guard.Clean text) : g.rename g' text = text :=
    Guard.rename_of_clean h g g'
  obtain ⟨kind, parts⟩ := k
  cases kind with
  | continuation => rfl
  | jointMove => rfl
  | paste =>
    cases parts with
    | nil => rfl
    | cons symbol parts =>
      simp only [ChainKey.mapNames, nameParts, List.map_cons, List.cons.injEq, and_true]
      exact (Guard.rename_clean_append (by decide) _).symm
  | markFirst =>
    rcases parts with _ | ⟨origin, _ | ⟨read, rest⟩⟩
    . rfl
    . rfl
    . simp only [ChainKey.mapNames, nameParts, List.map_cons, List.map_nil,
        @hclean "firstCellMarker" (by decide)]
  | insertAfter =>
    rcases parts with _ | ⟨origin, _ | ⟨read, rest⟩⟩
    . rfl
    . rfl
    . simp only [ChainKey.mapNames, nameParts, List.map_cons, List.map_nil,
        @hclean "afterCellMarker" (by decide)]

end ChainKey

theorem clean_chainSuffixes : ∀ suffix ∈ chainSuffixes, Guard.Clean suffix := by
  decide

namespace Draft

variable {d : Draft} {g : Guard} {B : List Cell}

theorem rename_generated {s name : String}
    (h : s = name ∨ ∃ suffix ∈ chainSuffixes, s = name ++ suffix) :
    d.guard.rename g s = d.guard.rename g name
      ∨ ∃ suffix ∈ chainSuffixes, d.guard.rename g s = d.guard.rename g name ++ suffix := by
  rcases h with rfl | ⟨suffix, hsuffix, rfl⟩
  . exact .inl rfl
  . exact .inr ⟨suffix, hsuffix,
      Guard.rename_append_of_clean _ (clean_chainSuffixes suffix hsuffix)⟩

theorem known_withGuard (hle : d.guard.size ≤ g.size) {s : String}
    (h : d.Known d.guard.Free s) : (d.withGuard g).Known g.Free (d.guard.rename g s) := by
  rcases h with h | ⟨e, he, hkind, hname⟩
  . rw [Guard.rename_of_free h]
    exact .inl (h.mono hle)
  . exact .inr ⟨_, mem_chains_withGuard.mpr ⟨e, he, rfl⟩, hkind, rename_generated hname⟩

theorem Performs.withGuard (hd : d.Over Cell.Nameless) (hle : d.guard.size ≤ g.size)
    (hblank : .blank ∈ d.alphabet.symbols) (hfree : ∀ c ∈ B, g.Free c.display) {k : ChainKey}
    {name : String} (hk : k.kind ≠ .jointMove → k.Formed d.guard) (h : d.Performs B k name) :
    (d.withGuard g).Performs B (k.mapNames (d.guard.rename g)) (d.guard.rename g name) := by
  have hmove (m : Move) : d.guard.rename g m.display = m.display :=
    Guard.rename_of_clean (Guard.clean_move m) _ _
  refine ⟨?_, ?_, ?_⟩
  . intro m next heq v hv hclear
    have hkind : k.kind = .continuation := congrArg ChainKey.kind heq
    cases hk (by simp [hkind]) with
    | continuation m₀ next₀ =>
      simp only [ChainKey.mapNames, List.map_cons, List.map_nil, hmove, ChainKey.mk.injEq,
        List.cons.injEq, and_true, true_and] at heq
      obtain ⟨hm, rfl⟩ := heq
      obtain rfl := Move.display_injective hm
      exact (h.continuation m₀ next₀ rfl v hv hclear).withGuard hd hle
    | paste _ _ _ => cases hkind
    | markFirst _ _ _ _ => cases hkind
    | insertAfter _ _ _ _ _ => cases hkind
  . intro c hc m next heq v hv hclear
    have hkind : k.kind = .paste := congrArg ChainKey.kind heq
    cases hk (by simp [hkind]) with
    | @paste symbol _ m₀ next₀ =>
      simp only [ChainKey.mapNames, List.map_cons, List.map_nil, hmove, ChainKey.mk.injEq,
        List.cons.injEq, and_true, true_and] at heq
      obtain ⟨hsymbol, hm, rfl⟩ := heq
      obtain rfl := Move.display_injective hm
      have hsame : symbol = c.display := by
        rw [← hsymbol]
        refine (Guard.rename_eq_of_free hle ?_).symm
        rw [hsymbol]
        exact hfree c hc
      exact (h.paste c hc m₀ next₀ (by rw [hsame]) v hv hclear).withGuard hd hle
    | continuation _ _ => cases hkind
    | markFirst _ _ _ _ => cases hkind
    | insertAfter _ _ _ _ _ => cases hkind
  . intro hkind
    have hend : d.guard.rename g (name ++ "_findEnd") = d.guard.rename g name ++ "_findEnd" :=
      Guard.rename_append_of_clean name (by decide)
    rw [← hend, lookup_withGuard hle (hd.symbols _ hblank), ne_eq, Option.map_eq_none_iff]
    exact h.carries hkind

theorem Sound.withGuard (hd : d.Over Cell.Nameless) (hle : d.guard.size ≤ g.size)
    (hfree : ∀ c ∈ B, g.Free c.display)
    (h : d.Sound B d.guard.Free fun _ => False) :
    (d.withGuard g).Sound B g.Free fun _ => False := by
  have halphabet : (d.withGuard g).alphabet = d.alphabet := alphabet_withGuard hd
  refine ⟨h.blank, ?_, ?_, ?_, ?_, ?_, ?_, ?_⟩
  . rw [halphabet]
    exact h.accepts
  . rw [halphabet]
    exact h.symbols
  . rw [halphabet]
    exact h.displays
  . intro s hs hgenerates
    exact hgenerates.not_free hs
  . intro e he hkind
    obtain ⟨e₀, he₀, rfl⟩ := mem_chains_withGuard.mp he
    obtain ⟨hformed, hname⟩ := h.formed e₀ he₀ hkind
    refine ⟨hformed.mapNames hle, ?_⟩
    change d.guard.rename g e₀.2 = _
    rw [hname, Guard.rename_wrap, ← ChainKey.nameParts_mapNames]
    rfl
  . intro s hs
    obtain ⟨s₀, rfl, hs₀⟩ := exists_of_find?_withGuard hle hs
    exact known_withGuard hle (h.known s₀ hs₀)
  . intro e he _
    obtain ⟨e₀, he₀, rfl⟩ := mem_chains_withGuard.mp he
    exact (h.performs e₀ he₀ id).withGuard hd hle (h.symbols _ h.blank) hfree fun hkind =>
      (h.formed e₀ he₀ hkind).1

end Draft

end TuringLowering
