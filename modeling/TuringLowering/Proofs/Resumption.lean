import TuringLowering.Proofs.InitialLayout
import TuringLowering.Proofs.Pasting

/-!
This module contains how a simulated state is taken up once the segments are in shape. The head is on the
name of the state then, and where no rule can leave it there, it goes to the first segment and back. A state
that all routes share goes back, and whatever is requested once several tapes are open, it is in order for
each state that was taken up by some route.
-/

namespace TuringLowering

theorem Guard.Free.ne_text_append {g : Guard} {s : String} (h : g.Free s) (z : String) :
    s ≠ g.text ++ z := by
  rintro rfl
  rw [Free, String.toList_append, text, String.toList_ofList] at h
  exact @not_free_of_run g.size [] _ h

namespace Segment

/-- The key of the state that goes back from the first segment to the name of a state. -/
def backKey (g : Guard) : ChainKey := .continuation .left (stepState g)

def backState (g : Guard) : String := g.wrap (backKey g).nameParts

variable {g g' : Guard}

theorem mapNames_backKey : (backKey g).mapNames (g.rename g') = backKey g' := by
  have hmove : g.rename g' Move.left.display = Move.left.display :=
    Guard.rename_of_clean (Guard.clean_move _) g g'
  simp only [backKey, ChainKey.mapNames, List.map_cons, List.map_nil, hmove, rename_stepState]

theorem rename_backState : g.rename g' (backState g) = backState g' := by
  rw [backState, Guard.rename_wrap, ← ChainKey.nameParts_mapNames, mapNames_backKey, backState]

theorem generates_backState (g : Guard) : g.Generates (backState g) := ⟨_, _, .inl rfl⟩

theorem ReadsNames.ne_backState {s : String} (h : ReadsNames g s) : s ≠ backState g := by
  rintro rfl
  rcases h with h | h
  . exact (serves_stepState g).not_generates (h ▸ generates_backState g)
  . exact (serves_growPart g (by decide)).not_generates (h ▸ generates_backState g)

theorem ReadsNames.rename {s : String} (h : ReadsNames g' s) : ∃ s₀, ReadsNames g s₀ ∧ g.rename g' s₀ = s := by
  rcases h with rfl | rfl
  . exact ⟨_, .inl rfl, rename_stepState⟩
  . exact ⟨_, .inr rfl, rename_growPart (by decide)⟩

theorem stepState_ne_done (g : Guard) : stepState g ≠ growPart g "done" := by
  simp [stepState, growPart, growState, String.append_assoc]

end Segment

namespace Draft

open Segment

/-- The rule by which the state that goes back does so, unless that is known otherwise. -/
def Back (g : Guard) (K : Prop) (d : Draft) : Prop :=
  K ∨ d.Ruled [.boundLeft] (backState g) .keep .left (stepState g)

structure Returns (g : Guard) (K : Prop) (d : Draft) (q : String) : Prop where
  accepts : d.alphabet.accepts (.state q) = true
  rules : d.Ruled [.state q] (growPart g "done") (.put (.state q)) .stay (stepState g)
    ∨ d.Ruled [.state q] (growPart g "done") (.put (.state q)) .right (backState g) ∧ d.Back g K

/-- The state that goes back is in order if it is there, and has no rules if it is not. -/
structure Turns (g : Guard) (K : Prop) (d : Draft) : Prop where
  guard : d.guard = g
  features : d.features.enabled .multiTape = false
  orderly : d.alphabet.IsOrderly
  bound : .boundLeft ∈ d.alphabet.symbols
  made : ∀ name, (backKey g, name) ∈ d.chains → name = backState g ∧ d.Back g K
  unmade : (∀ name, (backKey g, name) ∉ d.chains) → d.states.find? (backState g) = none

/-- Each state from which a step can begin is taken up. -/
structure Resumes (g : Guard) (K : Prop) (d : Draft) : Prop extends Turns g K d where
  plain : ∀ s, ReadsNames g s → d.states.lookup s (.joint []) = none
  known : ∀ q, isTerminal q = false → d.states.lookup (stepState g) (.state q) = none →
    d.states.lookup (growPart g "done") (.state q) = none
  returns : ∀ q, isTerminal q = false → d.states.lookup (stepState g) (.state q) ≠ none →
    d.Returns g K q

variable {g : Guard} {K : Prop} {d e : Draft} {q : String}

theorem Back.mono (h : d.Back g K) (he : d.Below e) : e.Back g K := h.imp_right fun h => h.mono he

theorem Returns.mono (h : d.Returns g K q) (he : d.Below e) : e.Returns g K q :=
  ⟨he.accepts _ h.accepts, h.rules.imp (fun h => h.mono he) fun h => ⟨h.1.mono he, h.2.mono he⟩⟩

theorem Back.withGuard (h : d.Back d.guard K) (hle : d.guard.size ≤ g.size) :
    (d.withGuard g).Back g K := by
  refine h.imp_right fun hruled => ?_
  have := hruled.later (.withGuard hle)
  rwa [rename_backState, rename_stepState] at this

theorem lookup_name_withGuard (hle : d.guard.size ≤ g.size) (s q : String) :
    (d.withGuard g).states.lookup (d.guard.rename g s) (.state (d.guard.rename g q))
      =
    (d.states.lookup s (.state q)).map (Outcome.mapNames (d.guard.rename g)) :=
  StateTables.lookup_mapNames (fun _ _ => Guard.rename_injective hle) d.states s (.state q)

theorem exists_name_of_withGuard (hle : d.guard.size ≤ g.size) {s : String}
    (hplain : d.states.lookup s (.joint []) = none)
    (hq : (d.withGuard g).states.lookup (d.guard.rename g s) (.state q) ≠ none) :
    ∃ q₀, q = d.guard.rename g q₀ ∧ d.states.lookup s (.state q₀) ≠ none := by
  rcases lookup_of_withGuard hle hq with hall | ⟨c₀, hc₀, hlookup⟩
  . exact absurd hplain (hall _)
  . cases c₀ with
    | tuple parts tag => cases hc₀
    | atom m tag =>
      rw [Cell.mapNames_atom] at hc₀
      obtain ⟨hm, rfl⟩ := Cell.atom.inj hc₀
      cases m with
      | state q₀ => exact ⟨q₀, Mark.state.inj hm, hlookup⟩
      | _ => cases hm

namespace Turns

theorem of_states (h : d.Turns g K) (hrest : e = { d with states := e.states }) (hbelow : d.Below e)
    (hback : e.states.find? (backState g) = d.states.find? (backState g)) : e.Turns g K := by
  have hchains : e.chains = d.chains := by rw [hrest]
  refine ⟨?_, ?_, ?_, ?_, ?_, ?_⟩
  . rw [hrest]
    exact h.guard
  . rw [hrest]
    exact h.features
  . rw [hrest]
    exact h.orderly
  . rw [hrest]
    exact h.bound
  . intro name hname
    rw [hchains] at hname
    obtain ⟨heq, hruled⟩ := h.made name hname
    exact ⟨heq, hruled.mono hbelow⟩
  . rw [hchains, hback]
    exact h.unmade

theorem withGuard (h : d.Turns d.guard K) (hle : d.guard.size ≤ g.size) : (d.withGuard g).Turns g K := by
  have hinjective : Function.Injective (d.guard.rename g) := fun _ _ => Guard.rename_injective hle
  refine ⟨rfl, h.features, h.orderly.mapNames hinjective, ?_, ?_, ?_⟩
  . exact List.mem_map.mpr ⟨.boundLeft, h.bound, rfl⟩
  . intro name hmem
    obtain ⟨⟨k, name₀⟩, hmem₀, heq⟩ := mem_chains_withGuard.mp hmem
    obtain ⟨hk, rfl⟩ := Prod.mk.inj heq
    rw [← mapNames_backKey (g := d.guard)] at hk
    obtain rfl := ChainKey.mapNames_injective hinjective hk
    obtain ⟨rfl, hback⟩ := h.made name₀ hmem₀
    exact ⟨rename_backState, hback.withGuard hle⟩
  . intro hnever
    rw [← rename_backState (g := d.guard), find?_withGuard hle, h.unmade, Option.map_none]
    intro name hmem
    apply hnever (d.guard.rename g name)
    rw [← mapNames_backKey (g := d.guard)]
    exact mem_chains_withGuard.mpr ⟨_, hmem, rfl⟩

theorem exists_provide (h : d.Turns g K) (n : Nat) :
    ∃ e, (Relay.continuation .left (stepState g)).provide n d = .ok (backState g) e ∧ e.Turns g K
      ∧ e.Back g K ∧ d.Below e ∧ e.alphabet = d.alphabet
      ∧ ∀ s, s ≠ backState g → e.states.find? s = d.states.find? s := by
  have hgo (e : Draft) (n : Nat) : Build.transition.go n (backState g) .any .keep .left (stepState g) e
      = Build.direct (backState g) .any .keep .left (stepState g) e := by
    cases n with
    | zero => rfl
    | succ n => rw [Build.transition_go_succ, if_pos (FeatureSet.supports_of_distance rfl)]
  rcases Build.chain_ok (backKey g) d with ⟨name, hchain, hmem⟩ | ⟨hchain, hfresh⟩
  . obtain ⟨rfl, hback⟩ := h.made name hmem
    refine ⟨d, ?_, h, hback, .refl d, rfl, fun _ _ => rfl⟩
    rw [Relay.provide]
    exact Build.bind_of_ok hchain _
  . -- There are no rules in its way when it is made.
    have hnone := h.unmade fun name hmem => hfresh _ hmem rfl
    rw [h.guard] at hchain
    have hadmits : (d.withChain (backKey g)).Admits (backState g) .any :=
      .of_find? hnone List.nodup_nil (List.forall_mem_nil _)
    obtain ⟨e, hdirect⟩ := Build.exists_direct (d := d.withChain (backKey g)) (fun _ => h.orderly) hadmits
      .keep .left (stepState g)
    have hadds := Build.direct_adds hdirect
    have hruled : e.Ruled [.boundLeft] (backState g) .keep .left (stepState g) := by
      rw [Ruled, List.forall_mem_singleton]
      apply hadds.new _ trivial fun _ => h.bound
      change d.states.lookup (backState g) .boundLeft = none
      rw [StateTables.lookup, hnone, Option.bind_none]
    refine ⟨e, ?_, ?_, .inr hruled, ?_, hadds.alphabet, hadds.other⟩
    . rw [Relay.provide]
      refine (Build.bind_of_ok hchain _).trans ?_
      exact Build.bind_of_ok ((hgo _ n).trans hdirect) _
    . refine ⟨hadds.guard.trans h.guard, ?_, ?_, ?_, ?_, ?_⟩
      . rw [hadds.features]
        exact h.features
      . rw [hadds.alphabet]
        exact h.orderly
      . rw [hadds.alphabet]
        exact h.bound
      . intro name hmem
        refine ⟨?_, .inr hruled⟩
        rw [hadds.chains, mem_withChain, h.guard] at hmem
        rcases hmem with hmem | hmem
        . exact (h.made name hmem).1
        . exact (Prod.mk.inj hmem).2
      . intro hnever
        refine absurd ?_ (hnever (backState g))
        rw [hadds.chains, mem_withChain, h.guard]
        exact .inr rfl
    . exact ⟨hadds.below.accepts, hadds.below.lookup⟩

end Turns

namespace Resumes

theorem of_states (h : d.Resumes g K) (hrest : e = { d with states := e.states }) (hbelow : d.Below e)
    (hback : e.states.find? (backState g) = d.states.find? (backState g))
    (hlookup : ∀ s, ReadsNames g s → ∀ c, e.states.lookup s c = d.states.lookup s c) :
    e.Resumes g K := by
  refine ⟨h.toTurns.of_states hrest hbelow hback, ?_, ?_, ?_⟩
  . intro s hs
    rw [hlookup s hs]
    exact h.plain s hs
  . intro q hq
    rw [hlookup _ (.inl rfl), hlookup _ (.inr rfl)]
    exact h.known q hq
  . intro q hq hne
    rw [hlookup _ (.inl rfl)] at hne
    exact (h.returns q hq hne).mono hbelow

theorem addSymbol (h : d.Resumes g K) (q : String) :
    ((Build.addSymbol (.state q)).after d).Resumes g K := by
  have hbelow : d.Below ((Build.addSymbol (.state q)).after d) :=
    (Build.addSymbol_amends (S := fun _ => True) (.state q) d (.refl d)).below
  refine ⟨⟨h.guard, h.features, h.orderly.add q, Alphabet.mem_symbols_add.mpr (.inl h.bound), ?_, h.unmade⟩,
    h.plain, h.known, ?_⟩
  . intro name hname
    obtain ⟨heq, hback⟩ := h.made name hname
    exact ⟨heq, hback.mono hbelow⟩
  . intro q' hq' hne
    exact (h.returns q' hq' hne).mono hbelow

theorem chain (h : d.Resumes g K) {k : ChainKey} (hk : k ≠ backKey g) (parts : List String) :
    ((Build.chain k parts).after d).Resumes g K := by
  rw [Build.after, Build.chain_apply]
  cases d.chains.find? (·.1 = k) with
  | some e => exact h
  | none =>
    have hmem (name : String) : (backKey g, name) ∈ d.chains ++ [(k, d.guard.wrap parts)]
        ↔ (backKey g, name) ∈ d.chains := by
      simp [Ne.symm hk]
    refine ⟨⟨h.guard, h.features, h.orderly, h.bound, ?_, ?_⟩, h.plain, h.known, fun q hq hne => ?_⟩
    . intro name hname
      exact h.made name ((hmem name).mp hname)
    . intro hnever
      exact h.unmade fun name hname => hnever name ((hmem name).mpr hname)
    . exact (h.returns q hq hne).mono ⟨fun _ => id, fun _ _ _ => id⟩

theorem withGuard (h : d.Resumes d.guard K) (hle : d.guard.size ≤ g.size) :
    (d.withGuard g).Resumes g K := by
  have hlater : d.Later (d.withGuard g) := .withGuard hle
  refine ⟨h.toTurns.withGuard hle, ?_, ?_, ?_⟩
  . intro s hs
    obtain ⟨s₀, hs₀, rfl⟩ := hs.rename (g := d.guard)
    rw [lookup_withGuard hle fun _ => rfl, h.plain s₀ hs₀, Option.map_none]
  . intro q hq hnone
    by_contra hdone
    rw [← rename_growPart (g := d.guard) (by decide)] at hdone
    obtain ⟨q₀, rfl, hdone₀⟩ := exists_name_of_withGuard hle (h.plain _ (.inr rfl)) hdone
    rw [Guard.isTerminal_rename hle] at hq
    refine hdone₀ (h.known q₀ hq ?_)
    rw [← rename_stepState (g := d.guard), lookup_name_withGuard hle, Option.map_eq_none_iff] at hnone
    exact hnone
  . intro q hq hstep
    rw [← rename_stepState (g := d.guard)] at hstep
    obtain ⟨q₀, rfl, hstep₀⟩ := exists_name_of_withGuard hle (h.plain _ (.inl rfl)) hstep
    rw [Guard.isTerminal_rename hle] at hq
    have hreturns := h.returns q₀ hq hstep₀
    refine ⟨hlater.accepts _ hreturns.accepts, hreturns.rules.imp ?_ ?_⟩
    . intro hruled
      have := hruled.later hlater
      rwa [rename_growPart (by decide), rename_stepState] at this
    . rintro ⟨hruled, hback⟩
      have := hruled.later hlater
      rw [rename_growPart (by decide), rename_backState] at this
      exact ⟨this, hback.withGuard hle⟩

end Resumes

end Draft

namespace Route

theorem Passes.exists_rooted {r : Route} {s : String} (h : r.Passes s) :
    ∃ c q cs, c ≠ '_' ∧ s.toList = r.guard.rooted c q cs := by
  have hsearch (z : String) : (r.searchRoot ++ z).toList = r.guard.rooted 's' r.origin z.toList := by
    simp [searchRoot, Guard.rooted, Guard.text]
  have happly (n : Nat) (z : String) :
      ∃ c q cs, c ≠ '_' ∧ (r.applyState n ++ z).toList = r.guard.rooted c q cs := by
    have hroot (z : String) : (r.applyRoot ++ z).toList = r.guard.rooted 'a' r.next z.toList := by
      simp [applyRoot, Guard.rooted, Guard.text]
    cases n with
    | zero => exact ⟨_, _, _, by decide, hroot z⟩
    | succ n =>
      rw [applyState, String.append_assoc, String.append_assoc]
      exact ⟨_, _, _, by decide, hroot _⟩
  cases h with
  | find n =>
    cases n with
    | zero => exact ⟨'s', _, _, by decide, by simpa [findState] using hsearch ""⟩
    | succ n =>
      rw [findState]
      split
      . simpa using happly (n + 1) ""
      . rw [String.append_assoc]
        exact ⟨_, _, _, by decide, hsearch _⟩
  | apply n => simpa using happly n ""
  | tag n => exact happly n "-markHead"
  | record => exact happly 0 "-doRecord"

end Route

namespace Segment

def Aside (g : Guard) (s : String) : Prop := s ≠ backState g ∧ ¬ ReadsNames g s

theorem aside_of_passes {r : Route} {s : String} (h : r.Passes s) : Aside r.guard s := by
  obtain ⟨c, q, cs, hc, hlist⟩ := h.exists_rooted
  refine ⟨?_, ?_⟩
  . rintro rfl
    exact Guard.not_generates_rooted hc hlist (generates_backState _)
  . rintro (rfl | rfl)
    . exact (serves_stepState _).ne_rooted hc q cs hlist
    . exact (serves_growPart _ (by decide)).ne_rooted hc q cs hlist

theorem aside_of_free {g : Guard} {s : String} (h : g.Free s) : Aside g s := by
  refine ⟨?_, ?_⟩
  . rintro rfl
    exact (generates_backState g).not_free h
  . rintro (heq | heq)
    . exact h.ne_text_append _ heq
    . rw [growPart, growState, String.append_assoc, String.append_assoc] at heq
      exact h.ne_text_append _ heq

theorem continuation_ne_backKey {g : Guard} {next : String} (h : next ≠ stepState g) (m : Move) :
    ChainKey.continuation m next ≠ backKey g := by
  intro heq
  simp only [backKey, ChainKey.mk.injEq, List.cons.injEq, and_true, true_and] at heq
  exact h heq.2

theorem aside_relay {g : Guard} {next : String} (h : next ≠ stepState g) (m : Move) :
    Aside g (g.wrap [m.display, next]) := by
  have hgenerates : g.Generates (g.wrap [m.display, next]) := ⟨_, _, .inl rfl⟩
  refine ⟨?_, ?_⟩
  . intro heq
    exact continuation_ne_backKey h m ((ChainKey.Formed.continuation m next).eq_of_wrap
      (.continuation .left (stepState g)) (.inl rfl) heq)
  . rintro (heq | heq)
    . exact (serves_stepState g).not_generates (heq ▸ hgenerates)
    . exact (serves_growPart g (by decide)).not_generates (heq ▸ hgenerates)

end Segment

namespace Build

open Draft (Resumes Turns)
open Segment

variable {g : Guard} {K : Prop}

theorem direct_resumes {s : String} (hs : Aside g s) (read : Pattern) (w : Writing) (m : Move)
    (next : String) : Maintains (Resumes g K) (direct s read w m next) := by
  intro d hd
  have hamends := direct_amends (S := (· = s)) rfl read w m next d (.refl d)
  apply hd.of_states (direct_rest s read w m next d) hamends.below
  . exact hamends.other _ (Ne.symm hs.1)
  . intro s' hs' c
    apply hamends.lookup_other
    rintro rfl
    exact hs.2 hs'

theorem transition_resumes {s next : String} (hs : Aside g s) (hnext : next ≠ stepState g)
    (read : Pattern) (w : Writing) (m : Move) :
    Maintains (Resumes g K) (transition s read w m next) :=
  transition_go_maintains (fun _ hd => hd.guard) (fun _ hs => direct_resumes hs)
    (fun m _ hd => hd.chain (continuation_ne_backKey hnext m) _) (aside_relay hnext) _ hs read w m

end Build

namespace Draft

open Segment Build

variable {g : Guard} {K : Prop} {d e : Draft} {q : String}

theorem Turns.of_adds {s : String} {p : Pattern} {R : Cell → Outcome → Prop} (h : d.Turns g K)
    (hadds : d.Adds s p R e) (hs : s ≠ backState g) : e.Turns g K :=
  h.of_states hadds.rest hadds.below (hadds.other _ (Ne.symm hs))

structure Enters (g : Guard) (K : Prop) (q : String) (d e : Draft) : Prop where
  turns : e.Turns g K
  below : d.Below e
  step : ∀ c, e.states.lookup (stepState g) c = d.states.lookup (stepState g) c
  done : ∀ c, c ≠ .state q →
    e.states.lookup (growPart g "done") c = d.states.lookup (growPart g "done") c
  returns : d.states.lookup (growPart g "done") (.state q) = none →
    d.alphabet.accepts (.state q) = true → e.Returns g K q

theorem Turns.enters_direct (h : d.Turns g K) (q : String) {m : Move} {next : String}
    (hnext : m = .stay ∧ next = stepState g ∨ m = .right ∧ next = backState g ∧ d.Back g K) :
    d.Enters g K q
      ((direct (growPart g "done") (.cell (.state q)) (.put (.state q)) m next).after d) := by
  have hdone : growPart g "done" ≠ backState g := ReadsNames.ne_backState (.inr rfl)
  rw [after]
  rcases direct_cell_cases (growPart g "done") (.state q) (.put (.state q)) m next d with
    ⟨e, hok, hadds⟩ | ⟨⟨err, e, herror, hadds⟩, hrefused⟩
  . rw [hok]
    refine ⟨h.of_adds hadds hdone, hadds.below, hadds.lookup_other (stepState_ne_done g),
      fun c hc => hadds.lookup_of_not_matches hc, ?_⟩
    intro hnone haccepts
    have hruled : e.Ruled [.state q] (growPart g "done") (.put (.state q)) m next := by
      rw [Ruled, List.forall_mem_singleton]
      exact hadds.new _ rfl (by simp) hnone
    refine ⟨hadds.below.accepts _ haccepts, ?_⟩
    rcases hnext with ⟨rfl, rfl⟩ | ⟨rfl, rfl, hback⟩
    . exact .inl hruled
    . exact .inr ⟨hruled, hback.mono hadds.below⟩
  . rw [herror]
    refine ⟨h.of_adds hadds hdone, hadds.below, hadds.lookup_other (stepState_ne_done g),
      fun c _ => hadds.lookup_of_not_matches List.not_mem_nil, ?_⟩
    intro hnone haccepts
    rw [hrefused hnone] at haccepts
    cases haccepts

theorem Turns.enters (h : d.Turns g K) (q : String) :
    d.Enters g K q ((directive (.replace (growPart g "done") (.state q) (.state q) .stay
      (stepState g))).after d) := by
  change d.Enters g K q ((transition.go (0 + 1) _ _ _ _ _).after d)
  by_cases hsupports : d.features.supports .stay = true
  . rw [after, transition_go_succ, if_pos hsupports]
    exact h.enters_direct q (.inl ⟨rfl, rfl⟩)
  . obtain ⟨e, hprovide, hturns, hback, hbelow, halphabet, hother⟩ := h.exists_provide 0
    have hlookup (s : String) (hs : ReadsNames g s) (c : Cell) :
        e.states.lookup s c = d.states.lookup s c := by
      rw [StateTables.lookup, hother s hs.ne_backState, StateTables.lookup]
    have henters := hturns.enters_direct q (.inr ⟨rfl, rfl, hback⟩)
    rw [after, transition_go_succ, if_neg hsupports]
    have hbind := bind_of_ok hprovide fun state =>
      direct (growPart g "done") (.cell (.state q)) (.put (.state q)) .right state
    rw [show Move.stay.detour = (.right, .left) from rfl, hbind]
    refine ⟨henters.turns, hbelow.trans henters.below, ?_, ?_, ?_⟩
    . intro c
      rw [← hlookup _ (.inl rfl)]
      exact henters.step c
    . intro c hc
      rw [← hlookup _ (.inr rfl)]
      exact henters.done c hc
    . rw [← hlookup _ (.inr rfl), ← halphabet]
      exact henters.returns

theorem Resumes.of_enters {d₁ : Draft} {R : Cell → Outcome → Prop} (h : d.Resumes g K)
    (hadds : d.Adds (stepState g) (.cell (.state q)) R d₁) (henters : d₁.Enters g K q e) :
    e.Resumes g K := by
  have hnone := hadds.free nofun _ rfl
  obtain ⟨o, _, hsome⟩ := hadds.new _ rfl nofun hnone
  -- Nothing changes for other cells, such as the names of other states.
  have hstep {c : Cell} (hc : c ≠ .state q) :
      e.states.lookup (stepState g) c = d.states.lookup (stepState g) c :=
    (henters.step c).trans (hadds.lookup_of_not_matches hc)
  have hdone {c : Cell} (hc : c ≠ .state q) :
      e.states.lookup (growPart g "done") c = d.states.lookup (growPart g "done") c :=
    (henters.done c hc).trans (hadds.lookup_other (stepState_ne_done _).symm c)
  have hname {q' : String} (hq : q' ≠ q) : Cell.state q' ≠ .state q := by
    simpa [Cell.state] using hq
  have hjoint : Cell.joint [] ≠ .state q := by simp [Cell.state]
  refine ⟨henters.turns, ?_, ?_, ?_⟩
  . rintro s (rfl | rfl)
    . exact (hstep hjoint).trans (h.plain _ (.inl rfl))
    . exact (hdone hjoint).trans (h.plain _ (.inr rfl))
  . intro q' hq' hunknown
    have hne : q' ≠ q := by
      rintro rfl
      rw [henters.step, hsome] at hunknown
      cases hunknown
    rw [hstep (hname hne)] at hunknown
    rw [hdone (hname hne)]
    exact h.known q' hq' hunknown
  . intro q' hq' hknown
    by_cases hne : q' = q
    . subst hne
      apply henters.returns
      . rw [hadds.lookup_other (stepState_ne_done _).symm]
        exact h.known _ hq' hnone
      . rw [hadds.alphabet]
        exact hadds.accepted nofun _ rfl
    . rw [hstep (hname hne)] at hknown
      exact (h.returns q' hq' hknown).mono (hadds.below.trans henters.below)

end Draft

namespace Build

open Draft (Resumes)
open Segment

variable {g : Guard} {K : Prop}

theorem after_bind_of_ok {x : Build Unit} {d e : Draft} (h : x d = .ok () e) (y : Unit → Build Unit) :
    (x >>= y).after d = (y ()).after e := by
  rw [after, bind_of_ok h, after]

theorem after_bind_of_error {x : Build Unit} {d e : Draft} {err : RequestError} (h : x d = .error err e)
    (y : Unit → Build Unit) : (x >>= y).after d = e := by
  rw [after, bind_of_error h]

theorem entry_resumes {r : Route} (hr : r.guard = g) :
    Maintains (Resumes g K) (directives r.entry) := by
  subst hr
  intro d hd
  have hfirst : directive (.replace (stepState r.guard) (.state r.origin) .blank .right (r.findState 0)) d
      = direct (stepState r.guard) (.cell (.state r.origin)) (.put .blank) .right (r.findState 0) d :=
    transition_of_distance rfl _ _ _ _ d
  have hback : stepState r.guard ≠ backState r.guard := ReadsNames.ne_backState (.inl rfl)
  have hentry : directives r.entry = (do
      directive (.replace (stepState r.guard) (.state r.origin) .blank .right (r.findState 0))
      directive (.replace (growPart r.guard "done") (.state r.origin) (.state r.origin) .stay
        (stepState r.guard))) := by
    change (directive _ >>= fun _ => [_].forM directive) = _
    simp only [forM_singleton]
  rw [hentry]
  rcases direct_cell_cases (stepState r.guard) (.state r.origin) (.put .blank) .right (r.findState 0) d with
    ⟨d₁, hok, hadds⟩ | ⟨⟨err, e, herror, hadds⟩, _⟩
  . rw [after_bind_of_ok (hfirst.trans hok)]
    exact hd.of_enters hadds ((hd.toTurns.of_adds hadds hback).enters r.origin)
  . rw [after_bind_of_error (hfirst.trans herror)]
    apply hd.of_states hadds.rest hadds.below (hadds.other _ (Ne.symm hback))
    intro s hs c
    by_cases heq : s = stepState r.guard
    . subst heq
      exact hadds.lookup_of_not_matches List.not_mem_nil
    . exact hadds.lookup_other heq c

theorem route_resumes {r : Route} (hr : r.guard = g) : Maintains (Resumes g K) (route r) := by
  have hnext (s : String) (hs : r.Passes s ∨ s = growState r.guard) : s ≠ stepState g := by
    rintro rfl
    rcases hs with hs | hs
    . exact (aside_of_passes hs).2 (.inl (by rw [hr]))
    . rw [hr] at hs
      simp [stepState, growState] at hs
  apply route_maintains
  . intro origin next horigin hpass read w m
    exact transition_resumes (hr ▸ aside_of_passes horigin) (hnext next hpass) read w m
  . exact fun d hd => hd.addSymbol r.origin
  . exact entry_resumes hr

theorem jointTransition_resumes (t : JointTransition) :
    Maintains (Resumes g K) (jointTransition t) := by
  refine jointTransition_go_maintains ?_ ?_ _ t
  . intro k parts hk d hd
    apply hd.chain
    rintro rfl
    cases hk
  . exact fun t => jointTransition_direct_maintains (fun _ hd => hd.features) (fun _ hd => hd.guard)
      fun _ hr _ => route_resumes hr

end Build

namespace Draft

open Segment

variable {d : Draft} {K : Prop}

theorem Resumes.avoid (h : d.Resumes d.guard K) (name : String) :
    (d.avoid name).Resumes (d.avoid name).guard K :=
  avoid_induction (P := fun e => e.Resumes e.guard K) name h fun _ hlt => h.withGuard (Nat.le_of_lt hlt)

theorem Resumes.addState {g : Guard} (h : d.Resumes g K) {name : String} (hname : g.Free name) :
    ((Build.addState name).after d).Resumes g K := by
  have hadds : d.Adds name (.oneOf []) (fun _ _ => True) ((Build.addState name).after d) :=
    .of_addState rfl
  have haside := aside_of_free hname
  apply h.of_states hadds.rest hadds.below (hadds.other _ (Ne.symm haside.1))
  intro s hs c
  apply hadds.lookup_other
  rintro rfl
  exact haside.2 hs

/-- Once several tapes are open, no request disturbs the way in which states are taken up. -/
theorem Resumes.receive {n : Nat} (h : d.Resumes d.guard K) (htapes : d.tapes = .multi n)
    (rs : List Request) : (d.receive rs).Resumes (d.receive rs).guard K := by
  induction rs generalizing d with
  | nil => exact h
  | cons r rs ih =>
    rw [receive_cons]
    apply ih
    . apply of_submit_multi (I := fun d => d.Resumes d.guard K) htapes h
      . exact fun d name hd => hd.avoid name
      . intro d name hd hname
        exact hd.addState hname
      . intro d t hd _ _ _
        have hjoint := Build.jointTransition_resumes t d hd
        rwa [hjoint.guard]
    . rw [(later_submit (by rw [htapes]; nofun) r).tapes, htapes]

theorem Opened.resumes {A : Alphabet} {first : String} {n : Nat} (hd : d.Opened first n A) :
    d.Resumes d.guard (∃ name, (backKey d.guard, name) ∈ d.chains) := by
  obtain ⟨names, h⟩ := hd.executed
  have hA := hd.heads
  generalize hguard : d.guard = g at h
  have horderly : d.alphabet.IsOrderly := hd.alphabet ▸ hd.orderly
  have hserved {s : String} {c : Cell} (hs : ReadsNames g s) (hlookup : d.states.lookup s c ≠ none) :
      c ∈ cells A ∨ s = growPart g "done" ∧ ∃ v : Verdict, c = .state v.state := by
    have hforeign : ¬ g.Generates s := by
      rcases hs with rfl | rfl
      . exact (serves_stepState g).not_generates
      . exact (serves_growPart g (by decide)).not_generates
    obtain ⟨x, hx, hserves⟩ := h.exists_serves hforeign hlookup
    rcases List.mem_append.mp hx with hx | hx
    . obtain ⟨name, _, rfl⟩ := List.mem_map.mp hx
      rw [Directive.not_serves_idle] at hserves
      cases hserves
    . exact mem_cells_of_serves hA hx hs hserves
  have hsound := h.obeys.sound
  refine ⟨⟨h.guard, hd.features, horderly, hsound.symbols _ (by simp [cells]), ?_, ?_⟩, ?_, ?_, ?_⟩
  . intro name hmem
    refine ⟨?_, .inl ⟨name, hmem⟩⟩
    have hname := (hsound.formed _ hmem (by simp [backKey])).2
    rw [h.guard] at hname
    exact hname
  . intro hnever
    have hfind := hsound.find?_fresh (k := backKey g) (.continuation .left (stepState g)) (.inl rfl)
      fun e he heq => hnever e.2 (heq ▸ he)
    rw [h.guard] at hfind
    exact hfind
  . intro s hs
    by_contra hlookup
    rcases hserved hs hlookup with hmem | ⟨_, v, hv⟩
    . obtain ⟨m, tag, hatom⟩ := exists_atom hA hmem
      cases hatom
    . cases hv
  . intro q hq _
    by_contra hlookup
    rcases hserved (.inr rfl) hlookup with hmem | ⟨_, v, hv⟩
    . exact hA.display_ne_state hmem q rfl
    . cases hv
      rw [Machine.isTerminal_state] at hq
      cases hq
  . intro q _ hlookup
    rcases hserved (.inl rfl) hlookup with hmem | ⟨hdone, _⟩
    . exact absurd rfl (hA.display_ne_state hmem q)
    . exact absurd hdone (stepState_ne_done g)

end Draft

end TuringLowering
