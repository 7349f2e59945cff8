import TuringLowering.Proofs.OwnTapes
import TuringLowering.Proofs.Resumption

/-!
This module contains from which states a simulated step can begin: from each one that a joint transition was
accepted for. Such a transition may have nothing to add, where the heads are looked for already. But states
that look for them are made for a state only after the rule by which a step from it begins.
-/

namespace TuringLowering

namespace Guard

variable {g g' : Guard} {q q' s : String}

/-- The names of the states that look for the heads in a step from a state. -/
inductive Searches (g : Guard) (q : String) : String → Prop where
  | root : Searches g q (g.text ++ "s_" ++ q ++ g.text)
  | found (z : String) : Searches g q (g.text ++ "s_" ++ q ++ g.text ++ "_f" ++ z)

/-- Names that cannot be taken for one of these, whatever the state. -/
inductive Elsewhere (g : Guard) : String → Prop where
  | clean {s : String} (hs : Clean s) : Elsewhere g s
  | behind (sep : String) (hsep : sep = "_" ∨ sep = "a_") (z : String) : Elsewhere g (g.text ++ sep ++ z)

theorem Searches.rename (h : g.Searches q s) (g' : Guard) :
    g'.Searches (g.rename g' q) (g.rename g' s) := by
  have hroot : g.rename g' (g.text ++ "s_" ++ q ++ g.text)
      = g'.text ++ "s_" ++ g.rename g' q ++ g'.text := by
    rw [rename_append_text, rename_append_append _ _ (by decide) (by decide), rename_text]
  cases h with
  | root =>
    rw [hroot]
    exact .root
  | found z =>
    rw [rename_append_append _ _ (by decide) (by decide), hroot]
    exact .found _

theorem Elsewhere.rename (h : g.Elsewhere s) (g' : Guard) : g'.Elsewhere (g.rename g' s) := by
  cases h with
  | clean hs =>
    rw [rename_of_clean hs]
    exact .clean hs
  | behind sep hsep z =>
    have hseparates : sep.toList ≠ [] ∧ Clean sep := by
      rcases hsep with rfl | rfl <;> decide
    rw [rename_append_append _ _ hseparates.1 hseparates.2, rename_text]
    exact .behind sep hsep _

theorem Named.rename (h : g.Named q) (hle : g.size ≤ g'.size) : g'.Named (g.rename g' q) := by
  rcases h with hq | ⟨moves, next, hmoves, hnext, rfl⟩
  . rw [rename_of_free hq]
    exact .inl (hq.mono hle)
  . refine .inr ⟨moves, next, hmoves, hnext.mono hle, ?_⟩
    rw [pending, rename_wrap, List.map_cons, List.map_cons, List.map_nil,
      rename_of_clean (clean_moves moves), rename_of_free hnext, pending]

theorem Searches.exists_rooted (h : g.Searches q s) : ∃ cs, IsTail cs ∧ s.toList = g.rooted 's' q cs := by
  cases h with
  | root => exact ⟨[], ⟨nofun, nofun⟩, by simp [rooted, text]⟩
  | found z =>
    refine ⟨'_' :: 'f' :: z.toList, ⟨?_, ?_⟩, by simp [rooted, text]⟩
    . rw [List.head?_cons]
      decide
    . rintro c cs heq
      obtain ⟨rfl, _⟩ := List.cons.inj (List.cons.inj heq).2
      decide

theorem Searches.unique (h : g.Searches q s) (h' : g.Searches q' s) (hq : g.Named q) (hq' : g.Named q') :
    q = q' := by
  obtain ⟨cs, hcs, hlist⟩ := h.exists_rooted
  obtain ⟨cs', hcs', hlist'⟩ := h'.exists_rooted
  exact (rooted_inj hq hq' hcs hcs' (hlist.symm.trans hlist')).2.1

theorem Elsewhere.not_searches (h : g.Elsewhere s) (q : String) : ¬ g.Searches q s := by
  intro hs
  obtain ⟨cs, _, hlist⟩ := hs.exists_rooted
  cases h with
  | clean hclean => exact Serves.ne_rooted (.inl hclean) (by decide) q cs hlist
  | behind sep hsep z =>
    rcases hsep with rfl | rfl <;> simp [rooted, text] at hlist

theorem elsewhere_of_toList {cs : List Char} (h : s.toList = run g.size ++ '_' :: cs) : g.Elsewhere s := by
  have hs : s = g.text ++ "_" ++ String.ofList cs := by
    apply String.toList_injective
    simp [h, text]
  exact hs ▸ .behind _ (.inl rfl) _

theorem Serves.elsewhere (h : g.Serves s) : g.Elsewhere s := by
  rcases h with hclean | ⟨text, _, htext⟩
  . exact .clean hclean
  . exact elsewhere_of_toList htext

theorem Generates.elsewhere (h : g.Generates s) : g.Elsewhere s := by
  obtain ⟨cs, _, hlist⟩ := toList_of_generates h
  exact elsewhere_of_toList hlist

end Guard

theorem Segment.ReadsNames.elsewhere {g : Guard} {s : String} (h : ReadsNames g s) : g.Elsewhere s := by
  rcases h with rfl | rfl
  . exact (serves_stepState g).elsewhere
  . exact (serves_growPart g (by decide)).elsewhere

namespace Route

variable {r : Route} {s : String}

theorem elsewhere_applyState_append (r : Route) (n : Nat) (z : String) :
    r.guard.Elsewhere (r.applyState n ++ z) := by
  cases n with
  | zero =>
    rw [applyState, applyRoot, String.append_assoc, String.append_assoc]
    exact .behind _ (.inr rfl) _
  | succ n =>
    simp only [applyState, applyRoot, String.append_assoc]
    rw [← String.append_assoc]
    exact .behind _ (.inr rfl) _

theorem findState_cases (r : Route) (n : Nat) :
    r.guard.Searches r.origin (r.findState n)
      ∨ n = r.reads.length ∧ r.guard.Elsewhere (r.findState n) := by
  cases n with
  | zero => exact .inl .root
  | succ n =>
    rw [findState_succ]
    split
    . next hlength =>
      have := r.elsewhere_applyState_append (n + 1) ""
      rw [String.append_empty] at this
      exact .inr ⟨hlength, this⟩
    . exact .inl (.found _)

theorem Passes.cases (h : r.Passes s) : r.guard.Elsewhere s ∨ r.guard.Searches r.origin s := by
  cases h with
  | find n => exact (r.findState_cases n).symm.imp_left And.right
  | apply n =>
    have := r.elsewhere_applyState_append n ""
    rw [String.append_empty] at this
    exact .inl this
  | tag n => exact .inl (r.elsewhere_applyState_append n _)
  | record => exact .inl (r.elsewhere_applyState_append 0 _)

end Route

namespace Draft

open Segment

/-- Whether a simulated step can begin in a state. -/
def StepsFrom (g : Guard) (d : Draft) (q : String) : Prop := d.states.lookup (stepState g) (.state q) ≠ none

/-- The heads are looked for only in steps that can begin. -/
structure Founded (g : Guard) (d : Draft) : Prop where
  guard : d.guard = g
  features : d.features.enabled .multiTape = false
  blank : .blank ∈ d.alphabet.declared
  founds : ∀ s c, d.states.lookup s c ≠ none →
    g.Elsewhere s ∨ ∃ q, g.Named q ∧ g.Searches q s ∧ d.StepsFrom g q

variable {g : Guard} {d e : Draft} {q : String}

theorem StepsFrom.mono (h : d.StepsFrom g q) (he : d.Below e) : e.StepsFrom g q := by
  obtain ⟨o, ho⟩ := Option.ne_none_iff_exists'.mp h
  rw [StepsFrom, he.lookup _ _ _ ho]
  nofun

theorem StepsFrom.withGuard (h : d.StepsFrom d.guard q) (hle : d.guard.size ≤ g.size) :
    (d.withGuard g).StepsFrom g (d.guard.rename g q) := by
  rw [StepsFrom, ← rename_stepState (g := d.guard), lookup_name_withGuard hle, Ne, Option.map_eq_none_iff]
  exact h

namespace Founded

theorem stepsFrom (h : d.Founded g) (hq : g.Named q) {s : String} (hs : g.Searches q s) {c : Cell}
    (hlookup : d.states.lookup s c ≠ none) : d.StepsFrom g q := by
  rcases h.founds s c hlookup with helsewhere | ⟨q', hq', hs', hsteps⟩
  . exact absurd hs (helsewhere.not_searches q)
  . obtain rfl := hs.unique hs' hq hq'
    exact hsteps

theorem of_amends {S : String → Prop} (h : d.Founded g) (he : d.Amends S e)
    (hS : ∀ s, S s → g.Elsewhere s ∨ ∃ q, g.Named q ∧ g.Searches q s ∧ e.StepsFrom g q) : e.Founded g := by
  refine ⟨he.guard.trans h.guard, he.features ▸ h.features, he.declared ▸ h.blank, ?_⟩
  intro s c hlookup
  by_cases hs : S s
  . exact hS s hs
  . rw [he.lookup_other hs] at hlookup
    refine (h.founds s c hlookup).imp_right ?_
    rintro ⟨q, hq, hsearches, hsteps⟩
    exact ⟨q, hq, hsearches, hsteps.mono he.below⟩

theorem withGuard (h : d.Founded d.guard) (hle : d.guard.size ≤ g.size) : (d.withGuard g).Founded g := by
  have hlater : d.Later (d.withGuard g) := .withGuard hle
  refine ⟨rfl, h.features, hlater.declared ▸ h.blank, ?_⟩
  intro s c hlookup
  have hfind : (d.withGuard g).states.find? s ≠ none := by
    intro hnone
    rw [StateTables.lookup, hnone] at hlookup
    exact hlookup rfl
  obtain ⟨s₀, rfl, _⟩ := exists_of_find?_withGuard hle hfind
  have hlookup₀ : ∃ c₀, d.states.lookup s₀ c₀ ≠ none := by
    rcases lookup_of_withGuard hle hlookup with hall | ⟨c₀, _, hlookup₀⟩
    . exact ⟨c, hall c⟩
    . exact ⟨c₀, hlookup₀⟩
  obtain ⟨c₀, hlookup₀⟩ := hlookup₀
  rcases h.founds s₀ c₀ hlookup₀ with helsewhere | ⟨q, hq, hsearches, hsteps⟩
  . exact .inl (helsewhere.rename g)
  . exact .inr ⟨_, hq.rename hle, hsearches.rename g, hsteps.withGuard hle⟩

end Founded

end Draft

namespace Build

open Draft (Founded StepsFrom)
open Segment

variable {g : Guard} {d e : Draft}

theorem passage_amends {r : Route} {S : String → Prop} (hpasses : ∀ s, r.Passes s → S s)
    (hrelay : ∀ s, d.guard.Generates s → S s) : d.Amends S ((passage r).after d) := by
  apply passage_maintains _ d (.refl d)
  intro origin next horigin _ read w m
  exact transition_amends (hpasses _ horigin) (fun m => hrelay _ ⟨_, _, .inl rfl⟩) read w m

theorem passage_founded {r : Route} (hr : r.guard = g) (hq : g.Named r.origin) (hd : d.Founded g)
    (hsteps : d.StepsFrom g r.origin) : ((passage r).after d).Founded g := by
  subst hr
  have hamends : d.Amends (fun s => r.Passes s ∨ r.guard.Generates s) ((passage r).after d) :=
    passage_amends (fun _ => .inl) fun _ hs => .inr (hd.guard ▸ hs)
  refine hd.of_amends hamends ?_
  rintro s (hs | hs)
  . exact hs.cases.imp_right fun hsearches => ⟨_, hq, hsearches, hsteps.mono hamends.below⟩
  . exact .inl hs.elsewhere

theorem entry_founded {r : Route} (hr : r.guard = g) : Maintains (Founded g) (directives r.entry) := by
  subst hr
  intro d hd
  have hamends : d.Amends (fun s => ReadsNames r.guard s ∨ r.guard.Generates s)
      ((directives r.entry).after d) := by
    refine Maintains.forM (fun x hx => ?_) d (.refl d)
    refine directive_amends (fun s hs => .inr (hd.guard ▸ hs)) (.inl ?_)
    simp only [Route.entry, List.mem_cons, List.not_mem_nil, or_false] at hx
    rcases hx with rfl | rfl
    . exact .inl rfl
    . exact .inr rfl
  refine hd.of_amends hamends ?_
  rintro s (hs | hs)
  . exact .inl hs.elsewhere
  . exact .inl hs.elsewhere

theorem stepsFrom_of_entry {r : Route} (hok : directives r.entry d = .ok () e) :
    e.StepsFrom r.guard r.origin := by
  obtain ⟨d₁, hfirst, hrest⟩ := forM_cons_eq_ok.mp hok
  have hdirect := (transition_of_distance rfl _ _ _ _ d).symm.trans hfirst
  have hadds := direct_adds hdirect
  have hsteps : d₁.StepsFrom r.guard r.origin := by
    obtain ⟨o, _, hlookup⟩ := hadds.new _ rfl nofun (hadds.free nofun _ rfl)
    rw [Draft.StepsFrom, hlookup]
    nofun
  exact hsteps.mono ((directives_amend _).of_ok (.refl d₁) hrest).below

theorem route_founded {r : Route} (hr : r.guard = g) (hq : g.Named r.origin) :
    Maintains (Founded g) (route r) := by
  intro d hd
  rw [after, route_apply]
  by_cases hknown : (d.states.lookup (stepState r.guard) (.state r.origin)).isSome = true
  . rw [if_pos hknown]
    exact passage_founded hr hq hd (hr ▸ Option.isSome_iff_ne_none.mp hknown)
  . rw [if_neg hknown]
    -- The states that look for the heads are made only if the step can begin.
    have hsymbol : ((addSymbol (.state r.origin)).after d).Founded g :=
      hd.of_amends (S := fun _ => False) (addSymbol_amends _ d (.refl d)) fun _ h => h.elim
    generalize hd₁ : (addSymbol (.state r.origin)).after d = d₁ at hsymbol
    rw [bind_of_ok (show addSymbol (.state r.origin) d = .ok () d₁ from hd₁ ▸ rfl)]
    have hfounded := entry_founded hr d₁ hsymbol
    cases hentry : directives r.entry d₁ with
    | ok _ d₂ =>
      rw [after, hentry] at hfounded
      rw [bind_of_ok hentry]
      exact passage_founded hr hq hfounded (hr ▸ stepsFrom_of_entry hentry)
    | error err d₂ =>
      rw [after, hentry] at hfounded
      rw [bind_of_error hentry]
      exact hfounded

theorem stepsFrom_of_route {r : Route} (hok : route r d = .ok () e) : e.StepsFrom r.guard r.origin := by
  have hpassage {d : Draft} (hsteps : d.StepsFrom r.guard r.origin) (hok : passage r d = .ok () e) :
      e.StepsFrom r.guard r.origin := by
    have hamends : d.Amends (fun _ => True) ((passage r).after d) :=
      passage_amends (fun _ _ => trivial) fun _ _ => trivial
    rw [after, hok] at hamends
    exact hsteps.mono hamends.below
  rw [route_apply] at hok
  split at hok
  . next hknown => exact hpassage (Option.isSome_iff_ne_none.mp hknown) hok
  . obtain ⟨_, d₁, _, hok⟩ := bind_eq_ok.mp hok
    obtain ⟨_, d₂, hentry, hok⟩ := bind_eq_ok.mp hok
    exact hpassage (stepsFrom_of_entry hentry) hok

theorem stepsFrom_of_forM {routes : List Route} (hok : routes.forM route d = .ok () e) :
    ∀ r ∈ routes, e.StepsFrom r.guard r.origin := by
  induction routes generalizing d with
  | nil => exact List.forall_mem_nil _
  | cons r routes ih =>
    obtain ⟨d₁, hr, hrest⟩ := forM_cons_eq_ok.mp hok
    have hamends : d₁.Amends (fun _ => True) e :=
      (Maintains.forM fun r _ => route_amends r).of_ok (.refl d₁) hrest
    exact List.forall_mem_cons.mpr ⟨(stepsFrom_of_route hr).mono hamends.below, ih hrest⟩

section

variable {t : JointTransition}

theorem direct_apply (h : d.features.enabled .multiTape = false) :
    jointTransition.direct t d = simulated t.origin t.read t.writes t.moves t.next d := by
  rw [jointTransition.direct, bind_of_ok (enabled_apply _ _), h, if_neg Bool.false_ne_true]

theorem jointTransition_direct_founded (ht : g.Named t.origin) :
    Maintains (Founded g) (jointTransition.direct t) :=
  jointTransition_direct_maintains (fun _ hd => hd.features) (fun _ hd => hd.guard)
    fun _ hr horigin => route_founded hr (horigin ▸ ht)

theorem exists_chain_founded (hd : d.Founded g) (t : JointTransition) :
    ∃ state isNew d', chain t.pendingKey t.pendingKey.parts d = .ok (state, isNew) d' ∧ d'.Founded g
      ∧ (isNew = true → state = (t.remainder g).origin) := by
  rw [chain_apply]
  cases d.chains.find? (·.1 = t.pendingKey) with
  | some x => exact ⟨x.2, false, d, rfl, hd, nofun⟩
  | none =>
    refine ⟨_, true, _, rfl, ⟨hd.guard, hd.features, hd.blank, hd.founds⟩, fun _ => ?_⟩
    rw [hd.guard]
    rfl

theorem named_remainder (hnext : g.Free t.next) (hmoves : t.moves ≠ []) :
    g.Named (t.remainder g).origin ∧ (t.remainder g).moves ≠ [] := by
  have hrest : t.moves.map Move.rest ≠ [] := mt List.map_eq_nil_iff.mp hmoves
  exact ⟨.inr ⟨_, _, hrest, hnext, rfl⟩, hrest⟩

theorem jointTransition_go_founded (m : Nat) (horigin : g.Named t.origin) (hnext : g.Free t.next)
    (hmoves : t.moves ≠ []) : Maintains (Founded g) (jointTransition.go m t) := by
  induction m generalizing t with
  | zero => exact jointTransition_direct_founded horigin
  | succ m ih =>
    apply Maintains.enabled_bind
    intro _ _
    apply Maintains.enabled_bind
    intro _ _
    dsimp only
    split
    . intro d hd
      obtain ⟨state, isNew, d', hchain, hd', hnew⟩ := exists_chain_founded hd t
      have hlast : Maintains (Founded g)
          (jointTransition.direct { t with moves := t.moves.map Move.step, next := state }) :=
        jointTransition_direct_founded horigin
      rw [JointTransition.pendingKey] at hchain
      rw [after, bind_of_ok hchain]
      cases isNew with
      | false => exact hlast d' hd'
      | true =>
        obtain rfl := hnew rfl
        obtain ⟨hnamed, hrest⟩ := named_remainder hnext hmoves
        exact Maintains.bind (ih hnamed hnext hrest) (fun _ => hlast) d' hd'
    . exact jointTransition_direct_founded horigin

theorem stepsFrom_of_isKnown {r : Route} (hd : d.Founded g) (hr : r.guard = g) (hq : g.Named r.origin)
    (hknown : r.isKnown d = true) : d.StepsFrom g r.origin := by
  subst hr
  rw [Route.isKnown] at hknown
  cases hlast : r.reads.getLast? with
  | none =>
    rw [hlast] at hknown
    cases hknown
  | some c =>
    rw [hlast] at hknown
    have hpos : 0 < r.reads.length := List.length_pos_of_mem (List.mem_of_getLast? hlast)
    rcases r.findState_cases (r.reads.length - 1) with hsearches | ⟨hlength, _⟩
    . exact hd.stepsFrom hq hsearches (Option.isSome_iff_ne_none.mp hknown)
    . omega

theorem stepsFrom_of_direct (hd : d.Founded g) (horigin : g.Named t.origin)
    (hread : .oneOf [] ∉ t.read.perTape t.writes.length) (hok : jointTransition.direct t d = .ok () e) :
    e.StepsFrom g t.origin := by
  have hbelow : d.Below e := ((jointTransition_direct_amends t).of_ok (.refl d) hok).below
  obtain ⟨reads, hreads⟩ := JointPattern.exists_mem_combinations (List.ne_nil_of_mem hd.blank) hread
  rw [direct_apply hd.features, simulated, bind_of_ok (get_apply d)] at hok
  generalize hr : (⟨d.guard, t.origin, reads, Writing.ontoAll t.writes reads, t.moves, t.next⟩ : Route) = r
  have hguard : r.guard = g := by rw [← hr, hd.guard]
  have hfrom : r.origin = t.origin := by rw [← hr]
  have hmade {routes : List Route} (hmem : r ∈ routes) (hok : routes.forM route d = .ok () e) :
      e.StepsFrom g t.origin := by
    have := stepsFrom_of_forM hok r hmem
    rwa [hguard, hfrom] at this
  have hroute := List.mem_map_of_mem (f := fun reads => (⟨d.guard, t.origin, reads,
    Writing.ontoAll t.writes reads, t.moves, t.next⟩ : Route)) hreads
  rw [hr] at hroute
  by_cases hknown : r.isKnown d = true
  . rw [← hfrom]
    exact (stepsFrom_of_isKnown hd hguard (hfrom ▸ horigin) hknown).mono hbelow
  . split at hok
    . exact hmade (List.mem_filter.mpr ⟨hroute, by simpa using hknown⟩) hok
    . exact hmade hroute hok

theorem stepsFrom_of_jointTransition (hd : d.Founded g) (horigin : g.Named t.origin) (hnext : g.Free t.next)
    (hmoves : t.moves ≠ []) (hread : .oneOf [] ∉ t.read.perTape t.writes.length)
    (hok : jointTransition t d = .ok () e) : e.StepsFrom g t.origin := by
  rw [jointTransition] at hok
  generalize (t.moves.map Move.distance).foldl max 0 = m at hok
  cases m with
  | zero => exact stepsFrom_of_direct hd horigin hread hok
  | succ m =>
    cases hlong : t.moves.any Move.isLong with
    | false =>
      rw [go_short hlong] at hok
      exact stepsFrom_of_direct hd horigin hread hok
    | true =>
      have hsplit : (d.features.enabled .moveMulti && d.features.enabled .multiTape) = false := by
        rw [hd.features, Bool.and_false]
      obtain ⟨state, isNew, d₁, d₂, hchain, hrest, hdirect⟩ := go_eq_ok hok hsplit hlong
      obtain ⟨_, _, _, hchain', hd₁, hnew⟩ := exists_chain_founded hd t
      rw [hchain, EStateM.Result.ok.injEq, Prod.mk.injEq] at hchain'
      obtain ⟨⟨rfl, rfl⟩, rfl⟩ := hchain'
      have hd₂ : d₂.Founded g := by
        rcases hrest with ⟨_, rfl⟩ | ⟨htrue, hgo⟩
        . exact hd₁
        . obtain rfl := hnew htrue
          obtain ⟨hnamed, hrest⟩ := named_remainder hnext hmoves
          exact (jointTransition_go_founded m hnamed hnext hrest).of_ok hd₁ hgo
      exact stepsFrom_of_direct (t := { t with moves := t.moves.map Move.step, next := state }) hd₂ horigin
        hread hdirect

end

end Build

namespace Draft

open Segment

variable {d e : Draft}

theorem Founded.addState {g : Guard} (h : d.Founded g) (name : String) :
    ((Build.addState name).after d).Founded g := by
  have hlookup (s : String) (c : Cell) :
      ((Build.addState name).after d).states.lookup s c = d.states.lookup s c :=
    d.states.lookup_ensure name s c
  refine ⟨h.guard, h.features, h.blank, ?_⟩
  intro s c
  simp only [StepsFrom, hlookup]
  exact h.founds s c

theorem Founded.avoid (h : d.Founded d.guard) (name : String) :
    (d.avoid name).Founded (d.avoid name).guard :=
  avoid_induction (P := fun e => e.Founded e.guard) name h fun _ hlt => h.withGuard (Nat.le_of_lt hlt)

theorem Founded.receive {n : Nat} (h : d.Founded d.guard) (hn : 0 < n) (htapes : d.tapes = .multi n)
    (rs : List Request) : (d.receive rs).Founded (d.receive rs).guard := by
  induction rs generalizing d with
  | nil => exact h
  | cons r rs ih =>
    rw [receive_cons]
    apply ih
    . apply of_submit_multi (I := fun d => d.Founded d.guard) htapes h
      . exact fun d name hd => hd.avoid name
      . exact fun d name hd _ => hd.addState name
      . intro d t hd hfits horigin hnext
        have hmoves : t.moves ≠ [] := List.ne_nil_of_length_pos (hfits.moves ▸ hn)
        have hjoint : ((Build.jointTransition t).after d).Founded d.guard :=
          Build.jointTransition_go_founded _ (.inl horigin) hnext hmoves d hd
        rwa [hjoint.guard]
    . rw [(later_submit (by rw [htapes]; nofun) r).tapes, htapes]

theorem Opened.founded {A : Alphabet} {first : String} {n : Nat} (hd : d.Opened first n A) :
    d.Founded d.guard := by
  obtain ⟨names, h⟩ := hd.executed
  refine ⟨rfl, hd.features, hd.alphabet ▸ hd.heads.blank, fun s c hlookup => .inl ?_⟩
  by_cases hgenerates : d.guard.Generates s
  . exact hgenerates.elsewhere
  . obtain ⟨x, hx, hserves⟩ := h.exists_serves hgenerates hlookup
    rcases List.mem_append.mp hx with hx | hx
    . obtain ⟨name, _, rfl⟩ := List.mem_map.mp hx
      rw [Directive.not_serves_idle] at hserves
      cases hserves
    . rw [← (Directive.serves_eq_true_iff.mp hserves).1]
      exact (serves_common x hx).elsewhere

theorem Founded.stepsFrom_receive {n : Nat} (h : d.Founded d.guard) (hn : 0 < n) (htapes : d.tapes = .multi n)
    {t : JointTransition} (hread : .oneOf [] ∉ t.read.perTape n)
    (hok : Build.submit (.joint t) d = .ok () e) (rs : List Request) :
    (e.receive rs).StepsFrom (e.receive rs).guard t.origin := by
  obtain ⟨n', htapes', _, hwrites, hmoves, hjoint⟩ := Build.userJoint_eq_ok hok
  obtain rfl : n = n' := TapeUse.multi.inj (htapes.symm.trans htapes')
  obtain ⟨horigin, hnext⟩ := d.free_avoidBoth t.origin t.next
  have hfounded : (d.avoidBoth t.origin t.next).Founded (d.avoidBoth t.origin t.next).guard :=
    (h.avoid t.origin).avoid t.next
  generalize d.avoidBoth t.origin t.next = d₁ at *
  have hne : t.moves ≠ [] := List.ne_nil_of_length_pos (hmoves ▸ hn)
  have hsteps : e.StepsFrom d₁.guard t.origin :=
    Build.stepsFrom_of_jointTransition hfounded (.inl horigin) hnext hne (hwrites ▸ hread) hjoint
  have hguard : e.guard = d₁.guard :=
    ((Build.jointTransition_go_founded _ (.inl horigin) hnext hne).of_ok hfounded hjoint).guard
  rw [← hguard] at hsteps horigin
  have hafter : (Build.submit (.joint t)).after d = e := by rw [Build.after, hok]
  have hlater : e.Later (e.receive rs) := by
    apply later_receive
    rw [← hafter, (later_submit (by simp [htapes]) _).tapes, htapes]
    simp
  obtain ⟨o, ho⟩ := Option.ne_none_iff_exists'.mp hsteps
  have hlookup := hlater.lookup _ _ _ ho
  rw [rename_stepState, Cell.mapNames_atom, Mark.mapNames, Guard.rename_of_free horigin] at hlookup
  rw [StepsFrom, Cell.state, hlookup]
  exact Option.some_ne_none _

end Draft

/--
Each state for which a joint transition was accepted has the rule by which steps from it begin, whatever else
was requested. Only a transition without any cell to read on some tape is about nothing.
-/
theorem lookup_origin_of_accepted {rs rs₁ rs₂ : List Request} {n : Nat} {first : String} {d d₁ e : Draft}
    (hd : d = (Draft.new Draft.defaultStart).receive rs)
    (hletters : ∀ c ∈ d.alphabet.declared, c.IsLetter)
    (hshared : d.features.enabled .multiTape = false)
    (hok : (Build.submit (.tapes n first)).succeeds d = true)
    (hd₁ : d₁ = (Draft.new Draft.defaultStart).receive (rs ++ .tapes n first :: rs₁)) {t : JointTransition}
    (hread : .oneOf [] ∉ t.read.perTape n) (haccepted : (Build.submit (.joint t)).succeeds d₁ = true)
    (he : e = d₁.receive (.joint t :: rs₂)) :
    e.states.lookup (Segment.stepState e.guard) (.state t.origin) ≠ none := by
  obtain ⟨hn, hundecided, _⟩ := Build.setTapes_eq_ok (Build.eq_ok_of_succeeds hok)
  have huntouched : d.Untouched := by
    subst hd
    exact Draft.untouched_receive hundecided
  obtain ⟨d₀, A, hopen, hopened, _⟩ := huntouched.exists_opened hshared hn first hletters
  have hpos : 0 < n := Nat.zero_lt_of_lt hn
  have hlater : d₁ = d₀.receive rs₁ := by
    rw [hd₁, Draft.receive_append, ← hd, Draft.receive_cons, Build.after, hopen]
  have hfounded : d₁.Founded d₁.guard := hlater ▸ hopened.founded.receive hpos hopened.tapes rs₁
  have htapes : d₁.tapes = .multi n := by
    rw [hlater, (Draft.later_receive (by simp [hopened.tapes]) rs₁).tapes, hopened.tapes]
  have hjoint := Build.eq_ok_of_succeeds haccepted
  rw [he, Draft.receive_cons]
  exact hfounded.stepsFrom_receive hpos htapes hread hjoint rs₂

end TuringLowering
