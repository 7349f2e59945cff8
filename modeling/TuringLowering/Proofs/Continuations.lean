import TuringLowering.Proofs.Pasting

/-!
This module contains the states that finish movements which are no single rule. They are shared by all
requests with the same rest of a movement and the same target. If all symbols are accepted, adding them never
fails, and a movement that is split is the movement as a whole.
-/

namespace TuringLowering

/-- The number of steps that a movement takes. -/
def FeatureSet.steps (F : FeatureSet) (m : Move) : Nat :=
  if F.supports m then 1 else if m = .stay then 2 else m.distance

/-- The first step of a movement. -/
def FeatureSet.lead (F : FeatureSet) (m : Move) : Move := if F.supports m then m else m.detour.1

def Draft.via (b : Draft) (m : Move) (next : String) : String :=
  if b.features.supports m then next else (Relay.continuation m.detour.2 next).name b.guard

theorem FeatureSet.supports_of_two_le {F : FeatureSet} {m : Move} (h : 2 ≤ m.distance) :
    F.supports m = F.enabled .moveMulti := by
  obtain ⟨n, hn⟩ := Nat.exists_eq_add_of_le' h
  rw [supports, hn]
  rfl

theorem FeatureSet.steps_detour {F : FeatureSet} {m : Move} (h : ¬ F.supports m = true) :
    F.steps m = F.steps m.detour.2 + 1 := by
  have hone := Move.distance_ne_one_of_not_supports h
  by_cases hstay : m = .stay
  . subst hstay
    have hrest : Move.stay.detour.2 = .left := rfl
    have hleft : F.supports .left = true := rfl
    rw [steps, if_neg h, if_pos rfl, steps, hrest, if_pos hleft]
  . have hzero : m.distance ≠ 0 := by
      intro hzero
      apply hstay
      cases m
      simp only [Move.distance, Int.natAbs_eq_zero] at hzero
      rw [hzero]
    have hrest : m.detour.2.distance + 1 = m.distance := by
      rw [Move.detour, if_neg hstay, Move.distance_rest]
      omega
    rw [steps, if_neg h, if_neg hstay, ← hrest]
    congr 1
    unfold steps
    by_cases htwo : m.detour.2.distance = 1
    . rw [if_pos (by simp [supports, htwo]), htwo]
    . have hlong : ¬ F.supports m.detour.2 = true := by
        rwa [supports_of_two_le (by omega), ← supports_of_two_le (m := m) (by omega)]
      have hmoves : m.detour.2 ≠ .stay := by
        intro heq
        rw [heq] at hrest
        exact hone hrest.symm
      rw [if_neg hlong, if_neg hmoves]

namespace Guard

def Finishes (g : Guard) (s : String) : Prop := ∃ (m : Move) (next : String), s = g.wrap [m.display, next]

variable {g : Guard}

theorem Free.not_finishes {s : String} (h : g.Free s) : ¬ g.Finishes s := by
  rintro ⟨m, next, rfl⟩
  exact Generates.not_free ⟨_, _, .inl rfl⟩ h

theorem not_finishes_part {base suffix : String} (hsuffix : suffix ∈ chainSuffixes) :
    ¬ g.Finishes (base ++ suffix) := by
  rintro ⟨m, next, heq⟩
  apply getLast?_append_suffix base hsuffix
  rw [heq]
  exact getLast?_wrap g _ _

theorem not_finishes_paste (text : String) (parts : List String) :
    ¬ g.Finishes (g.wrap (("paste" ++ text) :: parts)) := by
  rintro ⟨m, next, heq⟩
  have hlist := congrArg String.toList heq
  rw [toList_wrap, toList_wrap, List.append_cancel_left_eq] at hlist
  simp only [behind, List.cons.injEq, true_and, String.toList_append] at hlist
  exact ChainKey.display_append_ne (c := 'p') (by decide) (by decide) hlist.symm

end Guard

theorem Relay.eq_continuation {s : Relay} (h : s.Within fun _ => False) :
    ∃ m next, s = .continuation m next := by
  cases s with
  | continuation m next => exact ⟨m, next, rfl⟩
  | paste c m next => exact h.elim

/-- The states of a draft that finish movements have the rules that they should have. -/
abbrev Draft.Continues (b d : Draft) : Prop := d.Stocked b (fun _ => False) fun _ => False

namespace Build

open Draft (Continues Provides)

variable {b : Draft} (hb : b.Grounds fun _ => False)
include hb

theorem exists_transition_eq {d : Draft} (hd : b.Continues d) (s : String) (read : Pattern) (w : Writing)
    (m : Move) (next : String) :
    ∃ d₁, b.Continues d₁ ∧ d.Provides (fun _ => False) (fun _ => True) d₁
      ∧ (¬ b.features.supports m = true → (Relay.continuation m.detour.2 next).key ∈ d₁.keys)
      ∧ transition s read w m next d = direct s read w (b.features.lead m) (b.via m next) d₁ := by
  by_cases hsupports : b.features.supports m = true
  . refine ⟨d, hd, .refl d, fun h => absurd hsupports h, ?_⟩
    rw [transition_of_supports (hd.features ▸ hsupports), FeatureSet.lead, if_pos hsupports, Draft.via,
      if_pos hsupports]
  . obtain ⟨n, hn⟩ : ∃ n, max 1 m.distance = n + 1 := ⟨max 1 m.distance - 1, by omega⟩
    have hweight : m.detour.2.weight ≤ n + 1 := hn ▸ Relay.weight_detour_le hsupports
    obtain ⟨d₁, hok, hd₁, hprovides, hmem⟩ :=
      hd.exists_provide hb (s := .continuation m.detour.2 next) trivial hweight
    refine ⟨d₁, hd₁, hprovides.mono fun _ _ => trivial, fun _ => hmem, ?_⟩
    rw [transition, hn, transition_go_succ, hd.features, if_neg hsupports, bind_of_ok hok, FeatureSet.lead,
      if_neg hsupports, Draft.via, if_neg hsupports]

omit hb in
theorem direct_continues {s : String} (hs : ¬ b.guard.Finishes s) (read : Pattern) (w : Writing)
    (m : Move) (next : String) : Maintains b.Continues (direct s read w m next) := by
  intro d hd
  apply hd.of_states (direct_rest s read w m next d)
  intro r hr
  obtain ⟨m', next', rfl⟩ := Relay.eq_continuation hr
  have hamends := direct_amends (S := (· = s)) rfl read w m next d (.refl d)
  exact hamends.other _ fun heq => hs ⟨m', next', heq.symm⟩

theorem continues_preserves : Preserves b.Continues b.guard (¬ b.guard.Finishes ·) where
  guard _ hd := hd.guard
  transition s hs read w m next := by
    intro d hd
    obtain ⟨d₁, hd₁, -, -, heq⟩ := exists_transition_eq hb hd s read w m next
    rw [after, heq]
    exact direct_continues hs read w _ _ d₁ hd₁
  action s hs read a next := by
    intro d hd
    apply hd.of_states (addAction_rest s read a next d)
    intro r hr
    obtain ⟨m', next', rfl⟩ := Relay.eq_continuation hr
    have hamends := addAction_amends (S := (· = s)) rfl read a next d (.refl d)
    exact hamends.other _ fun heq => hs ⟨m', next', heq.symm⟩
  chain k hk := by
    intro d hd
    by_cases hmem : k ∈ d.keys
    . rw [after, hd.chain_of_mem hmem]
      exact hd
    . rw [after, hd.chain_of_not_mem hmem]
      apply hd.withForeign
      intro r hr heq
      obtain ⟨m', next', rfl⟩ := Relay.eq_continuation hr
      exact hk (heq ▸ rfl)
  paste := Guard.not_finishes_paste

theorem directive_continues {x : Directive} (horigin : b.guard.Free x.origin) :
    Maintains b.Continues (directive x) := by
  have h := continues_preserves hb
  apply h.directive horigin.not_finishes
  . exact fun _ _ => ⟨Guard.not_finishes_part (by decide), Guard.not_finishes_part (by decide)⟩
  . exact fun _ _ c next => h.transition _ (Guard.not_finishes_part (by decide)) _ _ _ _

end Build

namespace Draft

variable {b d e : Draft}

theorem Grounds.widened {g : Guard} (hb : b.Grounds fun _ => False) (hle : b.guard.size ≤ g.size) :
    (b.withGuard g).Grounds fun _ => False where
  states := by
    change b.states.mapNames _ = _
    rw [hb.states]
    rfl
  chains := by
    change b.chains.map _ = _
    rw [hb.chains]
    rfl
  orderly hwildcard := (hb.orderly hwildcard).mapNames fun _ _ => Guard.rename_injective hle
  apart := fun _ => False.elim

/-- Rules can be given to all symbols at once, or else to each of them. -/
def Regular (d : Draft) : Prop :=
  ¬ d.features.enabled .wildcard = true → ∀ c ∈ d.alphabet.symbols, d.alphabet.accepts c = true

theorem Regular.of_withGuard {g : Guard} (hle : d.guard.size ≤ g.size) (h : (d.withGuard g).Regular) :
    d.Regular := by
  intro hwildcard c hc
  rw [← Alphabet.accepts_mapNames fun _ _ => Guard.rename_injective hle]
  exact h hwildcard _ (List.mem_map_of_mem hc)

theorem Regular.avoid (h : d.Regular) (name : String) : (d.avoid name).Regular := by
  refine avoid_induction name h fun g hlt hwildcard c hc => ?_
  obtain ⟨x, hx, rfl⟩ := List.mem_map.mp hc
  rw [← h hwildcard x hx]
  exact Alphabet.accepts_mapNames (fun _ _ => Guard.rename_injective (Nat.le_of_lt hlt)) _ _

structure Continuing (d : Draft) : Prop where
  tapes : ∀ n, d.tapes ≠ .multi n
  idle : d.tapes = .undecided → d.chains = []
  nodup : d.alphabet.symbols.Nodup
  blank : .blank ∈ d.alphabet.symbols
  continues : d.Regular → ∃ b : Draft, (b.Grounds fun _ => False) ∧ b.Continues d

namespace Continuing

theorem of_fresh (htapes : d.tapes = .undecided) (hchains : d.chains = []) (hstates : d.states = {})
    (hnodup : d.alphabet.symbols.Nodup) (hblank : .blank ∈ d.alphabet.symbols) : d.Continuing := by
  refine ⟨fun n => by rw [htapes]; nofun, fun _ => hchains, hnodup, hblank, fun hregular => ?_⟩
  have hgrounds : d.bare.Grounds fun _ => False :=
    ⟨rfl, rfl, fun hwildcard => ⟨hnodup, hregular hwildcard⟩, fun _ => False.elim⟩
  exact ⟨d.bare, hgrounds, .of_fresh hchains hstates⟩

theorem avoid (h : d.Continuing) (name : String) : (d.avoid name).Continuing := by
  refine avoid_induction name h fun g hlt => ?_
  have hinjective : Function.Injective (d.guard.rename g) :=
    fun _ _ => Guard.rename_injective (Nat.le_of_lt hlt)
  refine ⟨h.tapes, ?_, h.nodup.map (Cell.mapNames_injective hinjective),
    List.mem_map.mpr ⟨.blank, h.blank, rfl⟩, fun hregular => ?_⟩
  . intro htapes
    change d.chains.map _ = []
    rw [h.idle htapes, List.map_nil]
  . obtain ⟨b, hb, hd⟩ := h.continues (.of_withGuard (Nat.le_of_lt hlt) hregular)
    rw [hd.guard] at hlt
    refine ⟨b.withGuard g, hb.widened (Nat.le_of_lt hlt), ?_⟩
    apply hd.withGuard (fun _ => False.elim) hb (hb.widened (Nat.le_of_lt hlt)) hlt
    rw [← hd.alphabet]
    exact List.ne_nil_of_mem h.blank

theorem kept : Kept Continuing fun _ => True where
  tapes _ h := h.tapes
  alphabets input extra := by
    apply Build.checkUnsettled_bind
    intro d h hunsettled
    obtain ⟨htapes, hchains, hstates⟩ := fresh_of_isUnsettled h.idle hunsettled
    apply of_fresh (d := { d with alphabet := .declare input extra }) htapes hchains hstates
    . exact Alphabet.nodup_foldl_addNew List.nodup_nil _
    . exact Build.mem_foldl_addNew.mpr (.inl (List.mem_append_right _ (List.mem_singleton_self _)))
  features := by
    apply Build.enableFeatures_maintains
    intro d h hunsettled F
    obtain ⟨htapes, hchains, hstates⟩ := fresh_of_isUnsettled h.idle hunsettled
    exact of_fresh htapes hchains hstates h.nodup h.blank
  claim d h := by
    refine ⟨fun _ => nofun, nofun, h.nodup, h.blank, fun hregular => ?_⟩
    obtain ⟨b, hb, hd⟩ := h.continues hregular
    exact ⟨b, hb, hd.withTapes .single⟩
  avoid _ name h := h.avoid name
  state d name h hname := by
    refine ⟨h.tapes, h.idle, h.nodup, h.blank, fun hregular => ?_⟩
    obtain ⟨b, hb, hd⟩ := h.continues hregular
    exact ⟨b, hb, hd.addState hname⟩
  directive d x _ h htapes horigin := by
    have hrest := Build.directive_rest x d
    refine ⟨by rw [hrest]; exact h.tapes, by rw [hrest, htapes]; nofun, by rw [hrest]; exact h.nodup,
      by rw [hrest]; exact h.blank, fun hregular => ?_⟩
    rw [hrest] at hregular
    obtain ⟨b, hb, hd⟩ := h.continues hregular
    exact ⟨b, hb, Build.directive_continues hb (hd.guard ▸ horigin) d hd⟩

end Continuing

theorem continuing_receive (start : String) {rs : List Request}
    (htapes : ∀ n, ((new start).receive rs).tapes ≠ .multi n) : ((new start).receive rs).Continuing := by
  have hnew : (new start).Continuing :=
    .of_fresh rfl rfl rfl (List.pairwise_singleton _ _) (List.mem_singleton_self _)
  rcases Continuing.kept.receive hnew rs fun _ _ => trivial with ⟨n, hn⟩ | hd
  . exact absurd hn (htapes n)
  . exact hd

theorem Ruled.exists_next {B : List Cell} {s next : String} {w : Writing} {m : Move} {t : Tape}
    (h : d.Ruled B s w m next) (hrunning : isTerminal s = false) (ht : t.focus ∈ B)
    (haccepts : d.alphabet.accepts t.focus = true) :
    ∃ t', d.compile.next ⟨s, [t]⟩ = ⟨next, [t']⟩
      ∧ t'.view = (t.view.write (w.onto t.focus)).move m := by
  obtain ⟨o, ho, hlookup⟩ := h t.focus ht
  obtain ⟨a, rfl, hview⟩ := ho.view_apply
  exact ⟨a.apply t, next_of_step (.rule hrunning haccepts hlookup), hview t rfl⟩

namespace Continues

variable (hb : b.Grounds fun _ => False) (h : b.Continues d) (hne : b.alphabet.symbols ≠ [])
  {m : Move} {next : String} (hmem : (Relay.continuation m next).key ∈ d.keys)
include hb h hne hmem

theorem ruled : d.Ruled b.alphabet.symbols ((Relay.continuation m next).name b.guard) .keep
    (b.features.lead m) (b.via m next) := by
  obtain ⟨r, hr, hkey, hfind⟩ := h.stocked (.continuation m next) trivial hmem not_false
  obtain ⟨m', next', rfl⟩ := Relay.eq_continuation hr
  obtain ⟨rfl, rfl⟩ : m' = m ∧ next' = next := Relay.same_of_key hkey
  have htable : (Relay.continuation m' next').table b = some (.uniform b.features b.alphabet.symbols .keep
      (b.features.lead m') (b.via m' next')) := by
    rw [Relay.table_eq hb hne, Relay.rest?, via, FeatureSet.lead]
    by_cases hsupports : b.features.supports m' = true
    . have hmove : b.features.supports (Relay.continuation m' next').move = true := hsupports
      rw [if_pos hsupports, if_pos hsupports, if_pos hmove, if_pos hmove]
      rfl
    . have hmove : ¬ b.features.supports (Relay.continuation m' next').move = true := hsupports
      rw [if_neg hsupports, if_neg hsupports, if_neg hmove, if_neg hmove]
      rfl
  intro c hc
  obtain ⟨o, ho, hlookup⟩ :=
    @RuleTable.lookup_uniform b.features _ .keep (b.features.lead m') (b.via m' next') c hc
  refine ⟨o, ho, ?_⟩
  rw [StateTables.lookup, hfind, htable]
  exact hlookup

/-- A state that finishes a movement does so, in as many steps as the movement takes. -/
theorem exists_run {t : Tape}
    (ht : ∀ i, t.cellAt i ∈ b.alphabet.symbols ∧ b.alphabet.accepts (t.cellAt i) = true) :
    ∃ t', d.compile.next^[b.features.steps m] ⟨(Relay.continuation m next).name b.guard, [t]⟩
        = ⟨next, [t']⟩
      ∧ t'.view = t.view.move m
      ∧ ∀ j < b.features.steps m, d.guard.occursIn
        (d.compile.next^[j] ⟨(Relay.continuation m next).name b.guard, [t]⟩).state = true := by
  -- A detour leaves less to be done than there was.
  generalize hweight : m.weight = n
  induction n using Nat.strongRecOn generalizing m t with
  | ind n ih =>
    have hgenerates : d.guard.Generates ((Relay.continuation m next).name b.guard) := by
      rw [h.guard]
      exact Relay.generates _ _
    obtain ⟨hfocus, haccepts⟩ := ht t.position
    rw [Tape.cellAt_position] at hfocus haccepts
    obtain ⟨t₁, hfirst, ht₁⟩ := (ruled hb h hne hmem).exists_next hgenerates.running hfocus
      (h.alphabet ▸ haccepts)
    have hwrite : t.view.write (Writing.keep.onto t.focus) = t.view := by
      rw [← Tape.focus_view]
      exact t.view.write_focus
    rw [hwrite, FeatureSet.lead] at ht₁
    rw [via] at hfirst
    by_cases hsupports : b.features.supports m = true
    . rw [if_pos hsupports] at hfirst ht₁
      rw [FeatureSet.steps, if_pos hsupports]
      refine ⟨t₁, hfirst, ht₁, ?_⟩
      intro j hj
      obtain rfl : j = 0 := by omega
      exact hgenerates.occursIn
    . rw [if_neg hsupports] at hfirst ht₁
      have hrest : (Relay.continuation m next).rest? b.features
          = some (.continuation m.detour.2 next) := by
        rw [Relay.rest?]
        exact if_neg hsupports
      obtain ⟨hrestMem, _⟩ := h.closed (.continuation m next) trivial hmem not_false _ hrest
      have hlt := Move.weight_detour_lt (Move.distance_ne_one_of_not_supports hsupports)
      have ht₁' : ∀ i, t₁.cellAt i ∈ b.alphabet.symbols ∧ b.alphabet.accepts (t₁.cellAt i) = true := by
        rw [← Tape.cells_view, ht₁]
        exact ht
      obtain ⟨t', hrun, ht', hinner⟩ := ih _ (hweight ▸ hlt) hrestMem ht₁' rfl
      rw [FeatureSet.steps_detour hsupports]
      refine ⟨t', ?_, ?_, ?_⟩
      . rw [Function.iterate_succ_apply, hfirst, hrun]
      . rw [ht', ht₁, View.move_detour]
      . intro j hj
        cases j with
        | zero => exact hgenerates.occursIn
        | succ j =>
          rw [Function.iterate_succ_apply, hfirst]
          exact hinner j (Nat.lt_of_succ_lt_succ hj)

end Continues

def ready (d : Draft) : Directive → Draft
  | .transition origin _ _ _ next => d.readied next origin
  | .gadget origin _ _ next => d.readied origin next

theorem submit_eq (htapes : ∀ n, d.tapes ≠ .multi n) (x : Directive) :
    Build.submit (.directive x) d = Build.directive x (d.ready x) := by
  cases x with
  | transition origin read w m next =>
    have hclaim : avoidBoth { d with tapes := .single } next origin = d.readied next origin :=
      (congrArg (·.avoid origin) (avoid_withTapes d .single next)).trans
        (avoid_withTapes (d.avoid next) .single origin)
    rw [Build.submit, Build.userDirective, Build.bind_of_ok (Build.claimSingleTape_apply _ htapes), ready,
      ← hclaim]
    rfl
  | gadget origin read x next => exact submit_gadget htapes origin read x next

theorem not_multi_of_submit {x : Directive} (hok : Build.submit (.directive x) d = .ok () e) :
    ∀ n, d.tapes ≠ .multi n := by
  intro n hn
  obtain ⟨call, herror⟩ := submit_of_multi hn x
  rw [herror] at hok
  cases hok

theorem rest_of_submit {x : Directive} (hok : Build.submit (.directive x) d = .ok () e) :
    e = { d.ready x with states := e.states, chains := e.chains } := by
  have hrest := Build.directive_rest x (d.ready x)
  rw [submit_eq (not_multi_of_submit hok)] at hok
  rw [Build.after, hok] at hrest
  exact hrest

theorem tapes_of_submit {x : Directive} (hok : Build.submit (.directive x) d = .ok () e) :
    e.tapes = .single := by
  rw [rest_of_submit hok]
  cases x with
  | transition origin read w m next => rfl
  | gadget origin read x next => rfl

theorem later_of_submit {x : Directive} (hok : Build.submit (.directive x) d = .ok () e)
    (rs : List Request) : e.Later (e.receive rs) :=
  later_receive (by rw [tapes_of_submit hok]; nofun) rs

theorem free_ready (d : Draft) (x : Directive) :
    (d.ready x).guard.Free x.origin ∧ (d.ready x).guard.Free x.next := by
  cases x with
  | transition origin read w m next => exact (d.free_avoidBoth next origin).symm
  | gadget origin read x next => exact d.free_avoidBoth origin next

theorem Continuing.ready (h : d.Continuing) (x : Directive) : (d.ready x).Continuing := by
  cases x with
  | transition origin read w m next => exact Continuing.kept.claim _ ((h.avoid next).avoid origin)
  | gadget origin read x next => exact Continuing.kept.claim _ ((h.avoid origin).avoid next)

theorem Regular.ready (h : d.Regular) (x : Directive) : (d.ready x).Regular := by
  cases x with
  | transition origin read w m next => exact (h.avoid next).avoid origin
  | gadget origin read x next => exact (h.avoid origin).avoid next

theorem continuing_of_submit {start : String} {rs : List Request} {x : Directive}
    (hd : d = (new start).receive rs) (hok : Build.submit (.directive x) d = .ok () e) (rs' : List Request) :
    (e.receive rs').Continuing := by
  have hreceive : e.receive rs' = (new start).receive (rs ++ .directive x :: rs') := by
    rw [receive_append, receive_cons, ← hd, Build.after, hok]
  have htapes := (later_of_submit hok rs').tapes
  rw [hreceive] at htapes ⊢
  apply continuing_receive
  intro n
  rw [htapes, tapes_of_submit hok]
  simp

theorem Regular.kept : Kept (fun d => d.tapes = .single ∧ d.Regular) fun _ => True where
  tapes d h n := by
    rw [h.1]
    nofun
  alphabets input extra d h := by
    rw [Build.declareAlphabets, after_checkUnsettled (by rw [h.1]; nofun)]
    exact h
  features features d h := by
    rw [Build.enableFeatures, after_checkUnsettled (by rw [h.1]; nofun)]
    exact h
  claim _ h := ⟨rfl, h.2⟩
  avoid d name h := ⟨by rw [tapes_avoid, h.1], h.2.avoid name⟩
  state _ _ h _ := h
  directive d x _ h _ _ := by
    rw [Build.directive_rest]
    exact h

theorem Regular.of_submit {x : Directive} (h : d.Regular) (hok : Build.submit (.directive x) d = .ok () e)
    (rs : List Request) : (e.receive rs).Regular := by
  have he : e.Regular := by
    rw [rest_of_submit hok]
    exact h.ready x
  have hkept := Regular.kept.receive ⟨tapes_of_submit hok, he⟩ rs fun _ _ => trivial
  refine (hkept.resolve_left ?_).2
  rintro ⟨n, hn⟩
  rw [(later_of_submit hok rs).tapes, tapes_of_submit hok] at hn
  cases hn

theorem ruled_of_direct {origin next : String} {read : Pattern} {w : Writing} {m : Move} {c : Cell}
    (hok : Build.direct origin read w m next d = .ok () e) (hc : c ∈ e.alphabet.symbols)
    (hnone : d.states.lookup origin c = none) (hsome : e.states.lookup origin c ≠ none) :
    e.Ruled [c] origin w m next := by
  have hadds := Build.direct_adds hok
  have hmatch : read.Matches c := by
    by_contra hmatch
    exact hsome (hadds.missing c hmatch hnone)
  rw [Ruled, List.forall_mem_singleton]
  exact hadds.new c hmatch (fun _ => hadds.alphabet ▸ hc) hnone

theorem ruled_of_transition {origin next : String} {read : Pattern} {w : Writing} {m : Move} {c : Cell}
    (hb : b.Grounds fun _ => False) (hd : b.Continues d) (horigin : d.guard.Free origin)
    (hok : Build.transition origin read w m next d = .ok () e) (hc : c ∈ e.alphabet.symbols)
    (hnone : d.states.lookup origin c = none) (hsome : e.states.lookup origin c ≠ none) :
    b.Continues e ∧ e.Ruled [c] origin w (b.features.lead m) (b.via m next)
      ∧ (¬ b.features.supports m = true → (Relay.continuation m.detour.2 next).key ∈ e.keys) := by
  obtain ⟨d₁, hd₁, hprovides, hkey, heq⟩ := Build.exists_transition_eq hb hd origin read w m next
  rw [heq] at hok
  have hkeys : e.keys = d₁.keys := congrArg (List.map Prod.fst) (Build.direct_adds hok).chains
  have hnone₁ : d₁.states.lookup origin c = none := by
    rw [StateTables.lookup, hprovides.other origin, ← StateTables.lookup, hnone]
    intro r _ hname
    exact Guard.Belongs.self.ne_relay horigin r hname
  rw [hd.guard] at horigin
  refine ⟨(Build.direct_continues horigin.not_finishes _ _ _ _).of_ok hd₁ hok,
    ruled_of_direct hok hc hnone₁ hsome, ?_⟩
  rw [hkeys]
  exact hkey

theorem rename_continuation {g : Guard} (g' : Guard) (m : Move) {next : String} (hnext : g.Free next) :
    g.rename g' ((Relay.continuation m next).name g) = (Relay.continuation m next).name g' := by
  rw [Relay.name, Guard.rename_wrap]
  simp only [Relay.key, ChainKey.nameParts, List.map_cons, List.map_nil,
    Guard.rename_of_clean (Guard.clean_move m), Guard.rename_of_free hnext, Relay.name]

theorem rename_via (hlater : d.Later e) (m : Move) {next : String} (hnext : d.guard.Free next) :
    d.guard.rename e.guard (d.via m next) = e.via m next := by
  unfold via
  rw [hlater.features]
  split
  . exact Guard.rename_of_free hnext _
  . exact rename_continuation _ _ hnext

theorem Continues.via_eq (h : b.Continues d) (m : Move) (next : String) : d.via m next = b.via m next := by
  rw [via, via, h.features, h.guard]

theorem ruled_later (hlater : d.Later e) {origin next : String} {w : Writing} {m : Move} {c : Cell}
    (horigin : d.guard.Free origin) (hnext : d.guard.Free next)
    (hruled : d.Ruled [c] origin w (d.features.lead m) (d.via m next)) :
    e.Ruled [c.mapNames (d.guard.rename e.guard)] origin (w.mapNames (d.guard.rename e.guard))
      (e.features.lead m) (e.via m next) := by
  have hlast := hruled.later hlater
  rw [Guard.rename_of_free horigin, rename_via hlater m hnext, ← hlater.features] at hlast
  exact hlast

theorem Continues.key_later {b' : Draft} (hb : b.Grounds fun _ => False) (hd : b.Continues d)
    (hne : b.alphabet.symbols ≠ []) (hlater : d.Later e) (he : b'.Continues e) {m : Move} {next : String}
    (hnext : d.guard.Free next) (hmem : (Relay.continuation m next).key ∈ d.keys) :
    (Relay.continuation m next).key ∈ e.keys := by
  by_contra hmem'
  have hfresh := he.fresh (.continuation m next) trivial (.inl hmem')
  obtain ⟨c, hc⟩ := List.exists_mem_of_ne_nil _ hne
  obtain ⟨o, _, hlookup⟩ := Continues.ruled hb hd hne hmem c hc
  have hlookup' := hlater.lookup _ _ _ hlookup
  rw [← hd.guard, rename_continuation _ _ hnext, he.guard, StateTables.lookup, hfresh] at hlookup'
  cases hlookup'

/-- The writing is done and the movement is made as a whole, with generated states in between. -/
def Conveys (e : Draft) (s : String) (w : Writing) (m : Move) (next : String) (t : Tape) : Prop :=
  ∃ t', e.compile.next^[e.features.steps m] ⟨s, [t]⟩ = ⟨next, [t']⟩
    ∧ (∀ j, 0 < j → j < e.features.steps m →
      e.guard.occursIn (e.compile.next^[j] ⟨s, [t]⟩).state = true)
    ∧ t'.view = (t.view.write (w.onto t.focus)).move m

section

variable {s next : String} {w : Writing} {m : Move} {t : Tape} (hrunning : isTerminal s = false)
  (hruled : e.Ruled [t.focus] s w (e.features.lead m) (e.via m next))
  (ht : ∀ i, t.cellAt i ∈ e.alphabet.symbols ∧ e.alphabet.accepts (t.cellAt i) = true)
include hrunning hruled ht

theorem exists_first : ∃ t₁, e.compile.next ⟨s, [t]⟩ = ⟨e.via m next, [t₁]⟩
    ∧ t₁.view = (t.view.write (w.onto t.focus)).move (e.features.lead m) := by
  have hfocus := (ht t.position).2
  rw [Tape.cellAt_position] at hfocus
  exact hruled.exists_next hrunning (List.mem_singleton_self _) hfocus

theorem conveys_of_supports (hsupports : e.features.supports m = true) : e.Conveys s w m next t := by
  obtain ⟨t₁, hfirst, ht₁⟩ := exists_first hrunning hruled ht
  rw [via, if_pos hsupports] at hfirst
  rw [FeatureSet.lead, if_pos hsupports] at ht₁
  rw [Conveys, FeatureSet.steps, if_pos hsupports]
  exact ⟨t₁, hfirst, fun j hpos hj => by omega, ht₁⟩

theorem Continues.conveys (hb : b.Grounds fun _ => False) (he : b.Continues e)
    (hsupports : ¬ e.features.supports m = true)
    (hmem : (Relay.continuation m.detour.2 next).key ∈ e.keys)
    (hw : w.onto t.focus ∈ e.alphabet.symbols ∧ e.alphabet.accepts (w.onto t.focus) = true) :
    e.Conveys s w m next t := by
  obtain ⟨t₁, hfirst, ht₁⟩ := exists_first hrunning hruled ht
  rw [via, if_neg hsupports, he.guard] at hfirst
  rw [FeatureSet.lead, if_neg hsupports] at ht₁
  have hcells : ∀ i, t₁.cellAt i ∈ b.alphabet.symbols ∧ b.alphabet.accepts (t₁.cellAt i) = true := by
    intro i
    rw [← Tape.cells_view, ht₁, View.cells_move, View.cells_write, ← he.alphabet]
    split
    . exact hw
    . exact ht i
  have hne : b.alphabet.symbols ≠ [] := by
    rw [← he.alphabet]
    exact List.ne_nil_of_mem hw.1
  obtain ⟨t', hrun, ht', hinner⟩ := exists_run hb he hne hmem hcells
  rw [← he.features] at hrun hinner
  rw [Conveys, FeatureSet.steps_detour hsupports]
  refine ⟨t', ?_, ?_, ?_⟩
  . rw [Function.iterate_succ_apply, hfirst, hrun]
  . intro j hpos hj
    cases j with
    | zero => exact absurd hpos (Nat.lt_irrefl 0)
    | succ j =>
      rw [Function.iterate_succ_apply, hfirst]
      exact hinner j (Nat.lt_of_succ_lt_succ hj)
  . rw [ht', ht₁, View.move_detour]

end

end Draft

/--
A movement that is split is the movement as a whole, in as many steps as it takes, whatever was requested
before and is requested after it, if all symbols are accepted.
-/
theorem split_moves_equal_moves {start origin next : String} {read : Pattern} {w : Writing} {m : Move}
    {rs : List Request} (rs' : List Request) {d d' : Draft} (hd : d = (Draft.new start).receive rs)
    (hregular : ¬ d.features.supports m = true → d.Regular)
    (hok : Build.submit (.directive (.transition origin read w m next)) d = .ok () d')
    (hrunning : isTerminal origin = false) {c : Cell} (hc : c ∈ d'.alphabet.symbols)
    -- It is this request by which the cell under the head gets its rule.
    (hnone : (d.avoidBoth next origin).states.lookup origin c = none)
    (hsome : d'.states.lookup origin c ≠ none) :
    let e := d'.receive rs'
    let f := d'.guard.rename e.guard
    ∀ t : Tape, (∀ c ∈ t.cells, c ∈ e.alphabet.symbols ∧ e.alphabet.accepts c = true) →
      t.focus = c.mapNames f →
      (w.mapNames f).onto t.focus ∈ e.alphabet.symbols →
      e.alphabet.accepts ((w.mapNames f).onto t.focus) = true →
      ∃ t', e.compile.next^[e.features.steps m] ⟨origin, [t]⟩ = ⟨next, [t']⟩
        ∧ (∀ j, 0 < j → j < e.features.steps m →
          e.guard.occursIn (e.compile.next^[j] ⟨origin, [t]⟩).state = true)
        ∧ e.guard.occursIn next = false
        ∧ t'.position = (t.position + m.offset).toNat
        ∧ t'.cellAt = ((t.write ((w.mapNames f).onto t.focus)).move m).cellAt := by
  intro e f t ht hfocus hsymbol haccepts
  have hlater : d'.Later e := Draft.later_of_submit hok rs'
  have he : e.Continuing := Draft.continuing_of_submit hd hok rs'
  have hrest := Draft.rest_of_submit hok
  have hguard : d'.guard = (d.avoidBoth next origin).guard := congrArg (·.guard) hrest
  have hfeatures : d'.features = d.features :=
    (congrArg Draft.features hrest).trans (d.features_avoidBoth next origin)
  obtain ⟨hnext, horigin⟩ := d.free_avoidBoth next origin
  have hcells := Tape.cellAt_mem (B := e.alphabet.symbols.filter e.alphabet.accepts)
    (List.mem_filter.mpr ⟨he.blank, Alphabet.accepts_of_mem_symbols he.blank⟩)
    fun c hc => List.mem_filter.mpr (ht c hc)
  simp only [List.mem_filter] at hcells
  have hconveys : e.Conveys origin (w.mapNames f) m next t := by
    have htransition := hok
    rw [Draft.submit_eq (Draft.not_multi_of_submit hok)] at htransition
    change Build.transition origin read w m next (d.readied next origin) = _ at htransition
    have hfirst (hruled : d'.Ruled [c] origin w (d'.features.lead m) (d'.via m next)) :
        e.Ruled [t.focus] origin (w.mapNames f) (e.features.lead m) (e.via m next) := by
      rw [hfocus]
      exact Draft.ruled_later hlater (hguard ▸ horigin) (hguard ▸ hnext) hruled
    by_cases hsupports : d.features.supports m = true
    . have hready : (d.readied next origin).features.supports m = true :=
        (congrArg (FeatureSet.supports · m) (d.features_avoidBoth next origin)).trans hsupports
      rw [Build.transition_of_supports hready] at htransition
      have hruled := Draft.ruled_of_direct htransition hc hnone hsome
      rw [← hfeatures] at hsupports
      apply Draft.conveys_of_supports hrunning (hfirst _) hcells
      . rw [hlater.features, hsupports]
      . rw [FeatureSet.lead, if_pos hsupports, Draft.via, if_pos hsupports]
        exact hruled
    . have hcontinuing : (d.readied next origin).Continuing := by
        subst hd
        exact (Draft.continuing_receive start (Draft.not_multi_of_submit hok)).ready
          (.transition origin read w m next)
      obtain ⟨b, hb, hb₀⟩ := hcontinuing.continues
        ((hregular hsupports).ready (.transition origin read w m next))
      obtain ⟨hd', hruled, hkey⟩ := Draft.ruled_of_transition hb hb₀ horigin htransition hc hnone hsome
      obtain ⟨b', hb', he'⟩ := he.continues ((hregular hsupports).of_submit hok rs')
      have hmem := Draft.Continues.key_later hb hd' (hd'.alphabet ▸ List.ne_nil_of_mem hc) hlater he'
        (hguard ▸ hnext) (hkey (by rwa [← hd'.features, hfeatures]))
      apply Draft.Continues.conveys hrunning (hfirst _) hcells hb' he' _ hmem ⟨hsymbol, haccepts⟩
      . rw [hd'.features, hd'.via_eq]
        exact hruled
      . rwa [hlater.features, hfeatures]
  obtain ⟨t', hrun, hinner, hview⟩ := hconveys
  refine ⟨t', hrun, hinner, ?_, ?_, ?_⟩
  . rw [← hguard] at hnext
    exact Guard.free_iff_not_occursIn.mp (hnext.mono hlater.size_le)
  . rw [← Tape.position_view, hview]
    rfl
  . rw [← Tape.cells_view, hview, ← Tape.cells_view, Tape.view_move, Tape.view_write]

/-- A movement over three cells to the left edge; the guard is widened before and after the request. -/
theorem split_moves_to_edge :
    let rs : List Request :=
      [ .alphabets [.literal "a", .literal "b"] [.state "Ω"], .state "rΩ",
        .directive (.transition "q" (.cell (.literal "b")) .keep ⟨-3⟩ "r") ]
    let x : Directive := .transition "q" .any (.put (.literal "b")) ⟨-3⟩ "r"
    let rs' : List Request := [.state "ΩΩ", .directive (.transition "p" .any .keep ⟨-2⟩ "r")]
    let d := (Draft.new "qstart").receive rs
    let d' := (Build.submit (.directive x)).after d
    let e := d'.receive rs'
    let t : Tape := ⟨[.literal "b", .literal "a"], .literal "a", [.state "ΩΩΩ"]⟩
    (e.alphabet.symbols = [.literal "a", .literal "b", .state "ΩΩΩ", .blank]
      ∧ (d.avoidBoth "r" "q").states.lookup "q" (.literal "a") = none
      ∧ d'.states.lookup "q" (.literal "a") ≠ none)
    ∧ ∃ t', e.compile.next^[3] ⟨"q", [t]⟩ = ⟨"r", [t']⟩ ∧ t'.position = 0
      ∧ t'.cellAt = ((t.write (.literal "b")).move ⟨-3⟩).cellAt := by
  intro rs x rs' d d' e t
  have hd : d = (Draft.new "qstart").receive rs := rfl
  have hok : (Build.submit (.directive x)).succeeds d = true := by decide +kernel
  have hsubmit : Build.submit (.directive x) d = .ok () d' := Build.eq_ok_of_succeeds hok
  have hrules : e.alphabet.symbols = [.literal "a", .literal "b", .state "ΩΩΩ", .blank]
      ∧ (d.avoidBoth "r" "q").states.lookup "q" (.literal "a") = none
      ∧ d'.states.lookup "q" (.literal "a") ≠ none := by decide +kernel
  have hsymbols : (∀ c ∈ d.alphabet.symbols, d.alphabet.accepts c = true)
      ∧ .literal "a" ∈ d'.alphabet.symbols
      ∧ (∀ c ∈ t.cells, c ∈ e.alphabet.symbols ∧ e.alphabet.accepts c = true)
      ∧ .literal "b" ∈ e.alphabet.symbols ∧ e.alphabet.accepts (.literal "b") = true := by decide +kernel
  have hsteps : e.features.steps ⟨-3⟩ = 3 := by decide +kernel
  clear_value d d'
  obtain ⟨t', hrun, _, _, hposition, hcells⟩ :=
    split_moves_equal_moves rs' hd (fun _ _ => hsymbols.1) hsubmit (by decide) hsymbols.2.1 hrules.2.1
      hrules.2.2 t hsymbols.2.2.1 rfl hsymbols.2.2.2.1 hsymbols.2.2.2.2
  rw [hsteps] at hrun
  exact ⟨hrules, t', hrun, hposition, hcells⟩

/-- A combination of undeclared cells can be declared, but where it is passed over, the machine rejects. -/
theorem split_moves_reject_undeclared :
    let z : Cell := .tuple [.literal "z"] false
    let draft (features : List Feature) : Draft := (Draft.new "qstart").receive
      [ .alphabets [.literal "a", z] [], .features features,
        .directive (.transition "qstart" (.cell (.literal "a")) .keep ⟨2⟩ "r") ]
    let c : Config := ⟨"qstart", [⟨[], .literal "a", [z, .literal "a"]⟩]⟩
    z ∈ (draft [.wildcard]).alphabet.symbols
      ∧ ((draft [.wildcard]).compile.next^[2] c).state = "REJECT"
      ∧ ((draft [.wildcard]).compile.next^[2] c).tapes = [⟨[.blank, .literal "a"], .literal "a", [.blank]⟩]
      ∧ ((draft [.wildcard, .moveMulti]).compile.next c).state = "r"
      ∧ ((draft [.wildcard, .moveMulti]).compile.next c).tapes
        = [⟨[z, .literal "a"], .literal "a", [.blank]⟩] := by
  decide +kernel

end TuringLowering
