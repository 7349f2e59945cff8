import TuringLowering.Proofs.Admission
import TuringLowering.Proofs.Locality

/-!
This module contains the states that requests for different states share: those that finish a movement
and those that paste a symbol. Whichever request asks for one first, it gets the same rules, and adding
them never fails.
-/

namespace TuringLowering

/-- A generated state that writes, moves and goes on, whatever it reads. -/
inductive Relay where
  | continuation (m : Move) (next : String)
  | paste (c : Cell) (m : Move) (next : String)

namespace Relay

def key : Relay → ChainKey
  | .continuation m next => .continuation m next
  | .paste c m next => .paste c m next

def writing : Relay → Writing
  | .continuation _ _ => .keep
  | .paste c _ _ => .put c

def move : Relay → Move
  | .continuation m _ => m
  | .paste _ m _ => m

def next : Relay → String
  | .continuation _ next => next
  | .paste _ _ next => next

def name (g : Guard) (s : Relay) : String := g.wrap s.key.nameParts

def rest? (F : FeatureSet) (s : Relay) : Option Relay :=
  if F.supports s.move then none else some (.continuation s.move.detour.2 s.next)

def rule (F : FeatureSet) (g : Guard) (s : Relay) : Build Unit :=
  match s.rest? F with
  | none => Build.direct (s.name g) .any s.writing s.move s.next
  | some r => Build.direct (s.name g) .any s.writing s.move.detour.1 (r.name g)

def provide (n : Nat) (s : Relay) : Build String := do
  let (state, isNew) ← Build.chain s.key s.key.nameParts
  if isNew then
    Build.transition.go n state .any s.writing s.move s.next
  return state

/-- The rules that the relay has in a draft to which nothing else was added. -/
def table (b : Draft) (s : Relay) : Option RuleTable :=
  ((s.rule b.features b.guard).after b).states.find? (s.name b.guard)

def Within (C : Cell → Prop) : Relay → Prop
  | .continuation _ _ => True
  | .paste c _ _ => C c

variable {C : Cell → Prop} {g : Guard} {F : FeatureSet} {s r : Relay}

theorem within_of_rest? (h : r ∈ s.rest? F) : r.Within C := by
  unfold rest? at h
  split at h
  . cases h
  . cases h
    exact trivial

/-- The keys of a relay and of those that it leaves the rest to. -/
inductive Needs (F : FeatureSet) : Relay → ChainKey → Prop where
  | self (s : Relay) : Needs F s s.key
  | rest {s r : Relay} {k : ChainKey} (hr : r ∈ s.rest? F) (h : Needs F r k) : Needs F s k

theorem isStep_key (s : Relay) : Build.IsStep s.key := by
  cases s with
  | continuation m next => exact .inl rfl
  | paste c m next => exact .inr rfl

theorem formed (hC : ∀ c, C c → g.Apart c.display) (hs : s.Within C) : s.key.Formed g := by
  cases s with
  | continuation m next => exact .continuation m next
  | paste c m next => exact .paste (hC c hs) m next

theorem key_of_name (hC : ∀ c, C c → g.Apart c.display) (hs : s.Within C) (hr : r.Within C)
    (h : s.name g = r.name g) : s.key = r.key :=
  (formed hC hs).eq_of_wrap (formed hC hr) s.isStep_key h

theorem eq_of_key (hC : ∀ c c', C c → C c' → c.display = c'.display → c = c') (hs : s.Within C)
    (hr : r.Within C) (h : s.key = r.key) : s = r := by
  cases s <;> cases r <;> simp only [key, ChainKey.mk.injEq, List.cons.injEq, reduceCtorEq,
    false_and, and_true, true_and] at h
  . rw [Move.display_injective h.1, h.2]
  . rw [hC _ _ hs hr h.1, Move.display_injective h.2.1, h.2.2]

theorem same_of_key (h : s.key = r.key) : s.move = r.move ∧ s.next = r.next := by
  cases s <;> cases r <;> simp only [key, ChainKey.mk.injEq, List.cons.injEq, reduceCtorEq,
    false_and, and_true, true_and] at h
  . exact ⟨Move.display_injective h.1, h.2⟩
  . exact ⟨Move.display_injective h.2.1, h.2.2⟩

theorem rest?_of_key (h : s.key = r.key) : s.rest? F = r.rest? F := by
  obtain ⟨hmove, hnext⟩ := same_of_key h
  rw [rest?, rest?, hmove, hnext]

theorem provide_bind {β : Type} (n : Nat) (s : Relay) (k : String → Build β) :
    s.provide n >>= k = (do
      let (state, isNew) ← Build.chain s.key s.key.nameParts
      if isNew then
        Build.transition.go n state .any s.writing s.move s.next
      k state) := by
  rw [provide, bind_assoc]
  congr 1
  funext p
  obtain ⟨state, isNew⟩ := p
  cases isNew with
  | true => exact bind_assoc _ _ _
  | false => rfl

theorem continuation_key_ne {m : Move} (h : m.weight < s.move.weight) (next : String) :
    (continuation m next).key ≠ s.key := by
  intro heq
  have hmove : m = s.move := by
    cases s <;> simp only [key, ChainKey.mk.injEq, List.cons.injEq, reduceCtorEq, false_and,
      and_true, true_and] at heq
    exact Move.display_injective heq.1
  rw [hmove] at h
  exact Nat.lt_irrefl _ h

theorem two_le_weight {m : Move} (h : ¬ F.supports m = true) : 2 ≤ m.weight := by
  have hdistance := Move.distance_ne_one_of_not_supports h
  unfold Move.weight
  split
  . exact Nat.le_refl 2
  . next hstay =>
    have hpos : m.distance ≠ 0 := by
      intro hzero
      apply hstay
      cases m
      simp only [Move.distance, Int.natAbs_eq_zero] at hzero
      rw [hzero]
    omega

theorem weight_le (m : Move) : m.weight ≤ max 1 m.distance + 1 := by
  unfold Move.weight
  split <;> omega

theorem weight_detour_le {m : Move} (h : ¬ F.supports m = true) :
    m.detour.2.weight ≤ max 1 m.distance := by
  have hlt := Move.weight_detour_lt (Move.distance_ne_one_of_not_supports h)
  have hle : m.weight ≤ max 1 m.distance + 1 := weight_le m
  omega

theorem Needs.isStep {k : ChainKey} (h : s.Needs F k) : Build.IsStep k := by
  induction h with
  | self s => exact s.isStep_key
  | rest _ _ ih => exact ih

end Relay

theorem Build.transition_go_succ (n : Nat) (origin : String) (read : Pattern) (w : Writing) (m : Move)
    (next : String) (d : Draft) :
    transition.go (n + 1) origin read w m next d =
      if d.features.supports m then direct origin read w m next d
      else ((Relay.continuation m.detour.2 next).provide n >>=
        fun state => direct origin read w m.detour.1 state) d := by
  unfold transition.go
  rw [Relay.provide_bind]
  change (if d.features.supports m then _ else _ : Build Unit) d = _
  rw [apply_ite (fun x : Build Unit => x d)]
  rfl

namespace Draft

def keys (d : Draft) : List ChainKey := d.chains.map Prod.fst

/-- Nothing was added yet, and the symbols in question are told apart in names. -/
structure Grounds (b : Draft) (C : Cell → Prop) : Prop where
  states : b.states = {}
  chains : b.chains = []
  orderly : ¬ b.features.enabled .wildcard = true → b.alphabet.IsOrderly
  apart : ∀ c, C c → b.guard.Apart c.display

/--
The relays of a draft have the rules that they should have, except those that are worked on, which have
none yet. What a relay leaves to another one, that one is there for.
-/
structure Stocked (d b : Draft) (C : Cell → Prop) (opened : ChainKey → Prop) : Prop where
  guard : d.guard = b.guard
  features : d.features = b.features
  alphabet : d.alphabet = b.alphabet
  named : ∀ e ∈ d.chains, e.2 = b.guard.wrap e.1.nameParts
  stocked : ∀ s : Relay, s.Within C → s.key ∈ d.keys → ¬ opened s.key →
    ∃ r : Relay, r.Within C ∧ r.key = s.key ∧ d.states.find? (s.name b.guard) = r.table b
  fresh : ∀ s : Relay, s.Within C → s.key ∉ d.keys ∨ opened s.key →
    d.states.find? (s.name b.guard) = none
  closed : ∀ s : Relay, s.Within C → s.key ∈ d.keys → ¬ opened s.key →
    ∀ r ∈ s.rest? b.features, r.key ∈ d.keys ∧ ¬ opened r.key

structure Provides (d : Draft) (C : Cell → Prop) (K : ChainKey → Prop) (d' : Draft) : Prop where
  rest : d' = { d with states := d'.states, chains := d'.chains }
  other : ∀ name, (∀ s : Relay, s.Within C → name ≠ s.name d.guard) →
    d'.states.find? name = d.states.find? name
  chains : ∃ added, d'.chains = d.chains ++ added ∧ ∀ e ∈ added, Build.IsStep e.1 ∧ K e.1

theorem keys_withChain (d : Draft) (k : ChainKey) : (d.withChain k).keys = d.keys ++ [k] := by
  rw [keys, withChain, List.map_append]
  rfl

namespace Provides

variable {C : Cell → Prop} {K K' : ChainKey → Prop} {d d' d'' : Draft}

theorem refl (d : Draft) : d.Provides C K d :=
  ⟨rfl, fun _ _ => rfl, [], (List.append_nil _).symm, nofun⟩

theorem guard (h : d.Provides C K d') : d'.guard = d.guard := by
  rw [h.rest]

theorem mono (h : d.Provides C K d') (hK : ∀ k, K k → K' k) : d.Provides C K' d' := by
  obtain ⟨added, hchains, hadded⟩ := h.chains
  exact ⟨h.rest, h.other, added, hchains, fun e he => ⟨(hadded e he).1, hK _ (hadded e he).2⟩⟩

theorem trans (h : d.Provides C K d') (h' : d'.Provides C K d'') : d.Provides C K d'' := by
  obtain ⟨added, hchains, hadded⟩ := h.chains
  obtain ⟨added', hchains', hadded'⟩ := h'.chains
  refine ⟨by rw [h'.rest, h.rest], ?_, added ++ added', ?_, ?_⟩
  . intro name hname
    rw [h'.other name (by rwa [h.guard]), h.other name hname]
  . rw [hchains', hchains, List.append_assoc]
  . rw [List.forall_mem_append]
    exact ⟨hadded, hadded'⟩

theorem keys (h : d.Provides C K d') {k : ChainKey} (hk : k ∈ d.keys) : k ∈ d'.keys := by
  obtain ⟨added, hchains, _⟩ := h.chains
  rw [Draft.keys, hchains, List.map_append]
  exact List.mem_append_left _ hk

theorem mem_keys (h : d.Provides C K d') {k : ChainKey} (hk : k ∈ d'.keys) : k ∈ d.keys ∨ K k := by
  obtain ⟨added, hchains, hadded⟩ := h.chains
  rw [Draft.keys, hchains, List.map_append] at hk
  rcases List.mem_append.mp hk with hk | hk
  . exact .inl hk
  . obtain ⟨e, he, rfl⟩ := List.mem_map.mp hk
    exact .inr (hadded e he).2

theorem withChain {s : Relay} (hs : K s.key) : d.Provides C K (d.withChain s.key) := by
  refine ⟨rfl, fun _ _ => rfl, _, rfl, ?_⟩
  rw [List.forall_mem_singleton]
  exact ⟨s.isStep_key, hs⟩

end Provides

namespace Stocked

variable {b d d' : Draft} {C : Cell → Prop} {opened opened' : ChainKey → Prop} {s r : Relay}

theorem congr (h : d.Stocked b C opened) (hiff : ∀ k, opened k ↔ opened' k) :
    d.Stocked b C opened' := by
  obtain rfl : opened = opened' := funext fun k => propext (hiff k)
  exact h

theorem chain_of_mem (h : d.Stocked b C opened) {k : ChainKey} (hk : k ∈ d.keys) :
    Build.chain k k.nameParts d = .ok (b.guard.wrap k.nameParts, false) d := by
  obtain ⟨e, he, hkey⟩ := List.mem_map.mp hk
  rw [Build.chain_apply]
  cases hfind : d.chains.find? (·.1 = k) with
  | none => exact absurd hkey (by simpa using List.find?_eq_none.mp hfind e he)
  | some e' =>
    have hkey' : e'.1 = k := by simpa using List.find?_some hfind
    have hname := h.named e' (List.mem_of_find?_eq_some hfind)
    rw [hkey'] at hname
    dsimp only
    rw [hname]

theorem chain_of_not_mem (h : d.Stocked b C opened) {k : ChainKey} (hk : k ∉ d.keys) :
    Build.chain k k.nameParts d = .ok (b.guard.wrap k.nameParts, true) (d.withChain k) := by
  rw [Build.chain_apply, List.find?_eq_none.mpr]
  . rw [withChain, h.guard]
  . intro e he
    rw [decide_eq_true_eq]
    exact fun hkey => hk (List.mem_map.mpr ⟨e, he, hkey⟩)

theorem withChain (h : d.Stocked b C opened) (hs : s.key ∉ d.keys) :
    (d.withChain s.key).Stocked b C fun k => opened k ∨ k = s.key := by
  refine ⟨h.guard, h.features, h.alphabet, ?_, ?_, ?_, ?_⟩
  . intro e he
    rcases mem_withChain.mp he with he | rfl
    . exact h.named e he
    . rw [h.guard]
  . intro t ht hmem hopened
    rw [not_or] at hopened
    rw [keys_withChain, List.mem_append, List.mem_singleton] at hmem
    exact h.stocked t ht (hmem.resolve_right hopened.2) hopened.1
  . intro t ht hnot
    apply h.fresh t ht
    rw [keys_withChain, List.mem_append, List.mem_singleton, not_or] at hnot
    rcases hnot with hnot | hopened | heq
    . exact .inl hnot.1
    . exact .inr hopened
    . exact .inl (heq ▸ hs)
  . intro t ht hmem hopened u hu
    rw [not_or] at hopened
    rw [keys_withChain, List.mem_append, List.mem_singleton] at hmem
    obtain ⟨hmem', hopened'⟩ := h.closed t ht (hmem.resolve_right hopened.2) hopened.1 u hu
    rw [keys_withChain, not_or]
    exact ⟨List.mem_append_left _ hmem', hopened', fun heq => hs (heq ▸ hmem')⟩

variable (hb : b.Grounds C)
include hb

theorem filled (h : d.Stocked b C opened) (hs : s.Within C) (hmem : s.key ∈ d.keys)
    (hrest : ∀ r ∈ s.rest? b.features, r.key ∈ d.keys ∧ ¬ opened r.key)
    (hd' : d' = { d with states := d'.states })
    (hother : ∀ name, name ≠ s.name b.guard → d'.states.find? name = d.states.find? name)
    (hfind : d'.states.find? (s.name b.guard) = s.table b) :
    d'.Stocked b C fun k => opened k ∧ k ≠ s.key := by
  have hchains : d'.chains = d.chains := by rw [hd']
  have hkeys : d'.keys = d.keys := congrArg (List.map Prod.fst) hchains
  have hname {t : Relay} (ht : t.Within C) (hne : t.key ≠ s.key) :
      t.name b.guard ≠ s.name b.guard := fun heq => hne (Relay.key_of_name hb.apart ht hs heq)
  refine ⟨by rw [hd', h.guard], by rw [hd', h.features], by rw [hd', h.alphabet],
    hchains ▸ h.named, ?_, ?_, ?_⟩
  . intro t ht hkey hopened
    by_cases heq : t.key = s.key
    . refine ⟨s, hs, heq.symm, ?_⟩
      rw [Relay.name, heq]
      exact hfind
    . rw [hother _ (hname ht heq)]
      exact h.stocked t ht (hkeys ▸ hkey) fun ho => hopened ⟨ho, heq⟩
  . intro t ht hnot
    have heq : t.key ≠ s.key := by
      intro heq
      rcases hnot with hnot | hopened
      . rw [hkeys, heq] at hnot
        exact hnot hmem
      . exact hopened.2 heq
    rw [hother _ (hname ht heq)]
    exact h.fresh t ht (hnot.imp (hkeys ▸ ·) And.left)
  . intro t ht hkey hopened r hr
    have hboth : r.key ∈ d.keys ∧ ¬ opened r.key := by
      by_cases heq : t.key = s.key
      . rw [Relay.rest?_of_key heq] at hr
        exact hrest r hr
      . exact h.closed t ht (hkeys ▸ hkey) (fun ho => hopened ⟨ho, heq⟩) r hr
    exact ⟨hkeys ▸ hboth.1, fun ho => hboth.2 ho.1⟩

theorem exists_rule (h : d.Stocked b C opened) (hs : s.Within C) (hmem : s.key ∈ d.keys)
    (hopened : opened s.key)
    (hrest : ∀ r ∈ s.rest? b.features, r.key ∈ d.keys ∧ ¬ opened r.key) (K : ChainKey → Prop) :
    ∃ d', s.rule b.features b.guard d = .ok () d' ∧
      d'.Stocked b C (fun k => opened k ∧ k ≠ s.key) ∧ d.Provides C K d' := by
  have hfresh := h.fresh s hs (.inr hopened)
  have hbare : b.states.find? (s.name b.guard) = none := by
    rw [hb.states]
    rfl
  have hadmits : d.Admits (s.name b.guard) .any :=
    .of_find? hfresh List.nodup_nil (List.forall_mem_nil _)
  have hcopies : Copies (s.name b.guard) d b d b :=
    .refl h.features h.alphabet (by rw [hfresh, hbare])
  have hA : ¬ d.features.enabled .wildcard = true → d.alphabet.IsOrderly := by
    rw [h.features, h.alphabet]
    exact hb.orderly
  have hrule : ∃ m next, s.rule b.features b.guard
      = Build.direct (s.name b.guard) .any s.writing m next := by
    unfold Relay.rule
    split
    . exact ⟨_, _, rfl⟩
    . exact ⟨_, _, rfl⟩
  obtain ⟨m, next, hrule⟩ := hrule
  obtain ⟨d', hd'⟩ := Build.exists_direct hA hadmits s.writing m next
  have halike := Build.direct_coupled .any s.writing m next d b hcopies
  have hafter := halike.after.1
  rw [Build.after, hd', ← hrule] at hafter
  refine ⟨d', by rw [hrule, hd'], ?_, ?_⟩
  . exact h.filled hb hs hmem hrest hafter.left hafter.leftOther hafter.same
  . refine ⟨?_, ?_, [], ?_, List.forall_mem_nil _⟩
    . have hleft := hafter.left
      dsimp only at hleft
      rw [hleft]
    . intro name hname
      exact hafter.leftOther name (by rw [← h.guard]; exact hname s hs)
    . have hleft := hafter.left
      dsimp only at hleft
      rw [hleft, List.append_nil]

theorem exists_direct (h : d.Stocked b C opened) (hs : s.Within C) (hmem : s.key ∈ d.keys)
    (hopened : opened s.key) (hsupports : b.features.supports s.move = true) :
    ∃ d', Build.direct (s.name b.guard) .any s.writing s.move s.next d = .ok () d' ∧
      d'.Stocked b C (fun k => opened k ∧ k ≠ s.key) ∧ d.Provides C (s.Needs b.features) d' := by
  have hnone : s.rest? b.features = none := by rw [Relay.rest?, if_pos hsupports]
  have hrule := h.exists_rule hb hs hmem hopened (by rw [hnone]; nofun) (s.Needs b.features)
  rw [Relay.rule, hnone] at hrule
  exact hrule

omit hb in
theorem mem_keys_of_needs (h : d.Stocked b C fun _ => False) (hs : s.Within C)
    (hmem : s.key ∈ d.keys) {k : ChainKey} (hk : s.Needs b.features k) : k ∈ d.keys := by
  induction hk with
  | self s => exact hmem
  | rest hr _ ih =>
    exact ih (Relay.within_of_rest? hr) (h.closed _ hs hmem not_false _ hr).1

omit hb in
theorem exists_provide_of_go {n : Nat} (h : d.Stocked b C opened) (hopened : ¬ opened s.key)
    (hgo : (d.withChain s.key).Stocked b C (fun k => opened k ∨ k = s.key) →
      ∃ d', Build.transition.go n (s.name b.guard) .any s.writing s.move s.next
        (d.withChain s.key) = .ok () d' ∧
        d'.Stocked b C (fun k => (opened k ∨ k = s.key) ∧ k ≠ s.key) ∧
        (d.withChain s.key).Provides C (s.Needs b.features) d') :
    ∃ d', s.provide n d = .ok (s.name b.guard) d' ∧ d'.Stocked b C opened ∧
      d.Provides C (s.Needs b.features) d' ∧ s.key ∈ d'.keys := by
  by_cases hmem : s.key ∈ d.keys
  . refine ⟨d, ?_, h, .refl d, hmem⟩
    rw [Relay.provide, Build.bind_of_ok (h.chain_of_mem hmem)]
    rfl
  . obtain ⟨d', hgo, hstocked, hprovides⟩ := hgo (h.withChain hmem)
    refine ⟨d', ?_, ?_, (Provides.withChain (.self s)).trans hprovides, ?_⟩
    . rw [Relay.provide, Build.bind_of_ok (h.chain_of_not_mem hmem)]
      dsimp only
      rw [if_pos rfl]
      exact Build.bind_of_ok hgo _
    . apply hstocked.congr
      intro k
      constructor
      . exact fun hk => hk.1.resolve_right hk.2
      . exact fun hk => ⟨.inl hk, fun heq => hopened (heq ▸ hk)⟩
    . apply hprovides.keys
      rw [keys_withChain]
      exact List.mem_append_right _ (List.mem_singleton_self _)

/--
A relay that is worked on gets its rules, and the relays that it needs are added with theirs. None of
these is worked on itself, since less is left for it to do.
-/
theorem exists_go {n : Nat} (h : d.Stocked b C opened) (hs : s.Within C) (hmem : s.key ∈ d.keys)
    (hopened : opened s.key) (hweight : s.move.weight ≤ n + 1)
    (hless : ∀ m next, m.weight < s.move.weight → ¬ opened (Relay.continuation m next).key) :
    ∃ d', Build.transition.go n (s.name b.guard) .any s.writing s.move s.next d = .ok () d' ∧
      d'.Stocked b C (fun k => opened k ∧ k ≠ s.key) ∧ d.Provides C (s.Needs b.features) d' := by
  induction n generalizing d opened s with
  | zero =>
    apply h.exists_direct hb hs hmem hopened
    by_contra hnot
    have := Relay.two_le_weight hnot
    omega
  | succ n ih =>
    rw [Build.transition_go_succ, h.features]
    by_cases hsupports : b.features.supports s.move = true
    . rw [if_pos hsupports]
      exact h.exists_direct hb hs hmem hopened hsupports
    . have hlighter := Move.weight_detour_lt (Move.distance_ne_one_of_not_supports hsupports)
      have hrest : s.rest? b.features = some (.continuation s.move.detour.2 s.next) := by
        rw [Relay.rest?, if_neg hsupports]
      have hfree := hless _ s.next hlighter
      rw [if_neg hsupports]
      obtain ⟨d₁, hprovide, hstocked₁, hprovides₁, hmem₁⟩ :=
        h.exists_provide_of_go hfree fun hnew => by
          apply ih hnew (Relay.within_of_rest? hrest)
          . rw [keys_withChain]
            exact List.mem_append_right _ (List.mem_singleton_self _)
          . exact .inr rfl
          . exact Nat.le_of_lt_succ (Nat.lt_of_lt_of_le hlighter hweight)
          . -- A movement that leaves less than the rest is neither the rest nor worked on.
            intro m next hm
            rw [not_or]
            exact ⟨hless m next (Nat.lt_trans hm hlighter), Relay.continuation_key_ne hm next⟩
      have hrule := hstocked₁.exists_rule hb hs (hprovides₁.keys hmem) hopened
        (by rw [hrest]; rintro r ⟨⟩; exact ⟨hmem₁, hfree⟩) (s.Needs b.features)
      rw [Relay.rule, hrest] at hrule
      obtain ⟨d', hrule, hstocked', hprovides'⟩ := hrule
      refine ⟨d', ?_, hstocked', (hprovides₁.mono fun k => .rest hrest).trans hprovides'⟩
      rw [Build.bind_of_ok hprovide]
      exact hrule

/-- A relay can always be provided, whoever asks for it. -/
theorem exists_provide {n : Nat} (h : d.Stocked b C fun _ => False) (hs : s.Within C)
    (hweight : s.move.weight ≤ n + 1) :
    ∃ d', s.provide n d = .ok (s.name b.guard) d' ∧ (d'.Stocked b C fun _ => False) ∧
      d.Provides C (s.Needs b.features) d' ∧ s.key ∈ d'.keys := by
  apply h.exists_provide_of_go not_false
  intro hnew
  apply hnew.exists_go hb hs _ (.inr rfl) hweight
  . intro m next hm
    rw [false_or]
    exact Relay.continuation_key_ne hm next
  . rw [keys_withChain]
    exact List.mem_append_right _ (List.mem_singleton_self _)

end Stocked

end Draft

end TuringLowering
