import TuringLowering.Proofs.Relays
import TuringLowering.Proofs.UserNames

/-!
This module contains the states that are made for one state of an author alone. On two drafts that agree
about them, a request comes to the same result, and what it adds to them beyond these states are relays
only.
-/

namespace TuringLowering

/-- The states that are given rules on behalf of one state. -/
inductive Guard.Belongs (g : Guard) (o : String) : String → Prop where
  | self : Belongs g o o
  | part {tag suffix : String} (htag : Clean tag) (read : String) (hsuffix : suffix ∈ chainSuffixes) :
    Belongs g o (g.wrap [tag, o, read] ++ suffix)

def ChainKey.BelongsTo (k : ChainKey) (o : String) : Prop :=
  ¬ Build.IsStep k ∧ k.parts.head? = some o

/-- The cells for which a shift is asked by name. -/
def Directive.carried : Directive → List Cell
  | .gadget _ read (.shift _) _ => read.cells []
  | _ => []

theorem Directive.mem_read_of_carried {x : Directive} {c : Cell} (h : c ∈ x.carried) :
    c ∈ x.read.cells [] := by
  unfold carried at h
  split at h
  . exact h
  . cases h

namespace Request

/-- The state on whose behalf something is done on a single tape. -/
def origin? : Request → Option String
  | .state name => some name
  | .directive x => some x.origin
  | _ => none

def reads : Request → List Cell
  | .directive x => x.read.cells []
  | _ => []

end Request

theorem ChainKey.BelongsTo.eq {k : ChainKey} {o o' : String} (h : k.BelongsTo o)
    (h' : k.BelongsTo o') : o = o' := by
  have := h.2.symm.trans h'.2
  rwa [Option.some.injEq] at this

namespace Guard.Belongs

variable {g : Guard} {o o' name : String}

theorem eq (ho : g.Free o) (ho' : g.Free o') (h : g.Belongs o name) (h' : g.Belongs o' name) :
    o = o' := by
  have hpart {o tag read suffix : String} (hsuffix : suffix ∈ chainSuffixes) :
      ¬ g.Free (g.wrap [tag, o, read] ++ suffix) :=
    Generates.not_free ⟨_, _, .inr ⟨suffix, hsuffix, rfl⟩⟩
  generalize hname : name = name' at h'
  cases h with
  | self =>
    cases h' with
    | self => exact hname
    | part _ _ hsuffix => exact absurd (hname ▸ ho) (hpart hsuffix)
  | part htag read hsuffix =>
    cases h' with
    | self => exact absurd (hname ▸ ho') (hpart hsuffix)
    | part htag' read' hsuffix' =>
      have hwrap := (chainSuffixes_inj hsuffix hsuffix' hname).1
      exact (behind_inj_of_apart (.inl ho) (.inl ho') (behind_of_wrap htag htag' hwrap)).1

theorem ne_relay (ho : g.Free o) (h : g.Belongs o name) (s : Relay) : name ≠ s.name g := by
  have hparts : ∃ part parts, s.key.nameParts = part :: parts := by
    cases s <;> exact ⟨_, _, rfl⟩
  obtain ⟨part, parts, hparts⟩ := hparts
  rw [Relay.name, hparts]
  cases h with
  | self =>
    intro heq
    exact Generates.not_free ⟨part, parts, .inl rfl⟩ (heq ▸ ho)
  | part _ _ hsuffix =>
    intro heq
    apply getLast?_append_suffix _ hsuffix
    rw [heq]
    exact getLast?_wrap g part parts

end Guard.Belongs

namespace Draft

/-- A draft grew out of another one on behalf of one state; the relays are those of a third draft. -/
structure Grown (b : Draft) (C : Cell → Prop) (o : String) (d₀ d e : Draft) : Prop where
  stocked : d.Stocked b C fun _ => False
  tapes : ∀ n, d.tapes ≠ .multi n
  start : d.start = d₀.start
  other : ∀ name, ¬ b.guard.Belongs o name → (∀ s : Relay, s.Within C → name ≠ s.name b.guard) →
    d.states.find? name = d₀.states.find? name
  kept : ∀ k ∈ d₀.keys, k ∈ d.keys
  new : ∀ k ∈ d.keys, k ∈ d₀.keys ∨ k.BelongsTo o ∨ Build.IsStep k ∧ k ∈ e.keys

structure AgreeOn (b : Draft) (o : String) (d e : Draft) : Prop where
  tables : ∀ name, b.guard.Belongs o name → d.states.find? name = e.states.find? name
  keys : ∀ k : ChainKey, k.BelongsTo o → (k ∈ d.keys ↔ k ∈ e.keys)

structure Abreast (b : Draft) (C : Cell → Prop) (o : String) (d₀ e₀ d e : Draft) : Prop where
  left : Grown b C o d₀ d e
  right : Grown b C o e₀ e d
  agree : AgreeOn b o d e

namespace Stocked

variable {b d d' : Draft} {C : Cell → Prop} {opened : ChainKey → Prop}

theorem of_states (h : d.Stocked b C opened) (hd' : d' = { d with states := d'.states })
    (hfind : ∀ s : Relay, s.Within C →
      d'.states.find? (s.name b.guard) = d.states.find? (s.name b.guard)) :
    d'.Stocked b C opened := by
  have hchains : d'.chains = d.chains := by rw [hd']
  have hkeys : d'.keys = d.keys := congrArg (List.map Prod.fst) hchains
  refine ⟨by rw [hd', h.guard], by rw [hd', h.features], by rw [hd', h.alphabet],
    hchains ▸ h.named, ?_, ?_, ?_⟩
  . intro s hs
    rw [hkeys, hfind s hs]
    exact h.stocked s hs
  . intro s hs
    rw [hkeys, hfind s hs]
    exact h.fresh s hs
  . rw [hkeys]
    exact h.closed

theorem withForeign {k : ChainKey} (h : d.Stocked b C opened)
    (hk : ∀ s : Relay, s.Within C → s.key ≠ k) : (d.withChain k).Stocked b C opened := by
  have hmem (s : Relay) (hs : s.Within C) : s.key ∈ (d.withChain k).keys ↔ s.key ∈ d.keys := by
    rw [keys_withChain, List.mem_append, List.mem_singleton]
    exact or_iff_left (hk s hs)
  refine ⟨h.guard, h.features, h.alphabet, ?_, ?_, ?_, ?_⟩
  . intro e he
    rcases mem_withChain.mp he with he | rfl
    . exact h.named e he
    . rw [h.guard]
  . intro s hs
    rw [hmem s hs]
    exact h.stocked s hs
  . intro s hs
    rw [hmem s hs]
    exact h.fresh s hs
  . intro s hs hkey hopened r hr
    rw [hmem r (Relay.within_of_rest? hr)]
    exact h.closed s hs ((hmem s hs).mp hkey) hopened r hr

theorem withOther {k : ChainKey} (h : d.Stocked b C opened) (hk : ¬ Build.IsStep k) :
    (d.withChain k).Stocked b C opened :=
  h.withForeign fun s _ heq => hk (heq ▸ s.isStep_key)

end Stocked

namespace Grown

variable {b d₀ d d' e e' : Draft} {C : Cell → Prop} {o : String}

theorem refl (h : d.Stocked b C fun _ => False) (htapes : ∀ n, d.tapes ≠ .multi n) :
    Grown b C o d d e :=
  ⟨h, htapes, rfl, fun _ _ _ => rfl, fun _ => id, fun _ => .inl⟩

theorem of_states (h : Grown b C o d₀ d e) (ho : b.guard.Free o) {name : String}
    (hname : b.guard.Belongs o name) (hd' : d' = { d with states := d'.states })
    (hother : ∀ s, s ≠ name → d'.states.find? s = d.states.find? s)
    (he : ∀ k ∈ e.keys, k ∈ e'.keys) : Grown b C o d₀ d' e' := by
  have hkeys : d'.keys = d.keys := by rw [hd']; rfl
  refine ⟨h.stocked.of_states hd' ?_, by rw [hd']; exact h.tapes, by rw [hd']; exact h.start, ?_, ?_, ?_⟩
  . exact fun s _ => hother _ (hname.ne_relay ho s).symm
  . intro s hs hrelay
    rw [hother s fun heq => hs (heq ▸ hname), h.other s hs hrelay]
  . rw [hkeys]
    exact h.kept
  . rw [hkeys]
    exact fun k hk => (h.new k hk).imp_right (Or.imp_right (And.imp_right (he k)))

theorem withChain {k : ChainKey} (h : Grown b C o d₀ d e) (hk : k.BelongsTo o)
    (he : ∀ k ∈ e.keys, k ∈ e'.keys) : Grown b C o d₀ (d.withChain k) e' := by
  refine ⟨h.stocked.withOther hk.1, h.tapes, h.start, h.other, ?_, ?_⟩
  . intro k' hk'
    rw [keys_withChain]
    exact List.mem_append_left _ (h.kept k' hk')
  . intro k' hk'
    rw [keys_withChain, List.mem_append, List.mem_singleton] at hk'
    rcases hk' with hk' | rfl
    . exact (h.new k' hk').imp_right (Or.imp_right (And.imp_right (he k')))
    . exact .inr (.inl hk)

theorem provides {K : ChainKey → Prop} (h : Grown b C o d₀ d e) (hd' : d.Provides C K d')
    (hstocked : d'.Stocked b C fun _ => False) (he : ∀ k ∈ e.keys, k ∈ e'.keys)
    (hK : ∀ k, K k → Build.IsStep k ∧ k ∈ e'.keys) : Grown b C o d₀ d' e' := by
  refine ⟨hstocked, ?_, ?_, ?_, fun k hk => hd'.keys (h.kept k hk), ?_⟩
  . rw [hd'.rest]
    exact h.tapes
  . rw [hd'.rest]
    exact h.start
  . intro name hname hrelay
    rw [hd'.other name (by rwa [h.stocked.guard]), h.other name hname hrelay]
  . intro k hk
    rcases hd'.mem_keys hk with hk | hk
    . exact (h.new k hk).imp_right (Or.imp_right (And.imp_right (he k)))
    . exact .inr (.inr (hK k hk))

theorem claimed (h : Grown b C o d₀ d e) :
    Grown b C o d₀ { d with tapes := .single } { e with tapes := .single } := by
  have hstocked := h.stocked
  exact ⟨⟨hstocked.guard, hstocked.features, hstocked.alphabet, hstocked.named, hstocked.stocked,
    hstocked.fresh, hstocked.closed⟩, nofun, h.start, h.other, h.kept, h.new⟩

end Grown

namespace Abreast

variable {b d₀ e₀ d e d' e' : Draft} {C : Cell → Prop} {o : String}

theorem features_eq (h : Abreast b C o d₀ e₀ d e) : d.features = e.features := by
  rw [h.left.stocked.features, h.right.stocked.features]

theorem uncovered_eq (h : Abreast b C o d₀ e₀ d e) {name : String}
    (hname : b.guard.Belongs o name) : d.uncovered name = e.uncovered name := by
  rw [uncovered, uncovered, h.agree.tables name hname, h.left.stocked.alphabet,
    h.right.stocked.alphabet]

theorem of_copies (h : Abreast b C o d₀ e₀ d e) (ho : b.guard.Free o) {name : String}
    (hname : b.guard.Belongs o name) (h' : Copies name d e d' e') :
    Abreast b C o d₀ e₀ d' e' := by
  have hkeys : d'.keys = d.keys := by rw [h'.left]; rfl
  have hkeys' : e'.keys = e.keys := by rw [h'.right]; rfl
  refine ⟨?_, ?_, ?_, ?_⟩
  . exact h.left.of_states ho hname h'.left h'.leftOther (by rw [hkeys']; exact fun _ => id)
  . exact h.right.of_states ho hname h'.right h'.rightOther (by rw [hkeys]; exact fun _ => id)
  . intro s hs
    by_cases heq : s = name
    . rw [heq]
      exact h'.same
    . rw [h'.leftOther s heq, h'.rightOther s heq, h.agree.tables s hs]
  . rw [hkeys, hkeys']
    exact h.agree.keys

theorem withChain (h : Abreast b C o d₀ e₀ d e) {k : ChainKey} (hk : k.BelongsTo o) :
    Abreast b C o d₀ e₀ (d.withChain k) (e.withChain k) := by
  have hkept (d : Draft) : ∀ k' ∈ d.keys, k' ∈ (d.withChain k).keys := by
    intro k' hk'
    rw [keys_withChain]
    exact List.mem_append_left _ hk'
  refine ⟨h.left.withChain hk (hkept e), h.right.withChain hk (hkept d), h.agree.tables, ?_⟩
  intro k' hk'
  rw [keys_withChain, keys_withChain, List.mem_append, List.mem_append, h.agree.keys k' hk']

theorem provides (h : Abreast b C o d₀ e₀ d e) (ho : b.guard.Free o) {s : Relay} (hs : s.Within C)
    (hd : d'.Stocked b C fun _ => False) (he : e'.Stocked b C fun _ => False)
    (hd' : d.Provides C (s.Needs b.features) d') (he' : e.Provides C (s.Needs b.features) e')
    (hdmem : s.key ∈ d'.keys) (hemem : s.key ∈ e'.keys) : Abreast b C o d₀ e₀ d' e' := by
  have hkeys {d d' : Draft} (hd' : d.Provides C (s.Needs b.features) d') {k : ChainKey}
      (hk : k.BelongsTo o) : k ∈ d'.keys ↔ k ∈ d.keys := by
    constructor
    . exact fun hmem => (hd'.mem_keys hmem).resolve_right fun hneeds => hk.1 hneeds.isStep
    . exact hd'.keys
  refine ⟨?_, ?_, ?_, ?_⟩
  . exact h.left.provides hd' hd (fun k => he'.keys) fun k hk =>
      ⟨hk.isStep, he.mem_keys_of_needs hs hemem hk⟩
  . exact h.right.provides he' he (fun k => hd'.keys) fun k hk =>
      ⟨hk.isStep, hd.mem_keys_of_needs hs hdmem hk⟩
  . intro name hname
    have hrelay : ∀ s : Relay, s.Within C → name ≠ s.name b.guard :=
      fun s _ => hname.ne_relay ho s
    rw [hd'.other name (by rwa [h.left.stocked.guard]),
      he'.other name (by rwa [h.right.stocked.guard]), h.agree.tables name hname]
  . intro k hk
    rw [hkeys hd' hk, hkeys he' hk, h.agree.keys k hk]

end Abreast

end Draft

namespace Build

open Draft (Abreast Copies)

section

variable {b d₀ e₀ : Draft} {C : Cell → Prop} {o name : String} (hb : b.Grounds C)
  (ho : b.guard.Free o)
include ho

theorem Coupled.confined {α : Type} {x : Build α} (hx : ∀ d e, Coupled (Copies name d e) x)
    (hname : b.guard.Belongs o name) : Coupled (Abreast b C o d₀ e₀) x := by
  intro d e h
  have hcopies : Copies name d e d e := by
    apply Copies.refl h.features_eq
    . rw [h.left.stocked.alphabet, h.right.stocked.alphabet]
    . exact h.agree.tables name hname
  exact (hx d e d e hcopies).imp fun d' e' => h.of_copies ho hname

omit ho in
theorem chain_coupled {β : Type} {k : ChainKey} (hk : k.BelongsTo o) {f : String × Bool → Build β}
    (hf : ∀ isNew, Coupled (Abreast b C o d₀ e₀) (f (b.guard.wrap k.nameParts, isNew))) :
    Coupled (Abreast b C o d₀ e₀) (chain k k.nameParts >>= f) := by
  intro d e h
  by_cases hmem : k ∈ d.keys
  . rw [bind_of_ok (h.left.stocked.chain_of_mem hmem),
      bind_of_ok (h.right.stocked.chain_of_mem ((h.agree.keys k hk).mp hmem))]
    exact hf false d e h
  . rw [bind_of_ok (h.left.stocked.chain_of_not_mem hmem),
      bind_of_ok (h.right.stocked.chain_of_not_mem (mt (h.agree.keys k hk).mpr hmem))]
    exact hf true _ _ (h.withChain hk)

include hb

theorem provide_coupled {s : Relay} (hs : s.Within C) {n : Nat} (hn : s.move.weight ≤ n + 1) :
    Coupled (Abreast b C o d₀ e₀) (s.provide n) := by
  intro d e h
  obtain ⟨d', hok, hd, hd', hdmem⟩ := h.left.stocked.exists_provide hb hs hn
  obtain ⟨e', hok', he, he', hemem⟩ := h.right.stocked.exists_provide hb hs hn
  rw [hok, hok']
  exact .ok _ (h.provides ho hs hd he hd' he' hdmem hemem)

theorem transition_coupled (hname : b.guard.Belongs o name) (read : Pattern) (w : Writing)
    (m : Move) (next : String) :
    Coupled (Abreast b C o d₀ e₀) (transition name read w m next) := by
  obtain ⟨n, hn⟩ : ∃ n, max 1 m.distance = n + 1 :=
    Nat.exists_eq_add_one_of_ne_zero (by omega)
  intro d e h
  rw [transition, hn, transition_go_succ, transition_go_succ, h.features_eq]
  have hdirect (m : Move) (next : String) :
      Coupled (Abreast b C o d₀ e₀) (direct name read w m next) :=
    .confined ho (fun _ _ => direct_coupled read w m next) hname
  split
  . exact hdirect m next d e h
  . next hsupports =>
    have hweight := Relay.weight_detour_le hsupports
    rw [hn] at hweight
    have hrest : Coupled (Abreast b C o d₀ e₀) ((Relay.continuation m.detour.2 next).provide n) :=
      provide_coupled hb ho (s := .continuation _ _) trivial hweight
    exact hrest.bind (fun state => hdirect _ state) d e h

omit hb ho in
theorem claimSingleTape_coupled (call : Call) :
    Coupled (Abreast b C o d₀ e₀) (claimSingleTape call) := by
  intro d e h
  rw [claimSingleTape_apply call h.left.tapes, claimSingleTape_apply call h.right.tapes]
  exact .ok () ⟨h.left.claimed, h.right.claimed, h.agree.tables, h.agree.keys⟩

section

variable (hsymbols : ∀ c ∈ b.alphabet.symbols, C c)
include hsymbols

omit hb ho in
theorem shifted_of_mem {read : Pattern} (hread : ∀ c ∈ read.cells [], C c) {d : Draft}
    (h : d.alphabet = b.alphabet) : ∀ c ∈ read.cells (d.uncovered name), C c := by
  cases read with
  | cell c => exact hread
  | oneOf cells => exact hread
  | any =>
    intro c hc
    apply hsymbols c
    rw [← h]
    exact (Draft.mem_uncovered.mp hc).1

theorem shiftChain_coupled (hname : b.guard.Belongs o name) {read : Pattern}
    (hread : ∀ c ∈ read.cells [], C c) (m : Move) (next : String) :
    Coupled (Abreast b C o d₀ e₀) (shiftChain name read m next) := by
  apply Coupled.get_bind
  . intro d e h
    rw [h.uncovered_eq hname]
  . intro d e h
    apply Coupled.forM
    intro c hc
    have hs : (Relay.paste c m next).Within C :=
      shifted_of_mem hsymbols hread h.left.stocked.alphabet c hc
    have hpaste : Coupled (Abreast b C o d₀ e₀) ((Relay.paste c m next).provide _ >>=
        fun paste => transition name (.cell c) (.put .blank) .right paste) :=
      .bind (provide_coupled hb ho hs (Relay.weight_le m)) fun paste =>
        transition_coupled hb ho hname (.cell c) (.put .blank) .right paste
    rw [Relay.provide_bind] at hpaste
    exact hpaste

theorem shift_coupled (hname : b.guard.Belongs o name) {read : Pattern}
    (hread : ∀ c ∈ read.cells [], C c) (m : Move) (next : String) :
    Coupled (Abreast b C o d₀ e₀) (shift name read m next) := by
  apply Coupled.enabled_bind fun _ _ h => h.features_eq
  intro enabled
  split
  . exact .confined ho (fun _ _ => addAction_coupled read (.shift m) next) hname
  . exact shiftChain_coupled hb ho hsymbols hname hread m next

omit hsymbols in
theorem seekEnd_coupled (hname : b.guard.Belongs o name) (next : String) :
    Coupled (Abreast b C o d₀ e₀) (seekEnd name next) :=
  .bind (transition_coupled hb ho hname _ _ _ _) fun _ =>
    transition_coupled hb ho hname _ _ _ _

theorem markFirstChain_coupled (read : Pattern) (marker : Cell) (next : String) :
    Coupled (Abreast b C o d₀ e₀) (markFirstChain o read marker next) := by
  have hkey : (ChainKey.markFirst o read marker next).BelongsTo o := ⟨by simp [IsStep], rfl⟩
  apply chain_coupled hkey
  intro isNew
  have hpart {suffix : String} (h : suffix ∈ chainSuffixes) : b.guard.Belongs o
      (b.guard.wrap (ChainKey.markFirst o read marker next).nameParts ++ suffix) :=
    .part (by decide) read.display h
  dsimp only
  split
  . refine .bind (transition_coupled hb ho .self _ _ _ _) fun _ => ?_
    refine .bind (seekEnd_coupled hb ho (hpart (by decide)) _) fun _ => ?_
    refine .bind (transition_coupled hb ho (hpart (by decide)) _ _ _ _) fun _ => ?_
    exact shift_coupled hb ho hsymbols (hpart (by decide)) (List.forall_mem_nil _) _ _
  . exact .pure ()

theorem insertAfterChain_coupled (read : Pattern) (marker insert : Cell) (next : String) :
    Coupled (Abreast b C o d₀ e₀) (insertAfterChain o read marker insert next) := by
  have hkey : (ChainKey.insertAfter o read marker insert next).BelongsTo o :=
    ⟨by simp [IsStep], rfl⟩
  apply chain_coupled hkey
  intro isNew
  have hpart {suffix : String} (h : suffix ∈ chainSuffixes) : b.guard.Belongs o
      (b.guard.wrap (ChainKey.insertAfter o read marker insert next).nameParts ++ suffix) :=
    .part (by decide) read.display h
  dsimp only
  split
  . refine .bind (transition_coupled hb ho .self _ _ _ _) fun _ => ?_
    refine .bind (seekEnd_coupled hb ho (hpart (by decide)) _) fun _ => ?_
    refine .bind (transition_coupled hb ho (hpart (by decide)) _ _ _ _) fun _ => ?_
    refine .bind (shift_coupled hb ho hsymbols (hpart (by decide)) (List.forall_mem_nil _) _ _) fun _ => ?_
    exact transition_coupled hb ho (hpart (by decide)) _ _ _ _
  . exact .pure ()

theorem directive_coupled {x : Directive} (hx : x.origin = o) (hread : ∀ c ∈ x.carried, C c) :
    Coupled (Abreast b C o d₀ e₀) (directive x) := by
  cases x with
  | transition origin read w m next =>
    obtain rfl : origin = o := hx
    exact transition_coupled hb ho .self read w m next
  | gadget origin read x next =>
    obtain rfl : origin = o := hx
    apply Coupled.enabled_bind fun _ _ h => h.features_eq
    intro enabled
    split
    . exact .confined ho (fun _ _ => addAction_coupled read x.action next) .self
    . cases x with
      | shift m => exact shiftChain_coupled hb ho hsymbols .self hread m next
      | markFirst marker => exact markFirstChain_coupled hb ho hsymbols read marker next
      | insertAfter marker insert =>
        exact insertAfterChain_coupled hb ho hsymbols read marker insert next

/-- A request comes to the same result in drafts that agree about its state. -/
theorem submit_coupled {r : Request} (hr : r.origin? = some o)
    (hnames : ∀ name ∈ r.names, b.guard.Free name) (hreads : ∀ c ∈ r.reads, C c) :
    Coupled (Abreast b C o d₀ e₀) (submit r) := by
  have havoid {name : String} (hname : name ∈ r.names) :
      Coupled (Abreast b C o d₀ e₀) (avoid name) := by
    intro d e h
    have hd : d.guard.Free name := by
      rw [h.left.stocked.guard]
      exact hnames name hname
    have he : e.guard.Free name := by
      rw [h.right.stocked.guard]
      exact hnames name hname
    rw [avoid_apply, avoid_apply, Draft.avoid_of_free hd, Draft.avoid_of_free he]
    exact .ok () h
  cases r with
  | alphabets input extra => cases hr
  | features features => cases hr
  | tapes count first => cases hr
  | joint t => cases hr
  | state name =>
    cases hr
    exact .bind (havoid List.mem_cons_self) fun _ => .confined ho (fun _ _ => addState_coupled) .self
  | directive x =>
    cases hr
    have hdirective : Coupled (Abreast b C x.origin d₀ e₀) (directive x) :=
      directive_coupled hb ho hsymbols rfl fun c hc => hreads c (Directive.mem_read_of_carried hc)
    have horigin := havoid List.mem_cons_self
    have hnext := havoid (List.mem_cons_of_mem _ (List.mem_singleton_self x.next))
    cases x with
    | transition origin read w m next =>
      exact .bind (claimSingleTape_coupled _) fun _ => hnext.bind fun _ => horigin.bind fun _ =>
        hdirective
    | gadget origin read x next =>
      exact .bind (claimSingleTape_coupled _) fun _ => horigin.bind fun _ => hnext.bind fun _ =>
        hdirective

end

end

end Build

end TuringLowering
