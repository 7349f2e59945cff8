import TuringLowering.Proofs.FirstMatch
import TuringLowering.Proofs.JointAdmission

/-!
This module contains the states that finish movements of several heads. The heads move together by single
cells, and those that have arrived wait for the others. The states are shared by all transitions with the
same rests of movements and the same target. If all symbols are accepted, adding them never fails, and
movements that are split are the movements as a whole.
-/

namespace TuringLowering

namespace JointTransition

variable {g g' : Guard} {t t' : JointTransition} {n : Nat} {cells : List Cell} {o : Outcome}

theorem next_remainder (g : Guard) (t : JointTransition) : (t.remainder g).next = t.next := by
  rw [remainder]

theorem writes_remainder (g : Guard) (t : JointTransition) :
    (t.remainder g).writes = t.writes.map fun _ => .keep := by
  rw [remainder]

theorem moves_remainder (g : Guard) (t : JointTransition) :
    (t.remainder g).moves = t.moves.map Move.rest := by
  rw [remainder]

theorem pendingKey_remainder (g g' : Guard) (t : JointTransition) :
    (t.remainder g).pendingKey = (t.remainder g').pendingKey := by
  rw [pendingKey, pendingKey, moves_remainder, moves_remainder, next_remainder, next_remainder]

/-- The number of steps that a transition takes, if heads move by single cells. -/
def steps (t : JointTransition) : Nat := max 1 ((t.moves.map Move.distance).foldl max 0)

theorem foldl_distance_rest (ms : List Move) (a : Nat) :
    ((ms.map Move.rest).map Move.distance).foldl max (a - 1) = (ms.map Move.distance).foldl max a - 1 := by
  induction ms generalizing a with
  | nil => rfl
  | cons m ms ih =>
    have hmax : max (a - 1) m.rest.distance = max a m.distance - 1 := by
      rw [Move.distance_rest]
      omega
    simp only [List.map_cons, List.foldl_cons, hmax, ih]

theorem steps_remainder (hlong : t.moves.any Move.isLong = true) :
    t.steps = (t.remainder g).steps + 1 := by
  obtain ⟨m, hm, hdistance⟩ := List.any_eq_true.mp hlong
  have hle := (distance_le_foldl t.moves 0).2 m hm
  have hrest := foldl_distance_rest t.moves 0
  simp only [Move.isLong, decide_eq_true_eq] at hdistance
  rw [steps, steps, remainder, hrest]
  omega

theorem steps_of_short (hshort : t.moves.any Move.isLong = false) : t.steps = 1 := by
  have hle : ∀ (ms : List Move) (a : Nat), a ≤ 1 → ms.any Move.isLong = false →
      (ms.map Move.distance).foldl max a ≤ 1 := by
    intro ms
    induction ms with
    | nil => exact fun a ha _ => ha
    | cons m ms ih =>
      intro a ha hms
      simp only [List.any_cons, Bool.or_eq_false_iff, Move.isLong, decide_eq_false_iff_not] at hms
      exact ih _ (by omega) hms.2
  have := hle t.moves 0 (Nat.zero_le 1) hshort
  rw [steps]
  omega

theorem Fits.opening (h : t.Fits n) : (t.opening g).Fits n := by
  unfold JointTransition.opening
  split
  . exact ⟨h.reads, h.writes, (List.length_map _).trans h.moves⟩
  . exact h

theorem Gives.congr (h : t.Gives cells o) (hwrites : t'.writes = t.writes) (hmoves : t'.moves = t.moves)
    (hnext : t'.next = t.next) : t'.Gives cells o := by
  rw [Gives, hwrites, hmoves, hnext]
  exact h

theorem Gives.congr_opening (h : (t.opening g).Gives cells o) (hwrites : t'.writes = t.writes)
    (hmoves : t'.moves = t.moves) (hnext : t'.next = t.next) : (t'.opening g).Gives cells o := by
  cases hlong : t.moves.any Move.isLong with
  | true =>
    rw [JointTransition.opening, if_pos hlong] at h
    rw [JointTransition.opening, if_pos (hmoves ▸ hlong)]
    exact h.congr hwrites (congrArg (List.map Move.step) hmoves) (by rw [remainder, remainder, hmoves, hnext])
  | false =>
    rw [opening_of_short hlong] at h
    rw [opening_of_short (hmoves ▸ hlong)]
    exact h.congr hwrites hmoves hnext

theorem rename_remainder (g' : Guard) (hnext : g.Free t.next) :
    g.rename g' (t.remainder g).origin = (t.remainder g').origin := by
  rw [remainder, Guard.pending, Guard.rename_wrap]
  simp only [List.map_cons, List.map_nil, Guard.rename_of_clean (Guard.clean_moves _),
    Guard.rename_of_free hnext, remainder, Guard.pending]

theorem mapNames_pendingKey (g' : Guard) (hnext : g.Free t.next) :
    t.pendingKey.mapNames (g.rename g') = t.pendingKey := by
  simp only [pendingKey, ChainKey.mapNames, List.map_cons, List.map_nil,
    Guard.rename_of_clean (Guard.clean_moves _), Guard.rename_of_free hnext]

theorem Gives.widened (g' : Guard) (hnext : g.Free t.next) (h : (t.opening g).Gives cells o) :
    ((t.mapCells (g.rename g')).opening g').Gives (cells.map (Cell.mapNames (g.rename g')))
      (o.mapNames (g.rename g')) := by
  have hmap := h.mapNames (f := g.rename g')
  unfold JointTransition.opening at hmap ⊢
  cases hlong : t.moves.any Move.isLong with
  | true =>
    rw [hlong, if_pos rfl] at hmap
    rw [JointTransition.mapCells, hlong, if_pos rfl]
    exact hmap.congr rfl rfl (rename_remainder g' hnext).symm
  | false =>
    rw [hlong, if_neg Bool.false_ne_true] at hmap
    rw [JointTransition.mapCells, hlong, if_neg Bool.false_ne_true]
    exact hmap.congr rfl rfl (Guard.rename_of_free hnext g').symm

theorem Gives.widened_remainder (g' : Guard) (hnext : g.Free t.next)
    (h : ((t.remainder g).opening g).Gives cells o) :
    ((t.remainder g').opening g').Gives (cells.map (Cell.mapNames (g.rename g')))
      (o.mapNames (g.rename g')) := by
  have hwidened := Gives.widened (t := t.remainder g) g' (by rwa [next_remainder]) h
  refine hwidened.congr_opening ?_ ?_ ?_
  . rw [writes_remainder, JointTransition.mapCells, writes_remainder, List.map_map]
    rfl
  . rw [moves_remainder, JointTransition.mapCells, moves_remainder]
  . rw [next_remainder, JointTransition.mapCells, next_remainder]

end JointTransition

namespace Build

variable {d d₁ d₂ : Draft} {origin : String} {m : Nat} {t : JointTransition} {state : String}

theorem exists_jointForCells {reads : List (List Cell)} (hnodup : reads.Nodup)
    (h : ∀ read ∈ reads, d.states.lookup origin (.joint read) = none
      ∧ ∀ c ∈ read, d.alphabet.accepts c = true)
    (writes : List Writing) (moves : List Move) (next : String) (source : JointPattern) :
    ∃ d', jointForCells origin reads writes moves next source d = .ok () d' := by
  rw [jointForCells, bind_of_ok (get_apply d)]
  apply exists_addRules (hnodup.map Cell.joint_injective)
  rw [List.forall_mem_map]
  exact fun read hread => ⟨(h read hread).1, Alphabet.accepts_joint (h read hread).2⟩

theorem exists_joint_any (hnone : ∀ c, d.states.lookup origin c = none)
    (horderly : ¬ d.features.enabled .wildcard = true → d.alphabet.IsOrderly) (writes : List Writing)
    (moves : List Move) (next : String) : ∃ d', joint origin .any writes moves next d = .ok () d' := by
  rw [joint, bind_of_ok (enabled_apply _ _)]
  split
  . exact exists_addRule_wildcard (hnone .blank) _
  . next hwildcard =>
    have hA := horderly fun henabled => hwildcard ⟨rfl, henabled⟩
    unfold jointPerTape
    cases hexact : Pattern.exactCells? (JointPattern.any.perTape writes.length) with
    | some cells =>
      refine exists_addRule_exact (hnone _) (Alphabet.accepts_joint fun c hc => ?_) _
      have hmem : Pattern.cell c ∈ JointPattern.any.perTape writes.length := by
        rw [exactCells?_eq_some hexact]
        exact List.mem_map_of_mem hc
      cases List.eq_of_mem_replicate hmem
    | none =>
      dsimp only
      rw [bind_of_ok (get_apply d)]
      rw [JointPattern.perTape, List.map_replicate, Pattern.cells]
      generalize hreads : (if (List.replicate writes.length Pattern.any).contains .any = true then _
        else combinations (List.replicate writes.length d.alphabet.symbols)) = reads
      have hsublist : reads.Sublist (combinations (List.replicate writes.length d.alphabet.symbols)) := by
        rw [← hreads]
        split
        . exact List.filter_sublist
        . exact .refl _
      apply exists_jointForCells ((nodup_combinations _).sublist hsublist)
      . intro read hread
        refine ⟨hnone _, fun c hc => ?_⟩
        obtain ⟨cells, hcells, hc⟩ := mem_of_mem_combinations (hsublist.subset hread) c hc
        rw [List.eq_of_mem_replicate hcells] at hc
        exact hA.accepts c hc
      . intro cells hcells
        rw [List.eq_of_mem_replicate hcells]
        exact hA.nodup

theorem joint_rest (s : String) (read : JointPattern) (writes : List Writing) (moves : List Move)
    (next : String) (d : Draft) :
    (joint s read writes moves next).after d
      = { d with states := ((joint s read writes moves next).after d).states } := by
  have hI : ∀ (e : Draft) (states : StateTables), e = { d with states := e.states } →
      ({ e with states } : Draft) = { d with states } := by
    intro e states he
    rw [he]
  have hmaintains : Maintains (fun e => e = { d with states := e.states })
      (joint s read writes moves next) := by
    apply Maintains.enabled_bind
    intro e _
    split
    . exact addRule_maintains hI _ _
    . unfold jointPerTape
      split
      . exact addRule_maintains hI _ _
      . exact Maintains.get_bind fun _ _ => Maintains.get_bind fun _ _ => addRules_maintains hI _ _ _ _ _ _
  exact hmaintains d rfl

section

variable (hmoves : (d.features.enabled .moveMulti && d.features.enabled .multiTape) = false)
  (hlong : t.moves.any Move.isLong = true)
include hmoves hlong

theorem go_of_known (hchain : chain t.pendingKey t.pendingKey.parts d = .ok (state, false) d₁) :
    jointTransition.go (m + 1) t d
      = jointTransition.direct { t with moves := t.moves.map Move.step, next := state } d₁ := by
  rw [jointTransition.go, bind_of_ok (enabled_apply _ _), bind_of_ok (enabled_apply _ _), hmoves, hlong,
    Bool.not_false, Bool.and_self, if_pos rfl]
  change (chain t.pendingKey t.pendingKey.parts >>= _) d = _
  rw [bind_of_ok hchain]
  rfl

theorem go_of_new (hchain : chain t.pendingKey t.pendingKey.parts d = .ok (state, true) d₁)
    (hgo : jointTransition.go m
      ⟨state, .any, t.writes.map fun _ => .keep, t.moves.map Move.rest, t.next⟩ d₁ = .ok () d₂) :
    jointTransition.go (m + 1) t d
      = jointTransition.direct { t with moves := t.moves.map Move.step, next := state } d₂ := by
  rw [jointTransition.go, bind_of_ok (enabled_apply _ _), bind_of_ok (enabled_apply _ _), hmoves, hlong,
    Bool.not_false, Bool.and_self, if_pos rfl]
  change (chain t.pendingKey t.pendingKey.parts >>= _) d = _
  rw [bind_of_ok hchain]
  dsimp only
  rw [if_pos rfl, bind_of_ok hgo]

end

theorem jointTransition_direct_eq (hmulti : d.features.enabled .multiTape = true) :
    jointTransition.direct t d = joint t.origin t.read t.writes t.moves t.next d := by
  rw [jointTransition.direct, bind_of_ok (enabled_apply _ _), hmulti, if_pos rfl]

theorem jointTransition_rest (hmulti : d.features.enabled .multiTape = true) (t : JointTransition) :
    (jointTransition t).after d = { d with
      states := ((jointTransition t).after d).states
      chains := ((jointTransition t).after d).chains } := by
  refine jointTransition_go_maintains
    (I := fun e => e = { d with states := e.states, chains := e.chains }) ?_ ?_ _ t d rfl
  . intro key parts _ e he
    unfold after
    rw [chain_apply]
    cases e.chains.find? (·.1 = key) with
    | some _ => exact he
    | none =>
      dsimp only
      rw [he]
  . intro t e he
    have hrest := joint_rest t.origin t.read t.writes t.moves t.next e
    rw [after, jointTransition_direct_eq (by rw [he]; exact hmulti), ← after, hrest, he]

end Build

namespace Draft

open JointTransition

def Completes (d : Draft) (n : Nat) (s : JointTransition) : Prop :=
  ∀ cells : List Cell, cells.length = n → (∀ c ∈ cells, c ∈ d.alphabet.symbols) →
    ∃ o, ((s.remainder d.guard).opening d.guard).Gives cells o
      ∧ d.states.lookup (s.remainder d.guard).origin (.joint cells) = some o

/--
What is known of a draft on `n` tapes of its own, if movements are split: the states for remainders do what
they are for, except those that are worked on, which have no rules yet.
-/
structure Finishing (n : Nat) (opened : List ChainKey) (d : Draft) : Prop where
  tapes : d.tapes = .multi n
  multi : d.features.enabled .multiTape = true
  single : d.features.enabled .moveMulti = false
  orderly : ¬ d.features.enabled .wildcard = true → d.alphabet.IsOrderly
  blank : .blank ∈ d.alphabet.symbols
  known : ∀ k ∈ opened, k ∈ d.keys
  formed : ∀ e ∈ d.chains, ∃ s : JointTransition, s.Fits n ∧ d.guard.Free s.next
    ∧ e = (s.pendingKey, (s.remainder d.guard).origin)
  named : ∀ name, d.states.find? name ≠ none →
    d.guard.Free name ∨ ∃ e ∈ d.chains, e.1 ∉ opened ∧ e.2 = name
  completed : ∀ s : JointTransition, s.Fits n → s.pendingKey ∈ d.keys → s.pendingKey ∉ opened →
    d.Completes n s
  linked : ∀ s : JointTransition, s.Fits n → s.pendingKey ∈ d.keys → s.pendingKey ∉ opened →
    (s.remainder d.guard).moves.any Move.isLong = true → (s.remainder d.guard).pendingKey ∈ d.keys

namespace Finishing

variable {n : Nat} {opened : List ChainKey} {d d' : Draft} {s t : JointTransition}

theorem unsupported (h : d.Finishing n opened) :
    (d.features.enabled .moveMulti && d.features.enabled .multiTape) = false := by
  rw [h.single, Bool.false_and]

theorem exists_of_mem_keys (h : d.Finishing n opened) (hs : s.Fits n) (hmem : s.pendingKey ∈ d.keys) :
    (s.pendingKey, (s.remainder d.guard).origin) ∈ d.chains ∧ d.guard.Free s.next := by
  obtain ⟨e, he, hkey⟩ := List.mem_map.mp hmem
  obtain ⟨s', hs', hfree, rfl⟩ := h.formed e he
  have hremainder := remainder_of_pendingKey (g := d.guard) hs hs' hkey.symm
  have hnext : s.next = s'.next := by
    rw [← next_remainder d.guard s, hremainder, next_remainder]
  rw [hremainder, hnext, ← hkey]
  exact ⟨he, hfree⟩

theorem find?_remainder (h : d.Finishing n opened)
    (hnew : s.pendingKey ∉ d.keys ∨ s.pendingKey ∈ opened) :
    d.states.find? (s.remainder d.guard).origin = none := by
  by_contra hfind
  rcases h.named _ hfind with hfree | ⟨e, he, hopened, hname⟩
  . exact not_free_remainder s hfree
  . obtain ⟨s', _, _, rfl⟩ := h.formed e he
    rw [pendingKey_of_origin hname.symm] at hnew
    rcases hnew with hnew | hnew
    . exact hnew (List.mem_map_of_mem he)
    . exact hopened hnew

theorem chain_of_mem (h : d.Finishing n opened) (hs : s.Fits n) (hmem : s.pendingKey ∈ d.keys) :
    Build.chain s.pendingKey s.pendingKey.parts d = .ok ((s.remainder d.guard).origin, false) d := by
  rcases Build.chain_ok s.pendingKey d with ⟨name, hok, hchain⟩ | ⟨_, hnew⟩
  . obtain ⟨s', hs', _, heq⟩ := h.formed _ hchain
    have hkey : s.pendingKey = s'.pendingKey := congrArg Prod.fst heq
    have hname : name = (s'.remainder d.guard).origin := congrArg Prod.snd heq
    rw [remainder_of_pendingKey hs hs' hkey, ← hname]
    exact hok
  . exact absurd rfl (hnew _ (h.exists_of_mem_keys hs hmem).1)

theorem chain_of_not_mem (hnew : s.pendingKey ∉ d.keys) :
    Build.chain s.pendingKey s.pendingKey.parts d
      = .ok ((s.remainder d.guard).origin, true) (d.withChain s.pendingKey) := by
  rcases Build.chain_ok s.pendingKey d with ⟨name, _, hchain⟩ | ⟨hok, _⟩
  . exact absurd (List.mem_map_of_mem hchain) hnew
  . exact hok

theorem withChain (h : d.Finishing n opened) (hs : s.Fits n) (hnext : d.guard.Free s.next)
    (hnew : s.pendingKey ∉ d.keys) : (d.withChain s.pendingKey).Finishing n (s.pendingKey :: opened) := by
  have hkeys {k : ChainKey} (hk : k ∈ (d.withChain s.pendingKey).keys) (hne : k ∉ s.pendingKey :: opened) :
      k ∈ d.keys ∧ k ∉ opened := by
    rw [keys_withChain, List.mem_append, List.mem_singleton] at hk
    rw [List.mem_cons, not_or] at hne
    exact ⟨hk.resolve_right hne.1, hne.2⟩
  have hold {k : ChainKey} (hk : k ∈ d.keys) : k ∈ (d.withChain s.pendingKey).keys := by
    rw [keys_withChain]
    exact List.mem_append_left _ hk
  refine ⟨h.tapes, h.multi, h.single, h.orderly, h.blank, ?_, ?_, ?_, ?_, ?_⟩
  . rw [List.forall_mem_cons, keys_withChain]
    exact ⟨List.mem_append_right _ (List.mem_singleton_self _),
      fun k hk => List.mem_append_left _ (h.known k hk)⟩
  . intro e he
    rcases mem_withChain.mp he with he | rfl
    . exact h.formed e he
    . exact ⟨s, hs, hnext, rfl⟩
  . intro name hfind
    refine (h.named name hfind).imp_right fun ⟨e, he, hopened, hname⟩ => ?_
    refine ⟨e, mem_withChain.mpr (.inl he), ?_, hname⟩
    rw [List.mem_cons, not_or]
    exact ⟨fun hkey => hnew (hkey ▸ List.mem_map_of_mem he), hopened⟩
  . intro r hr hmem hne
    obtain ⟨hmem, hne⟩ := hkeys hmem hne
    exact h.completed r hr hmem hne
  . intro r hr hmem hne hlong
    obtain ⟨hmem, hne⟩ := hkeys hmem hne
    exact hold (h.linked r hr hmem hne hlong)

theorem of_amends (h : d.Finishing n opened) (hrest : d' = { d with states := d'.states })
    {name : String} (hname : d.guard.Free name) (hamends : d.Amends (· = name) d') :
    d'.Finishing n opened := by
  have hfind (name' : String) (hne : name' ≠ name) : d'.states.find? name' = d.states.find? name' :=
    hamends.other name' hne
  obtain ⟨states, rfl⟩ : ∃ states, d' = { d with states } := ⟨_, hrest⟩
  refine ⟨h.tapes, h.multi, h.single, h.orderly, h.blank, h.known, h.formed, ?_, ?_, h.linked⟩
  . intro name' hsome
    by_cases heq : name' = name
    . exact .inl (heq ▸ hname)
    . exact h.named name' (by rwa [← hfind name' heq])
  . intro r hr hmem hne cells hlength hcells
    obtain ⟨o, ho, hlookup⟩ := h.completed r hr hmem hne cells hlength hcells
    exact ⟨o, ho, hamends.lookup _ _ _ hlookup⟩

theorem exists_direct (h : d.Finishing n (s.pendingKey :: opened)) (hs : s.Fits n)
    (hnew : s.pendingKey ∉ opened)
    (hlink : (s.remainder d.guard).moves.any Move.isLong = true →
      (s.remainder d.guard).pendingKey ∈ d.keys) :
    ∃ d', Build.jointTransition.direct ((s.remainder d.guard).opening d.guard) d = .ok () d'
      ∧ d'.Finishing n opened ∧ d.Amends (¬ d.guard.Free ·) d' := by
  have hmem : s.pendingKey ∈ d.keys := h.known _ List.mem_cons_self
  have hfind := h.find?_remainder (.inr List.mem_cons_self)
  have hnone (c : Cell) : d.states.lookup (s.remainder d.guard).origin c = none := by
    rw [StateTables.lookup, hfind]
    rfl
  set u := (s.remainder d.guard).opening d.guard with hu
  have horigin : u.origin = (s.remainder d.guard).origin := origin_opening _
  have hread : u.read = .any := by
    rw [hu, JointTransition.opening]
    split <;> rfl
  have hfits : u.Fits n := hs.remainder.opening
  obtain ⟨d', hok⟩ : ∃ d', Build.joint u.origin u.read u.writes u.moves u.next d = .ok () d' := by
    rw [hread, horigin]
    exact Build.exists_joint_any hnone h.orderly _ _ _
  have hadds := Build.joint_addsJoint hfits hok
  have hamends {S : String → Prop} (hS : S u.origin) : d.Amends S d' :=
    (Build.joint_amends hS u.read u.writes u.moves u.next).of_ok (.refl d) hok
  have hfree : ¬ d.guard.Free u.origin := by
    rw [horigin]
    exact not_free_remainder s
  refine ⟨d', (Build.jointTransition_direct_eq h.multi).trans hok, ?_, hamends hfree⟩
  -- What has another key is as it was.
  have hother {r : JointTransition} (hr : r.Fits n) (hne : r.pendingKey ∉ opened) :
      r.remainder d.guard = s.remainder d.guard ∨ r.pendingKey ∉ s.pendingKey :: opened := by
    by_cases heq : r.pendingKey = s.pendingKey
    . exact .inl (remainder_of_pendingKey hr hs heq)
    . exact .inr (by simp [heq, hne])
  have hfind' := (hamends (S := (· = u.origin)) rfl).other
  have hlookup := (hamends (S := (· = u.origin)) rfl).lookup
  obtain ⟨states, rfl⟩ : ∃ states, d' = { d with states } := ⟨_, hadds.rest⟩
  refine ⟨h.tapes, h.multi, h.single, h.orderly, h.blank, fun k hk => h.known k (List.mem_cons_of_mem _ hk),
    h.formed, ?_, ?_, ?_⟩
  . intro name hsome
    by_cases heq : name = u.origin
    . right
      exact ⟨_, (h.exists_of_mem_keys hs hmem).1, hnew, by rw [heq, horigin]⟩
    . rw [hfind' name heq] at hsome
      rcases h.named name hsome with hfree | ⟨e, he, hne, hname⟩
      . exact .inl hfree
      . exact .inr ⟨e, he, fun hin => hne (List.mem_cons_of_mem _ hin), hname⟩
  . intro r hr hkey hne cells hlength hcells
    rcases hother hr hne with heq | hne'
    . rw [heq, ← horigin]
      exact hadds.new cells hlength hcells (by rw [hread]; trivial) (by rw [horigin, hnone])
    . obtain ⟨o, ho, hsome⟩ := h.completed r hr hkey hne' cells hlength hcells
      exact ⟨o, ho, hlookup _ _ _ hsome⟩
  . intro r hr hkey hne hlong
    rcases hother hr hne with heq | hne'
    . change (r.remainder d.guard).moves.any Move.isLong = true at hlong
      change (r.remainder d.guard).pendingKey ∈ d.keys
      rw [heq] at hlong ⊢
      exact hlink hlong
    . exact h.linked r hr hkey hne' hlong

theorem exists_go_eq {m : Nat} (h : d.Finishing n opened) (ht : t.Fits n) (hnext : d.guard.Free t.next)
    (hm : ∀ x ∈ t.moves, x.distance ≤ m) :
    ∃ d₁, d₁.Finishing n opened ∧ d.Amends (¬ d.guard.Free ·) d₁
      ∧ (t.moves.any Move.isLong = true → t.pendingKey ∈ d₁.keys)
      ∧ Build.jointTransition.go m t d = Build.jointTransition.direct (t.opening d.guard) d₁ := by
  induction m generalizing t d opened with
  | zero =>
    have hshort := short_of_distance hm
    refine ⟨d, h, .refl d, by simp [hshort], ?_⟩
    rw [Build.go_short hshort, opening_of_short hshort]
  | succ m ih =>
    cases hlong : t.moves.any Move.isLong with
    | false =>
      refine ⟨d, h, .refl d, nofun, ?_⟩
      rw [Build.go_short hlong, opening_of_short hlong]
    | true =>
      have hopening : t.opening d.guard
          = { t with moves := t.moves.map Move.step, next := (t.remainder d.guard).origin } := by
        rw [JointTransition.opening, if_pos hlong]
      rw [hopening]
      by_cases hmem : t.pendingKey ∈ d.keys
      . exact ⟨d, h, .refl d, fun _ => hmem,
          Build.go_of_known h.unsupported hlong (h.chain_of_mem ht hmem)⟩
      . -- The new state is worked on until what it leaves to others is done.
        have hnew := h.withChain ht hnext hmem
        obtain ⟨d₁, hd₁, hamends, hlink, hgo⟩ :=
          @ih (t.pendingKey :: opened) (d.withChain t.pendingKey) (t.remainder d.guard) hnew ht.remainder
            hnext (distance_remainder hm)
        have hguard : d₁.guard = d.guard := hamends.guard
        rw [← hguard] at hlink
        obtain ⟨d₂, hok, hd₂, hamends'⟩ :=
          hd₁.exists_direct ht (fun hin => hmem (h.known _ hin)) hlink
        have hchain := chain_of_not_mem hmem
        rw [hguard] at hok hamends'
        refine ⟨d₂, hd₂, ?_, fun _ => hamends'.keys (hd₁.known _ List.mem_cons_self),
          Build.go_of_new h.unsupported hlong hchain (hgo.trans hok)⟩
        exact (((Build.chain_amends _ _).of_ok (.refl d) hchain).trans hamends).trans hamends'

theorem direct (h : d.Finishing n opened) (horigin : d.guard.Free t.origin) :
    ((Build.jointTransition.direct t).after d).Finishing n opened := by
  rw [Build.after, Build.jointTransition_direct_eq h.multi]
  apply h.of_amends (Build.joint_rest _ _ _ _ _ d) horigin
  exact Build.joint_amends (S := (· = t.origin)) rfl _ _ _ _ d (.refl d)

theorem jointTransition (h : d.Finishing n opened) (ht : t.Fits n) (horigin : d.guard.Free t.origin)
    (hnext : d.guard.Free t.next) : ((Build.jointTransition t).after d).Finishing n opened := by
  obtain ⟨d₁, hd₁, hamends, _, heq⟩ := h.exists_go_eq ht hnext (distance_le_foldl t.moves 0).2
  rw [Build.after, Build.jointTransition, heq]
  apply hd₁.direct
  rwa [origin_opening, hamends.guard]

theorem addState (h : d.Finishing n opened) {name : String} (hname : d.guard.Free name) :
    ((Build.addState name).after d).Finishing n opened :=
  h.of_amends rfl hname (Build.addState_amends (S := (· = name)) rfl d (.refl d))

/-- The names of the states for remainders follow the guard, while their keys stay as they are. -/
theorem withGuard (h : d.Finishing n []) {g : Guard} (hle : d.guard.size ≤ g.size) :
    (d.withGuard g).Finishing n [] := by
  have hkeys : (d.withGuard g).keys = d.keys := by
    change (d.chains.map _).map Prod.fst = d.chains.map Prod.fst
    rw [List.map_map]
    apply List.map_congr_left
    intro e he
    obtain ⟨s, _, hnext, rfl⟩ := h.formed e he
    exact mapNames_pendingKey g hnext
  refine ⟨h.tapes, h.multi, h.single, ?_, List.mem_map.mpr ⟨.blank, h.blank, rfl⟩, nofun, ?_, ?_, ?_,
    ?_⟩
  . intro hwildcard
    exact (h.orderly hwildcard).mapNames fun _ _ => Guard.rename_injective hle
  . intro e he
    obtain ⟨e₀, he₀, rfl⟩ := mem_chains_withGuard.mp he
    obtain ⟨s, hs, hnext, rfl⟩ := h.formed e₀ he₀
    refine ⟨s, hs, hnext.mono hle, ?_⟩
    rw [mapNames_pendingKey g hnext, rename_remainder g hnext]
    rfl
  . intro name hfind
    obtain ⟨name₀, rfl, hfind₀⟩ := exists_of_find?_withGuard hle hfind
    rcases h.named name₀ hfind₀ with hfree | ⟨e, he, hopened, rfl⟩
    . left
      rw [Guard.rename_of_free hfree]
      exact hfree.mono hle
    . exact .inr ⟨_, mem_chains_withGuard.mpr ⟨e, he, rfl⟩, nofun, rfl⟩
  . intro s hs hmem hopened cells hlength hcells
    rw [hkeys] at hmem
    have hnext := (h.exists_of_mem_keys hs hmem).2
    obtain ⟨cells₀, hcells₀, rfl⟩ := Cell.exists_map_mapNames hcells
    rw [List.length_map] at hlength
    obtain ⟨o, ho, hlookup⟩ := h.completed s hs hmem hopened cells₀ hlength hcells₀
    have hlater := (Later.withGuard hle).lookup _ _ _ hlookup
    rw [rename_remainder _ hnext, Cell.joint, Cell.mapNames_tuple] at hlater
    exact ⟨_, ho.widened_remainder g hnext, hlater⟩
  . intro s hs hmem hopened hlong
    rw [hkeys] at hmem ⊢
    rw [moves_remainder, ← moves_remainder d.guard] at hlong
    rw [pendingKey_remainder _ d.guard]
    exact h.linked s hs hmem hopened hlong

theorem avoid (h : d.Finishing n []) (name : String) : (d.avoid name).Finishing n [] :=
  avoid_induction name h fun _ hlt => h.withGuard (Nat.le_of_lt hlt)

/-- Once several tapes are open, every request keeps the states for remainders in order. -/
theorem receive (h : d.Finishing n []) (rs : List Request) : (d.receive rs).Finishing n [] := by
  induction rs generalizing d with
  | nil => exact h
  | cons r rs ih =>
    rw [receive_cons]
    apply ih
    apply of_submit_multi h.tapes h
    . exact fun d name hd => hd.avoid name
    . exact fun d name hd hname => hd.addState hname
    . intro d t hd ht horigin hnext
      exact hd.jointTransition ⟨ht.reads, ht.writes, ht.moves⟩ horigin hnext

theorem of_unbegun (hd : d.Unbegun) (hn : d.tapes = .multi n)
    (hmulti : d.features.enabled .multiTape = true) (hmoves : d.features.enabled .moveMulti = false)
    (horderly : ¬ d.features.enabled .wildcard = true → d.alphabet.IsOrderly)
    (hblank : .blank ∈ d.alphabet.symbols) : d.Finishing n [] := by
  have hkeys {k : ChainKey} (hk : k ∈ d.keys) : False := by
    rw [keys, hd.chains] at hk
    exact List.not_mem_nil hk
  refine ⟨hn, hmulti, hmoves, horderly, hblank, List.forall_mem_nil _, ?_, ?_, fun _ _ hk => (hkeys hk).elim,
    fun _ _ hk => (hkeys hk).elim⟩
  . rw [hd.chains]
    exact List.forall_mem_nil _
  . intro name hfind
    left
    rw [StateTables.find?, ne_eq, Option.map_eq_none_iff] at hfind
    obtain ⟨e, he⟩ := Option.ne_none_iff_exists'.mp hfind
    obtain rfl : e.1 = name := by simpa using List.find?_some he
    exact (hd.states e (List.mem_of_find?_eq_some he)).1

end Finishing

theorem Unbegun.avoid {d : Draft} (h : d.Unbegun) (name : String) : (d.avoid name).Unbegun :=
  avoid_induction name h fun _ hlt => h.withGuard (Nat.le_of_lt hlt)

theorem Unbegun.kept :
    Kept (fun d => (d.tapes = .undecided ∧ d.Unbegun) ∨ d.tapes = .single) fun _ => True := by
  apply Kept.of_undecided
  . exact fun d h => h.1
  . exact fun d _ _ h => ⟨h.1, h.2.states, h.2.chains⟩
  . exact fun d _ h => ⟨h.1, h.2.states, h.2.chains⟩
  . exact fun d name h => ⟨(tapes_avoid d name).trans h.1, h.2.avoid name⟩
  . exact fun d _ h hname => ⟨h.1, h.2.addState hname⟩

theorem Regular.of_avoid {d : Draft} {name : String} : (d.avoid name).Regular → d.Regular :=
  avoid_induction (P := fun e => e.Regular → d.Regular) name id fun _ hlt => of_withGuard (Nat.le_of_lt hlt)

theorem Regular.of_receive {n : Nat} {d : Draft} (htapes : d.tapes = .multi n)
    (hmulti : d.features.enabled .multiTape = true) {rs : List Request} (h : (d.receive rs).Regular) :
    d.Regular := by
  induction rs generalizing d with
  | nil => exact h
  | cons r rs ih =>
    rw [receive_cons] at h
    have hlater := later_submit (d := d) (by rw [htapes]; nofun) r
    have hregular := ih (hlater.tapes.trans htapes) (by rwa [hlater.features]) h
    let I (e : Draft) : Prop := e.features.enabled .multiTape = true ∧ (e.Regular → d.Regular)
    refine (of_submit_multi (I := I) htapes ⟨hmulti, id⟩ ?_ (fun _ _ he _ => he) ?_ r).2 hregular
    . intro e name he
      exact ⟨(features_avoid e name).symm ▸ he.1, fun hregular => he.2 hregular.of_avoid⟩
    . intro e t he _ _ _
      have hrest := Build.jointTransition_rest he.1 t
      rw [hrest]
      exact he

theorem exists_opening_receive {start : String} {rs : List Request} {n : Nat} {d : Draft}
    (hd : d = (new start).receive rs) (htapes : d.tapes = .multi n) :
    1 < n ∧ ∃ d₀ first rs', d₀.Unbegun ∧ d₀.Continuing
      ∧ d = ((Build.openTapes n first).after d₀).receive rs' := by
  have hnew : (new start).tapes = .undecided ∧ (new start).Unbegun := ⟨rfl, .of_empty rfl rfl⟩
  rcases Unbegun.kept.exists_opening (.inl hnew) rs fun _ _ => trivial with
    ⟨rs₁, n', first, rs₂, rfl, hn, hundecided, hd₀⟩ | hlast
  . have hunbegun := (hd₀.resolve_right (by rw [hundecided]; simp)).2
    have hcontinuing : ((new start).receive rs₁).Continuing :=
      continuing_receive start (by rw [hundecided]; simp)
    rw [receive_append, receive_cons, Build.after, Build.submit, Build.setTapes_apply hn first hundecided,
      ← Build.after] at hd
    have hmany := (Build.settled_openTapes n' first ((new start).receive rs₁)).1
    have hlater := later_receive (by rw [hmany]; simp) rs₂
    rw [← hd] at hlater
    rw [hlater.tapes, hmany] at htapes
    cases htapes
    exact ⟨hn, _, first, rs₂, hunbegun, hcontinuing, hd⟩
  . rw [← hd, htapes] at hlast
    rcases hlast with hlast | hlast
    . cases hlast.1
    . cases hlast

theorem finishing_receive {start : String} {rs : List Request} {n : Nat} {d : Draft}
    (hd : d = (new start).receive rs) (htapes : d.tapes = .multi n)
    (hmulti : d.features.enabled .multiTape = true) (hmoves : d.features.enabled .moveMulti = false)
    (hregular : d.Regular) : d.Finishing n [] := by
  obtain ⟨_, d₀, first, rs', hunbegun, hcontinuing, hd⟩ := exists_opening_receive hd htapes
  obtain ⟨hmany, hfeatures⟩ := Build.settled_openTapes n first d₀
  have hlater := later_receive (d := (Build.openTapes n first).after d₀) (by rw [hmany]; nofun) rs'
  rw [← hd] at hlater
  rw [hlater.features, hfeatures] at hmulti hmoves
  let d₁ : Draft := { d₀.avoid first with
    start := first
    states := (d₀.avoid first).states.ensure first
    tapes := .multi n }
  have hopen : (Build.openTapes n first).after d₀ = d₁ := by
    rw [Build.after, Build.openTapes_apply, if_pos hmulti]
  rw [hopen] at hd
  subst hd
  have hbefore := Regular.of_receive (d := d₁) rfl hmulti hregular
  have hnames := (hunbegun.avoid first).addState (d₀.free_avoid first)
  apply Finishing.receive
  have hsymbols := hcontinuing.avoid first
  exact .of_unbegun ⟨hnames.states, hnames.chains⟩ rfl hmulti hmoves
    (fun hwildcard => ⟨hsymbols.nodup, hbefore hwildcard⟩) hsymbols.blank

def legible (d : Draft) : List Cell := d.alphabet.symbols.filter d.alphabet.accepts

def Begins (d : Draft) (q : String) (t : JointTransition) (ts : List Tape) : Prop :=
  ∃ o, (t.opening d.guard).Gives (ts.map Tape.focus) o
    ∧ d.states.lookup q (.joint (ts.map Tape.focus)) = some o

def ConveysAll (d : Draft) (q : String) (t : JointTransition) (ts : List Tape) : Prop :=
  ∃ ts', d.compile.next^[t.steps] ⟨q, ts⟩ = ⟨t.next, ts'⟩
    ∧ (∀ j, 0 < j → j < t.steps → d.guard.occursIn (d.compile.next^[j] ⟨q, ts⟩).state = true)
    ∧ ts'.map Tape.view = t.act (ts.map Tape.view)

section

variable {n : Nat} {d : Draft} {q : String} {t : JointTransition} {ts : List Tape}

theorem Begins.exists_next (hn : 1 < n) (h : d.Begins q t ts) (ht : t.Fits n) (hlength : ts.length = n)
    (haccepts : ∀ x ∈ ts.map Tape.focus, d.alphabet.accepts x = true) (hrunning : isTerminal q = false) :
    ∃ ts₁, d.compile.next ⟨q, ts⟩ = ⟨(t.opening d.guard).next, ts₁⟩
      ∧ ts₁.map Tape.view = (t.opening d.guard).act (ts.map Tape.view) := by
  obtain ⟨o, ho, hlookup⟩ := h
  obtain ⟨hstate, hviews⟩ :=
    next_of_gives (c := ⟨q, ts⟩) hn hlength haccepts ht.opening ho hrunning hlookup
  exact ⟨(d.compile.next ⟨q, ts⟩).tapes, by rw [← hstate], hviews⟩

theorem Begins.conveysAll_of_short (hn : 1 < n) (h : d.Begins q t ts) (ht : t.Fits n)
    (hlength : ts.length = n) (haccepts : ∀ x ∈ ts.map Tape.focus, d.alphabet.accepts x = true)
    (hrunning : isTerminal q = false) (hshort : t.moves.any Move.isLong = false) :
    d.ConveysAll q t ts := by
  obtain ⟨ts₁, hfirst, hviews⟩ := h.exists_next hn ht hlength haccepts hrunning
  rw [opening_of_short hshort] at hfirst hviews
  rw [ConveysAll, steps_of_short hshort]
  exact ⟨ts₁, hfirst, fun j hpos hj => by omega, hviews⟩

theorem Finishing.conveysAll {m : Nat} (hn : 1 < n) (hd : d.Finishing n []) (h : d.Begins q t ts)
    (ht : t.Fits n) (hm : ∀ x ∈ t.moves, x.distance ≤ m) (hts : Config.On n d.legible ⟨q, ts⟩)
    (hwrites : ∀ w ∈ t.writes, w.Over (· ∈ d.legible)) (hrunning : isTerminal q = false)
    (hkey : t.moves.any Move.isLong = true → t.pendingKey ∈ d.keys) : d.ConveysAll q t ts := by
  -- What remains after a step is a transition again, with shorter movements.
  induction m generalizing q t ts with
  | zero =>
    exact h.conveysAll_of_short hn ht hts.length (fun x hx => (List.mem_filter.mp (hts.focus_mem x hx)).2)
      hrunning (short_of_distance hm)
  | succ m ih =>
    have haccepts : ∀ x ∈ ts.map Tape.focus, d.alphabet.accepts x = true :=
      fun x hx => (List.mem_filter.mp (hts.focus_mem x hx)).2
    cases hlong : t.moves.any Move.isLong with
    | false => exact h.conveysAll_of_short hn ht hts.length haccepts hrunning hlong
    | true =>
      obtain ⟨ts₁, hfirst, hviews⟩ := h.exists_next hn ht hts.length haccepts hrunning
      rw [next_opening hlong] at hfirst
      have hwrites₁ : ∀ w ∈ (t.opening d.guard).writes, w.Over (· ∈ d.legible) := by
        rw [JointTransition.opening, if_pos hlong]
        exact hwrites
      have hts₁ : Config.On n d.legible ⟨(t.remainder d.guard).origin, ts₁⟩ :=
        hts.of_act ht.opening hwrites₁ hviews
      have hbegins : d.Begins (t.remainder d.guard).origin (t.remainder d.guard) ts₁ :=
        hd.completed t ht (hkey hlong) List.not_mem_nil _ ((List.length_map _).trans hts₁.length)
          fun x hx => (List.mem_filter.mp (hts₁.focus_mem x hx)).1
      have hkeeps : ∀ w ∈ (t.remainder d.guard).writes, w.Over (· ∈ d.legible) := by
        intro w hw
        obtain ⟨_, _, rfl⟩ := List.mem_map.mp hw
        trivial
      obtain ⟨ts', hrun, hinner, hviews'⟩ := ih hbegins ht.remainder (distance_remainder hm) hts₁ hkeeps
        (isTerminal_remainder t) (hd.linked t ht (hkey hlong) List.not_mem_nil)
      rw [ConveysAll, steps_remainder (g := d.guard) hlong]
      refine ⟨ts', ?_, ?_, ?_⟩
      . rw [Function.iterate_succ_apply, hfirst, hrun]
        rfl
      . intro j hpos hj
        obtain ⟨j, rfl⟩ := Nat.exists_eq_succ_of_ne_zero (Nat.ne_of_gt hpos)
        rw [Function.iterate_succ_apply, hfirst]
        by_cases hzero : j = 0
        . subst hzero
          exact Guard.Generates.occursIn ⟨_, _, .inl rfl⟩
        . exact hinner j (Nat.pos_of_ne_zero hzero) (Nat.lt_of_succ_lt_succ hj)
      . rw [hviews', hviews, act_remainder hlong]

/-- A transition is made as a whole on tapes that can be read, if its movements can be finished. -/
theorem Begins.conveysAll (hn : 1 < n) (h : d.Begins q t ts) (ht : t.Fits n) (hlength : ts.length = n)
    (hts : ∀ tape ∈ ts, ∀ c ∈ tape.cells, c ∈ d.alphabet.symbols ∧ d.alphabet.accepts c = true)
    (hwrites : ∀ w ∈ t.writes, w.Over fun c => c ∈ d.alphabet.symbols ∧ d.alphabet.accepts c = true)
    (hrunning : isTerminal q = false)
    (hlong : t.moves.any Move.isLong = true → d.Finishing n [] ∧ t.pendingKey ∈ d.keys) :
    d.ConveysAll q t ts := by
  cases hcase : t.moves.any Move.isLong with
  | false =>
    refine h.conveysAll_of_short hn ht hlength ?_ hrunning hcase
    rw [List.forall_mem_map]
    intro tape htape
    exact (hts tape htape _ (by simp [Tape.cells])).2
  | true =>
    obtain ⟨hd, hkey⟩ := hlong hcase
    have hblank : .blank ∈ d.legible :=
      List.mem_filter.mpr ⟨hd.blank, Alphabet.accepts_of_mem_symbols hd.blank⟩
    have hon : Config.On n d.legible ⟨q, ts⟩ := ⟨hlength, fun tape htape =>
      Tape.cellAt_mem hblank fun c hc => List.mem_filter.mpr (hts tape htape c hc)⟩
    exact hd.conveysAll hn h ht (distance_le_foldl t.moves 0).2 hon
      (fun w hw => (hwrites w hw).mono fun _ => List.mem_filter.mpr) hrunning fun _ => hkey

theorem Begins.of_later {e : Draft} (hlater : d.Later e) (hq : d.guard.Free q) (hnext : d.guard.Free t.next)
    {cells : List Cell} {o : Outcome} (ho : (t.opening d.guard).Gives cells o)
    (hlookup : d.states.lookup q (.joint cells) = some o)
    (hts : ts.map Tape.focus = cells.map (Cell.mapNames (d.guard.rename e.guard))) :
    e.Begins q (t.mapCells (d.guard.rename e.guard)) ts := by
  have hlast := hlater.lookup _ _ _ hlookup
  rw [Guard.rename_of_free hq, Cell.joint, Cell.mapNames_tuple] at hlast
  rw [Begins, hts]
  exact ⟨_, ho.widened e.guard hnext, hlast⟩

theorem Finishing.key_later {e : Draft} (hd : d.Finishing n []) (he : e.Finishing n []) (hlater : d.Later e)
    (ht : t.Fits n) (hmem : t.pendingKey ∈ d.keys) {cells : List Cell} (hlength : cells.length = n)
    (hcells : ∀ c ∈ cells, c ∈ d.alphabet.symbols) : t.pendingKey ∈ e.keys := by
  by_contra hmem'
  have hnext := (hd.exists_of_mem_keys ht hmem).2
  obtain ⟨o, _, hlookup⟩ := hd.completed t ht hmem List.not_mem_nil cells hlength hcells
  have hlast := hlater.lookup _ _ _ hlookup
  rw [rename_remainder _ hnext, StateTables.lookup, he.find?_remainder (.inl hmem')] at hlast
  cases hlast

theorem exists_jointTransition_eq (hnext : d.guard.Free t.next) (ht : t.Fits n)
    (hd : t.moves.any Move.isLong = true → d.Finishing n []) :
    ∃ d₁, d.Amends (¬ d.guard.Free ·) d₁
      ∧ Build.jointTransition t d = Build.jointTransition.direct (t.opening d.guard) d₁
      ∧ (t.moves.any Move.isLong = true → d₁.Finishing n [] ∧ t.pendingKey ∈ d₁.keys) := by
  cases hlong : t.moves.any Move.isLong with
  | true =>
    obtain ⟨d₁, hd₁, hamends, hkey, heq⟩ :=
      (hd hlong).exists_go_eq ht hnext (distance_le_foldl t.moves 0).2
    exact ⟨d₁, hamends, heq, fun _ => ⟨hd₁, hkey hlong⟩⟩
  | false =>
    refine ⟨d, .refl d, ?_, nofun⟩
    rw [Build.jointTransition, Build.go_short hlong, opening_of_short hlong]

theorem exists_gives_of_jointTransition {d' : Draft} (hmulti : d.features.enabled .multiTape = true)
    (horigin : d.guard.Free t.origin) (hnext : d.guard.Free t.next) (ht : t.Fits n)
    (hd : t.moves.any Move.isLong = true → d.Finishing n []) (hok : Build.jointTransition t d = .ok () d')
    {cells : List Cell} (hlength : cells.length = n) (hcells : ∀ c ∈ cells, c ∈ d'.alphabet.symbols)
    (hnone : d.states.lookup t.origin (.joint cells) = none)
    (hsome : d'.states.lookup t.origin (.joint cells) ≠ none) :
    (∃ o, (t.opening d.guard).Gives cells o ∧ d'.states.lookup t.origin (.joint cells) = some o)
      ∧ (t.moves.any Move.isLong = true → d'.Finishing n [] ∧ t.pendingKey ∈ d'.keys) := by
  obtain ⟨d₁, hamends, heq, hlong⟩ := exists_jointTransition_eq hnext ht hd
  rw [heq] at hok
  have hjoint := hok
  rw [Build.jointTransition_direct_eq (by rw [hamends.features, hmulti])] at hjoint
  have hadds := Build.joint_addsJoint ht.opening hjoint
  have halphabet : d'.alphabet = d₁.alphabet := by rw [hadds.rest]
  rw [halphabet] at hcells
  rw [← hamends.lookup_other (not_not.mpr horigin), ← origin_opening (g := d.guard) t] at hnone
  rw [← origin_opening (g := d.guard) t] at hsome
  have hmatch : (t.opening d.guard).read.Matches cells := by
    by_contra hmatch
    exact hsome (hadds.missing cells hlength hcells hmatch hnone)
  have hnew := hadds.new cells hlength hcells hmatch hnone
  rw [origin_opening] at hnew
  refine ⟨hnew, fun h => ?_⟩
  obtain ⟨hd₁, hkey⟩ := hlong h
  have hchains : d'.chains = d₁.chains := by rw [hadds.rest]
  have hd' := hd₁.direct (t := t.opening d.guard) (by rwa [origin_opening, hamends.guard])
  rw [Build.after, hok] at hd'
  exact ⟨hd', by rwa [keys, hchains]⟩

end

end Draft

theorem JointTransition.exists_tape_of_act {t : JointTransition} {ts ts' : List Tape}
    (hviews : ts'.map Tape.view = t.act (ts.map Tape.view)) {i : Nat} {tape : Tape} {w : Writing} {m : Move}
    (htape : ts[i]? = some tape) (hw : t.writes[i]? = some w) (hm : t.moves[i]? = some m) :
    ∃ tape' : Tape, ts'[i]? = some tape'
      ∧ tape'.position = (tape.position + m.offset).toNat
      ∧ tape'.cellAt = ((tape.write (w.onto tape.focus)).move m).cellAt := by
  have hpair : (t.writes.zip t.moves)[i]? = some (w, m) := List.getElem?_zip_eq_some.mpr ⟨hw, hm⟩
  have hview : (ts'.map Tape.view)[i]? = some ((tape.view.write (w.onto tape.view.focus)).move m) := by
    rw [hviews, act, List.getElem?_zipWith, hpair, List.getElem?_map, htape]
    rfl
  rw [List.getElem?_map, Option.map_eq_some_iff, Tape.focus_view] at hview
  obtain ⟨tape', htape', hview⟩ := hview
  refine ⟨tape', htape', ?_, ?_⟩
  . rw [← Tape.position_view, hview]
    rfl
  . rw [← Tape.cells_view, hview, ← Tape.cells_view, Tape.view_move, Tape.view_write]

/--
Movements of several heads that are split are the movements as a whole, in as many steps as the longest of
them takes, whatever was requested before and is requested after them, if all symbols are accepted.
-/
theorem split_joint_moves_equal_moves {start : String} {rs : List Request} (rs' : List Request)
    {d d' : Draft} {t : JointTransition} (hd : d = (Draft.new start).receive rs)
    (hmulti : d.features.enabled .multiTape = true) (hmoves : d.features.enabled .moveMulti = false)
    (hregular : t.moves.any Move.isLong = true → d.Regular)
    (hok : Build.submit (.joint t) d = .ok () d') (hrunning : isTerminal t.origin = false) {cells : List Cell}
    (hlength : cells.length = t.moves.length) (hcells : ∀ c ∈ cells, c ∈ d'.alphabet.symbols)
    -- It is this request by which the cells under the heads get their rule.
    (hnone : (d.avoidBoth t.origin t.next).states.lookup t.origin (.joint cells) = none)
    (hsome : d'.states.lookup t.origin (.joint cells) ≠ none) :
    let e := d'.receive rs'
    let f := d'.guard.rename e.guard
    ∀ ts : List Tape,
      (∀ tape ∈ ts, ∀ c ∈ tape.cells, c ∈ e.alphabet.symbols ∧ e.alphabet.accepts c = true) →
      ts.map Tape.focus = cells.map (Cell.mapNames f) →
      (∀ c, .put c ∈ t.writes → c.mapNames f ∈ e.alphabet.symbols ∧ e.alphabet.accepts (c.mapNames f) = true) →
      ∃ ts', e.compile.next^[max 1 ((t.moves.map Move.distance).foldl max 0)] ⟨t.origin, ts⟩ = ⟨t.next, ts'⟩
        ∧ (∀ j, 0 < j → j < max 1 ((t.moves.map Move.distance).foldl max 0) →
          e.guard.occursIn (e.compile.next^[j] ⟨t.origin, ts⟩).state = true)
        ∧ e.guard.occursIn t.next = false
        ∧ ts'.length = ts.length
        ∧ ∀ (i : Nat) (tape : Tape) (w : Writing) (m : Move),
          ts[i]? = some tape → t.writes[i]? = some w → t.moves[i]? = some m →
          ∃ tape' : Tape, ts'[i]? = some tape'
            ∧ tape'.position = (tape.position + m.offset).toNat
            ∧ tape'.cellAt = ((tape.write ((w.mapNames f).onto tape.focus)).move m).cellAt := by
  intro e f ts hts hfocus hputs
  obtain ⟨n, htapes, hreads, hwrites, hlengths, hjoint⟩ := Build.userJoint_eq_ok hok
  have ht : t.Fits n := ⟨hreads, hwrites, hlengths⟩
  have hmulti' : (d.avoidBoth t.origin t.next).features.enabled .multiTape = true := by
    rw [d.features_avoidBoth, hmulti]
  obtain ⟨horigin, hnext⟩ := d.free_avoidBoth t.origin t.next
  have hready (hlong : t.moves.any Move.isLong = true) : (d.avoidBoth t.origin t.next).Finishing n [] :=
    ((Draft.finishing_receive hd htapes hmulti hmoves (hregular hlong)).avoid t.origin).avoid t.next
  obtain ⟨⟨o, ho, hlookup⟩, hlong⟩ := Draft.exists_gives_of_jointTransition hmulti' horigin hnext ht hready
    hjoint (hlength.trans hlengths) hcells hnone hsome
  have hrest : d' = { d.avoidBoth t.origin t.next with states := d'.states, chains := d'.chains } := by
    have := Build.jointTransition_rest hmulti' t
    rwa [Build.after, hjoint] at this
  have hguard : d'.guard = (d.avoidBoth t.origin t.next).guard := by rw [hrest]
  have htapes' : d'.tapes = .multi n := by
    rw [hrest]
    exact (d.tapes_avoidBoth _ _).trans htapes
  have hlater : d'.Later e := Draft.later_receive (by rw [htapes']; simp) rs'
  rw [← hguard] at horigin hnext ho
  have hbegins : e.Begins t.origin (t.mapCells f) ts := .of_later hlater horigin hnext ho hlookup hfocus
  have hcount : ts.length = n := by
    have := congrArg List.length hfocus
    rwa [List.length_map, List.length_map, hlength, hlengths] at this
  obtain ⟨ts', hrun, hinner, hviews⟩ : e.ConveysAll t.origin (t.mapCells f) ts := by
    apply hbegins.conveysAll (Draft.exists_opening_receive hd htapes).1 ht.mapCells hcount hts _ hrunning
    . intro hcase
      obtain ⟨hd', hkey⟩ := hlong hcase
      have he : e.Finishing n [] := hd'.receive rs'
      have hkey' : t.pendingKey ∈ e.keys :=
        hd'.key_later he hlater ht hkey (hlength.trans hlengths) hcells
      exact ⟨he, hkey'⟩
    . intro w hw
      obtain ⟨w₀, hw₀, rfl⟩ := List.mem_map.mp hw
      cases w₀ with
      | put c => exact hputs c hw₀
      | keep => trivial
  refine ⟨ts', hrun, hinner, Guard.free_iff_not_occursIn.mp (hnext.mono hlater.size_le), ?_, ?_⟩
  . have := congrArg List.length hviews
    rw [JointTransition.length_act ht.mapCells ((List.length_map _).trans hcount), List.length_map] at this
    rw [this, hcount]
  . intro i tape w m htape hw hm
    apply JointTransition.exists_tape_of_act hviews htape _ hm
    rw [JointTransition.mapCells, List.getElem?_map, hw]
    rfl

/--
One head goes to the left edge, while the other one waits for it in the end; the guard is widened before and
after the request.
-/
theorem split_joint_moves_to_edge :
    let rs : List Request :=
      [ .alphabets [.literal "a", .literal "b"] [.state "Ω"], .features [.multiTape, .moveNone], .state "rΩ",
        .tapes 2 "q",
        .joint ⟨"q", .tapes [.cell (.literal "b"), .any], [.keep, .keep], [⟨-3⟩, ⟨2⟩], "r"⟩ ]
    let t : JointTransition :=
      ⟨"q", .tapes [.any, .cell .blank], [.put (.literal "b"), .keep], [⟨-3⟩, ⟨2⟩], "r"⟩
    let rs' : List Request := [.state "ΩΩ", .joint ⟨"p", .any, [.keep, .keep], [⟨-2⟩, ⟨2⟩], "r"⟩]
    let d := (Draft.new "qstart").receive rs
    let d' := (Build.submit (.joint t)).after d
    let e := d'.receive rs'
    let tape : Tape := ⟨[.literal "b", .literal "a"], .literal "a", [.state "ΩΩΩ"]⟩
    (e.alphabet.symbols = [.literal "a", .literal "b", .state "ΩΩΩ", .blank]
      ∧ (d.avoidBoth "q" "r").states.lookup "q" (.joint [.literal "a", .blank]) = none
      ∧ d'.states.lookup "q" (.joint [.literal "a", .blank]) ≠ none)
    ∧ ∃ t₁ t₂, e.compile.next^[3] ⟨"q", [tape, ⟨[], .blank, []⟩]⟩ = ⟨"r", [t₁, t₂]⟩
      ∧ (t₁.position = 0 ∧ t₁.cellAt = ((tape.write (.literal "b")).move ⟨-3⟩).cellAt)
      ∧ t₂.position = 2 := by
  intro rs t rs' d d' e tape
  have hd : d = (Draft.new "qstart").receive rs := rfl
  have hok : (Build.submit (.joint t)).succeeds d = true := by decide +kernel
  have hsubmit : Build.submit (.joint t) d = .ok () d' := Build.eq_ok_of_succeeds hok
  have hfeatures : d.features.enabled .multiTape = true ∧ d.features.enabled .moveMulti = false := by
    decide +kernel
  have hrules : e.alphabet.symbols = [.literal "a", .literal "b", .state "ΩΩΩ", .blank]
      ∧ (d.avoidBoth "q" "r").states.lookup "q" (.joint [.literal "a", .blank]) = none
      ∧ d'.states.lookup "q" (.joint [.literal "a", .blank]) ≠ none := by decide +kernel
  have hsymbols : (∀ c ∈ d.alphabet.symbols, d.alphabet.accepts c = true)
      ∧ (∀ c ∈ [.literal "a", .blank], c ∈ d'.alphabet.symbols)
      ∧ (∀ c ∈ tape.cells, c ∈ e.alphabet.symbols ∧ e.alphabet.accepts c = true)
      ∧ (.blank ∈ e.alphabet.symbols ∧ e.alphabet.accepts .blank = true)
      ∧ .literal "b" ∈ e.alphabet.symbols ∧ e.alphabet.accepts (.literal "b") = true := by decide +kernel
  clear_value d d'
  have hts : ∀ x ∈ [tape, ⟨[], .blank, []⟩], ∀ c ∈ x.cells,
      c ∈ e.alphabet.symbols ∧ e.alphabet.accepts c = true := by
    rw [List.forall_mem_cons, List.forall_mem_singleton]
    exact ⟨hsymbols.2.2.1, List.forall_mem_singleton.mpr hsymbols.2.2.2.1⟩
  have hputs : ∀ c, .put c ∈ t.writes → c = .literal "b" := by
    intro c hc
    rcases List.mem_cons.mp hc with hc | hc
    . exact Writing.put.inj hc
    . cases List.mem_singleton.mp hc
  obtain ⟨ts', hrun, _, _, hlength, htapes⟩ :=
    split_joint_moves_equal_moves rs' hd hfeatures.1 hfeatures.2 (fun _ _ => hsymbols.1) hsubmit (by decide)
      rfl hsymbols.2.1 hrules.2.1 hrules.2.2 [tape, ⟨[], .blank, []⟩] hts rfl fun c hc => by
        rw [hputs c hc]
        exact hsymbols.2.2.2.2
  obtain ⟨t₁, t₂, rfl⟩ := List.length_eq_two.mp hlength
  obtain ⟨_, heq, hposition, hcells⟩ := htapes 0 tape (.put (.literal "b")) ⟨-3⟩ rfl rfl rfl
  obtain rfl := Option.some.inj heq
  obtain ⟨_, heq, hposition', _⟩ := htapes 1 ⟨[], .blank, []⟩ .keep ⟨2⟩ rfl rfl rfl
  obtain rfl := Option.some.inj heq
  exact ⟨hrules, _, _, hrun, ⟨hposition, hcells⟩, hposition'⟩

/--
A symbol that is not accepted stands in the way of a head that only passes by. Without wildcards, it stands in
the way of the rules: a request is refused in the middle, and goes through when it is made again, although the
state that finishes the movement has no rules.
-/
theorem split_joint_moves_reject_undeclared :
    let z : Cell := .tuple [.literal "z"] false
    let t : JointTransition :=
      ⟨"q", .tapes [.cell (.literal "a"), .cell .blank], [.keep, .keep], [⟨2⟩, ⟨0⟩], "r"⟩
    let draft (features : List Feature) (n : Nat) : Draft := (Draft.new "qstart").receive
      ([.alphabets [.literal "a", z] [], .features features, .tapes 2 "q"] ++ List.replicate n (.joint t))
    let wild := draft [.wildcard, .multiTape, .moveNone] 1
    let tame := draft [.multiTape, .moveNone]
    let c (after : List Cell) : Config := ⟨"q", [⟨[], .literal "a", after⟩, ⟨[], .blank, []⟩]⟩
    (z ∈ wild.alphabet.symbols
      ∧ (wild.compile.next^[2] (c [z, .literal "a"])).state = "REJECT"
      ∧ (wild.compile.next^[2] (c [z, .literal "a"])).tapes.map Tape.cells
        = [[.literal "a", .blank, .literal "a", .blank], [.blank, .blank, .blank]])
    ∧ (Build.submit (.joint t)).succeeds (tame 0) = false
      ∧ (Build.submit (.joint t)).succeeds (tame 1) = true
      ∧ (((tame 2).compile).next^[2] (c [])).state = "REJECT" := by
  decide +kernel

end TuringLowering
