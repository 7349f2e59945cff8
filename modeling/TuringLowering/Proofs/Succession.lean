import TuringLowering.Proofs.Capability
import TuringLowering.Proofs.Relays
import TuringLowering.Proofs.UserNames

/-!
This module contains what is left of a draft when more is added to it. An operation adds to certain states
only, and no rule is lost on the way: after any further requests, accepted or not, the rules of a settled
draft are there, under the names that widening the guard gave to its states.
-/

namespace TuringLowering

namespace Draft

/-- Symbols were added to a draft, and rules for certain states; all else is as it was. -/
structure Amends (S : String → Prop) (d e : Draft) : Prop where
  guard : e.guard = d.guard
  features : e.features = d.features
  tapes : e.tapes = d.tapes
  declared : e.alphabet.declared = d.alphabet.declared
  symbols : ∀ c ∈ d.alphabet.symbols, c ∈ e.alphabet.symbols
  lookup : ∀ s c o, d.states.lookup s c = some o → e.states.lookup s c = some o
  other : ∀ s, ¬ S s → e.states.find? s = d.states.find? s
  chains : ∀ x ∈ d.chains, x ∈ e.chains

namespace Amends

variable {S S' : String → Prop} {d e e' : Draft}

theorem refl (d : Draft) : d.Amends S d :=
  ⟨rfl, rfl, rfl, rfl, fun _ => id, fun _ _ _ => id, fun _ _ => rfl, fun _ => id⟩

theorem trans (h : d.Amends S e) (h' : e.Amends S e') : d.Amends S e' where
  guard := h'.guard.trans h.guard
  features := h'.features.trans h.features
  tapes := h'.tapes.trans h.tapes
  declared := h'.declared.trans h.declared
  symbols c hc := h'.symbols c (h.symbols c hc)
  lookup s c o ho := h'.lookup s c o (h.lookup s c o ho)
  other s hs := (h'.other s hs).trans (h.other s hs)
  chains x hx := h'.chains x (h.chains x hx)

theorem below (h : d.Amends S e) : d.Below e :=
  ⟨fun _ => Alphabet.accepts_mono h.symbols, h.lookup⟩

theorem rename (h : d.Amends S e) : d.guard.rename e.guard = id := by
  rw [h.guard]
  exact funext d.guard.rename_self

theorem lookup_other (h : d.Amends S e) {s : String} (hs : ¬ S s) (c : Cell) :
    e.states.lookup s c = d.states.lookup s c := by
  rw [StateTables.lookup, h.other s hs, StateTables.lookup]

theorem keys (h : d.Amends S e) {k : ChainKey} (hk : k ∈ d.keys) : k ∈ e.keys :=
  List.map_subset _ h.chains hk

theorem of_states (hrest : e = { d with states := e.states })
    (hlookup : ∀ s c o, d.states.lookup s c = some o → e.states.lookup s c = some o)
    (hother : ∀ s, ¬ S s → e.states.find? s = d.states.find? s) : d.Amends S e := by
  have hchains : e.chains = d.chains := by rw [hrest]
  have halphabet : e.alphabet = d.alphabet := by rw [hrest]
  exact ⟨by rw [hrest], by rw [hrest], by rw [hrest], by rw [halphabet],
    fun c hc => halphabet ▸ hc, hlookup, hother, fun x hx => hchains ▸ hx⟩

end Amends

end Draft

namespace Route

inductive Passes (r : Route) : String → Prop where
  | find (n : Nat) : Passes r (r.findState n)
  | apply (n : Nat) : Passes r (r.applyState n)
  | tag (n : Nat) : Passes r (r.tagState n)
  | record : Passes r (r.applyState 0 ++ "-doRecord")

theorem exists_of_mem_action (r : Route) {A : Alphabet} {n : Nat} {write : Cell} {move : Move}
    {x : Directive} (h : x ∈ r.action A n write move) :
    ∃ origin read w m next, x = .transition origin read w m next ∧ r.Passes origin
      ∧ r.Passes next := by
  simp only [action, List.mem_append, List.mem_cons, List.not_mem_nil, or_false, List.mem_map] at h
  rcases h with (rfl | rfl | rfl | rfl) | ⟨c, _, rfl⟩
  . exact ⟨_, _, _, _, _, rfl, .apply n, .apply n⟩
  . exact ⟨_, _, _, _, _, rfl, .apply n, .tag n⟩
  . exact ⟨_, _, _, _, _, rfl, .tag n, .tag n⟩
  . exact ⟨_, _, _, _, _, rfl, .tag n, .apply _⟩
  . exact ⟨_, _, _, _, _, rfl, .tag n, .apply _⟩

end Route

namespace Build

open Draft (Amends)

theorem eq_of_addRule_error {s : String} {add : Alphabet → RuleTable → Except RuleError RuleTable}
    {d d' : Draft} {e : RequestError} (h : addRule s add d = .error e d') :
    d' = { d with states := d.states.ensure s } := by
  rw [addRule_apply] at h
  cases ht : add d.alphabet (d.states.table s) with
  | ok t => simp [ht] at h
  | error cause =>
    simp only [ht, EStateM.Result.error.injEq] at h
    exact h.2.symm

def Retains (add : Alphabet → RuleTable → Except RuleError RuleTable) : Prop :=
  ∀ a t t', add a t = .ok t' → ∀ c o, t.lookup c = some o → t'.lookup c = some o

theorem addExact_retains (c : Cell) (o : Outcome) : Retains (RuleTable.addExact c o) := by
  intro a t t' ht x o' ho'
  obtain ⟨hnone, _, hlookup⟩ := RuleTable.addExact_eq_ok ht
  rw [hlookup, if_neg, ho']
  rintro rfl
  rw [hnone] at ho'
  cases ho'

theorem addGroup_retains (group : RuleGroup) : Retains (RuleTable.addGroup group) := by
  intro a t t' ht x o' ho'
  obtain ⟨hnone, hlookup⟩ := RuleTable.addGroup_eq_ok ht
  rw [hlookup, if_neg, ho']
  intro hx
  rw [(hnone x hx).1] at ho'
  cases ho'

theorem addWildcard_retains (o : Outcome) : Retains fun _ => RuleTable.addWildcard o := by
  intro a t t' ht x o' ho'
  rw [RuleTable.addWildcard_eq_ok ht, ho']
  rfl

section

variable {I : Draft → Prop} (hI : ∀ d states, I d → I { d with states := states })
include hI

theorem addRule_maintains (s : String) (add : Alphabet → RuleTable → Except RuleError RuleTable) :
    Maintains I (addRule s add) := by
  intro d hd
  rw [after, addRule_apply]
  cases add d.alphabet (d.states.table s) with
  | ok t => exact hI d _ hd
  | error e => exact hI d _ hd

theorem addRules_maintains (s : String) (cells : List Cell) (grouped : Bool) (shared : Outcome)
    (each : Cell → Outcome) (source : Option JointPattern) :
    Maintains I (addRules s cells grouped shared each source) := by
  unfold addRules
  split
  . split
    . exact Maintains.modify fun d hd => hI d _ hd
    . exact addRule_maintains hI _ _
  . exact Maintains.forM fun c _ => addRule_maintains hI _ _

theorem direct_maintains (s : String) (read : Pattern) (w : Writing) (m : Move) (next : String) :
    Maintains I (direct s read w m next) := by
  unfold direct
  cases read with
  | cell c => exact addRule_maintains hI _ _
  | oneOf cells => exact Maintains.get_bind fun _ _ => addRules_maintains hI _ _ _ _ _ _
  | any =>
    apply Maintains.enabled_bind
    intro d _
    split
    . exact addRule_maintains hI _ _
    . exact Maintains.get_bind fun _ _ => Maintains.get_bind fun _ _ => addRules_maintains hI _ _ _ _ _ _

theorem addAction_maintains (s : String) (read : Pattern) (a : Action) (next : String) :
    Maintains I (addAction s read a next) := by
  apply Maintains.enabled_bind
  intro _ _
  cases read with
  | cell c => exact addRule_maintains hI _ _
  | oneOf cells => exact addRules_maintains hI _ _ _ _ _ _
  | any =>
    apply Maintains.enabled_bind
    intro d _
    split
    . exact addRule_maintains hI _ _
    . exact Maintains.get_bind fun _ _ => addRules_maintains hI _ _ _ _ _ _

end

theorem direct_rest (s : String) (read : Pattern) (w : Writing) (m : Move) (next : String) (d : Draft) :
    (direct s read w m next).after d
      = { d with states := ((direct s read w m next).after d).states } := by
  refine direct_maintains (I := fun e => e = { d with states := e.states }) ?_ s read w m next d rfl
  intro e states he
  rw [he]

theorem addAction_rest (s : String) (read : Pattern) (a : Action) (next : String) (d : Draft) :
    (addAction s read a next).after d
      = { d with states := ((addAction s read a next).after d).states } := by
  refine addAction_maintains (I := fun e => e = { d with states := e.states }) ?_ s read a next d rfl
  intro e states he
  rw [he]

section

variable {I : Draft → Prop} {g : Guard} (hI : ∀ d, I d → d.guard = g)
include hI

theorem chain_bind_maintains {β : Type} {k : ChainKey} {parts : List String}
    {f : String × Bool → Build β} (hchain : Maintains I (chain k parts))
    (hold : ∀ name, Maintains I (f (name, false))) (hnew : Maintains I (f (g.wrap parts, true))) :
    Maintains I (chain k parts >>= f) := by
  intro d hd
  have hkept := hchain d hd
  unfold after at hkept ⊢
  cases hfind : d.chains.find? (·.1 = k) with
  | some e =>
    have happly : chain k parts d = .ok (e.2, false) d := by rw [chain_apply, hfind]
    rw [happly] at hkept
    rw [bind_of_ok happly]
    exact hold _ d hkept
  | none =>
    have happly := chain_apply k parts d
    rw [hfind, hI d hd] at happly
    dsimp only at happly
    rw [happly] at hkept
    rw [bind_of_ok happly]
    exact hnew _ hkept

theorem transition_go_maintains {S : String → Prop}
    (hdirect : ∀ s, S s → ∀ read w m next, Maintains I (direct s read w m next)) {next : String}
    (hchain : ∀ m : Move, Maintains I (chain (.continuation m next) [m.display, next]))
    (hrelay : ∀ m : Move, S (g.wrap [m.display, next])) (n : Nat) {s : String} (hs : S s)
    (read : Pattern) (w : Writing) (m : Move) : Maintains I (transition.go n s read w m next) := by
  induction n generalizing s read w m with
  | zero => exact hdirect s hs read w m next
  | succ n ih =>
    apply Maintains.get_bind
    intro d _
    split
    . exact hdirect s hs read w m next
    . apply chain_bind_maintains hI (hchain _)
      . exact fun name => hdirect s hs read w m.detour.1 name
      . exact Maintains.bind (ih (hrelay _) .any .keep m.detour.2) fun _ =>
          hdirect s hs read w m.detour.1 _

end

/--
What is kept by transitions and by rules with one action, if they are added to states of which `T` holds,
and by chains.
-/
structure Preserves (I : Draft → Prop) (g : Guard) (T : String → Prop) : Prop where
  guard : ∀ d, I d → d.guard = g
  transition : ∀ s, T s → ∀ read w m next, Maintains I (transition s read w m next)
  action : ∀ s, T s → ∀ read a next, Maintains I (addAction s read a next)
  chain : ∀ k : ChainKey, k.kind ≠ .continuation → Maintains I (chain k k.nameParts)
  paste : ∀ text parts, T (g.wrap (("paste" ++ text) :: parts))

namespace Preserves

variable {I : Draft → Prop} {g : Guard} {T : String → Prop} {s : String} {read : Pattern}
  (h : Preserves I g T) (hs : T s)
include h hs

theorem shiftChain (read : Pattern) (m : Move) (next : String) :
    Maintains I (shiftChain s read m next) := by
  apply Maintains.get_bind
  intro d _
  apply Maintains.forM
  intro c _
  have hcarry (paste : String) :
      Maintains I (Build.transition s (.cell c) (.put .blank) .right paste) :=
    h.transition s hs _ _ _ _
  apply chain_bind_maintains h.guard (h.chain (.paste c m next) (by simp))
  . exact hcarry
  . exact Maintains.bind (h.transition _ (h.paste _ _) _ _ _ _) fun _ => hcarry _

theorem shift (read : Pattern) (m : Move) (next : String) : Maintains I (shift s read m next) := by
  apply Maintains.enabled_bind
  intro d _
  split
  . exact h.action s hs read _ next
  . exact h.shiftChain hs read m next

theorem seekEnd (next : String) : Maintains I (seekEnd s next) :=
  Maintains.bind (h.transition s hs _ _ _ _) fun _ => h.transition s hs _ _ _ _

theorem markFirstChain (hseeker : T (g.wrap ["firstCellMarker", s, read.display] ++ "_findEnd"))
    (hcarrier : T (g.wrap ["firstCellMarker", s, read.display] ++ "_doShifts")) (marker : Cell)
    (next : String) : Maintains I (markFirstChain s read marker next) := by
  apply chain_bind_maintains h.guard (h.chain (.markFirst s read marker next) (by simp))
  . exact fun _ => Maintains.pure ()
  . refine .bind (h.transition s hs _ _ _ _) fun _ => ?_
    refine .bind (h.seekEnd hseeker _) fun _ => ?_
    refine .bind (h.transition _ hcarrier _ _ _ _) fun _ => ?_
    exact h.shift hcarrier _ _ _

theorem insertAfterChain (hseeker : T (g.wrap ["afterCellMarker", s, read.display] ++ "_findEnd"))
    (hcarrier : T (g.wrap ["afterCellMarker", s, read.display] ++ "_doShifts"))
    (hinsert : ∀ c next, Maintains I (Build.transition
      (g.wrap ["afterCellMarker", s, read.display] ++ "_doInsert") (.cell .blank) (.put c) .right next))
    (marker insert : Cell) (next : String) :
    Maintains I (insertAfterChain s read marker insert next) := by
  apply chain_bind_maintains h.guard (h.chain (.insertAfter s read marker insert next) (by simp))
  . exact fun _ => Maintains.pure ()
  . refine .bind (h.transition s hs _ _ _ _) fun _ => ?_
    refine .bind (h.seekEnd hseeker _) fun _ => ?_
    refine .bind (h.transition _ hcarrier _ _ _ _) fun _ => ?_
    refine .bind (h.shift hcarrier _ _ _) fun _ => ?_
    exact hinsert insert next

omit hs in
theorem directive {x : Directive} (hx : T x.origin)
    (hpart : ∀ part parts, T (g.wrap (part :: parts) ++ "_findEnd")
      ∧ T (g.wrap (part :: parts) ++ "_doShifts"))
    (hinsert : ∀ part parts c next, Maintains I (Build.transition
      (g.wrap (part :: parts) ++ "_doInsert") (.cell .blank) (.put c) .right next)) :
    Maintains I (directive x) := by
  cases x with
  | transition s read w m next => exact h.transition s hx read w m next
  | gadget s read x next =>
    apply Maintains.enabled_bind
    intro d _
    split
    . exact h.action s hx read x.action next
    . cases x with
      | shift m => exact h.shiftChain hx read m next
      | markFirst marker => exact h.markFirstChain hx (hpart _ _).1 (hpart _ _).2 marker next
      | insertAfter marker insert =>
        exact h.insertAfterChain hx (hpart _ _).1 (hpart _ _).2 (hinsert _ _) marker insert next

end Preserves

theorem rest_preserves (d : Draft) :
    Preserves (fun e => e = { d with states := e.states, chains := e.chains }) d.guard fun _ => True := by
  let I (e : Draft) : Prop := e = { d with states := e.states, chains := e.chains }
  have hguard (e : Draft) (he : I e) : e.guard = d.guard := by rw [he]
  have hstates (e : Draft) (states : StateTables) (he : I e) : I { e with states := states } := by
    unfold I at he ⊢
    rw [he]
  have hchain (k : ChainKey) (parts : List String) : Maintains I (chain k parts) := by
    intro e he
    rw [after, chain_apply]
    cases e.chains.find? (·.1 = k) with
    | some _ => exact he
    | none =>
      dsimp only
      unfold I at he ⊢
      rw [he]
  exact
    { guard := hguard
      transition := fun s _ read w m next => transition_go_maintains hguard (S := fun _ => True)
        (fun s _ => direct_maintains hstates s) (fun m => hchain _ _) (fun _ => trivial) _ trivial read w m
      action := fun s _ => addAction_maintains hstates s
      chain := fun k _ => hchain k _
      paste := fun _ _ => trivial }

theorem directive_rest (x : Directive) (d : Draft) :
    (directive x).after d
      = { d with
        states := ((directive x).after d).states
        chains := ((directive x).after d).chains } := by
  have h := rest_preserves d
  exact h.directive trivial (fun _ _ => ⟨trivial, trivial⟩)
    (fun _ _ _ _ => h.transition _ trivial _ _ _ _) d rfl

section

variable {S : String → Prop} {d₀ : Draft}

theorem addState_amends {s : String} (hs : S s) : Maintains (d₀.Amends S) (addState s) := by
  apply Maintains.modify
  intro d hd
  apply hd.trans
  apply Amends.of_states rfl
  . intro s' c o ho
    dsimp only
    rwa [StateTables.lookup_eq, StateTables.table_ensure, ← StateTables.lookup_eq]
  . intro s' hs'
    dsimp only
    rw [StateTables.find?_ensure, if_neg]
    rintro rfl
    exact hs' hs

theorem addSymbol_amends (c : Cell) : Maintains (d₀.Amends S) (addSymbol c) := by
  apply Maintains.modify
  intro d hd
  exact hd.trans ⟨rfl, rfl, rfl, rfl, fun _ hc => Alphabet.mem_symbols_add.mpr (.inl hc), fun _ _ _ => id,
    fun _ _ => rfl, fun _ => id⟩

theorem addRule_amends {s : String} {add : Alphabet → RuleTable → Except RuleError RuleTable}
    (hs : S s) (hadd : Retains add) : Maintains (d₀.Amends S) (addRule s add) := by
  intro d hd
  unfold after
  rw [addRule_apply]
  cases ht : add d.alphabet (d.states.table s) with
  | error e => exact addState_amends hs d hd
  | ok t =>
    have hcontains : (d.states.ensure s).contains s := by
      simp [StateTables.contains_ensure]
    apply hd.trans
    apply Amends.of_states rfl
    . intro s' c o ho
      dsimp only
      rw [StateTables.lookup_eq] at ho ⊢
      rw [StateTables.table_set _ _ _ _ hcontains, StateTables.table_ensure]
      split
      . next heq =>
        rw [heq] at ho
        exact hadd _ _ _ ht c o ho
      . exact ho
    . intro s' hs'
      have hne : s' ≠ s := by
        rintro rfl
        exact hs' hs
      dsimp only
      rw [StateTables.find?_set, if_neg hne, StateTables.find?_ensure, if_neg hne]

theorem addRules_amends {s : String} (hs : S s) (cells : List Cell) (grouped : Bool)
    (shared : Outcome) (each : Cell → Outcome) (source : Option JointPattern) :
    Maintains (d₀.Amends S) (addRules s cells grouped shared each source) := by
  unfold addRules
  split
  . split
    . exact addState_amends hs
    . exact addRule_amends hs (addGroup_retains _)
  . exact Maintains.forM fun c _ => addRule_amends hs (addExact_retains c _)

theorem chain_amends (k : ChainKey) (parts : List String) :
    Maintains (d₀.Amends S) (chain k parts) := by
  intro d hd
  unfold after
  rw [chain_apply]
  cases d.chains.find? (·.1 = k) with
  | some e => exact hd
  | none =>
    exact hd.trans ⟨rfl, rfl, rfl, rfl, fun _ => id, fun _ _ _ => id, fun _ _ => rfl,
      fun _ => List.mem_append_left _⟩

theorem directForCells_amends {s : String} (hs : S s) (cells : List Cell) (w : Writing) (m : Move)
    (next : String) : Maintains (d₀.Amends S) (directForCells s cells w m next) :=
  Maintains.get_bind fun _ _ => addRules_amends hs _ _ _ _ _

theorem direct_amends {s : String} (hs : S s) (read : Pattern) (w : Writing) (m : Move)
    (next : String) : Maintains (d₀.Amends S) (direct s read w m next) := by
  unfold direct
  cases read with
  | cell c => exact addRule_amends hs (addExact_retains c _)
  | oneOf cells => exact directForCells_amends hs cells w m next
  | any =>
    apply Maintains.enabled_bind
    intro d _
    split
    . exact addRule_amends hs (addWildcard_retains _)
    . exact Maintains.get_bind fun _ _ => directForCells_amends hs _ w m next

theorem transition_go_amends (n : Nat) {s next : String} (hs : S s)
    (hrelay : ∀ m : Move, S (d₀.guard.wrap [m.display, next])) (read : Pattern) (w : Writing)
    (m : Move) : Maintains (d₀.Amends S) (transition.go n s read w m next) :=
  transition_go_maintains (fun _ hd => hd.guard) (fun _ hs _ _ _ _ => direct_amends hs _ _ _ _)
    (fun _ => chain_amends _ _) hrelay n hs read w m

theorem transition_amends {s next : String} (hs : S s)
    (hrelay : ∀ m : Move, S (d₀.guard.wrap [m.display, next])) (read : Pattern) (w : Writing)
    (m : Move) : Maintains (d₀.Amends S) (transition s read w m next) :=
  transition_go_amends _ hs hrelay read w m

theorem addAction_amends {s : String} (hs : S s) (read : Pattern) (a : Action) (next : String) :
    Maintains (d₀.Amends S) (addAction s read a next) := by
  apply Maintains.enabled_bind
  intro d _
  cases read with
  | cell c => exact addRule_amends hs (addExact_retains c _)
  | oneOf cells => exact addRules_amends hs _ _ _ _ _
  | any =>
    apply Maintains.enabled_bind
    intro d' _
    split
    . exact addRule_amends hs (addWildcard_retains _)
    . exact Maintains.get_bind fun _ _ => addRules_amends hs _ _ _ _ _

theorem amends_preserves (hwrap : ∀ part parts, S (d₀.guard.wrap (part :: parts))) :
    Preserves (d₀.Amends S) d₀.guard S where
  guard _ hd := hd.guard
  transition _ hs read w m _ := transition_amends hs (fun _ => hwrap _ _) read w m
  action _ hs read a next := addAction_amends hs read a next
  chain k _ := chain_amends k _
  paste _ _ := hwrap _ _

section

variable (hwrap : ∀ part parts, S (d₀.guard.wrap (part :: parts)))
include hwrap

theorem shiftChain_amends {s : String} (hs : S s) (read : Pattern) (m : Move) (next : String) :
    Maintains (d₀.Amends S) (shiftChain s read m next) :=
  (amends_preserves hwrap).shiftChain hs read m next

theorem shift_amends {s : String} (hs : S s) (read : Pattern) (m : Move) (next : String) :
    Maintains (d₀.Amends S) (shift s read m next) :=
  (amends_preserves hwrap).shift hs read m next

theorem seekEnd_amends {s : String} (hs : S s) (next : String) :
    Maintains (d₀.Amends S) (seekEnd s next) :=
  (amends_preserves hwrap).seekEnd hs next

theorem markFirstChain_amends {s : String} (hs : S s) {read : Pattern}
    (hpart : ∀ suffix ∈ chainSuffixes,
      S (d₀.guard.wrap ["firstCellMarker", s, read.display] ++ suffix))
    (marker : Cell) (next : String) :
    Maintains (d₀.Amends S) (markFirstChain s read marker next) :=
  (amends_preserves hwrap).markFirstChain hs (hpart _ (by decide)) (hpart _ (by decide)) marker next

theorem insertAfterChain_amends {s : String} (hs : S s) {read : Pattern}
    (hpart : ∀ suffix ∈ chainSuffixes,
      S (d₀.guard.wrap ["afterCellMarker", s, read.display] ++ suffix))
    (marker insert : Cell) (next : String) :
    Maintains (d₀.Amends S) (insertAfterChain s read marker insert next) :=
  (amends_preserves hwrap).insertAfterChain hs (hpart _ (by decide)) (hpart _ (by decide))
    (fun _ _ => transition_amends (hpart _ (by decide)) (fun _ => hwrap _ _) _ _ _) marker insert next

end

theorem directive_amends (hS : ∀ s, d₀.guard.Generates s → S s) {x : Directive} (hx : S x.origin) :
    Maintains (d₀.Amends S) (directive x) := by
  have hwrap (part : String) (parts : List String) : S (d₀.guard.wrap (part :: parts)) :=
    hS _ ⟨part, parts, .inl rfl⟩
  have hpart (part : String) (parts : List String) (suffix : String) (h : suffix ∈ chainSuffixes) :
      S (d₀.guard.wrap (part :: parts) ++ suffix) := hS _ ⟨part, parts, .inr ⟨suffix, h, rfl⟩⟩
  apply (amends_preserves hwrap).directive hx
  . exact fun part parts => ⟨hpart part parts _ (by decide), hpart part parts _ (by decide)⟩
  . exact fun part parts _ _ =>
      transition_amends (hpart part parts _ (by decide)) (fun _ => hwrap _ _) _ _ _

end

def passage (r : Route) : Build Unit := do
  findHeads r
  applyActions r
  if !(← hasState (r.applyState 0)) then
    directives (r.record (← get).alphabet)

theorem route_apply (r : Route) (d : Draft) :
    route r d
      =
    if (d.states.lookup (Segment.stepState r.guard) (.state r.origin)).isSome then passage r d
    else (addSymbol (.state r.origin) >>= fun _ => directives r.entry >>= fun _ => passage r) d := by
  have hrule : hasRule (Segment.stepState r.guard) (.state r.origin) d
      = .ok (d.states.lookup (Segment.stepState r.guard) (.state r.origin)).isSome d := rfl
  rw [route, bind_of_ok hrule]
  cases (d.states.lookup (Segment.stepState r.guard) (.state r.origin)).isSome <;> rfl

section

variable {I : Draft → Prop} {r : Route} (hpass : ∀ origin next, r.Passes origin →
  r.Passes next ∨ next = Segment.growState r.guard → ∀ read w m,
    Maintains I (transition origin read w m next))
include hpass

theorem findHeads_maintains : Maintains I (findHeads r) := by
  apply Maintains.get_bind
  intro d _
  apply Maintains.forM
  rintro ⟨c, n⟩ _
  have hstep (read : Pattern) (w : Writing) (n' : Nat) : Maintains I
      (directive (.transition (r.findState n) read w .right (r.findState n'))) :=
    hpass _ _ (.find n) (.inl (.find n')) read w .right
  have hlast (b : Bool) : Maintains I (do
      if b || !(← hasRule (r.findState n) c.tagged) then
        directive (.replace (r.findState n) c.tagged c.tagged .right (r.findState (n + 1)))) := by
    apply Maintains.hasRule_bind
    intro ruled
    split
    . exact hstep _ _ _
    . exact Maintains.pure ()
  apply Maintains.hasState_bind
  intro known
  dsimp only
  split
  . exact Maintains.bind (hstep _ _ _) fun _ => hlast _
  . exact hlast _

theorem applyActions_maintains : Maintains I (applyActions r) := by
  apply Maintains.get_bind
  intro d _
  apply Maintains.forM
  rintro ⟨⟨write, move⟩, n⟩ _
  apply Maintains.hasState_bind
  intro known
  split
  . apply Maintains.forM
    intro x hx
    obtain ⟨origin, read, w, m, next, rfl, horigin, hnext⟩ := r.exists_of_mem_action hx
    exact hpass _ _ horigin (.inl hnext) read w m
  . exact Maintains.pure ()

theorem record_maintains (A : Alphabet) : Maintains I (directives (r.record A)) := by
  apply Maintains.forM
  simp only [Route.record, List.forall_mem_cons]
  refine ⟨?_, ?_, ?_, List.forall_mem_nil _⟩
  . exact hpass _ _ (.apply 0) (.inl (.apply 0)) _ _ _
  . exact hpass _ _ (.apply 0) (.inl .record) _ _ _
  . exact hpass _ _ .record (.inr rfl) _ _ _

theorem passage_maintains : Maintains I (passage r) := by
  refine .bind (findHeads_maintains hpass) fun _ => ?_
  refine .bind (applyActions_maintains hpass) fun _ => ?_
  apply Maintains.hasState_bind
  intro known
  split
  . exact Maintains.get_bind fun _ _ => record_maintains hpass _
  . exact Maintains.pure ()

/-- Apart from its beginning, a route consists of transitions between states that are made for it. -/
theorem route_maintains (hsymbol : Maintains I (addSymbol (.state r.origin)))
    (hentry : Maintains I (directives r.entry)) : Maintains I (route r) := by
  apply Maintains.hasRule_bind
  intro known
  split
  . exact .bind hsymbol fun _ => .bind hentry fun _ => passage_maintains hpass
  . exact passage_maintains hpass

end

section

variable {d₀ : Draft}

theorem directives_amend (xs : List Directive) :
    Maintains (d₀.Amends fun _ => True) (directives xs) :=
  Maintains.forM fun _ _ => directive_amends (fun _ _ => trivial) trivial

theorem route_amends (r : Route) : Maintains (d₀.Amends fun _ => True) (route r) :=
  route_maintains (fun _ _ _ _ _ _ _ => transition_amends trivial (fun _ => trivial) _ _ _)
    (addSymbol_amends _) (directives_amend _)

theorem joint_amends {S : String → Prop} {s : String} (hs : S s) (read : JointPattern)
    (writes : List Writing) (moves : List Move) (next : String) :
    Maintains (d₀.Amends S) (joint s read writes moves next) := by
  apply Maintains.enabled_bind
  intro d _
  split
  . exact addRule_amends hs (addWildcard_retains _)
  . unfold jointPerTape
    split
    . exact addRule_amends hs (addExact_retains _ _)
    . exact Maintains.get_bind fun _ _ => Maintains.get_bind fun _ _ => addRules_amends hs _ _ _ _ _

theorem jointTransition_direct_amends (t : JointTransition) :
    Maintains (d₀.Amends fun _ => True) (jointTransition.direct t) := by
  apply Maintains.enabled_bind
  intro d _
  split
  . exact joint_amends trivial _ _ _ _
  . exact Maintains.get_bind fun _ _ => Maintains.forM fun r _ => route_amends r

theorem jointTransition_direct_maintains {I : Draft → Prop} {g : Guard} {t : JointTransition}
    (hshared : ∀ d, I d → d.features.enabled .multiTape = false) (hguard : ∀ d, I d → d.guard = g)
    (hroute : ∀ r : Route, r.guard = g → r.origin = t.origin → Maintains I (route r)) :
    Maintains I (jointTransition.direct t) := by
  apply Maintains.enabled_bind
  intro d hd
  rw [hshared d hd, if_neg Bool.false_ne_true]
  apply Maintains.get_bind
  intro d hd
  apply Maintains.forM
  intro r hr
  have hmade : ∀ r ∈ (combinations ((t.read.perTape t.writes.length).map
      (Pattern.cells d.alphabet.declared))).map fun reads => (⟨d.guard, t.origin, reads,
        Writing.ontoAll t.writes reads, t.moves, t.next⟩ : Route), Maintains I (route r) := by
    rw [List.forall_mem_map]
    exact fun _ _ => hroute _ (hguard d hd) rfl
  split at hr
  . exact hmade r (List.mem_of_mem_filter hr)
  . exact hmade r hr

theorem jointTransition_go_maintains {I : Draft → Prop}
    (hchain : ∀ key parts, key.kind = .jointMove → Maintains I (chain key parts))
    (hdirect : ∀ t, Maintains I (jointTransition.direct t)) (n : Nat) (t : JointTransition) :
    Maintains I (jointTransition.go n t) := by
  induction n generalizing t with
  | zero => exact hdirect t
  | succ n ih =>
    apply Maintains.enabled_bind
    intro d _
    apply Maintains.enabled_bind
    intro d' _
    dsimp only
    split
    . apply Maintains.bind (hchain _ _ rfl)
      rintro ⟨state, isNew⟩
      dsimp only
      split
      . exact Maintains.bind (ih _) fun _ => hdirect _
      . exact hdirect _
    . exact hdirect t

end

end Build

namespace Draft

/--
A draft as it may be after further requests. Its guard may have been widened, so that what was there
is there under other names.
-/
structure Later (d e : Draft) : Prop where
  size_le : d.guard.size ≤ e.guard.size
  features : e.features = d.features
  tapes : e.tapes = d.tapes
  declared : e.alphabet.declared = d.alphabet.declared
  accepts : ∀ c, d.alphabet.accepts c = true →
    e.alphabet.accepts (c.mapNames (d.guard.rename e.guard)) = true
  lookup : ∀ s c o, d.states.lookup s c = some o →
    e.states.lookup (d.guard.rename e.guard s) (c.mapNames (d.guard.rename e.guard))
      = some (o.mapNames (d.guard.rename e.guard))

namespace Later

variable {d e e' : Draft}

theorem of_amends {S : String → Prop} (h : d.Amends S e) : d.Later e := by
  have hrename := h.rename
  refine ⟨Nat.le_of_eq (by rw [h.guard]), h.features, h.tapes, h.declared, ?_, ?_⟩
  . rw [hrename, Cell.mapNames_id]
    exact h.below.accepts
  . rw [hrename, Cell.mapNames_id, Outcome.mapNames_id]
    exact h.lookup

theorem refl (d : Draft) : d.Later d := of_amends (.refl (S := fun _ => True) d)

theorem trans (h : d.Later e) (h' : e.Later e') : d.Later e' := by
  have hcomp : e.guard.rename e'.guard ∘ d.guard.rename e.guard = d.guard.rename e'.guard :=
    funext fun name => Guard.rename_rename h.size_le _ name
  refine ⟨Nat.le_trans h.size_le h'.size_le, h'.features.trans h.features, h'.tapes.trans h.tapes,
    h'.declared.trans h.declared, ?_, ?_⟩
  . intro c hc
    have := h'.accepts _ (h.accepts c hc)
    rwa [Cell.mapNames_mapNames, hcomp] at this
  . intro s c o ho
    have := h'.lookup _ _ _ (h.lookup s c o ho)
    rwa [Cell.mapNames_mapNames, Outcome.mapNames_mapNames, hcomp,
      Guard.rename_rename h.size_le] at this

theorem withGuard {g : Guard} (hle : d.guard.size ≤ g.size) : d.Later (d.withGuard g) := by
  have hinjective : Function.Injective (d.guard.rename g) := fun _ _ => Guard.rename_injective hle
  refine ⟨hle, rfl, rfl, rfl, ?_, ?_⟩
  . intro c hc
    rw [← hc]
    exact Alphabet.accepts_mapNames hinjective d.alphabet c
  . intro s c o ho
    have := StateTables.lookup_mapNames hinjective d.states s c
    rw [ho] at this
    exact this

theorem avoid (d : Draft) (name : String) : d.Later (d.avoid name) :=
  avoid_induction name (refl d) fun _ hlt => withGuard (Nat.le_of_lt hlt)

end Later

variable {d : Draft}

theorem later_directive (x : Directive) : d.Later ((Build.directive x).after d) :=
  .of_amends (S := fun _ => True) (Build.directive_amends (fun _ _ => trivial) trivial d (.refl d))

theorem later_jointTransition (t : JointTransition) :
    d.Later ((Build.jointTransition t).after d) := by
  have hmaintains : Build.Maintains (d.Amends fun _ => True) (Build.jointTransition t) :=
    Build.jointTransition_go_maintains (fun key parts _ => Build.chain_amends key parts)
      Build.jointTransition_direct_amends _ t
  exact .of_amends (hmaintains d (.refl d))

theorem after_checkUnsettled (h : d.tapes ≠ .undecided) (k : Unit → Build Unit) :
    (Build.checkUnsettled >>= k).after d = d := by
  have hsettled : d.isUnsettled = false := by
    rw [isUnsettled, Bool.and_eq_false_iff]
    right
    simpa using h
  apply Build.checkUnsettled_bind (I := (· = d)) _ d rfl
  rintro _ rfl hunsettled
  rw [hsettled] at hunsettled
  cases hunsettled

theorem after_setTapes (h : d.tapes ≠ .undecided) (count : Nat) (first : String) :
    (Build.setTapes count first).after d = d := by
  unfold Build.setTapes
  split
  . rfl
  . dsimp only
    rw [Build.after, Build.bind_of_ok (Build.get_apply d)]
    cases htapes : d.tapes with
    | undecided => exact absurd htapes h
    | single => rfl
    | multi n => rfl

/-- On several tapes, a request names states, adds one without rules, or asks for a joint transition. -/
theorem of_submit_multi {I : Draft → Prop} {n : Nat} (htapes : d.tapes = .multi n) (hd : I d)
    (havoid : ∀ d name, I d → I (d.avoid name))
    (hstate : ∀ d name, I d → d.guard.Free name → I ((Build.addState name).after d))
    (hjoint : ∀ d t, I d → Build.Fits n t → d.guard.Free t.origin → d.guard.Free t.next →
      I ((Build.jointTransition t).after d)) (r : Request) :
    I ((Build.submit r).after d) := by
  have hdecided : d.tapes ≠ .undecided := by
    rw [htapes]
    nofun
  -- What is refused at once leaves the draft as it is.
  have hrefused {x : Build Unit} {e : RequestError} (hx : x d = .error e d) : I (x.after d) := by
    rw [Build.after, hx]
    exact hd
  cases r with
  | alphabets input extra => exact (after_checkUnsettled hdecided _).symm ▸ hd
  | features features => exact (after_checkUnsettled hdecided _).symm ▸ hd
  | state name => exact hstate _ name (havoid d name hd) (d.free_avoid name)
  | directive x =>
    cases x <;>
    . apply hrefused
      rw [Build.submit, Build.userDirective, Build.bind_of_error]
      rw [Build.claimSingleTape, Build.bind_of_ok (Build.get_apply d), htapes]
      rfl
  | tapes count first => exact (after_setTapes hdecided count first).symm ▸ hd
  | joint t =>
    change I ((Build.userJoint t).after d)
    rw [Build.after, Build.userJoint, Build.bind_of_ok (Build.get_apply d), htapes]
    dsimp only
    rcases Build.checkArities_cases n t d with ⟨hok, hfits⟩ | ⟨e, he⟩
    . rw [Build.bind_of_ok hok]
      obtain ⟨horigin, hnext⟩ := d.free_avoidBoth t.origin t.next
      exact hjoint _ t (havoid _ t.next (havoid d t.origin hd)) hfits horigin hnext
    . exact hrefused (by rw [Build.bind_of_error he])

/-- Once it is decided how many tapes there are, a request only adds to a draft. -/
theorem later_submit (h : d.tapes ≠ .undecided) (r : Request) :
    d.Later ((Build.submit r).after d) := by
  have havoid (e : Draft) (name : String) (he : d.Later e) : d.Later (e.avoid name) :=
    he.trans (.avoid e name)
  have hstate (e : Draft) (name : String) (he : d.Later e) :
      d.Later ((Build.addState name).after e) :=
    he.trans (.of_amends (S := fun _ => True) (Build.addState_amends trivial e (.refl e)))
  cases htapes : d.tapes with
  | undecided => exact absurd htapes h
  | multi n =>
    exact of_submit_multi htapes (.refl d) havoid (fun e name he _ => hstate e name he)
      (fun e t he _ _ _ => he.trans (later_jointTransition t)) r
  | single =>
    cases r with
    | alphabets input extra => exact (after_checkUnsettled h _).symm ▸ .refl d
    | features features => exact (after_checkUnsettled h _).symm ▸ .refl d
    | state name => exact hstate _ name (.avoid d name)
    | directive x =>
      obtain ⟨a, b, _, hsubmit⟩ := submit_directive x (by rw [htapes]; nofun)
      have hclaimed : { d with tapes := .single } = d := by rw [← htapes]
      rw [Build.after, hsubmit, hclaimed]
      exact (havoid _ b (.avoid d a)).trans (later_directive x)
    | tapes count first => exact (after_setTapes h count first).symm ▸ .refl d
    | joint t =>
      have hrefused : (Build.submit (.joint t)).after d = d := by
        rw [Build.after, Build.submit, Build.userJoint, Build.bind_of_ok (Build.get_apply d), htapes]
        rfl
      rw [hrefused]
      exact .refl d

theorem later_receive (h : d.tapes ≠ .undecided) (rs : List Request) : d.Later (d.receive rs) := by
  induction rs generalizing d with
  | nil => exact .refl d
  | cons r rs ih =>
    have hr := later_submit h r
    rw [receive_cons]
    exact hr.trans (ih (by rwa [hr.tapes]))

end Draft

end TuringLowering
