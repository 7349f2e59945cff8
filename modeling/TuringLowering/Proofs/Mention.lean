import TuringLowering.Proofs.Rules

/-!
This module contains the proof that the actions of rules mention no other cells than the requests and
the alphabet do.
-/

namespace TuringLowering

def Action.Over (P : Cell → Prop) : Action → Prop
  | .write c _ => P c
  | .preserve _ => True
  | .shift _ => True
  | .markFirst marker => P marker
  | .insertAfter marker insert => P marker ∧ P insert

def Outcome.Over (P : Cell → Prop) (o : Outcome) : Prop := ∀ a ∈ o.actions, a.Over P

def Writing.Over (P : Cell → Prop) : Writing → Prop
  | .put c => P c
  | .keep => True

def Pattern.Over (P : Cell → Prop) : Pattern → Prop
  | .cell c => P c
  | .oneOf cells => ∀ c ∈ cells, P c
  | .any => True

def Directive.Over (P : Cell → Prop) : Directive → Prop
  | .transition _ read w _ _ => read.Over P ∧ w.Over P
  | .gadget _ read x _ => read.Over P ∧ x.action.Over P

structure Draft.Over (P : Cell → Prop) (d : Draft) : Prop where
  symbols : ∀ c ∈ d.alphabet.symbols, P c
  rules : ∀ s c o, P c → d.states.lookup s c = some o → o.Over P

instance (P : Cell → Prop) [DecidablePred P] (a : Action) : Decidable (a.Over P) :=
  match a with
  | .write c _ => inferInstanceAs (Decidable (P c))
  | .preserve _ => inferInstanceAs (Decidable True)
  | .shift _ => inferInstanceAs (Decidable True)
  | .markFirst marker => inferInstanceAs (Decidable (P marker))
  | .insertAfter marker insert => inferInstanceAs (Decidable (P marker ∧ P insert))

instance (P : Cell → Prop) [DecidablePred P] (w : Writing) : Decidable (w.Over P) :=
  match w with
  | .put c => inferInstanceAs (Decidable (P c))
  | .keep => inferInstanceAs (Decidable True)

instance (P : Cell → Prop) [DecidablePred P] (p : Pattern) : Decidable (p.Over P) :=
  match p with
  | .cell c => inferInstanceAs (Decidable (P c))
  | .oneOf cells => inferInstanceAs (Decidable (∀ c ∈ cells, P c))
  | .any => inferInstanceAs (Decidable True)

instance (P : Cell → Prop) [DecidablePred P] (x : Directive) : Decidable (x.Over P) :=
  match x with
  | .transition _ read w _ _ => inferInstanceAs (Decidable (read.Over P ∧ w.Over P))
  | .gadget _ read x _ => inferInstanceAs (Decidable (read.Over P ∧ x.action.Over P))

variable {P : Cell → Prop}

theorem Pattern.over_any : Pattern.any.Over P := trivial

theorem Pattern.over_cell {c : Cell} (hc : P c) : (Pattern.cell c).Over P := hc

theorem Outcome.over_single {a : Action} {next : String} :
    (Outcome.single a next).Over P ↔ a.Over P := by
  simp [Outcome.Over, Outcome.single]

theorem Writing.Over.onto {w : Writing} (hw : w.Over P) {c : Cell} (hc : P c) : P (w.onto c) := by
  cases w with
  | put c' => exact hw
  | keep => exact hc

theorem Writing.Over.action {w : Writing} (hw : w.Over P) (m : Move) : (w.action m).Over P := by
  cases w with
  | put c => exact hw
  | keep => trivial

theorem Writing.over_keep : Writing.keep.Over P := trivial

theorem Writing.over_put {c : Cell} (hc : P c) : (Writing.put c).Over P := hc

theorem Pattern.Over.of_matches {p : Pattern} (h : p.Over P) {c : Cell} (hc : p.Matches c)
    (hany : p = .any → P c) : P c := by
  cases p with
  | cell c' =>
    obtain rfl : c = c' := hc
    exact h
  | oneOf cells => exact h c hc
  | any => exact hany rfl

theorem Pattern.Over.of_mem_cells {p : Pattern} (h : p.Over P) {c : Cell} (hc : c ∈ p.cells []) :
    P c := by
  cases p with
  | cell c' =>
    rw [List.mem_singleton.mp hc]
    exact h
  | oneOf cells => exact h c hc
  | any => cases hc

theorem Pattern.Over.mono {p : Pattern} (h : p.Over P) {Q : Cell → Prop} (hPQ : ∀ c, P c → Q c) :
    p.Over Q := by
  cases p with
  | cell c => exact hPQ c h
  | oneOf cells => exact fun c hc => hPQ c (h c hc)
  | any => trivial

theorem Writing.Over.mono {w : Writing} (h : w.Over P) {Q : Cell → Prop} (hPQ : ∀ c, P c → Q c) :
    w.Over Q := by
  cases w with
  | put c => exact hPQ c h
  | keep => trivial

theorem Action.Over.mono {a : Action} (h : a.Over P) {Q : Cell → Prop} (hPQ : ∀ c, P c → Q c) :
    a.Over Q := by
  cases a with
  | write c m => exact hPQ c h
  | preserve m => trivial
  | shift m => trivial
  | markFirst marker => exact hPQ marker h
  | insertAfter marker insert => exact ⟨hPQ marker h.1, hPQ insert h.2⟩

theorem Directive.Over.mono {x : Directive} (h : x.Over P) {Q : Cell → Prop}
    (hPQ : ∀ c, P c → Q c) : x.Over Q := by
  cases x with
  | transition origin read w m next => exact ⟨h.1.mono hPQ, h.2.mono hPQ⟩
  | gadget origin read g next => exact ⟨h.1.mono hPQ, h.2.mono hPQ⟩

namespace Build

theorem addState_over (name : String) : Maintains (Draft.Over P) (addState name) := by
  apply Maintains.modify
  intro d hd
  refine ⟨hd.symbols, ?_⟩
  intro s c o hc ho
  rw [StateTables.lookup_eq, StateTables.table_ensure, ← StateTables.lookup_eq] at ho
  exact hd.rules s c o hc ho

theorem addRule_over {state : String} {add : Alphabet → RuleTable → Except RuleError RuleTable}
    (hadd : ∀ a t t', add a t = .ok t' →
      ∀ c o, t'.lookup c = some o → t.lookup c = some o ∨ o.Over P) :
    Maintains (Draft.Over P) (addRule state add) := by
  intro d hd
  unfold after
  rw [addRule_apply]
  cases ht : add d.alphabet (d.states.table state) with
  | error e =>
    refine ⟨hd.symbols, ?_⟩
    intro s c o hc ho
    rw [StateTables.lookup_eq, StateTables.table_ensure, ← StateTables.lookup_eq] at ho
    exact hd.rules s c o hc ho
  | ok t =>
    refine ⟨hd.symbols, ?_⟩
    intro s c o hc ho
    have hcontains : (d.states.ensure state).contains state := by
      simp [StateTables.contains_ensure]
    rw [StateTables.lookup_eq, StateTables.table_set _ _ _ _ hcontains] at ho
    split at ho
    . rcases hadd _ _ _ ht c o ho with ho | ho
      . rw [← StateTables.lookup_eq] at ho
        exact hd.rules state c o hc ho
      . exact ho
    . rw [StateTables.table_ensure, ← StateTables.lookup_eq] at ho
      exact hd.rules s c o hc ho

theorem addExact_over {state : String} {c : Cell} {o : Outcome} (ho : o.Over P) :
    Maintains (Draft.Over P) (addRule state (RuleTable.addExact c o)) := by
  apply addRule_over
  intro a t t' ht x o' ho'
  rw [(RuleTable.addExact_eq_ok ht).2.2] at ho'
  split at ho'
  . cases ho'
    exact .inr ho
  . exact .inl ho'

theorem addGroup_over {state : String} {group : RuleGroup} (ho : group.outcome.Over P) :
    Maintains (Draft.Over P) (addRule state (RuleTable.addGroup group)) := by
  apply addRule_over
  intro a t t' ht x o' ho'
  rw [(RuleTable.addGroup_eq_ok ht).2] at ho'
  split at ho'
  . cases ho'
    exact .inr ho
  . exact .inl ho'

theorem addWildcard_over {state : String} {o : Outcome} (ho : o.Over P) :
    Maintains (Draft.Over P) (addRule state fun _ => RuleTable.addWildcard o) := by
  apply addRule_over
  intro a t t' ht x o' ho'
  rw [RuleTable.addWildcard_eq_ok ht, Option.or_eq_some_iff] at ho'
  rcases ho' with ho' | ⟨_, ho'⟩
  . exact .inl ho'
  . cases ho'
    exact .inr ho

theorem addRules_over {state : String} {cells : List Cell} {grouped : Bool} {shared : Outcome}
    {each : Cell → Outcome} {source : Option JointPattern} (hshared : shared.Over P)
    (heach : ∀ c ∈ cells, (each c).Over P) :
    Maintains (Draft.Over P) (addRules state cells grouped shared each source) := by
  unfold addRules
  split
  . split
    . exact addState_over state
    . exact addGroup_over hshared
  . apply Maintains.forM
    intro c hc
    exact addExact_over (heach c hc)

theorem chain_over (key : ChainKey) (parts : List String) :
    Maintains (Draft.Over P) (chain key parts) := by
  intro d hd
  unfold after
  rw [chain_apply]
  cases d.chains.find? (·.1 = key) with
  | some e => exact hd
  | none => exact ⟨hd.symbols, hd.rules⟩

theorem directForCells_over {origin next : String} {cells : List Cell} {w : Writing} {m : Move}
    (hcells : ∀ c ∈ cells, P c) (hw : w.Over P) :
    Maintains (Draft.Over P) (directForCells origin cells w m next) := by
  apply Maintains.get_bind
  intro d hd
  apply addRules_over
  . exact Outcome.over_single.mpr (hw.action m)
  . intro c hc
    exact Outcome.over_single.mpr (hw.onto (hcells c hc))

theorem direct_over {origin next : String} {read : Pattern} {w : Writing} {m : Move}
    (hread : read.Over P) (hw : w.Over P) :
    Maintains (Draft.Over P) (direct origin read w m next) := by
  unfold direct
  cases read with
  | cell c =>
    apply addExact_over
    exact Outcome.over_single.mpr (hw.onto hread)
  | oneOf cells => exact directForCells_over hread hw
  | any =>
    apply Maintains.enabled_bind
    intro d hd
    split
    . exact addWildcard_over (Outcome.over_single.mpr (hw.action m))
    . apply Maintains.get_bind
      intro d hd
      apply directForCells_over _ hw
      intro c hc
      exact hd.symbols c (Draft.mem_uncovered.mp hc).1

theorem transition_go_over (n : Nat) {origin next : String} {read : Pattern} {w : Writing}
    {m : Move} (hread : read.Over P) (hw : w.Over P) :
    Maintains (Draft.Over P) (transition.go n origin read w m next) := by
  induction n generalizing origin read w m with
  | zero => exact direct_over hread hw
  | succ n ih =>
    apply Maintains.get_bind
    intro d hd
    split
    . exact direct_over hread hw
    . apply Maintains.bind (chain_over _ _)
      rintro ⟨state, isNew⟩
      dsimp only
      split
      . apply Maintains.bind (ih Pattern.over_any Writing.over_keep)
        intro _
        exact direct_over hread hw
      . exact direct_over hread hw

theorem transition_over {origin next : String} {read : Pattern} {w : Writing} {m : Move}
    (hread : read.Over P) (hw : w.Over P) :
    Maintains (Draft.Over P) (transition origin read w m next) :=
  transition_go_over _ hread hw

theorem addAction_over {origin next : String} {read : Pattern} {a : Action} (ha : a.Over P) :
    Maintains (Draft.Over P) (addAction origin read a next) := by
  have ho : (Outcome.single a next).Over P := Outcome.over_single.mpr ha
  unfold addAction
  apply Maintains.enabled_bind
  intro d hd
  cases read with
  | cell c => exact addExact_over ho
  | oneOf cells => exact addRules_over ho fun _ _ => ho
  | any =>
    apply Maintains.enabled_bind
    intro d' hd'
    split
    . exact addWildcard_over ho
    . apply Maintains.get_bind
      intro d'' hd''
      exact addRules_over ho fun _ _ => ho

theorem shiftChain_over {origin next : String} {read : Pattern} {m : Move} (hread : read.Over P)
    (hblank : P .blank) : Maintains (Draft.Over P) (shiftChain origin read m next) := by
  apply Maintains.get_bind
  intro d hd
  apply Maintains.forM
  intro symbol hsymbol
  have hsymbol' : P symbol := by
    cases read with
    | cell c =>
      rw [List.mem_singleton.mp hsymbol]
      exact hread
    | oneOf cells => exact hread symbol hsymbol
    | any => exact hd.symbols symbol (Draft.mem_uncovered.mp hsymbol).1
  have hcarry (paste : String) : Maintains (Draft.Over P)
      (transition origin (.cell symbol) (.put .blank) .right paste) :=
    transition_over hsymbol' (Writing.over_put hblank)
  apply Maintains.bind (chain_over _ _)
  rintro ⟨paste, isNew⟩
  dsimp only
  split
  . apply Maintains.bind (transition_over Pattern.over_any (Writing.over_put hsymbol'))
    intro _
    exact hcarry paste
  . exact hcarry paste

theorem shift_over {origin next : String} {read : Pattern} {m : Move} (hread : read.Over P)
    (hblank : P .blank) : Maintains (Draft.Over P) (shift origin read m next) := by
  apply Maintains.enabled_bind
  intro d hd
  split
  . exact addAction_over trivial
  . exact shiftChain_over hread hblank

theorem seekEnd_over {state next : String} (hblank : P .blank) :
    Maintains (Draft.Over P) (seekEnd state next) := by
  apply Maintains.bind (transition_over (Pattern.over_cell hblank) (Writing.over_put hblank))
  intro _
  exact transition_over Pattern.over_any Writing.over_keep

theorem markFirstChain_over {origin next : String} {read : Pattern} {marker : Cell}
    (hread : read.Over P) (hmarker : P marker) (hblank : P .blank) :
    Maintains (Draft.Over P) (markFirstChain origin read marker next) := by
  apply Maintains.bind (chain_over _ _)
  rintro ⟨base, isNew⟩
  dsimp only
  split
  . apply Maintains.bind (transition_over hread Writing.over_keep)
    intro _
    apply Maintains.bind (seekEnd_over hblank)
    intro _
    apply Maintains.bind (transition_over (Pattern.over_cell hblank) (Writing.over_put hmarker))
    intro _
    exact shift_over Pattern.over_any hblank
  . exact Maintains.pure _

theorem insertAfterChain_over {origin next : String} {read : Pattern} {marker insert : Cell}
    (hread : read.Over P) (hmarker : P marker) (hinsert : P insert) (hblank : P .blank) :
    Maintains (Draft.Over P) (insertAfterChain origin read marker insert next) := by
  apply Maintains.bind (chain_over _ _)
  rintro ⟨base, isNew⟩
  dsimp only
  split
  . apply Maintains.bind (transition_over hread Writing.over_keep)
    intro _
    apply Maintains.bind (seekEnd_over hblank)
    intro _
    apply Maintains.bind (transition_over (Pattern.over_cell hmarker) (Writing.over_put hmarker))
    intro _
    apply Maintains.bind (shift_over Pattern.over_any hblank)
    intro _
    exact transition_over (Pattern.over_cell hblank) (Writing.over_put hinsert)
  . exact Maintains.pure _

theorem gadget_over {origin next : String} {read : Pattern} {x : Gadget} (hread : read.Over P)
    (hx : x.action.Over P) (hblank : P .blank) :
    Maintains (Draft.Over P) (gadget origin read x next) := by
  apply Maintains.enabled_bind
  intro d hd
  split
  . exact addAction_over hx
  . cases x with
    | shift m => exact shiftChain_over hread hblank
    | markFirst marker => exact markFirstChain_over hread hx hblank
    | insertAfter marker insert => exact insertAfterChain_over hread hx.1 hx.2 hblank

theorem directive_over {x : Directive} (hx : x.Over P) (hblank : P .blank) :
    Maintains (Draft.Over P) (directive x) := by
  cases x with
  | transition origin read w m next => exact transition_over hx.1 hx.2
  | gadget origin read g next => exact gadget_over hx.1 hx.2 hblank

end Build

end TuringLowering
