import TuringLowering.Proofs.Succession

/-!
This module contains the operations that all requests are made of. What each of them keeps is kept by every
request, whether it is accepted or refused halfway, and so it holds of every draft that requests lead to.
-/

namespace TuringLowering.Build

/--
What is kept by all that requests are made of. A group is added only if it lists a symbol, and alphabets
are declared only as long as there are no states.
-/
structure Endures (I : Draft → Prop) : Prop where
  avoid : ∀ d name, I d → I (d.avoid name)
  addState : ∀ s, Maintains I (addState s)
  addExact : ∀ s c o, Maintains I (addRule s (RuleTable.addExact c o))
  addGroup : ∀ s group, group.cells ≠ [] → Maintains I (addRule s (RuleTable.addGroup group))
  addWildcard : ∀ s o, Maintains I (addRule s fun _ => RuleTable.addWildcard o)
  chain : ∀ key parts, Maintains I (chain key parts)
  addSymbol : ∀ name, Maintains I (addSymbol (.state name))
  withSegments : ∀ d, I d → I { d with alphabet := d.alphabet.withSegments }
  declare : ∀ d input extra, d.isUnsettled = true → I d →
    I { d with alphabet := .declare input extra }
  settings : ∀ d start features tapes, I d →
    I { d with start := start, features := features, tapes := tapes }

theorem Maintains.and {α : Type} {I J : Draft → Prop} {x : Build α} (hI : Maintains I x)
    (hJ : Maintains J x) : Maintains (fun d => I d ∧ J d) x :=
  fun d hd => ⟨hI d hd.1, hJ d hd.2⟩

namespace Endures

variable {I : Draft → Prop} (h : Endures I)
include h

theorem addRules (s : String) (cells : List Cell) (grouped : Bool) (shared : Outcome)
    (each : Cell → Outcome) (source : Option JointPattern) :
    Maintains I (addRules s cells grouped shared each source) := by
  unfold Build.addRules
  split
  . split
    . exact h.addState s
    . next hcells => exact h.addGroup s _ (by simpa using hcells)
  . exact Maintains.forM fun c _ => h.addExact s c _

theorem direct (s : String) (read : Pattern) (w : Writing) (m : Move) (next : String) :
    Maintains I (direct s read w m next) := by
  unfold Build.direct
  cases read with
  | cell c => exact h.addExact s c _
  | oneOf cells => exact Maintains.get_bind fun _ _ => h.addRules s cells _ _ _ _
  | any =>
    apply Maintains.enabled_bind
    intro d _
    split
    . exact h.addWildcard s _
    . exact Maintains.get_bind fun _ _ => Maintains.get_bind fun _ _ => h.addRules s _ _ _ _ _

theorem addAction (s : String) (read : Pattern) (a : Action) (next : String) :
    Maintains I (addAction s read a next) := by
  apply Maintains.enabled_bind
  intro d _
  cases read with
  | cell c => exact h.addExact s c _
  | oneOf cells => exact h.addRules s cells _ _ _ _
  | any =>
    apply Maintains.enabled_bind
    intro d' _
    split
    . exact h.addWildcard s _
    . exact Maintains.get_bind fun _ _ => h.addRules s _ _ _ _ _

/-- Between two requests the guard stays, so that the names of chains are known. -/
theorem preserves (g : Guard) : Preserves (fun d => d.guard = g ∧ I d) g fun _ => True := by
  have hstates (d : Draft) (states : StateTables) (hd : d.guard = g) :
      { d with states := states }.guard = g := hd
  have hchain (k : ChainKey) (parts : List String) :
      Maintains (fun d => d.guard = g ∧ I d) (Build.chain k parts) := by
    refine Maintains.and ?_ (h.chain k parts)
    intro d hd
    rw [after, chain_apply]
    cases d.chains.find? (·.1 = k) with
    | some _ => exact hd
    | none => exact hd
  have hdirect (s : String) (read : Pattern) (w : Writing) (m : Move) (next : String) :
      Maintains (fun d => d.guard = g ∧ I d) (Build.direct s read w m next) :=
    Maintains.and (direct_maintains hstates s read w m next) (h.direct s read w m next)
  exact
    { guard := fun _ hd => hd.1
      transition := fun s _ read w m next => transition_go_maintains (fun _ hd => hd.1)
        (S := fun _ => True) (fun s _ => hdirect s) (fun m => hchain _ _) (fun _ => trivial) _ trivial read w m
      action := fun s _ read a next =>
        Maintains.and (addAction_maintains hstates s read a next) (h.addAction s read a next)
      chain := fun k _ => hchain k _
      paste := fun _ _ => trivial }

theorem directive (x : Directive) : Maintains I (directive x) := by
  intro d hd
  have hpreserves := h.preserves d.guard
  exact (hpreserves.directive trivial (fun _ _ => ⟨trivial, trivial⟩)
    (fun _ _ _ _ => hpreserves.transition _ trivial _ _ _ _) d ⟨rfl, hd⟩).2

theorem directives (xs : List Directive) : Maintains I (directives xs) :=
  Maintains.forM fun x _ => h.directive x

theorem route (r : Route) : Maintains I (route r) :=
  route_maintains (fun origin next _ _ read w m => h.directive (.transition origin read w m next))
    (h.addSymbol r.origin) (h.directives r.entry)

theorem joint (s : String) (read : JointPattern) (writes : List Writing) (moves : List Move)
    (next : String) : Maintains I (joint s read writes moves next) := by
  apply Maintains.enabled_bind
  intro d _
  split
  . exact h.addWildcard s _
  . unfold jointPerTape
    split
    . exact h.addExact s _ _
    . exact Maintains.get_bind fun _ _ => Maintains.get_bind fun _ _ => h.addRules s _ _ _ _ _

theorem jointTransition (t : JointTransition) : Maintains I (jointTransition t) := by
  refine jointTransition_go_maintains (fun key parts _ => h.chain key parts) (fun t => ?_) _ t
  apply Maintains.enabled_bind
  intro d _
  split
  . exact h.joint _ _ _ _ _
  . exact Maintains.get_bind fun _ _ => Maintains.forM fun r _ => h.route r

theorem simulateTapes (count : Nat) (first : String) : Maintains I (simulateTapes count first) := by
  refine .bind (Maintains.modify h.withSegments) fun _ => ?_
  refine .bind (h.addSymbol first) fun _ => ?_
  refine .bind (Maintains.forM fun v _ => h.addSymbol v.state) fun _ => ?_
  apply Maintains.get_bind
  intro d _
  refine .bind (h.directives _) fun _ => ?_
  exact .bind (h.addState _) fun _ => h.directives _

theorem avoiding (name : String) : Maintains I (Build.avoid name) :=
  Maintains.modify fun d hd => h.avoid d name hd

theorem setTapes (count : Nat) (first : String) : Maintains I (setTapes count first) := by
  have hopen : Maintains I (openTapes count first) := by
    refine .bind (h.avoiding first) fun _ => ?_
    refine .bind (Maintains.modify fun d hd => h.settings d d.start d.features _ hd) fun _ => ?_
    apply Maintains.enabled_bind
    intro d _
    split
    . exact .bind (Maintains.modify fun d hd => h.settings d _ d.features d.tapes hd) fun _ => h.addState first
    . exact h.simulateTapes count first
  unfold Build.setTapes
  split
  . exact Maintains.throw _
  . apply Maintains.get_bind
    intro d _
    split
    . exact Maintains.throw _
    . exact Maintains.throw _
    . exact hopen

theorem claimSingleTape (call : Call) : Maintains I (claimSingleTape call) := by
  apply Maintains.get_bind
  intro d _
  split
  . exact Maintains.modify fun d hd => h.settings d d.start d.features _ hd
  . exact Maintains.pure ()
  . exact Maintains.throw _

theorem userDirective (x : Directive) : Maintains I (userDirective x) := by
  cases x with
  | transition origin read w m next =>
    refine .bind (h.claimSingleTape _) fun _ => ?_
    refine .bind (h.avoiding next) fun _ => ?_
    exact .bind (h.avoiding origin) fun _ => h.directive (.transition origin read w m next)
  | gadget origin read g next =>
    refine .bind (h.claimSingleTape _) fun _ => ?_
    refine .bind (h.avoiding origin) fun _ => ?_
    exact .bind (h.avoiding next) fun _ => h.directive (.gadget origin read g next)

theorem userJoint (t : JointTransition) : Maintains I (userJoint t) := by
  apply Maintains.get_bind
  intro d _
  split
  . apply checkArities_bind
    intro _
    refine .bind (h.avoiding t.origin) fun _ => ?_
    exact .bind (h.avoiding t.next) fun _ => h.jointTransition t
  . exact Maintains.throw _

theorem submit (r : Request) : Maintains I (submit r) := by
  cases r with
  | alphabets input extra =>
    exact checkUnsettled_bind fun d hd hunsettled => h.declare d input extra hunsettled hd
  | features features =>
    apply checkUnsettled_bind
    intro d hd _
    exact forM_enable_maintains (fun d s hd => h.settings d d.start s d.tapes hd) features d hd
  | state name => exact .bind (h.avoiding name) fun _ => h.addState name
  | directive x => exact h.userDirective x
  | tapes count first => exact h.setTapes count first
  | joint t => exact h.userJoint t

/-- What all requests keep holds of a draft after any of them, if it holds of the draft before them. -/
theorem receive {d : Draft} (hd : I d) (requests : List Request) : I (d.receive requests) :=
  Draft.receive_induction h.submit hd requests

end Endures

end TuringLowering.Build
