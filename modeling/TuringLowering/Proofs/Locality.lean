import TuringLowering.Proofs.Operation

/-!
This module contains the rules for an operation that is carried out on two drafts. It comes to the same
result on both if all that it looks at is the same in them, and what it adds to a state depends on
nothing but the rules that the state has, the features and the alphabet.
-/

namespace TuringLowering

namespace Build

variable {α β : Type} {R R' : Draft → Draft → Prop}

/-- Two operations go through with the same value or are refused for the same reason. -/
inductive Alike (R : Draft → Draft → Prop) :
    EStateM.Result RequestError Draft α → EStateM.Result RequestError Draft α → Prop where
  | ok {d e : Draft} (a : α) (h : R d e) : Alike R (.ok a d) (.ok a e)
  | error {d e : Draft} (err : RequestError) (h : R d e) : Alike R (.error err d) (.error err e)

theorem Alike.imp {r r' : EStateM.Result RequestError Draft α} (h : Alike R r r')
    (hR : ∀ d e, R d e → R' d e) : Alike R' r r' := by
  cases h with
  | ok a h => exact .ok a (hR _ _ h)
  | error err h => exact .error err (hR _ _ h)

theorem Alike.bind {x x' : Build α} {k k' : α → Build β} {d e : Draft} (h : Alike R (x d) (x' e))
    (hk : ∀ a d' e', x d = .ok a d' → x' e = .ok a e' → R d' e' → Alike R (k a d') (k' a e')) :
    Alike R ((x >>= k) d) ((x' >>= k') e) := by
  generalize hx : x d = r at h
  generalize hx' : x' e = r' at h
  cases h with
  | ok a h =>
    rw [bind_of_ok hx, bind_of_ok hx']
    exact hk a _ _ hx hx' h
  | error err h =>
    rw [bind_of_error hx, bind_of_error hx']
    exact .error err h

theorem Alike.after {x : Build α} {d e : Draft} (h : Alike R (x d) (x e)) :
    R (x.after d) (x.after e) ∧ x.succeeds d = x.succeeds e := by
  unfold Build.after succeeds
  generalize x d = r at h
  generalize x e = r' at h
  cases h with
  | ok a h => exact ⟨h, rfl⟩
  | error err h => exact ⟨h, rfl⟩

/-- From related drafts, the operation comes to the same result and to related drafts. -/
def Coupled (R : Draft → Draft → Prop) (x : Build α) : Prop := ∀ d e, R d e → Alike R (x d) (x e)

namespace Coupled

theorem pure (a : α) : Coupled R (Pure.pure a : Build α) := fun _ _ h => .ok a h

theorem bind {x : Build α} {k : α → Build β} (hx : Coupled R x) (hk : ∀ a, Coupled R (k a)) :
    Coupled R (x >>= k) :=
  fun d e h => (hx d e h).bind fun a d' e' _ _ h' => hk a d' e' h'

theorem get_bind {k : Draft → Build β} (hsame : ∀ d e, R d e → k d = k e)
    (hk : ∀ d e, R d e → Coupled R (k d)) : Coupled R (get >>= k) := by
  intro d e h
  change Alike R (k d d) (k e e)
  rw [← hsame d e h]
  exact hk d e h d e h

theorem enabled_bind {f : Feature} {k : Bool → Build β}
    (hsame : ∀ d e, R d e → d.features = e.features) (hk : ∀ b, Coupled R (k b)) :
    Coupled R (enabled f >>= k) := by
  intro d e h
  change Alike R (k _ d) (k _ e)
  rw [← hsame d e h]
  exact hk _ d e h

theorem modify {f : Draft → Draft} (h : ∀ d e, R d e → R (f d) (f e)) :
    Coupled R (modify f : Build Unit) := fun d e hR => .ok () (h d e hR)

theorem forM {xs : List α} {k : α → Build Unit} (hk : ∀ x ∈ xs, Coupled R (k x)) :
    Coupled R (xs.forM k) := by
  induction xs with
  | nil => exact pure ()
  | cons x xs ih =>
    rw [List.forall_mem_cons] at hk
    exact bind hk.1 fun _ => ih hk.2

end Coupled

end Build

namespace Draft

/-- From two drafts, others were made by rules for one state only, and these are the same in both. -/
structure Copies (name : String) (d₀ e₀ d e : Draft) : Prop where
  features : d₀.features = e₀.features
  alphabet : d₀.alphabet = e₀.alphabet
  left : d = { d₀ with states := d.states }
  right : e = { e₀ with states := e.states }
  leftOther : ∀ s, s ≠ name → d.states.find? s = d₀.states.find? s
  rightOther : ∀ s, s ≠ name → e.states.find? s = e₀.states.find? s
  same : d.states.find? name = e.states.find? name

namespace Copies

variable {name : String} {d₀ e₀ d e : Draft}

theorem refl (hfeatures : d.features = e.features) (halphabet : d.alphabet = e.alphabet)
    (hsame : d.states.find? name = e.states.find? name) : Copies name d e d e :=
  ⟨hfeatures, halphabet, rfl, rfl, fun _ _ => rfl, fun _ _ => rfl, hsame⟩

theorem features_eq (h : Copies name d₀ e₀ d e) : d.features = e.features := by
  rw [h.left, h.right]
  exact h.features

theorem alphabet_eq (h : Copies name d₀ e₀ d e) : d.alphabet = e.alphabet := by
  rw [h.left, h.right]
  exact h.alphabet

theorem table_eq (h : Copies name d₀ e₀ d e) : d.states.table name = e.states.table name := by
  rw [StateTables.table, StateTables.table, h.same]

theorem uncovered_eq (h : Copies name d₀ e₀ d e) : d.uncovered name = e.uncovered name := by
  rw [uncovered, uncovered, h.same, h.alphabet_eq]

theorem ensure (h : Copies name d₀ e₀ d e) :
    Copies name d₀ e₀ { d with states := d.states.ensure name }
      { e with states := e.states.ensure name } := by
  refine ⟨h.features, h.alphabet, ?_, ?_, ?_, ?_, ?_⟩
  . rw [h.left]
  . rw [h.right]
  . intro s hs
    dsimp only
    rw [StateTables.find?_ensure, if_neg hs, h.leftOther s hs]
  . intro s hs
    dsimp only
    rw [StateTables.find?_ensure, if_neg hs, h.rightOther s hs]
  . dsimp only
    rw [StateTables.find?_ensure, StateTables.find?_ensure, if_pos rfl, if_pos rfl, h.table_eq]

theorem set (h : Copies name d₀ e₀ d e) (t : RuleTable) :
    Copies name d₀ e₀ { d with states := (d.states.ensure name).set name t }
      { e with states := (e.states.ensure name).set name t } := by
  have hensure := h.ensure
  refine ⟨h.features, h.alphabet, ?_, ?_, ?_, ?_, ?_⟩
  . rw [h.left]
  . rw [h.right]
  . intro s hs
    dsimp only
    rw [StateTables.find?_set, if_neg hs]
    exact hensure.leftOther s hs
  . intro s hs
    dsimp only
    rw [StateTables.find?_set, if_neg hs]
    exact hensure.rightOther s hs
  . have hsame := hensure.same
    dsimp only at hsame ⊢
    rw [StateTables.find?_set, StateTables.find?_set, if_pos rfl, if_pos rfl, hsame]

end Copies

end Draft

namespace Build

variable {d₀ e₀ : Draft} {name : String}

theorem addState_coupled : Coupled (Draft.Copies name d₀ e₀) (addState name) :=
  .modify fun _ _ h => h.ensure

theorem addRule_coupled (add : Alphabet → RuleTable → Except RuleError RuleTable) :
    Coupled (Draft.Copies name d₀ e₀) (addRule name add) := by
  intro d e h
  have hadd : add d.alphabet (d.states.table name) = add e.alphabet (e.states.table name) := by
    rw [h.table_eq, h.alphabet_eq]
  rw [addRule_apply, addRule_apply, hadd]
  cases add e.alphabet (e.states.table name) with
  | ok t => exact .ok () (h.set t)
  | error cause => exact .error _ h.ensure

theorem addRules_coupled (cells : List Cell) (grouped : Bool) (shared : Outcome)
    (each : Cell → Outcome) (source : Option JointPattern) :
    Coupled (Draft.Copies name d₀ e₀) (addRules name cells grouped shared each source) := by
  unfold addRules
  split
  . split
    . exact addState_coupled
    . exact addRule_coupled _
  . exact .forM fun c _ => addRule_coupled _

theorem directForCells_coupled (cells : List Cell) (w : Writing) (m : Move) (next : String) :
    Coupled (Draft.Copies name d₀ e₀) (directForCells name cells w m next) := by
  apply Coupled.get_bind
  . intro d e h
    rw [h.features_eq]
  . exact fun _ _ _ => addRules_coupled _ _ _ _ _

theorem direct_coupled (read : Pattern) (w : Writing) (m : Move) (next : String) :
    Coupled (Draft.Copies name d₀ e₀) (direct name read w m next) := by
  unfold direct
  cases read with
  | cell c => exact addRule_coupled _
  | oneOf cells => exact directForCells_coupled cells w m next
  | any =>
    apply Coupled.enabled_bind (fun _ _ h => h.features_eq)
    intro b
    split
    . exact addRule_coupled _
    . apply Coupled.get_bind
      . intro d e h
        rw [h.uncovered_eq]
      . exact fun _ _ _ => directForCells_coupled _ w m next

theorem addAction_coupled (read : Pattern) (action : Action) (next : String) :
    Coupled (Draft.Copies name d₀ e₀) (addAction name read action next) := by
  unfold addAction
  apply Coupled.enabled_bind (fun _ _ h => h.features_eq)
  intro grouped
  cases read with
  | cell c => exact addRule_coupled _
  | oneOf cells => exact addRules_coupled _ _ _ _ _
  | any =>
    apply Coupled.enabled_bind (fun _ _ h => h.features_eq)
    intro b
    split
    . exact addRule_coupled _
    . apply Coupled.get_bind
      . intro d e h
        rw [h.uncovered_eq]
      . exact fun _ _ _ => addRules_coupled _ _ _ _ _

end Build

end TuringLowering
