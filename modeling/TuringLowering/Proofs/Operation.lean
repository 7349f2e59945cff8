import TuringLowering.Draft.Request
import TuringLowering.Proofs.Tables

/-!
This module contains the rules for reasoning about operations on drafts. An operation ends with a
draft whether it is refused or not, so that an invariant has to hold in both cases.
-/

namespace TuringLowering

theorem FeatureSet.nodup_toList (s : FeatureSet) : s.toList.Nodup :=
  (by decide : Feature.all.Nodup).filter _

namespace Build

variable {α β : Type}

/-- The draft that an operation ends with, refused or not. -/
def after (x : Build α) (d : Draft) : Draft :=
  match x d with
  | .ok _ d => d
  | .error _ d => d

/-- Whether an operation goes through. -/
def succeeds (x : Build α) (d : Draft) : Bool :=
  match x d with
  | .ok _ _ => true
  | .error _ _ => false

theorem eq_ok_of_succeeds {x : Build Unit} {d : Draft} (h : x.succeeds d = true) :
    x d = .ok () (x.after d) := by
  unfold succeeds at h
  unfold after
  cases hx : x d with
  | ok a d' => rfl
  | error e d' =>
    rw [hx] at h
    cases h

def Maintains (I : Draft → Prop) (x : Build α) : Prop := ∀ d, I d → I (x.after d)

theorem bind_of_ok {x : Build α} {d d' : Draft} {a : α} (h : x d = .ok a d') (f : α → Build β) :
    (x >>= f) d = f a d' := by
  simp only [bind, EStateM.bind, h]

theorem bind_of_error {x : Build α} {d d' : Draft} {e : RequestError} (h : x d = .error e d')
    (f : α → Build β) : (x >>= f) d = .error e d' := by
  simp only [bind, EStateM.bind, h]

theorem bind_eq_ok {x : Build α} {f : α → Build β} {d d'' : Draft} {b : β} :
    (x >>= f) d = .ok b d'' ↔ ∃ a d', x d = .ok a d' ∧ f a d' = .ok b d'' := by
  constructor
  . intro h
    cases hx : x d with
    | ok a d' => exact ⟨a, d', rfl, by rw [← h, bind_of_ok hx]⟩
    | error e d' => rw [bind_of_error hx] at h; cases h
  . rintro ⟨a, d', hx, h⟩
    rw [bind_of_ok hx, h]

theorem get_apply (d : Draft) : (get : Build Draft) d = .ok d d := rfl

theorem modify_apply (f : Draft → Draft) (d : Draft) : (modify f : Build Unit) d = .ok () (f d) := rfl

theorem addState_apply (name : String) (d : Draft) :
    addState name d = .ok () { d with states := d.states.ensure name } := rfl

theorem enabled_apply (f : Feature) (d : Draft) : enabled f d = .ok (d.features.enabled f) d := rfl

theorem forM_cons_eq_ok {x : α} {xs : List α} {f : α → Build Unit} {d d'' : Draft} :
    (x :: xs).forM f d = .ok () d'' ↔ ∃ d', f x d = .ok () d' ∧ xs.forM f d' = .ok () d'' := by
  rw [List.forM_eq_forM, List.forM_cons, bind_eq_ok]
  constructor
  . rintro ⟨_, d', hx, hxs⟩
    exact ⟨d', hx, hxs⟩
  . rintro ⟨d', hx, hxs⟩
    exact ⟨(), d', hx, hxs⟩

/-- What a loop establishes item by item, if each of its steps goes through. -/
theorem forM_induction {items : List α} {f : α → Build Unit} {I : List α → Draft → Prop}
    (hstep : ∀ done a rest d d', items = done ++ a :: rest → I done d → f a d = .ok () d' →
      I (done ++ [a]) d')
    {d d' : Draft} (h : I [] d) (hok : items.forM f d = .ok () d') : I items d' := by
  have hrest : ∀ rest done d, items = done ++ rest → I done d → rest.forM f d = .ok () d' →
      I items d' := by
    intro rest
    induction rest with
    | nil =>
      intro done d hitems h hok
      cases hok
      rwa [hitems, List.append_nil]
    | cons a rest ih =>
      intro done d hitems h hok
      obtain ⟨d₁, ha, hok⟩ := forM_cons_eq_ok.mp hok
      exact ih (done ++ [a]) d₁ (by rw [hitems, List.append_assoc]; rfl)
        (hstep done a rest d d₁ hitems h ha) hok
  exact hrest items [] d rfl h hok

/-- A loop goes through if each of its steps does, and then it establishes what they establish. -/
theorem exists_forM {items : List α} {f : α → Build Unit} {I : List α → Draft → Prop}
    (hstep : ∀ done a rest d, items = done ++ a :: rest → I done d →
      ∃ d', f a d = .ok () d' ∧ I (done ++ [a]) d')
    {d : Draft} (h : I [] d) : ∃ d', items.forM f d = .ok () d' ∧ I items d' := by
  have hrest : ∀ rest done d, items = done ++ rest → I done d →
      ∃ d', rest.forM f d = .ok () d' ∧ I items d' := by
    intro rest
    induction rest with
    | nil =>
      intro done d hitems h
      exact ⟨d, rfl, by rwa [hitems, List.append_nil]⟩
    | cons a rest ih =>
      intro done d hitems h
      obtain ⟨d₁, ha, h₁⟩ := hstep done a rest d hitems h
      obtain ⟨d', hok, h'⟩ := ih (done ++ [a]) d₁ (by rw [hitems, List.append_assoc]; rfl) h₁
      exact ⟨d', forM_cons_eq_ok.mpr ⟨d₁, ha, hok⟩, h'⟩
  exact hrest items [] d rfl h

theorem claimSingleTape_apply {d : Draft} (call : Call) (h : ∀ n, d.tapes ≠ .multi n) :
    claimSingleTape call d = .ok () { d with tapes := .single } := by
  unfold claimSingleTape
  rw [bind_of_ok (get_apply d)]
  cases htapes : d.tapes with
  | undecided => rfl
  | single =>
    have hsame : d = { d with tapes := .single } := by rw [← htapes]
    exact congrArg (EStateM.Result.ok ()) hsame
  | multi n => exact absurd htapes (h n)

theorem exists_enableFeatures {d : Draft} {features : List Feature} (hd : d.isUnsettled = true)
    (hnodup : features.Nodup) (hnew : ∀ f ∈ features, d.features.has f = false) :
    ∃ s, enableFeatures features d = .ok () { d with features := s }
      ∧ ∀ f, s.has f = true ↔ f ∈ features ∨ d.features.has f = true := by
  have hcheck : checkUnsettled d = .ok () d := by
    unfold checkUnsettled
    rw [bind_of_ok (get_apply d), hd]
    rfl
  rw [enableFeatures, bind_of_ok hcheck]
  clear hd hcheck
  induction features generalizing d with
  | nil => exact ⟨d.features, rfl, by simp⟩
  | cons f features ih =>
    rw [List.nodup_cons] at hnodup
    rw [List.forall_mem_cons] at hnew
    have henable : d.features.enable f = .ok (d.features.insert f) := by
      rw [FeatureSet.enable, hnew.1, if_neg Bool.false_ne_true]
    obtain ⟨s, hs, hhas⟩ := @ih { d with features := d.features.insert f } hnodup.2 (by
      intro f' hf'
      rw [FeatureSet.has_insert, hnew.2 f' hf', Bool.or_false, beq_eq_false_iff_ne]
      rintro rfl
      exact hnodup.1 hf')
    refine ⟨s, forM_cons_eq_ok.mpr ⟨{ d with features := d.features.insert f }, ?_, hs⟩, fun f' => ?_⟩
    . rw [bind_of_ok (get_apply d), henable]
      rfl
    . rw [hhas, FeatureSet.has_insert, Bool.or_eq_true, beq_iff_eq, List.mem_cons, or_left_comm,
        or_assoc]

theorem addRule_apply (state : String)
    (add : Alphabet → RuleTable → Except RuleError RuleTable) (d : Draft) :
    addRule state add d
      =
    match add d.alphabet (d.states.table state) with
    | .ok t => .ok () { d with states := (d.states.ensure state).set state t }
    | .error cause => .error (.rule state cause) { d with states := d.states.ensure state } := by
  have h : ((d.states.ensure state).find? state).getD .empty = d.states.table state :=
    d.states.table_ensure state state
  rw [addRule, bind_of_ok (addState_apply state d), bind_of_ok (get_apply _)]
  dsimp only
  rw [h]
  cases add d.alphabet (d.states.table state) <;> rfl

theorem chain_apply (key : ChainKey) (parts : List String) (d : Draft) :
    chain key parts d
      =
    match d.chains.find? (·.1 = key) with
    | some (_, name) => .ok (name, false) d
    | none =>
      .ok (d.guard.wrap parts, true)
        { d with chains := d.chains ++ [(key, d.guard.wrap parts)] } := by
  rw [chain, bind_of_ok (get_apply d)]
  cases d.chains.find? (·.1 = key) <;> rfl

namespace Maintains

variable {I : Draft → Prop}

theorem pure (a : α) : Maintains I (Pure.pure a : Build α) := by
  intro d hd
  exact hd

theorem of_ok {x : Build α} {d d' : Draft} {a : α} (h : Maintains I x) (hd : I d)
    (hx : x d = .ok a d') : I d' := by
  have := h d hd
  rwa [after, hx] at this

theorem of_error {x : Build α} {d d' : Draft} {err : RequestError} (h : Maintains I x) (hd : I d)
    (hx : x d = .error err d') : I d' := by
  have := h d hd
  rwa [after, hx] at this

theorem throw (e : RequestError) : Maintains I (MonadExcept.throw e : Build α) := by
  intro d hd
  exact hd

theorem modify {g : Draft → Draft} (h : ∀ d, I d → I (g d)) :
    Maintains I (modify g : Build Unit) := h

theorem bind {x : Build α} {f : α → Build β} (hx : Maintains I x)
    (hf : ∀ a, Maintains I (f a)) : Maintains I (x >>= f) := by
  intro d hd
  have hxd := hx d hd
  unfold after at hxd ⊢
  cases h : x d with
  | ok a d' =>
    rw [h] at hxd
    rw [bind_of_ok h]
    exact hf a d' hxd
  | error e d' =>
    rw [h] at hxd
    rw [bind_of_error h]
    exact hxd

theorem get_bind {f : Draft → Build β} (hf : ∀ d, I d → Maintains I (f d)) :
    Maintains I (get >>= f) := by
  intro d hd
  exact hf d hd d hd

theorem enabled_bind {f : Feature} {k : Bool → Build β}
    (hk : ∀ d, I d → Maintains I (k (d.features.enabled f))) :
    Maintains I (enabled f >>= k) := by
  intro d hd
  exact hk d hd d hd

theorem hasState_bind {name : String} {k : Bool → Build β} (hk : ∀ b, Maintains I (k b)) :
    Maintains I (hasState name >>= k) := by
  intro d hd
  exact hk _ d hd

theorem hasRule_bind {state : String} {c : Cell} {k : Bool → Build β}
    (hk : ∀ b, Maintains I (k b)) : Maintains I (hasRule state c >>= k) := by
  intro d hd
  exact hk _ d hd

theorem forM {xs : List α} {f : α → Build Unit} (hf : ∀ x ∈ xs, Maintains I (f x)) :
    Maintains I (xs.forM f) := by
  induction xs with
  | nil => exact pure ()
  | cons x xs ih =>
    apply bind
    . exact hf x List.mem_cons_self
    . intro _
      apply ih
      intro y hy
      exact hf y (List.mem_cons_of_mem x hy)

end Maintains

theorem forM_enable_maintains {I : Draft → Prop} (h : ∀ d s, I d → I { d with features := s })
    (features : List Feature) : Maintains I (features.forM fun f => do
      let s ← ofExcept ((← get).features.enable f)
      modify fun d => { d with features := s }) := by
  apply Maintains.forM
  intro f _
  apply Maintains.get_bind
  intro d _
  apply Maintains.bind
  . cases d.features.enable f with
    | ok s => exact Maintains.pure s
    | error e => exact Maintains.throw e
  . exact fun s => Maintains.modify fun d hd => h d s hd

end Build

namespace Draft

theorem tapes_avoid (d : Draft) (name : String) : (d.avoid name).tapes = d.tapes := by
  unfold avoid
  split <;> rfl

theorem mem_uncovered {d : Draft} {origin : String} {c : Cell} :
    c ∈ d.uncovered origin ↔ c ∈ d.alphabet.symbols ∧ d.states.lookup origin c = none := by
  unfold uncovered StateTables.lookup
  cases d.states.find? origin with
  | none => simp
  | some t => simp [RuleTable.uncovered]

/-- The draft after requests were submitted one by one, those that were refused included. -/
def receive (d : Draft) (requests : List Request) : Draft :=
  requests.foldl (fun d r => (Build.submit r).after d) d

/-- Which of the requests that are submitted one by one go through. -/
def answers (d : Draft) : List Request → List Bool
  | [] => []
  | r :: rs => (Build.submit r).succeeds d :: ((Build.submit r).after d).answers rs

@[simp]
theorem receive_nil (d : Draft) : d.receive [] = d := rfl

@[simp]
theorem receive_cons (d : Draft) (r : Request) (rs : List Request) :
    d.receive (r :: rs) = ((Build.submit r).after d).receive rs := rfl

theorem receive_append (d : Draft) (rs rs' : List Request) :
    d.receive (rs ++ rs') = (d.receive rs).receive rs' := List.foldl_append

theorem receive_of_submitAll {requests : List Request} {d e : Draft}
    (h : Build.submitAll requests d = .ok () e) : d.receive requests = e := by
  induction requests generalizing d with
  | nil =>
    cases h
    rfl
  | cons r rs ih =>
    obtain ⟨_, d', hr, hrest⟩ := Build.bind_eq_ok.mp h
    rw [receive_cons, Build.after, hr]
    exact ih hrest

theorem receive_induction {I : Draft → Prop} (h : ∀ r, Build.Maintains I (Build.submit r))
    {d : Draft} (hd : I d) (requests : List Request) : I (d.receive requests) := by
  induction requests generalizing d with
  | nil => exact hd
  | cons r rs ih => exact ih (h r d hd)

end Draft

end TuringLowering
