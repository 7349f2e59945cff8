import TuringLowering.Proofs.JointWidening

/-!
This module contains the proof that guard growth is transparent: requests whose names make the guard
grow on the way lead to the draft that they lead to if the guard has its final size from the beginning.
-/

namespace TuringLowering

section Composition

variable (f f' : String → String)

@[simp]
theorem Mark.mapNames_mapNames (m : Mark) : (m.mapNames f).mapNames f' = m.mapNames (f' ∘ f) := by
  cases m <;> rfl

@[simp]
theorem Mark.mapNames_id : Mark.mapNames id = id := by
  funext m
  cases m <;> rfl

@[simp]
theorem Cell.mapNames_mapNames (c : Cell) : (c.mapNames f).mapNames f' = c.mapNames (f' ∘ f) := by
  induction c with
  | atom m h => simp
  | tuple parts h ih => simpa using ih

@[simp]
theorem Cell.mapNames_id : Cell.mapNames id = id := by
  funext c
  induction c with
  | atom m h => simp
  | tuple parts h ih =>
    rw [mapNames_tuple, List.map_congr_left ih, List.map_id]
    rfl

@[simp]
theorem Action.mapNames_mapNames (a : Action) :
    (a.mapNames f).mapNames f' = a.mapNames (f' ∘ f) := by
  cases a <;> simp [mapNames]

@[simp]
theorem Action.mapNames_id : Action.mapNames id = id := by
  funext a
  cases a <;> simp [mapNames]

@[simp]
theorem Outcome.mapNames_mapNames (o : Outcome) :
    (o.mapNames f).mapNames f' = o.mapNames (f' ∘ f) := by
  simp [mapNames, Function.comp_def]

@[simp]
theorem Outcome.mapNames_id : Outcome.mapNames id = id := by
  funext o
  simp [mapNames]

@[simp]
theorem RuleTable.mapNames_mapNames (t : RuleTable) :
    (t.mapNames f).mapNames f' = t.mapNames (f' ∘ f) := by
  simp [mapNames, Function.comp_def]

@[simp]
theorem RuleTable.mapNames_id : RuleTable.mapNames id = id := by
  funext t
  simp [mapNames]

@[simp]
theorem Draft.mapNames_mapNames (d : Draft) :
    (d.mapNames f).mapNames f' = d.mapNames (f' ∘ f) := by
  simp [mapNames, Alphabet.mapNames, StateTables.mapNames, ChainKey.mapNames, Function.comp_def]

@[simp]
theorem Draft.mapNames_id (d : Draft) : d.mapNames id = d := by
  simp [mapNames, Alphabet.mapNames, StateTables.mapNames, ChainKey.mapNames]

end Composition

namespace Draft

theorem withGuard_guard (d : Draft) : d.withGuard d.guard = d := by
  have hself : d.guard.rename d.guard = id := funext d.guard.rename_self
  rw [withGuard, hself, mapNames_id]

theorem withGuard_withGuard (d : Draft) {g : Guard} (h : d.guard.size ≤ g.size) (k : Guard) :
    (d.withGuard g).withGuard k = d.withGuard k := by
  have hcomp : g.rename k ∘ d.guard.rename g = d.guard.rename k :=
    funext fun name => Guard.rename_rename h k name
  have hnames := mapNames_mapNames (d.guard.rename g) (g.rename k) d
  rw [hcomp] at hnames
  unfold withGuard
  rw [← hnames]
  rfl

abbrev IsPlain (d : Draft) : Prop := d.Plain d.guard

theorem withGuard_plain {d : Draft} (h : d.IsPlain) {g : Guard} : (d.withGuard g).IsPlain := by
  refine ⟨rfl, h.declared, h.heads, ?_⟩
  intro c hc
  obtain ⟨c', hc', rfl⟩ := List.mem_map.mp hc
  rcases h.symbols c' hc' with hclean | ⟨name, rfl⟩
  . rw [Cell.mapNames_of_clean hclean]
    exact .inl hclean
  . exact .inr ⟨_, rfl⟩

theorem avoid_of_free {d : Draft} {name : String} (h : d.guard.Free name) : d.avoid name = d := by
  rw [Guard.free_iff_not_occursIn] at h
  rw [avoid, if_neg (by simp [h])]

/-- Where a name is avoided, the guard is widened or all is as it was. -/
theorem avoid_induction {P : Draft → Prop} {d : Draft} (name : String) (h : P d)
    (hguard : ∀ g : Guard, d.guard.size < g.size → P (d.withGuard g)) : P (d.avoid name) := by
  unfold avoid
  split
  . next hoccurs =>
    simp only [Guard.occursIn, decide_eq_true_eq] at hoccurs
    exact hguard _ (Nat.lt_succ_of_le hoccurs)
  . exact h

theorem size_le_avoid (d : Draft) (name : String) : d.guard.size ≤ (d.avoid name).guard.size :=
  avoid_induction (P := fun e => d.guard.size ≤ e.guard.size) name (Nat.le_refl _) fun _ => Nat.le_of_lt

theorem free_avoid (d : Draft) (name : String) : (d.avoid name).guard.Free name := by
  unfold avoid
  split
  . exact Guard.free_avoiding name
  . next h => exact Guard.free_iff_not_occursIn.mpr (by simpa using h)

theorem size_avoid_le_iff (d : Draft) (name : String) (k : Guard) :
    (d.avoid name).guard.size ≤ k.size ↔ d.guard.size ≤ k.size ∧ k.Free name := by
  constructor
  . intro h
    exact ⟨Nat.le_trans (d.size_le_avoid name) h, (d.free_avoid name).mono h⟩
  . rintro ⟨hle, hfree⟩
    unfold avoid
    split
    . exact hfree
    . exact hle

theorem avoid_plain {d : Draft} (h : d.IsPlain) (name : String) : (d.avoid name).IsPlain :=
  avoid_induction name h fun _ _ => withGuard_plain h

theorem withGuard_avoid (d : Draft) (name : String) (k : Guard) :
    (d.avoid name).withGuard k = d.withGuard k :=
  avoid_induction (P := fun e => e.withGuard k = d.withGuard k) name rfl fun _ hlt =>
    withGuard_withGuard d (Nat.le_of_lt hlt) k

end Draft

def Writing.mentioned : Writing → List Cell
  | .put c => [c]
  | .keep => []

def Gadget.mentioned : Gadget → List Cell
  | .shift _ => []
  | .markFirst marker => [marker]
  | .insertAfter marker insert => [marker, insert]

def Directive.mentioned : Directive → List Cell
  | .transition _ read w _ _ => read.cells [] ++ w.mentioned
  | .gadget _ read x _ => read.cells [] ++ x.mentioned

/-- The cells that a request mentions. -/
def Request.mentioned : Request → List Cell
  | .alphabets input extra => input ++ extra
  | .directive x => x.mentioned
  | .joint t =>
    (t.read.perTape 0).flatMap (Pattern.cells []) ++ t.writes.flatMap Writing.mentioned
  | .features _ | .state _ | .tapes _ _ => []

section Mentioned

theorem Pattern.clean_of_mentioned {p : Pattern} (h : ∀ c ∈ p.cells [], Guard.Clean c.display) :
    Guard.Clean p.display := by
  cases p with
  | cell c => exact h c List.mem_cons_self
  | oneOf cells => exact clean_display_oneOf.mpr h
  | any => decide

theorem Writing.clean_of_mentioned {w : Writing} (h : ∀ c ∈ w.mentioned, Guard.Clean c.display) :
    w.Clean := by
  cases w with
  | put c => exact h c List.mem_cons_self
  | keep => trivial

theorem Gadget.clean_of_mentioned {x : Gadget} (h : ∀ c ∈ x.mentioned, Guard.Clean c.display) :
    x.Clean := by
  cases x with
  | shift m => trivial
  | markFirst marker => exact h marker List.mem_cons_self
  | insertAfter marker insert =>
    exact ⟨h marker List.mem_cons_self, h insert (List.mem_cons_of_mem _ List.mem_cons_self)⟩

theorem JointPattern.clean_of_mentioned {p : JointPattern}
    (h : ∀ c ∈ (p.perTape 0).flatMap (Pattern.cells []), Guard.Clean c.display) : p.Clean := by
  cases p with
  | any =>
    unfold Clean
    decide
  | tapes patterns =>
    rw [Clean, display, Cell.clean_displayJoint, List.forall_mem_map]
    intro q hq
    apply Pattern.clean_of_mentioned
    intro c hc
    exact h c (List.mem_flatMap.mpr ⟨q, hq, hc⟩)

end Mentioned

namespace Build

variable {k : Guard} {names : List String}

/--
An operation that does with a wider guard what it does with the guard of the draft, and that widens
the guard only up to that one. The names are those it relies on to be free of the guard.
-/
structure Transparent.At (k : Guard) (x : Build Unit) (d : Draft) : Prop where
  size_le : d.guard.size ≤ (x.after d).guard.size
  plain : (x.after d).IsPlain
  after_withGuard : (x.after d).guard.size ≤ k.size →
    x.after (d.withGuard k) = (x.after d).withGuard k
  succeeds_withGuard : (x.after d).guard.size ≤ k.size →
    x.succeeds (d.withGuard k) = x.succeeds d

def Transparent (k : Guard) (names : List String) (x : Build Unit) : Prop :=
  ∀ d, d.IsPlain → (∀ name ∈ names, d.guard.Free name) → Transparent.At k x d

theorem after_bind (x y : Build Unit) (d : Draft) :
    (x >>= fun _ => y).after d = if x.succeeds d then y.after (x.after d) else x.after d := by
  unfold after succeeds
  cases h : x d with
  | ok a e => rw [bind_of_ok h, if_pos rfl]
  | error err e => rw [bind_of_error h, if_neg Bool.false_ne_true]

theorem succeeds_bind (x y : Build Unit) (d : Draft) :
    (x >>= fun _ => y).succeeds d = (x.succeeds d && y.succeeds (x.after d)) := by
  unfold succeeds after
  cases h : x d with
  | ok a e => rw [bind_of_ok h, Bool.true_and]
  | error err e => rw [bind_of_error h, Bool.false_and]

namespace Transparent

theorem of_follows {x : Build Unit}
    (h : ∀ g g' : Guard, (∀ name ∈ names, g.Free name) → g.size ≤ g'.size → Follows g g' id x x) :
    Transparent k names x := by
  intro d hd hfree
  have hplain := (h d.guard d.guard hfree (Nat.le_refl _) d hd).2
  have hguard : (x.after d).guard = d.guard := hplain.guard
  have hwide (hle : (x.after d).guard.size ≤ k.size) :
      x (d.withGuard k) = widened d.guard k id (x d) := by
    rw [hguard] at hle
    exact (h d.guard k hfree hle d hd).1
  refine ⟨Nat.le_of_eq (by rw [hguard]), by rwa [← hguard] at hplain, ?_, ?_⟩
  . intro hle
    have hrun := hwide hle
    unfold after
    rw [hrun]
    cases x d <;> rfl
  . intro hle
    have hrun := hwide hle
    unfold succeeds
    rw [hrun]
    cases x d <;> rfl

theorem bind {x y : Build Unit} (hx : Transparent k names x) (hy : Transparent k names y) :
    Transparent k names (x >>= fun _ => y) := by
  intro d hd hfree
  have hatx := hx d hd hfree
  have haty := hy (x.after d) hatx.plain fun name hname =>
    (hfree name hname).mono hatx.size_le
  cases hgo : x.succeeds d with
  | true =>
    have hafter : (x >>= fun _ => y).after d = y.after (x.after d) := by
      rw [after_bind, hgo, if_pos rfl]
    refine ⟨?_, ?_, ?_, ?_⟩
    . rw [hafter]
      exact Nat.le_trans hatx.size_le haty.size_le
    . rw [hafter]
      exact haty.plain
    . intro hle
      rw [hafter] at hle ⊢
      have hle' := Nat.le_trans haty.size_le hle
      rw [after_bind, hatx.succeeds_withGuard hle', hgo, if_pos rfl, hatx.after_withGuard hle']
      exact haty.after_withGuard hle
    . intro hle
      rw [hafter] at hle
      have hle' := Nat.le_trans haty.size_le hle
      rw [succeeds_bind, succeeds_bind, hatx.succeeds_withGuard hle', hatx.after_withGuard hle',
        haty.succeeds_withGuard hle]
  | false =>
    have hafter : (x >>= fun _ => y).after d = x.after d := by
      rw [after_bind, hgo, if_neg (by decide)]
    refine ⟨?_, ?_, ?_, ?_⟩
    . rw [hafter]
      exact hatx.size_le
    . rw [hafter]
      exact hatx.plain
    . intro hle
      rw [hafter] at hle ⊢
      rw [after_bind, hatx.succeeds_withGuard hle, hgo, if_neg (by decide),
        hatx.after_withGuard hle]
    . intro hle
      rw [hafter] at hle
      rw [succeeds_bind, succeeds_bind, hatx.succeeds_withGuard hle, hgo, Bool.false_and,
        Bool.false_and]

theorem avoid_bind {name : String} {y : Build Unit} (hy : Transparent k (name :: names) y) :
    Transparent k names (avoid name >>= fun _ => y) := by
  intro d hd hfree
  have hrun (d : Draft) : (avoid name >>= fun _ => y) d = y (d.avoid name) := rfl
  have hsize := d.size_le_avoid name
  have hat := hy (d.avoid name) (Draft.avoid_plain hd name) (by
    rw [List.forall_mem_cons]
    refine ⟨d.free_avoid name, ?_⟩
    intro other hother
    exact (hfree other hother).mono hsize)
  have hafter (d : Draft) : (avoid name >>= fun _ => y).after d = y.after (d.avoid name) := rfl
  have hsucceeds (d : Draft) :
      (avoid name >>= fun _ => y).succeeds d = y.succeeds (d.avoid name) := rfl
  have hwide (hle : (y.after (d.avoid name)).guard.size ≤ k.size) :
      (d.withGuard k).avoid name = (d.avoid name).withGuard k := by
    rw [Draft.withGuard_avoid]
    apply Draft.avoid_of_free
    exact (d.free_avoid name).mono (Nat.le_trans hat.size_le hle)
  refine ⟨?_, ?_, ?_, ?_⟩
  . rw [hafter]
    exact Nat.le_trans hsize hat.size_le
  . rw [hafter]
    exact hat.plain
  . intro hle
    rw [hafter] at hle ⊢
    rw [hafter, hwide hle]
    exact hat.after_withGuard hle
  . intro hle
    rw [hafter] at hle
    rw [hsucceeds, hsucceeds, hwide hle]
    exact hat.succeeds_withGuard hle

theorem get_bind {y : Draft → Build Unit} (hy : ∀ d, Transparent k names (y d))
    (hsame : ∀ d : Draft, y (d.withGuard k) = y d) :
    Transparent k names (get >>= y) := by
  intro d hd hfree
  have hat := hy d d hd hfree
  have hafter (d : Draft) : (get >>= y : Build Unit).after d = (y d).after d := rfl
  have hsucceeds (d : Draft) : (get >>= y : Build Unit).succeeds d = (y d).succeeds d := rfl
  refine ⟨hat.size_le, hat.plain, ?_, ?_⟩
  . intro hle
    rw [hafter, hafter, hsame]
    exact hat.after_withGuard hle
  . intro hle
    rw [hsucceeds, hsucceeds, hsame]
    exact hat.succeeds_withGuard hle

theorem throw (e : RequestError) : Transparent k names (MonadExcept.throw e) := by
  intro d hd hfree
  exact ⟨Nat.le_refl _, hd, fun _ => rfl, fun _ => rfl⟩

theorem pure : Transparent k names (Pure.pure ()) := by
  intro d hd hfree
  exact ⟨Nat.le_refl _, hd, fun _ => rfl, fun _ => rfl⟩

theorem of_modify {h : Draft → Draft}
    (hh : ∀ g g' d, Draft.Plain g d → h (d.withGuard g') = (h d).withGuard g' ∧ (h d).Plain g) :
    Transparent k names (modify h) := by
  apply of_follows
  intro g g' _ _
  apply Follows.of_modify
  intro d hd
  exact hh g g' d hd

theorem forM {α : Type} {xs : List α} {x : α → Build Unit}
    (hx : ∀ a ∈ xs, Transparent k names (x a)) : Transparent k names (xs.forM x) := by
  induction xs with
  | nil => exact pure
  | cons a xs ih =>
    rw [List.forall_mem_cons] at hx
    exact bind hx.1 (ih hx.2)

end Transparent

theorem checkUnsettled_transparent : Transparent k names checkUnsettled := by
  apply Transparent.get_bind
  . intro d
    split
    . exact Transparent.throw _
    . exact Transparent.pure
  . intro d
    have : (d.withGuard k).isUnsettled = d.isUnsettled := by
      simp [Draft.isUnsettled, Draft.withGuard, Draft.mapNames, StateTables.mapNames]
    rw [this]

theorem clean_declare {input extra : List Cell} (h : ∀ c ∈ input ++ extra, Guard.Clean c.display) :
    ∀ c ∈ (Alphabet.declare input extra).symbols, Guard.Clean c.display := by
  intro c hc
  rcases mem_foldl_addNew.mp hc with hc | hc
  . rcases List.mem_append.mp hc with hc | hc
    . exact h c hc
    . rw [List.mem_singleton.mp hc]
      decide
  . cases hc

theorem declareAlphabets_transparent {input extra : List Cell}
    (h : ∀ c ∈ input ++ extra, Guard.Clean c.display) :
    Transparent k names (declareAlphabets input extra) := by
  apply Transparent.bind checkUnsettled_transparent
  have hcells : ∀ c ∈ (input ++ extra ++ [Cell.blank]).foldl Alphabet.addNew [],
      Guard.Clean c.display := clean_declare h
  apply Transparent.of_modify
  intro g g' d hd
  obtain rfl := hd.guard
  refine ⟨?_, rfl, hcells, ?_, fun c hc => .inl (hcells c hc)⟩
  . simp only [Draft.withGuard, Draft.mapNames, Alphabet.mapNames, Alphabet.declare,
      Cell.map_mapNames_of_clean hcells]
  . intro c hc
    cases hc

theorem enableFeatures_transparent (features : List Feature) :
    Transparent k names (enableFeatures features) := by
  apply Transparent.bind checkUnsettled_transparent
  apply Transparent.forM
  intro f _
  apply Transparent.get_bind
  . intro d
    cases d.features.enable f with
    | ok s =>
      apply Transparent.of_modify
      intro g g' d hd
      exact ⟨rfl, hd.guard, hd.declared, hd.heads, hd.symbols⟩
    | error e => exact Transparent.throw e
  . intro d
    rfl

theorem claimSingleTape_transparent (call : Call) :
    Transparent k names (claimSingleTape call) := by
  apply Transparent.get_bind
  . intro d
    split
    . apply Transparent.of_modify
      intro g g' d hd
      exact ⟨rfl, hd.guard, hd.declared, hd.heads, hd.symbols⟩
    . exact Transparent.pure
    . exact Transparent.throw _
  . intro d
    rfl

theorem userState_transparent (name : String) : Transparent k names (userState name) := by
  apply Transparent.avoid_bind
  apply Transparent.of_follows
  intro g g' hfree hle
  have := addState_follows hle name
  rwa [Guard.rename_of_free (hfree name List.mem_cons_self)] at this

theorem userDirective_transparent {x : Directive}
    (h : ∀ c ∈ x.mentioned, Guard.Clean c.display) :
    Transparent k names (userDirective x) := by
  cases x with
  | transition origin read w m next =>
    simp only [Directive.mentioned, List.forall_mem_append] at h
    apply Transparent.bind (claimSingleTape_transparent _)
    apply Transparent.avoid_bind
    apply Transparent.avoid_bind
    apply Transparent.of_follows
    intro g g' hfree hle
    simp only [List.forall_mem_cons] at hfree
    have := transition_follows hle origin read w m next
    rwa [Guard.rename_of_free hfree.1, Guard.rename_of_free hfree.2.1,
      Pattern.mapNames_of_clean (Pattern.clean_of_mentioned h.1),
      Writing.mapNames_of_clean (Writing.clean_of_mentioned h.2)] at this
  | gadget origin read x next =>
    simp only [Directive.mentioned, List.forall_mem_append] at h
    apply Transparent.bind (claimSingleTape_transparent _)
    apply Transparent.avoid_bind
    apply Transparent.avoid_bind
    apply Transparent.of_follows
    intro g g' hfree hle
    simp only [List.forall_mem_cons] at hfree
    have := gadget_follows hle origin (Pattern.clean_of_mentioned h.1)
      (Gadget.clean_of_mentioned h.2) next
    rwa [Guard.rename_of_free hfree.1, Guard.rename_of_free hfree.2.1] at this

theorem openTapes_transparent (count : Nat) (first : String) :
    Transparent k names (openTapes count first) := by
  apply Transparent.avoid_bind
  apply Transparent.of_follows
  intro g g' hfree hle
  have hfirst : g.rename g' first = first := Guard.rename_of_free (hfree first List.mem_cons_self) g'
  apply Follows.bind
  . apply Follows.of_modify
    intro d hd
    exact ⟨rfl, hd.guard, hd.declared, hd.heads, hd.symbols⟩
  intro _
  apply Follows.enabled_bind
  intro b
  split
  . apply Follows.bind
    . apply Follows.of_modify
      intro d hd
      obtain rfl := hd.guard
      refine ⟨?_, rfl, hd.declared, hd.heads, hd.symbols⟩
      simp only [Draft.withGuard, Draft.mapNames, hfirst]
    intro _
    have := addState_follows hle first
    rwa [hfirst] at this
  . have := simulateTapes_follows hle count first
    rwa [hfirst] at this

theorem setTapes_transparent (count : Nat) (first : String) :
    Transparent k names (setTapes count first) := by
  unfold setTapes
  split
  . exact Transparent.throw _
  . apply Transparent.get_bind
    . intro d
      split
      . exact Transparent.throw _
      . exact Transparent.throw _
      . exact openTapes_transparent count first
    . intro d
      rfl

theorem checkArities_transparent (count : Nat) (t : JointTransition) :
    Transparent k names (checkArities count t) := by
  have hcheck (actual : Nat) (what : PerTape) :
      Transparent k names (checkArity count actual what) := by
    unfold checkArity
    split
    . exact Transparent.pure
    . exact Transparent.throw _
  have hrest : Transparent k names (do
      checkArity count t.writes.length .outputs
      checkArity count t.moves.length .movements) :=
    Transparent.bind (hcheck _ _) (hcheck _ _)
  unfold checkArities
  split
  . exact Transparent.bind (hcheck _ _) hrest
  . exact hrest

theorem userJoint_transparent {t : JointTransition}
    (h : ∀ c ∈ (Request.joint t).mentioned, Guard.Clean c.display) :
    Transparent k names (userJoint t) := by
  simp only [Request.mentioned, List.forall_mem_append] at h
  have hread := JointPattern.clean_of_mentioned h.1
  have hwrites : ∀ w ∈ t.writes, w.Clean := by
    intro w hw
    apply Writing.clean_of_mentioned
    intro c hc
    exact h.2 c (List.mem_flatMap.mpr ⟨w, hw, hc⟩)
  apply Transparent.get_bind
  . intro d
    split
    . apply Transparent.bind (checkArities_transparent _ t)
      apply Transparent.avoid_bind
      apply Transparent.avoid_bind
      apply Transparent.of_follows
      intro g g' hfree hle
      simp only [List.forall_mem_cons] at hfree
      have := jointTransition_go_follows hle ((t.moves.map Move.distance).foldl max 0) t.origin
        hread hwrites t.moves t.next
      rwa [Guard.rename_of_free hfree.1, Guard.rename_of_free hfree.2.1] at this
    . exact Transparent.throw _
  . intro d
    rfl

theorem submit_transparent {r : Request} (h : ∀ c ∈ r.mentioned, Guard.Clean c.display) :
    Transparent k names (submit r) := by
  cases r with
  | alphabets input extra => exact declareAlphabets_transparent h
  | features features => exact enableFeatures_transparent features
  | state name => exact userState_transparent name
  | directive x => exact userDirective_transparent h
  | tapes count first => exact setTapes_transparent count first
  | joint t => exact userJoint_transparent h

end Build

namespace Draft

variable {requests : List Request}
  (h : ∀ r ∈ requests, ∀ c ∈ r.mentioned, Guard.Clean c.display)

include h

theorem receive_plain {d : Draft} (hd : d.IsPlain) : (d.receive requests).IsPlain := by
  induction requests generalizing d with
  | nil => exact hd
  | cons r rs ih =>
    rw [List.forall_mem_cons] at h
    have hat := @Build.submit_transparent d.guard [] r h.1 d hd (by simp)
    exact ih h.2 hat.plain

theorem size_le_receive {d : Draft} (hd : d.IsPlain) :
    d.guard.size ≤ (d.receive requests).guard.size := by
  induction requests generalizing d with
  | nil => exact Nat.le_refl _
  | cons r rs ih =>
    rw [List.forall_mem_cons] at h
    have hat := @Build.submit_transparent d.guard [] r h.1 d hd (by simp)
    exact Nat.le_trans hat.size_le (ih h.2 hat.plain)

/-- Whatever guard the requests end with, or a wider one, can be there from the beginning. -/
theorem receive_withGuard {d : Draft} (hd : d.IsPlain) {k : Guard}
    (hk : (d.receive requests).guard.size ≤ k.size) :
    (d.withGuard k).receive requests = (d.receive requests).withGuard k
      ∧ (d.withGuard k).answers requests = d.answers requests := by
  induction requests generalizing d with
  | nil => exact ⟨rfl, rfl⟩
  | cons r rs ih =>
    rw [List.forall_mem_cons] at h
    have hat := @Build.submit_transparent k [] r h.1 d hd (by simp)
    rw [receive_cons] at hk
    have hle := Nat.le_trans (size_le_receive h.2 hat.plain) hk
    obtain ⟨hreceive, hanswers⟩ := ih h.2 hat.plain hk
    rw [receive_cons, receive_cons, answers, answers, hat.after_withGuard hle,
      hat.succeeds_withGuard hle]
    exact ⟨hreceive, congrArg _ hanswers⟩

end Draft

/--
Requests that mention guard characters in names of states only lead to the same draft, and are
accepted or refused alike, whether the guard grows on the way or has its final size from the
beginning; in the latter case it stays as it is throughout.
-/
theorem guard_growth_transparent (start : String) (requests : List Request)
    (hstart : Guard.Clean start)
    (hcells : ∀ r ∈ requests, ∀ c ∈ r.mentioned, Guard.Clean c.display) :
    let d := (Draft.new start).receive requests
    let fixed := { Draft.new start with guard := d.guard }
    fixed.receive requests = d
      ∧ fixed.answers requests = (Draft.new start).answers requests
      ∧ ∀ n, (fixed.receive (requests.take n)).guard = d.guard := by
  intro d fixed
  have hnew : (Draft.new start).IsPlain := by
    have hblank : ∀ c ∈ (Draft.new start).alphabet.symbols, Guard.Clean c.display := by
      change ∀ c ∈ [Cell.blank], Guard.Clean c.display
      decide
    exact ⟨rfl, hblank, fun c hc => absurd hc List.not_mem_nil, fun c hc => .inl (hblank c hc)⟩
  have hfixed : fixed = (Draft.new start).withGuard d.guard := by
    have hname : Guard.single.rename d.guard start = start := Guard.rename_of_clean hstart _ _
    simp only [fixed, Draft.withGuard, Draft.mapNames, Draft.new, hname]
    rfl
  rw [hfixed]
  refine ⟨?_, ?_, ?_⟩
  . rw [(Draft.receive_withGuard hcells hnew (Nat.le_refl _)).1]
    exact d.withGuard_guard
  . exact (Draft.receive_withGuard hcells hnew (Nat.le_refl _)).2
  . intro n
    have htake : ∀ r ∈ requests.take n, ∀ c ∈ r.mentioned, Guard.Clean c.display :=
      fun r hr => hcells r (List.mem_of_mem_take hr)
    have hdrop : ∀ r ∈ requests.drop n, ∀ c ∈ r.mentioned, Guard.Clean c.display :=
      fun r hr => hcells r (List.mem_of_mem_drop hr)
    have hsplit : d = ((Draft.new start).receive (requests.take n)).receive (requests.drop n) := by
      rw [← Draft.receive_append, List.take_append_drop]
    have hle := Draft.size_le_receive hdrop (Draft.receive_plain htake hnew)
    rw [← hsplit] at hle
    rw [(Draft.receive_withGuard htake hnew hle).1]
    rfl

theorem guard_growth_transparent_twice :
    let requests : List Request :=
      [ .alphabets [.literal "a"] [],
        .directive (.transition "p" .any .keep (.rightBy 2) "qΩ"),
        .directive (.gadget "r" .any (.shift .right) "ΩΩq") ]
    let d := (Draft.new Draft.defaultStart).receive requests
    let fixed := { Draft.new Draft.defaultStart with guard := d.guard }
    Guard.Clean Draft.defaultStart
      ∧ (∀ r ∈ requests, ∀ c ∈ r.mentioned, Guard.Clean c.display)
      ∧ d.guard.size = 3
      ∧ fixed.receive requests = d
      ∧ fixed.answers requests = (Draft.new Draft.defaultStart).answers requests
      ∧ ∀ n, (fixed.receive (requests.take n)).guard = d.guard := by
  intro requests d fixed
  have hstart : Guard.Clean Draft.defaultStart := by decide
  have hcells : ∀ r ∈ requests, ∀ c ∈ r.mentioned, Guard.Clean c.display := by decide
  have hsize : d.guard.size = 3 := by decide +kernel
  exact ⟨hstart, hcells, hsize, guard_growth_transparent _ requests hstart hcells⟩

end TuringLowering
