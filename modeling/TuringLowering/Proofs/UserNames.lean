import TuringLowering.Proofs.Realization

/-!
This module contains what happens to the names that an author chooses. Once a request went through, the
guard does not occur in the names it gave, and a draft can have the guard that it ends with from the
beginning.
-/

namespace TuringLowering

/-- The names of states that a request gives. -/
def Request.names : Request → List String
  | .alphabets _ _ | .features _ => []
  | .state name => [name]
  | .directive x => [x.origin, x.next]
  | .tapes _ first => [first]
  | .joint t => [t.origin, t.next]

def Guard.cover (g : Guard) (names : List String) : Guard :=
  names.foldl (fun g name => if g.occursIn name then .avoiding name else g) g

theorem Guard.cover_append (g : Guard) (names names' : List String) :
    g.cover (names ++ names') = (g.cover names).cover names' := List.foldl_append

namespace Draft

theorem guard_avoid (d : Draft) (name : String) : (d.avoid name).guard = d.guard.cover [name] := by
  unfold avoid
  simp only [Guard.cover, List.foldl_cons, List.foldl_nil]
  split <;> rfl

def avoidBoth (d : Draft) (a b : String) : Draft := (d.avoid a).avoid b

section

variable (d : Draft) (a b : String)

theorem free_avoidBoth : (d.avoidBoth a b).guard.Free a ∧ (d.avoidBoth a b).guard.Free b :=
  ⟨(d.free_avoid a).mono ((d.avoid a).size_le_avoid b), (d.avoid a).free_avoid b⟩

theorem avoidBoth_avoidBoth : (d.avoidBoth a b).avoidBoth a b = d.avoidBoth a b := by
  obtain ⟨ha, hb⟩ := d.free_avoidBoth a b
  rw [avoidBoth, avoid_of_free ha, avoid_of_free hb]

theorem tapes_avoidBoth : (d.avoidBoth a b).tapes = d.tapes := by
  rw [avoidBoth, tapes_avoid, tapes_avoid]

theorem guard_avoidBoth : (d.avoidBoth a b).guard = d.guard.cover [a, b] := by
  rw [avoidBoth, guard_avoid, guard_avoid, ← Guard.cover_append]
  rfl

theorem avoidBoth_plain {d : Draft} (h : d.IsPlain) (a b : String) : (d.avoidBoth a b).IsPlain :=
  avoid_plain (avoid_plain h a) b

end

end Draft

namespace Build

variable {d d' : Draft}

theorem avoid_apply (name : String) (d : Draft) : avoid name d = .ok () (d.avoid name) := rfl

theorem claimSingleTape_of_single (call : Call) (h : d.tapes = .single) :
    claimSingleTape call d = .ok () d := by
  rw [claimSingleTape, bind_of_ok (get_apply d), h]
  rfl

theorem checkArity_eq_ok {expected actual : Nat} {what : PerTape}
    (h : checkArity expected actual what d = .ok () d') : d' = d ∧ actual = expected := by
  unfold checkArity at h
  split at h
  . next heq =>
    cases h
    exact ⟨rfl, heq⟩
  . cases h

theorem checkArities_eq_ok {n : Nat} {t : JointTransition} (h : checkArities n t d = .ok () d') :
    d' = d ∧ (∀ patterns, t.read = .tapes patterns → patterns.length = n) ∧ t.writes.length = n
      ∧ t.moves.length = n := by
  have hrest (h : (checkArity n t.writes.length .outputs >>= fun _ =>
      checkArity n t.moves.length .movements) d = .ok () d') :
      d' = d ∧ t.writes.length = n ∧ t.moves.length = n := by
    rw [bind_eq_ok] at h
    obtain ⟨_, d₁, houtputs, hmovements⟩ := h
    obtain ⟨rfl, hwrites⟩ := checkArity_eq_ok houtputs
    obtain ⟨rfl, hmoves⟩ := checkArity_eq_ok hmovements
    exact ⟨rfl, hwrites, hmoves⟩
  unfold checkArities at h
  cases hread : t.read with
  | any =>
    rw [hread] at h
    obtain ⟨rfl, hlengths⟩ := hrest h
    exact ⟨rfl, nofun, hlengths⟩
  | tapes patterns =>
    rw [hread] at h
    dsimp only at h
    rw [bind_eq_ok] at h
    obtain ⟨_, d₁, htargets, h⟩ := h
    obtain ⟨rfl, hpatterns⟩ := checkArity_eq_ok htargets
    obtain ⟨rfl, hlengths⟩ := hrest h
    refine ⟨rfl, ?_, hlengths⟩
    rintro _ ⟨rfl⟩
    exact hpatterns

theorem checkArities_apply {n : Nat} {t : JointTransition}
    (hread : ∀ patterns, t.read = .tapes patterns → patterns.length = n)
    (hwrites : t.writes.length = n) (hmoves : t.moves.length = n) (d : Draft) :
    checkArities n t d = .ok () d := by
  unfold checkArities checkArity
  rw [if_pos hwrites, if_pos hmoves]
  cases hcase : t.read with
  | any => rfl
  | tapes patterns =>
    dsimp only
    rw [if_pos (hread patterns hcase)]
    rfl

theorem userJoint_eq_ok {t : JointTransition} (h : userJoint t d = .ok () d') :
    ∃ n, d.tapes = .multi n ∧ (∀ patterns, t.read = .tapes patterns → patterns.length = n)
      ∧ t.writes.length = n ∧ t.moves.length = n
      ∧ jointTransition t (d.avoidBoth t.origin t.next) = .ok () d' := by
  rw [userJoint, bind_of_ok (get_apply d)] at h
  cases htapes : d.tapes with
  | undecided =>
    rw [htapes] at h
    cases h
  | single =>
    rw [htapes] at h
    cases h
  | multi n =>
    rw [htapes] at h
    dsimp only at h
    rw [bind_eq_ok] at h
    obtain ⟨_, d₁, harities, h⟩ := h
    obtain ⟨rfl, hread, hwrites, hmoves⟩ := checkArities_eq_ok harities
    exact ⟨n, rfl, hread, hwrites, hmoves, h⟩

theorem setTapes_apply {n : Nat} (hn : 1 < n) (first : String) (h : d.tapes = .undecided) :
    setTapes n first d = openTapes n first d := by
  unfold setTapes
  rw [if_neg (by omega)]
  dsimp only
  rw [bind_of_ok (get_apply d), h]

theorem setTapes_eq_ok {n : Nat} {first : String} (h : setTapes n first d = .ok () d') :
    1 < n ∧ d.tapes = .undecided ∧ openTapes n first d = .ok () d' := by
  unfold setTapes at h
  split at h
  . cases h
  . next hn =>
    dsimp only at h
    rw [bind_of_ok (get_apply d)] at h
    cases htapes : d.tapes with
    | undecided =>
      rw [htapes] at h
      exact ⟨by omega, rfl, h⟩
    | single =>
      rw [htapes] at h
      cases h
    | multi n =>
      rw [htapes] at h
      cases h

theorem guard_of_userJoint {t : JointTransition}
    (hclean : ∀ c ∈ (Request.joint t).mentioned, Guard.Clean c.display) (hd : d.IsPlain)
    (h : userJoint t d = .ok () d') : d'.guard = d.guard.cover [t.origin, t.next] := by
  obtain ⟨n, _, _, _, _, hjoint⟩ := userJoint_eq_ok h
  simp only [Request.mentioned, List.forall_mem_append] at hclean
  have hwrites : ∀ w ∈ t.writes, w.Clean := by
    intro w hw
    apply Writing.clean_of_mentioned
    intro c hc
    exact hclean.2 c (List.mem_flatMap.mpr ⟨w, hw, hc⟩)
  have hfollows := jointTransition_go_follows (Nat.le_refl (d.avoidBoth t.origin t.next).guard.size)
    ((t.moves.map Move.distance).foldl max 0) t.origin (JointPattern.clean_of_mentioned hclean.1)
    hwrites t.moves t.next
  have hplain := (hfollows _ (Draft.avoidBoth_plain hd t.origin t.next)).2
  change (Build.after (jointTransition t) _).Plain _ at hplain
  rw [after, hjoint] at hplain
  rw [hplain.guard, Draft.guard_avoidBoth]

theorem guard_of_openTapes {n : Nat} {first : String} (hd : d.IsPlain)
    (h : openTapes n first d = .ok () d') : d'.guard = d.guard.cover [first] := by
  rw [openTapes, bind_of_ok (avoid_apply _ _)] at h
  have hplain := Draft.avoid_plain hd first
  rw [← d.guard_avoid first]
  generalize d.avoid first = e at h hplain
  rw [bind_eq_ok] at h
  obtain ⟨_, e₁, htapes, h⟩ := h
  cases htapes
  rw [bind_eq_ok] at h
  obtain ⟨b, _, hb, h⟩ := h
  cases hb
  split at h
  . cases h
    rfl
  . have hfollows := (simulateTapes_follows (Nat.le_refl e.guard.size) n first
      { e with tapes := .multi n } ⟨rfl, hplain.declared, hplain.heads, hplain.symbols⟩).2
    rw [after, h] at hfollows
    exact hfollows.guard

theorem submit_avoid {r : Request} (hd : d.IsPlain) (hok : submit r d = .ok () d') :
    ∃ e : Draft, e.IsPlain ∧ submit r e = .ok () d' ∧ ∀ name ∈ r.names, e.guard.Free name := by
  cases r with
  | alphabets input extra => exact ⟨d, hd, hok, nofun⟩
  | features features => exact ⟨d, hd, hok, nofun⟩
  | state name =>
    refine ⟨d.avoid name, Draft.avoid_plain hd name, ?_, ?_⟩
    . have hsame : (d.avoid name).avoid name = d.avoid name := Draft.avoid_of_free (d.free_avoid name)
      change addState name ((d.avoid name).avoid name) = .ok () d'
      rw [hsame]
      exact hok
    . simpa [Request.names] using d.free_avoid name
  | tapes n first =>
    obtain ⟨hn, htapes, hopen⟩ := setTapes_eq_ok hok
    refine ⟨d.avoid first, Draft.avoid_plain hd first, ?_, ?_⟩
    . have hsame : (d.avoid first).avoid first = d.avoid first :=
        Draft.avoid_of_free (d.free_avoid first)
      change setTapes n first (d.avoid first) = .ok () d'
      rw [setTapes_apply hn first ((d.tapes_avoid first).trans htapes), openTapes,
        bind_of_ok (avoid_apply _ _), hsame]
      rwa [openTapes, bind_of_ok (avoid_apply _ _)] at hopen
    . simpa [Request.names] using d.free_avoid first
  | directive x =>
    have hplain : ({ d with tapes := .single } : Draft).IsPlain :=
      ⟨hd.guard, hd.declared, hd.heads, hd.symbols⟩
    cases x with
    | transition origin read w m next =>
      rw [submit, userDirective, bind_eq_ok] at hok
      obtain ⟨_, d₁, hclaim, hok⟩ := hok
      obtain rfl := claimSingleTape_eq_ok hclaim
      refine ⟨_, Draft.avoidBoth_plain hplain next origin, ?_, ?_⟩
      . rw [submit, userDirective, bind_of_ok (claimSingleTape_of_single _ (Draft.tapes_avoidBoth _ _ _))]
        change transition origin read w m next (Draft.avoidBoth (Draft.avoidBoth _ next origin) _ _) = _
        rw [Draft.avoidBoth_avoidBoth]
        exact hok
      . have := Draft.free_avoidBoth { d with tapes := .single } next origin
        simpa [Request.names, Directive.origin, Directive.next] using this.symm
    | gadget origin read x next =>
      rw [submit, userDirective, bind_eq_ok] at hok
      obtain ⟨_, d₁, hclaim, hok⟩ := hok
      obtain rfl := claimSingleTape_eq_ok hclaim
      refine ⟨_, Draft.avoidBoth_plain hplain origin next, ?_, ?_⟩
      . rw [submit, userDirective, bind_of_ok (claimSingleTape_of_single _ (Draft.tapes_avoidBoth _ _ _))]
        change gadget origin read x next (Draft.avoidBoth (Draft.avoidBoth _ origin next) _ _) = _
        rw [Draft.avoidBoth_avoidBoth]
        exact hok
      . have := Draft.free_avoidBoth { d with tapes := .single } origin next
        simpa [Request.names, Directive.origin, Directive.next] using this
  | joint t =>
    obtain ⟨n, htapes, hread, hwrites, hmoves, hjoint⟩ := userJoint_eq_ok hok
    refine ⟨_, Draft.avoidBoth_plain hd t.origin t.next, ?_, ?_⟩
    . change userJoint t _ = _
      rw [userJoint, bind_of_ok (get_apply _), Draft.tapes_avoidBoth, htapes]
      dsimp only
      rw [bind_of_ok (checkArities_apply hread hwrites hmoves _)]
      change jointTransition t (Draft.avoidBoth (d.avoidBoth t.origin t.next) _ _) = _
      rw [Draft.avoidBoth_avoidBoth]
      exact hjoint
    . simpa [Request.names] using d.free_avoidBoth t.origin t.next

theorem free_of_submit {r : Request} (hclean : ∀ c ∈ r.mentioned, Guard.Clean c.display)
    (hd : d.IsPlain) (hok : submit r d = .ok () d') : ∀ name ∈ r.names, d'.guard.Free name := by
  obtain ⟨e, he, hsame, hfree⟩ := submit_avoid hd hok
  have hsize := (@submit_transparent d'.guard [] r hclean e he nofun).size_le
  rw [after, hsame] at hsize
  intro name hname
  exact (hfree name hname).mono hsize

theorem free_of_submitAll {requests : List Request}
    (hclean : ∀ r ∈ requests, ∀ c ∈ r.mentioned, Guard.Clean c.display) (hd : d.IsPlain)
    (hok : submitAll requests d = .ok () d') :
    d.guard.size ≤ d'.guard.size ∧ ∀ r ∈ requests, ∀ name ∈ r.names, d'.guard.Free name := by
  induction requests generalizing d with
  | nil =>
    cases hok
    exact ⟨Nat.le_refl _, List.forall_mem_nil _⟩
  | cons r rs ih =>
    rw [List.forall_mem_cons] at hclean
    rw [submitAll, forM_cons_eq_ok] at hok
    obtain ⟨d₁, hr, hrs⟩ := hok
    have hat := @submit_transparent d'.guard [] r hclean.1 d hd (List.forall_mem_nil _)
    have hplain := hat.plain
    have hsize := hat.size_le
    rw [after, hr] at hplain hsize
    obtain ⟨hle, hfree⟩ := ih hclean.2 hplain hrs
    refine ⟨Nat.le_trans hsize hle, ?_⟩
    rw [List.forall_mem_cons]
    refine ⟨?_, hfree⟩
    intro name hname
    exact (free_of_submit hclean.1 hd hr name hname).mono hle

theorem submitAll_withGuard {requests : List Request}
    (hclean : ∀ r ∈ requests, ∀ c ∈ r.mentioned, Guard.Clean c.display) (hd : d.IsPlain)
    (hok : submitAll requests d = .ok () d') {k : Guard} (hk : d'.guard.size ≤ k.size) :
    submitAll requests (d.withGuard k) = .ok () (d'.withGuard k) := by
  induction requests generalizing d with
  | nil =>
    cases hok
    rfl
  | cons r rs ih =>
    rw [List.forall_mem_cons] at hclean
    rw [submitAll, forM_cons_eq_ok] at hok ⊢
    obtain ⟨d₁, hr, hrs⟩ := hok
    have hat := @submit_transparent k [] r hclean.1 d hd (List.forall_mem_nil _)
    have hplain := hat.plain
    have hafter := hat.after_withGuard
    have hsucceeds := hat.succeeds_withGuard
    simp only [after, succeeds, hr] at hplain hafter hsucceeds
    have hle := Nat.le_trans (free_of_submitAll hclean.2 hplain hrs).1 hk
    refine ⟨d₁.withGuard k, ?_, ih hclean.2 hplain hrs⟩
    have hok := eq_ok_of_succeeds (hsucceeds hle)
    rwa [after, hafter hle] at hok

end Build

namespace Draft

theorem new_plain (start : String) : (new start).IsPlain := by
  have hblank : ∀ c ∈ (new start).alphabet.symbols, Guard.Clean c.display := by
    change ∀ c ∈ [Cell.blank], Guard.Clean c.display
    decide
  exact ⟨rfl, hblank, nofun, fun c hc => .inl (hblank c hc)⟩

theorem new_withGuard {start : String} (h : Guard.Clean start) (k : Guard) :
    (new start).withGuard k = { new start with guard := k } := by
  have hname : Guard.single.rename k start = start := Guard.rename_of_clean h _ _
  simp only [withGuard, mapNames, new, hname]
  rfl

theorem submit_directive {d : Draft} (x : Directive) (htapes : ∀ n, d.tapes ≠ .multi n) :
    ∃ a b, (∀ k : Guard, k.Free a ∧ k.Free b ↔ ∀ name ∈ [x.origin, x.next], k.Free name)
      ∧ Build.submit (.directive x) d
        = Build.directive x (avoidBoth { d with tapes := .single } a b) := by
  cases x with
  | transition origin read w m next =>
    refine ⟨next, origin, fun k => ?_, ?_⟩
    . simp [Directive.origin, Directive.next, and_comm]
    . rw [Build.submit, Build.userDirective,
        Build.bind_of_ok (Build.claimSingleTape_apply _ htapes)]
      rfl
  | gadget origin read x next =>
    refine ⟨origin, next, fun k => ?_, ?_⟩
    . simp [Directive.origin, Directive.next]
    . rw [Build.submit, Build.userDirective,
        Build.bind_of_ok (Build.claimSingleTape_apply _ htapes)]
      rfl

end Draft

end TuringLowering
