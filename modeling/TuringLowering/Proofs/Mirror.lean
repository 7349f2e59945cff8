import TuringLowering.Proofs.JointProgram
import TuringLowering.Proofs.OwnTapes
import TuringLowering.Proofs.Preparation
import TuringLowering.Proofs.Runs

/-!
This module contains machines whose tapes share one: there is a route for each state and combination of
cells that a transition is about, and for the first of these transitions. Between two steps, the shared
tape holds what the transitions lead to.
-/

namespace TuringLowering

def JointTransition.routeOn (g : Guard) (t : JointTransition) (reads : List Cell) : Route :=
  ⟨g, t.origin, reads, Writing.ontoAll t.writes reads, t.moves, t.next⟩

theorem Segment.mem_cells_of_serves {g : Guard} {first : String} {n : Nat} {A : Alphabet}
    (hA : A.HasHeads) {x : Directive} (hx : x ∈ common g first n A) {s : String} {c : Cell}
    (hs : ReadsNames g s) (hserves : x.serves s c = true) :
    c ∈ cells A ∨ s = growPart g "done" ∧ ∃ v : Verdict, c = .state v.state := by
  obtain ⟨rfl, hmatch⟩ := Directive.serves_eq_true_iff.mp hserves
  have hread : x.read ≠ .any := fun hany => not_readsNames_common x hx hany hs
  exact mem_cells_common hA x hx _ (Pattern.mem_cells_of_matches hread hmatch)

namespace Segment.Suffices

variable {g : Guard} {first : String} {n : Nat} {A : Alphabet} {F : List Directive}
  (hF : Suffices g first n A F)
include hF

theorem verdict_of_serves (hA : A.IsSegmented) {x : Directive} (hx : x ∈ F) {s q : String}
    (hs : ReadsNames g s) (hserves : x.serves s (.state q) = true) :
    s = growPart g "done" ∧ isTerminal q = true := by
  rcases hF.cases x hx with hx | ⟨_, _, rfl⟩
  . rcases mem_cells_of_serves hA.toHasHeads hx hs hserves with hmem | ⟨hdone, v, hv⟩
    . exact absurd rfl (hA.display_ne_state hmem q)
    . cases hv
      exact ⟨hdone, Machine.isTerminal_state v⟩
  . rw [Directive.not_serves_idle] at hserves
    cases hserves

theorem isCommon (hA : A.IsSegmented) : IsCommon g F := by
  constructor
  . intro x hx
    rcases hF.cases x hx with hx | ⟨s, hs, rfl⟩
    . exact serves_common x hx
    . exact .inl hs
  . intro x hx q
    rw [Bool.eq_false_iff]
    intro hserves
    have hname := (hF.verdict_of_serves hA hx (.inl rfl) hserves).1
    simp [stepState, growPart, growState, String.append_assoc] at hname

end Segment.Suffices

theorem Route.WellFormed.reads_eq {g : Guard} {n : Nat} {r r' : Route} (hr : r.WellFormed g n)
    (hr' : r'.WellFormed g n) (hn : 0 < n) (htake : r'.reads.take (n - 1) = r.reads.take (n - 1))
    (hlast : r'.reads[n - 1]? = r.reads[n - 1]?) : r'.reads = r.reads := by
  have hall : r'.reads.take (n - 1 + 1) = r.reads.take (n - 1 + 1) := by
    rw [List.take_add_one, List.take_add_one, htake, hlast]
  rwa [Nat.sub_add_cancel hn, List.take_of_length_le (Nat.le_of_eq hr'.readsLength),
    List.take_of_length_le (Nat.le_of_eq hr.readsLength)] at hall

namespace Draft.Shares

variable {g : Guard} {A : Alphabet} {n : Nat} {F ys : List Directive} {made : List ChainKey}
  {R : List Route} {r r' : Route} {d : Draft}

theorem physicalTapes (h : d.Shares g A n F made R ys) : d.compile.physicalTapes = 1 := by
  rw [compile, h.features, if_neg Bool.false_ne_true]

theorem eq_of_reads (hR : ∀ r ∈ R, r.WellFormed g n) (hn : 0 < n) (h : d.Shares g A n F made R ys)
    (hr : r ∈ R) (hr' : r' ∈ R) (horigin : r.origin = r'.origin) (hreads : r.reads = r'.reads) :
    r = r' := by
  obtain ⟨xs, hxs, hmem⟩ := h.inventory
  have hwell := hR r hr
  have hwell' := hR r' hr'
  have hlt : n - 1 < n := Nat.sub_lt hn Nat.one_pos
  obtain ⟨c, hc⟩ : ∃ c, r.reads[n - 1]? = some c :=
    ⟨_, List.getElem?_eq_getElem (hwell.readsLength.symm ▸ hlt)⟩
  have hfind : r.findState (n - 1) = r'.findState (n - 1) :=
    hwell.findState_congr hwell' hlt horigin (by rw [hreads])
  have hlast (r : Route) (hr : r ∈ R) (hc : r.reads[n - 1]? = some c) :
      Directive.serving xs (r.findState (n - 1)) c.tagged
        = some (.replace (r.findState (n - 1)) c.tagged c.tagged .right (r.findState (n - 1 + 1))) :=
    hxs.settled (.replace _ _ _ _ _) ((hmem _).mpr (.inr (.inl ⟨r, hr, .found hc⟩))) nofun c.tagged rfl
  -- Both routes have a say where the last cell is found, and they agree on it.
  have hsame := (hlast r hr hc).symm.trans (hfind ▸ hlast r' hr' (hreads ▸ hc))
  rw [Option.some.injEq, Directive.transition.injEq] at hsame
  have happly : r.applyState n ++ "" = r'.applyState n ++ "" := by
    have hend (r : Route) (hr : r.WellFormed g n) : r.findState (n - 1 + 1) = r.applyState n := by
      rw [Route.findState, if_pos (by rw [hr.readsLength]; omega), Nat.sub_add_cancel hn]
    rw [← hend r hwell, ← hend r' hwell', hsame.2.2.2.2]
  obtain ⟨_, hnext, hwrites, hmoves, _⟩ := hwell.applyState_inj hwell' (Nat.le_refl n)
    (Nat.le_refl n) (by decide) (by decide) happly
  have hwrites : r.writes = r'.writes := by
    rwa [List.take_of_length_le (Nat.le_of_eq hwell.writesLength),
      List.take_of_length_le (Nat.le_of_eq hwell'.writesLength)] at hwrites
  have hmoves : r.moves = r'.moves := by
    rwa [List.take_of_length_le (Nat.le_of_eq hwell.movesLength),
      List.take_of_length_le (Nat.le_of_eq hwell'.movesLength)] at hmoves
  have hguard := hwell.guard.trans hwell'.guard.symm
  obtain ⟨_, _, _, _, _, _⟩ := r
  simp_all

theorem exists_of_lookup (hF : Segment.IsCommon g F) (hR : ∀ r ∈ R, r.WellFormed g n)
    (hA : ∀ c ∈ A.declared, c.IsLetter) (h : d.Shares g A n F made R []) (hr : r.WellFormed g n)
    {i : Nat} (hi : i < n) {c : Cell} (hc : c.IsLetter)
    (hlookup : d.states.lookup (r.findState i) c.tagged ≠ none) :
    ∃ r' ∈ R, r'.origin = r.origin ∧ r'.reads.take i = r.reads.take i ∧ r'.reads[i]? = some c := by
  obtain ⟨xs, hxs, hmem⟩ := h.inventory
  obtain ⟨x, hx, hserves⟩ := hxs.exists_serves (hr.not_generates_findState hi) hlookup
  rcases (hmem x).mp hx with hx | ⟨r', hr', hx⟩ | hx
  . obtain ⟨horigin, _⟩ := Directive.serves_eq_true_iff.mp hserves
    exact absurd horigin (hr.ne_findState hi (hF.serves x hx))
  . exact ⟨r', hr', hx.reads_of_serves hr (hR r' hr') hA hi hc hserves⟩
  . cases hx

theorem exists_of_isKnown (hF : Segment.IsCommon g F) (hR : ∀ r ∈ R, r.WellFormed g n)
    (hA : ∀ c ∈ A.declared, c.IsLetter) (h : d.Shares g A n F made R []) (hn : 0 < n)
    (hr : r.WellFormed g n) (hknown : r.isKnown d = true) :
    ∃ r' ∈ R, r'.origin = r.origin ∧ r'.reads = r.reads := by
  have hlt : n - 1 < n := Nat.sub_lt hn Nat.one_pos
  have hget : r.reads[n - 1]? = r.reads.getLast? := by
    rw [List.getLast?_eq_getElem?, hr.readsLength]
  rw [Route.isKnown, ← hget] at hknown
  cases hc : r.reads[n - 1]? with
  | none =>
    rw [hc] at hknown
    cases hknown
  | some c =>
    rw [hc] at hknown
    dsimp only at hknown
    rw [hr.readsLength] at hknown
    have hmem : c ∈ r.reads := List.mem_of_getElem? hc
    obtain ⟨r', hr', horigin, htake, hlast⟩ := h.exists_of_lookup hF hR hA hr hlt (hr.reads c hmem).1
      (Option.isSome_iff_ne_none.mp hknown)
    exact ⟨r', hr', horigin, hr.reads_eq (hR r' hr') hn htake (hlast.trans hc.symm)⟩

end Draft.Shares

open JointTransition

theorem JointTransition.Proper.wellFormed_routeOn {g : Guard} {A : Alphabet} {n : Nat}
    {t : JointTransition} (hA : A.IsSegmented) (ht : t.Proper g A n) {reads : List Cell}
    (hlength : reads.length = n) (hreads : ∀ c ∈ reads, c ∈ A.declared) :
    (t.routeOn g reads).WellFormed g n ∧ ∀ c ∈ (t.routeOn g reads).writes, c ∈ A.declared := by
  have hwrites : ∀ c ∈ Writing.ontoAll t.writes reads, c ∈ A.declared := by
    intro c hc
    rw [Writing.ontoAll, ← List.map_uncurry_zip_eq_zipWith, List.mem_map] at hc
    obtain ⟨⟨w, c⟩, hmem, rfl⟩ := hc
    exact (ht.cells.2 w (List.of_mem_zip hmem).1).onto (hreads c (List.of_mem_zip hmem).2)
  have hletters (cells : List Cell) (hcells : ∀ c ∈ cells, c ∈ A.declared) :
      ∀ c ∈ cells, c.IsLetter ∧ Guard.Clean c.display :=
    fun c hc => ⟨hA.letters c (hcells c hc), hA.clean c (hcells c hc)⟩
  refine ⟨⟨rfl, ht.origin, ht.next, hletters reads hreads, hletters _ hwrites, hlength, ?_,
    ht.moves⟩, hwrites⟩
  simp [routeOn, Writing.ontoAll, ht.writes, hlength]

theorem JointTransition.Proper.of_mem_combinations {g : Guard} {A : Alphabet} {n : Nat}
    {t : JointTransition} (ht : t.Proper g A n) {reads : List Cell}
    (h : reads ∈ combinations ((t.read.perTape n).map (Pattern.cells A.declared))) :
    reads.length = n ∧ ∀ c ∈ reads, c ∈ A.declared := by
  have hlength : (t.read.perTape n).length = n := by
    cases hread : t.read with
    | any => simp [JointPattern.perTape]
    | tapes patterns => exact ht.reads patterns hread
  refine ⟨by rw [(mem_combinations.mp h).length_eq, List.length_map, hlength], ?_⟩
  intro c hc
  obtain ⟨_, hcells, hmem⟩ := mem_of_mem_combinations h c hc
  obtain ⟨p, hp, rfl⟩ := List.mem_map.mp hcells
  have hover : p.Over (· ∈ A.declared) := by
    have hover := ht.cells.1
    cases hread : t.read with
    | any =>
      rw [hread] at hp
      rw [(List.mem_replicate.mp hp).2]
      exact Pattern.over_any
    | tapes patterns =>
      rw [hread] at hp hover
      exact hover p hp
  cases p with
  | any => exact hmem
  | cell c' => exact hover.of_matches (List.mem_singleton.mp hmem) nofun
  | oneOf cells => exact hover.of_matches hmem nofun

namespace Draft

def Routes (g : Guard) (A : Alphabet) (n : Nat) (P : List JointTransition) (R : List Route) : Prop :=
  ∀ r, r ∈ R ↔ r.reads.length = n ∧ (∀ c ∈ r.reads, c ∈ A.declared)
    ∧ ∃ t, serving P r.origin r.reads = some t ∧ r = t.routeOn g r.reads

/-- The draft simulates `n` tapes and does on them what the transitions of `P` say. -/
structure Mirrors (g : Guard) (A : Alphabet) (n : Nat) (first : String) (made : List ChainKey)
    (P : List JointTransition) (d : Draft) : Prop where
  guard : d.guard = g
  proper : ∀ t ∈ P, t.Proper g A n ∧ ∀ m ∈ t.moves, m.isLong = false
  routes : ∃ F R, Segment.Suffices g first n A F ∧ d.Shares g A n F made R [] ∧ Routes g A n P R

namespace Mirrors

variable {g : Guard} {A : Alphabet} {n : Nat} {first : String} {made : List ChainKey}
  {P : List JointTransition} {d d' : Draft} {t : JointTransition} {F : List Directive}
  {R : List Route}

theorem wellFormed (hA : A.IsSegmented)
    (hproper : ∀ t ∈ P, t.Proper g A n ∧ ∀ m ∈ t.moves, m.isLong = false)
    (hR : Routes g A n P R) : ∀ r ∈ R, r.WellFormed g n ∧ r.Over A := by
  intro r hr
  obtain ⟨hlength, hreads, t, hserving, heq⟩ := (hR r).mp hr
  obtain ⟨ht, hshort⟩ := hproper t (mem_of_serving hserving).1
  obtain ⟨hwell, hwrites⟩ := ht.wellFormed_routeOn hA hlength hreads
  rw [← heq] at hwell hwrites
  refine ⟨hwell, hreads, hwrites, ?_⟩
  rw [heq]
  exact hshort

section

variable (hA : A.IsSegmented) (hn : 0 < n)
include hA hn

theorem shares_of_forM {routes : List Route}
    (hroutes : ∀ r ∈ routes, r.WellFormed g n ∧ ∀ c ∈ r.reads, c ∈ A.declared)
    (hR : ∀ r ∈ R, r.WellFormed g n)
    (hF : Segment.IsCommon g F) (h : d.Shares g A n F made R [])
    (hok : routes.forM Build.route d = .ok () d') : d'.Shares g A n F made (R ++ routes) [] := by
  apply @Build.forM_induction _ _ _ (fun done d => d.Shares g A n F made (R ++ done) []) _ d d' _ hok
  . intro done r rest d₁ d₂ hitems h hok
    rw [← List.append_assoc]
    obtain ⟨hr, hreads⟩ := hroutes r (by rw [hitems]; simp)
    apply h.route hA hF _ hr hreads hn hok
    rw [List.forall_mem_append]
    refine ⟨hR, fun r' hr' => (hroutes r' ?_).1⟩
    rw [hitems]
    exact List.mem_append_left _ hr'
  . rwa [List.append_nil]

omit hA hn in
theorem mem_routesOf (ht : t.Proper g A n) {r : Route} :
    r ∈ (combinations ((t.read.perTape n).map (Pattern.cells A.declared))).map (t.routeOn g)
      ↔ r.reads.length = n ∧ (∀ c ∈ r.reads, c ∈ A.declared) ∧ t.serves r.origin r.reads = true
        ∧ r = t.routeOn g r.reads := by
  rw [List.mem_map]
  constructor
  . rintro ⟨reads, hmem, rfl⟩
    obtain ⟨hlength, hreads⟩ := ht.of_mem_combinations hmem
    have hmatches := (JointPattern.matches_iff_mem_combinations hlength hreads).mpr hmem
    exact ⟨hlength, hreads, by simp [serves, routeOn, hmatches], rfl⟩
  . rintro ⟨hlength, hreads, hserves, heq⟩
    simp only [serves, decide_eq_true_eq] at hserves
    exact ⟨r.reads, (JointPattern.matches_iff_mem_combinations hlength hreads).mp hserves.2, heq.symm⟩

theorem routes_concat {routes : List Route} (hR : Routes g A n P R)
    (hproper : ∀ t ∈ P, t.Proper g A n ∧ ∀ m ∈ t.moves, m.isLong = false) (ht : t.Proper g A n)
    (hmem : ∀ r ∈ routes, r.reads.length = n ∧ (∀ c ∈ r.reads, c ∈ A.declared)
      ∧ t.serves r.origin r.reads = true ∧ r = t.routeOn g r.reads)
    (hall : ∀ r : Route, r.reads.length = n → (∀ c ∈ r.reads, c ∈ A.declared) →
      t.serves r.origin r.reads = true → serving P r.origin r.reads = none →
      r = t.routeOn g r.reads → r ∈ routes)
    (h : d'.Shares g A n F made (R ++ routes) []) :
    Routes g A n (P ++ [t]) (R ++ routes) := by
  have hwell : ∀ r ∈ R ++ routes, r.WellFormed g n := by
    rw [List.forall_mem_append]
    refine ⟨fun r hr => (wellFormed hA hproper hR r hr).1, ?_⟩
    intro r hr
    obtain ⟨hlength, hreads, _, heq⟩ := hmem r hr
    rw [heq]
    exact (ht.wellFormed_routeOn hA hlength hreads).1
  intro r
  rw [List.mem_append, serving_concat]
  constructor
  . rintro (hr | hr)
    . obtain ⟨hlength, hreads, u, hserving, heq⟩ := (hR r).mp hr
      exact ⟨hlength, hreads, u, by rw [hserving, Option.some_or], heq⟩
    . obtain ⟨hlength, hreads, hserves, heq⟩ := hmem r hr
      refine ⟨hlength, hreads, ?_⟩
      cases hserving : serving P r.origin r.reads with
      | none => exact ⟨t, by rw [Option.none_or, if_pos hserves], heq⟩
      | some u =>
        have horigin := (mem_of_serving hserving).2.1
        have hearlier : u.routeOn g r.reads ∈ R :=
          (hR _).mpr ⟨hlength, hreads, u, by rw [← hserving, ← horigin]; rfl, rfl⟩
        have hsame := h.eq_of_reads hwell hn (List.mem_append_right _ hr)
          (List.mem_append_left _ hearlier) horigin.symm rfl
        exact ⟨u, rfl, hsame⟩
  . rintro ⟨hlength, hreads, u, hserving, heq⟩
    cases hearlier : serving P r.origin r.reads with
    | some u' =>
      rw [hearlier, Option.some_or] at hserving
      exact .inl ((hR r).mpr ⟨hlength, hreads, u, hearlier.trans hserving, heq⟩)
    | none =>
      rw [hearlier, Option.none_or] at hserving
      split at hserving
      . next hserves =>
        cases hserving
        exact .inr (hall r hlength hreads hserves hearlier heq)
      . cases hserving

theorem direct (h : d.Mirrors g A n first made P) (ht : t.Proper g A n)
    (hshort : ∀ m ∈ t.moves, m.isLong = false)
    (hok : Build.jointTransition.direct t d = .ok () d') :
    d'.Mirrors g A n first made (P ++ [t]) := by
  obtain ⟨F, R, hF, hshares, hR⟩ := h.routes
  have hwell := wellFormed hA h.proper hR
  rw [Build.jointTransition.direct, Build.bind_of_ok (Build.enabled_apply _ _), hshares.features,
    if_neg Bool.false_ne_true, Build.simulated, Build.bind_of_ok (Build.get_apply d),
    hshares.declared, h.guard, ht.writes] at hok
  obtain ⟨routes, hroutes, hall, hok⟩ : ∃ routes : List Route,
      (∀ r ∈ routes, r.reads.length = n ∧ (∀ c ∈ r.reads, c ∈ A.declared)
        ∧ t.serves r.origin r.reads = true ∧ r = t.routeOn g r.reads)
      ∧ (∀ r : Route, r.reads.length = n → (∀ c ∈ r.reads, c ∈ A.declared) →
        t.serves r.origin r.reads = true → serving P r.origin r.reads = none →
        r = t.routeOn g r.reads → r ∈ routes)
      ∧ routes.forM Build.route d = .ok () d' := by
    refine ⟨_, ?_, ?_, hok⟩
    . intro r hr
      apply (mem_routesOf ht).mp
      split at hr
      . exact List.mem_of_mem_filter hr
      . exact hr
    . intro r hlength hreads hserves hnone heq
      have hmem := (mem_routesOf ht).mpr ⟨hlength, hreads, hserves, heq⟩
      split
      . apply List.mem_filter.mpr ⟨hmem, _⟩
        rw [Bool.not_eq_true', Bool.eq_false_iff]
        intro hknown
        have hr : r.WellFormed g n := heq ▸ (ht.wellFormed_routeOn hA hlength hreads).1
        obtain ⟨r', hr', horigin, hsame⟩ := hshares.exists_of_isKnown (hF.isCommon hA)
          (fun r hr => (hwell r hr).1) hA.letters hn hr hknown
        obtain ⟨_, _, u, hserving, _⟩ := (hR r').mp hr'
        rw [horigin, hsame, hnone] at hserving
        cases hserving
      . exact hmem
  have hshares' := shares_of_forM hA hn (fun r hr => by
    obtain ⟨hlength, hreads, _, heq⟩ := hroutes r hr
    refine ⟨?_, hreads⟩
    rw [heq]
    exact (ht.wellFormed_routeOn hA hlength hreads).1) (fun r hr => (hwell r hr).1) (hF.isCommon hA) hshares hok
  refine ⟨?_, ?_, F, _, hF, hshares', routes_concat hA hn hR h.proper ht hroutes hall hshares'⟩
  . obtain ⟨xs, hxs, _⟩ := hshares'.inventory
    exact hxs.guard
  . rw [List.forall_mem_append, List.forall_mem_singleton]
    exact ⟨h.proper, ht, hshort⟩

omit hA hn in
theorem chain (h : d.Mirrors g A n first made P) {k : ChainKey} (hk : k.kind = .jointMove) :
    ({ d with chains := d.chains ++ [(k, g.wrap k.parts)] } : Draft).Mirrors g A n first
      (made ++ [k]) P := by
  obtain ⟨F, R, hF, hshares, hR⟩ := h.routes
  obtain ⟨xs, hxs, hmem⟩ := hshares.inventory
  have hchains : ∀ e ∈ d.chains ++ [(k, g.wrap k.parts)], e ∈ d.chains ∨ e.1.kind = .jointMove := by
    intro e he
    rcases List.mem_append.mp he with he | he
    . exact .inl he
    . rw [List.mem_singleton.mp he]
      exact .inr hk
  refine ⟨h.guard, h.proper, F, R, hF, ⟨hshares.start, hshares.tapes, hshares.features, hshares.declared,
    hshares.heads, hshares.pends.concat k, xs, ?_, hmem⟩, hR⟩
  exact hxs.extend rfl rfl hchains (fun e he => List.mem_append_left _ he) (fun _ h => h)
    (fun _ h => h) (fun _ h => .inl h)

theorem unrolls : Build.Unrolls g A n fun made P d => d.Mirrors g A n first made P where
  guard h := h.guard
  pends h := by
    obtain ⟨_, R, _, hshares, _⟩ := h.routes
    exact hshares.pends
  moves h := by
    obtain ⟨_, R, _, hshares, _⟩ := h.routes
    rw [hshares.features, Bool.and_false]
  chain h _ hk := h.chain hk
  direct h ht hshort hok := h.direct hA hn ht hshort hok

theorem submitAll {done ts : List JointTransition}
    (h : d.Mirrors g A n first (unrollAll g done).1 (unrollAll g done).2)
    (hover : ∀ t ∈ ts, t.Over (· ∈ A.declared))
    (hfree : ∀ t ∈ ts, g.Free t.origin ∧ g.Free t.next)
    (hok : Build.submitAll (ts.map .joint) d = .ok () d') :
    d'.Mirrors g A n first (unrollAll g (done ++ ts)).1 (unrollAll g (done ++ ts)).2 := by
  induction ts generalizing done d with
  | nil =>
    cases hok
    rwa [List.append_nil]
  | cons t ts ih =>
    rw [List.forall_mem_cons] at hover hfree
    rw [List.map_cons, Build.submitAll, Build.forM_cons_eq_ok] at hok
    obtain ⟨d₁, hjoint, hok⟩ := hok
    obtain ⟨_, R, _, hshares, _⟩ := h.routes
    obtain ⟨hfits, hjoint⟩ := Build.userJoint_of_free hshares.tapes (by rw [h.guard]; exact hfree.1.1)
      (by rw [h.guard]; exact hfree.1.2) hjoint
    have hproper := Proper.of_free hfits hover.1 hfree.1.1 hfree.1.2
    have hone : d₁.Mirrors g A n first (unrollAll g (done ++ [t])).1 (unrollAll g (done ++ [t])).2 := by
      rw [unrollAll_concat]
      exact (unrolls hA hn).go hn (distance_le_foldl t.moves 0).2 hproper hfree.1.2 h hjoint
    have := ih hone hover.2 hfree.2 hok
    rwa [List.append_assoc] at this

end

end Mirrors

end Draft

theorem JointTransition.views_acted_routeOn (g : Guard) (t : JointTransition) (ts : List Tape) :
    ((t.routeOn g (ts.map Tape.focus)).acted ts).map Tape.view = t.act (ts.map Tape.view) := by
  obtain ⟨origin, read, writes, moves, next⟩ := t
  simp only [Route.acted, Route.onEach, routeOn, act]
  induction ts generalizing writes moves with
  | nil => simp
  | cons tape ts ih =>
    cases writes with
    | nil => rfl
    | cons w writes =>
      cases moves with
      | nil => rfl
      | cons m moves =>
        have hrest := ih writes moves
        simp only [Writing.ontoAll] at hrest
        simp only [List.map_cons, Writing.ontoAll, List.zipWith_cons_cons, List.zip_cons_cons, hrest,
          List.cons.injEq, and_true]
        rw [Tape.view_act, Tape.focus_view]

structure Segment.Holds (g : Guard) (q : String) (ts : List Tape) (c : Config) : Prop where
  tape : ∃ t, c.tapes = [t] ∧ t.view = shared q ts
  halted : isTerminal q = true → c.state = q
  running : isTerminal q = false → c.state = stepState g ∨ c.state = growPart g "done"

theorem exists_last {M : Nat → Prop} {n : Nat} (hzero : M 0) (hn : ¬ M n) :
    ∃ j < n, M j ∧ ¬ M (j + 1) := by
  induction n with
  | zero => exact absurd hzero hn
  | succ n ih =>
    by_cases h : M n
    . exact ⟨n, Nat.lt_succ_self n, h, hn⟩
    . obtain ⟨j, hj, hlast⟩ := ih h
      exact ⟨j, Nat.lt_succ_of_lt hj, hlast⟩

theorem Route.Prescribes.origin_of_serves {g : Guard} {A : Alphabet} {n : Nat} {r : Route}
    {x : Directive} (hr : r.WellFormed g n) (h : r.Prescribes A x) {s q : String}
    (hs : Segment.ReadsNames g s) (hserves : x.serves s (.state q) = true) : r.origin = q := by
  obtain ⟨rfl, hmatch⟩ := Directive.serves_eq_true_iff.mp hserves
  have hname : g.Serves x.origin := by
    rcases hs with hs | hs
    . rw [hs]
      exact Segment.serves_stepState g
    . rw [hs]
      exact Segment.serves_growPart g (by decide)
  cases h with
  | entry hmem =>
    simp only [Route.entry, List.mem_cons, List.not_mem_nil, or_false] at hmem
    rcases hmem with rfl | rfl
    . cases hmatch
      rfl
    . cases hmatch
      rfl
  | pass hi => exact absurd rfl (hr.ne_findState (hr.readsLength ▸ hi) hname)
  | found hread =>
    exact absurd rfl (hr.ne_findState (hr.readsLength ▸ length_of_getElem? hread) hname)
  | action hwrite hmove hmem =>
    obtain ⟨z, _, heq⟩ := origin_of_mem_action hmem
    exact absurd heq (hr.ne_applyState (hr.writesLength ▸ length_of_getElem? hwrite) z hname)
  | record hmem =>
    obtain ⟨z, _, heq⟩ := origin_of_mem_record hmem
    exact absurd heq (hr.ne_applyState (Nat.zero_le n) z hname)

namespace Draft

theorem Reaches.iterate {d : Draft} {s s' : String} {v v' : View} (h : d.Reaches s v s' v') {t : Tape}
    (ht : t.view = v) :
    ∃ k t', 0 < k ∧ d.compile.next^[k] ⟨s, [t]⟩ = ⟨s', [t']⟩ ∧ t'.view = v' := by
  obtain ⟨t', ht', hsteps⟩ := h t ht
  obtain ⟨k, hk, hiterate⟩ := iterate_next_of_steps hsteps
  exact ⟨k, t', hk, hiterate, ht'⟩

theorem Heeds.keep_name {A : Alphabet} {d : Draft} {s s' q : String}
    (h : d.Heeds (Segment.cells A) (.replace s (.state q) (.state q) .stay s')) {ts : List Tape}
    (hts : ts ≠ []) : d.Reaches s (Segment.shared q ts) s' (Segment.shared q ts) := by
  obtain ⟨t, ts, rfl⟩ := List.exists_cons_of_ne_nil hts
  have hbound : Cell.boundLeft ∈ Segment.cells A := by simp [Segment.cells]
  have hput := h.put (c := .state q) rfl [.start] (View.clear_of_stay [.start] (.state q) hbound
    (t.before.reverse ++ t.focus.tagged :: t.trail ++ ts.flatMap Tape.segment ++ [.afterLast]))
  rw [View.move_stay] at hput
  simpa [Segment.shared, Tape.segment, Tape.lead] using hput

namespace Mirrors

open Segment

variable {g : Guard} {A : Alphabet} {n : Nat} {first : String} {made : List ChainKey}
  {P : List JointTransition} {d : Draft} {t : JointTransition}

section

variable {F : List Directive} {R : List Route} (hR : ∀ r ∈ R, r.WellFormed g n)
  (hshares : d.Shares g A n F made R []) {q : String} {ts : List Tape} (hts : ts ≠ [])
include hR hshares hts

theorem iterate_to_step {c : Config} (hc : Holds g q ts c) (hrunning : isTerminal q = false)
    {r : Route} (hr : r ∈ R) (horigin : r.origin = q) :
    ∃ k t', d.compile.next^[k] c = ⟨stepState g, [t']⟩ ∧ t'.view = shared q ts := by
  obtain ⟨tape, htapes, hview⟩ := hc.tape
  obtain ⟨state, tapes⟩ := c
  obtain rfl : tapes = [tape] := htapes
  rcases hc.running hrunning with hstate | hstate
  . obtain rfl : state = stepState g := hstate
    exact ⟨0, tape, rfl, hview⟩
  . obtain rfl : state = growPart g "done" := hstate
    have hentry : d.Heeds (cells A) (.replace (growPart g "done") (.state q) (.state q) .stay
        (stepState g)) := by
      apply hshares.heeds_of_mem hR hr
      apply Route.Prescribes.entry
      simp [Route.entry, horigin, (hR r hr).guard]
    obtain ⟨k, t', _, hiterate, ht'⟩ := (hentry.keep_name hts).iterate hview
    exact ⟨k, t', hiterate, ht'⟩

theorem iterate_to_verdict (hF : Suffices g first n A F) {t : Tape} (ht : t.view = shared q ts) :
    ∃ k, Holds g q ts (d.compile.next^[k] ⟨growPart g "done", [t]⟩) := by
  cases hterminal : isTerminal q with
  | false => exact ⟨0, ⟨t, rfl, ht⟩, by simp [hterminal], fun _ => .inr rfl⟩
  | true =>
    obtain ⟨v, hv⟩ := Option.isSome_iff_exists.mp hterminal
    obtain rfl := Verdict.ofState?_eq_some_iff.mp hv
    have hverdict : d.Heeds (cells A) (.replace (growPart g "done") (.state v.state)
        (.state v.state) .stay v.state) := by
      refine (hshares.prepared hR hF).heeds (.replace _ _ _ _ _) (mem_common_of_growth ?_) nofun
      apply List.mem_append_right
      apply List.mem_map_of_mem
      cases v <;> decide
    obtain ⟨k, t', _, hiterate, ht'⟩ := (hverdict.keep_name hts).iterate ht
    refine ⟨k, ⟨t', by rw [hiterate], ht'⟩, fun _ => by rw [hiterate], ?_⟩
    simp [hterminal]

end

section

variable (hA : A.IsSegmented) {q : String} {ts : List Tape} (hlength : ts.length = n)
  (hwithin : ∀ t ∈ ts, t.view.Within A.declared)
include hA hlength hwithin

theorem next_of_no_route {F : List Directive} {R : List Route} (hF : Suffices g first n A F)
    (hR : ∀ r ∈ R, r.WellFormed g n) (hshares : d.Shares g A n F made R [])
    (hnone : ¬ ∃ r ∈ R, r.origin = q) {state : String} (hstate : ReadsNames g state)
    (hrunning : state = growPart g "done" → isTerminal q = false) {t : Tape}
    (ht : t.view = shared q ts) :
    ∃ t', d.compile.next ⟨state, [t]⟩ = ⟨Verdict.reject.state, [t']⟩
      ∧ List.Forall₂ Snapshot.Spares (ts.map Tape.snapshot) (decode t'.cells n) := by
  have hfocus : t.focus = .state q := by
    rw [← t.focus_view, ht, shared, List.cons_append, View.focus_of_cons]
  have hserves : g.Serves state ∧ isTerminal state = false := by
    rcases hstate with rfl | rfl
    . exact ⟨serves_stepState g, g.isTerminal_text_append _⟩
    . refine ⟨serves_growPart g (by decide), ?_⟩
      rw [growPart, growState, String.append_assoc, String.append_assoc]
      exact g.isTerminal_text_append _
  have hlookup : d.states.lookup state t.focus = none := by
    by_contra hlookup
    rw [hfocus] at hlookup
    obtain ⟨xs, hxs, hmem⟩ := hshares.inventory
    obtain ⟨x, hx, hserves⟩ := hxs.exists_serves hserves.1.not_generates hlookup
    rcases (hmem x).mp hx with hx | ⟨r, hr, hx⟩ | hx
    . obtain ⟨hdone, hterminal⟩ := hF.verdict_of_serves hA hx hstate hserves
      rw [hrunning hdone] at hterminal
      cases hterminal
    . exact hnone ⟨r, hr, hx.origin_of_serves (hR r hr) hstate hserves⟩
    . cases hx
  obtain ⟨t', hnext, ht'⟩ := next_of_lookup_eq_none hshares.physicalTapes hserves.2 hlookup
  rw [ht, shared, List.cons_append, View.write_of, View.move_right_of] at ht'
  have hletters : ∀ t ∈ ts, ∀ c ∈ t.cells, c.IsLetter := by
    intro t ht c hc
    exact hA.letters c (Tape.mem_of_within (hwithin t ht) hc)
  refine ⟨t', hnext, ?_⟩
  rw [← hlength, decode_nameless hletters ht']
  exact Snapshot.spares_selves _

omit hA in
theorem mem_routes_of_serving {R : List Route} (hR : Routes g A n P R)
    (hserving : serving P q (ts.map Tape.focus) = some t) : t.routeOn g (ts.map Tape.focus) ∈ R := by
  have hfoci : ∀ c ∈ ts.map Tape.focus, c ∈ A.declared := by
    intro x hx
    obtain ⟨tape, htape, rfl⟩ := List.mem_map.mp hx
    exact Tape.focus_mem (hwithin tape htape)
  refine (hR _).mpr ⟨by rw [← hlength]; exact List.length_map .., hfoci, t, ?_, rfl⟩
  rw [← hserving, ← (mem_of_serving hserving).2.1]
  rfl

/--
A step by the first transition about the state and the cells under the heads, up to the check of segments.
-/
theorem step_of_serving (h : d.Mirrors g A n first made P) (hn : 0 < n)
    (hserving : serving P q (ts.map Tape.focus) = some t) :
    d.Reaches (stepState g) (shared q ts) (growState g)
      (.of [.start, .state t.next]
        (((t.routeOn g (ts.map Tape.focus)).segments ts).flatten ++ [.afterLast])) := by
  obtain ⟨F, R, hF, hshares, hR⟩ := h.routes
  have hwell := wellFormed hA h.proper hR
  have hmem := mem_routes_of_serving hlength hwithin hR hserving
  obtain rfl : t.origin = q := (mem_of_serving hserving).2.1
  exact Route.step_reaches hA (hwell _ hmem).1
    (fun x hx => hshares.heeds_of_mem (fun r hr => (hwell r hr).1) hmem hx) (hwell _ hmem).2 hn rfl hwithin

theorem step_of_unserved (h : d.Mirrors g A n first made P)
    (hserving : serving P q (ts.map Tape.focus) = none) {t : Tape} (ht : t.view = shared q ts) :
    ∃ k t', 0 < k ∧ d.compile.next^[k] ⟨stepState g, [t]⟩ = ⟨Verdict.reject.state, [t']⟩
      ∧ List.Forall₂ Snapshot.Spares (ts.map Tape.snapshot) (decode t'.cells n) := by
  obtain ⟨F, R, hF, hshares, hR⟩ := h.routes
  have hformed := fun r hr => (wellFormed hA h.proper hR r hr).1
  by_cases hsome : ∃ r ∈ R, r.origin = q
  . obtain ⟨r₀, hr₀, horigin₀⟩ := hsome
    -- The search comes to the first cell with which it goes on for no route from this state.
    obtain ⟨j, hj, ⟨r, hr, horigin, htake⟩, hlast⟩ := @exists_last
      (fun j => ∃ r ∈ R, r.origin = q ∧ r.reads.take j = (ts.map Tape.focus).take j) n
      ⟨r₀, hr₀, horigin₀, rfl⟩ (by
        rintro ⟨r, hr, horigin, htake⟩
        rw [List.take_of_length_le (Nat.le_of_eq (hformed r hr).readsLength),
          List.take_of_length_le (Nat.le_of_eq (by rw [List.length_map, hlength]))] at htake
        obtain ⟨_, _, u, hu, _⟩ := (hR r).mp hr
        rw [horigin, htake, hserving] at hu
        cases hu)
    have hjts : j < ts.length := hlength ▸ hj
    obtain rfl := horigin
    have hsplit : ts = ts.take j ++ ts[j] :: ts.drop (j + 1) := by
      rw [List.getElem_cons_drop, List.take_append_drop]
    have hbefore : (ts.take j).length = j := List.length_take_of_le (Nat.le_of_lt hjts)
    have hsearch := Route.search_reaches (hformed r hr)
      (fun x hx => hshares.heeds_of_mem hformed hr hx) (ts.take j) ts[j] (ts.drop (j + 1))
      (by rw [hbefore]; exact hj) (by rw [hbefore, htake, List.map_take]) (by
        intro u hu
        apply hwithin
        rw [hsplit]
        rw [List.mem_append, List.mem_singleton] at hu
        rcases hu with hu | rfl
        . exact List.mem_append_left _ hu
        . exact List.mem_append_right _ List.mem_cons_self)
    rw [← hsplit, hbefore] at hsearch
    obtain ⟨m, t₂, hm, hiterate, ht₂⟩ := hsearch.iterate ht
    have hfocus : t₂.focus = ts[j].focus.tagged := by
      rw [← t₂.focus_view, ht₂, View.focus_of_cons]
    have hmem : ts[j].focus ∈ A.declared := Tape.focus_mem (hwithin _ (List.getElem_mem hjts))
    have hnone : d.states.lookup (r.findState j) t₂.focus = none := by
      by_contra hlookup
      rw [hfocus] at hlookup
      obtain ⟨r', hr', horigin', htake', hread⟩ := hshares.exists_of_lookup (hF.isCommon hA) hformed
        hA.letters (hformed r hr) hj (hA.letters _ hmem) hlookup
      refine hlast ⟨r', hr', horigin', ?_⟩
      rw [List.take_add_one, List.take_add_one, htake', htake, hread, List.getElem?_map,
        List.getElem?_eq_getElem hjts]
      rfl
    obtain ⟨t₃, hnext, ht₃⟩ := next_of_lookup_eq_none hshares.physicalTapes (Guard.isTerminal_of_rooted
      (r.toList_findState (by rw [(hformed r hr).readsLength]; exact hj))) hnone
    rw [ht₂, View.write_of, View.move_right_of] at ht₃
    refine ⟨m + 1, t₃, by omega, ?_, ?_⟩
    . rw [Nat.add_comm, Function.iterate_add_apply, hiterate, Function.iterate_one, hnext]
    . have hletters : ∀ t ∈ ts, ∀ c ∈ t.cells, c.IsLetter := by
        intro t ht c hc
        exact hA.letters c (Tape.mem_of_within (hwithin t ht) hc)
      rw [hsplit] at hletters hlength ⊢
      rw [← hlength, decode_erased hletters ht₃, List.map_append]
      apply List.rel_append (Snapshot.spares_selves _)
      exact .cons (Tape.spares_of_erased (by rw [Tape.view_write]) 0) (Snapshot.spares_selves _)
  . obtain ⟨t', hnext, hspares⟩ := next_of_no_route hA hlength hwithin hF hformed hshares hsome
      (.inl rfl) (fun h => absurd h.symm (by simp [stepState, growPart, growState, String.append_assoc])) ht
    exact ⟨1, t', Nat.one_pos, hnext, hspares⟩

end

section

variable (h : d.Mirrors g A n first made P) (hA : A.IsSegmented) (hn : 0 < n) {q : String}
  {ts : List Tape} {c : Config} (hc : Holds g q ts c) (hlength : ts.length = n)
  (hwithin : ∀ t ∈ ts, t.view.Within A.declared) (hrunning : isTerminal q = false)
include h hA hn hc hlength hwithin hrunning

/-- A step by the first transition about the state and the cells under the heads. -/
theorem iterate_of_serving (hserving : serving P q (ts.map Tape.focus) = some t) :
    ∃ k ts', 0 < k ∧ Holds g t.next ts' (d.compile.next^[k] c)
      ∧ ts'.map Tape.view = t.act (ts.map Tape.view) := by
  obtain ⟨F, R, hF, hshares, hR⟩ := h.routes
  have hwell := wellFormed hA h.proper hR
  have hformed := fun r hr => (hwell r hr).1
  have hproper := (h.proper t (mem_of_serving hserving).1).1
  have hmem := mem_routes_of_serving hlength hwithin hR hserving
  have hviews := t.views_acted_routeOn g ts
  have hstep := step_of_serving hA hlength hwithin h hn hserving
  generalize hr : t.routeOn g (ts.map Tape.focus) = r at hmem hviews hstep
  have hts : ts ≠ [] := List.ne_nil_of_length_pos (hlength ▸ hn)
  have hlengths : (r.acted ts).length = n := by
    rw [← List.length_map Tape.view, hviews]
    exact length_act hproper.toFits (by rw [List.length_map, hlength])
  have hwithin' : ∀ t' ∈ r.acted ts, t'.view.Within A.declared := by
    intro t' ht'
    apply within_act hproper.cells.2 (List.forall_mem_map.mpr hwithin)
    rw [← hviews]
    exact List.mem_map_of_mem ht'
  have hne : r.acted ts ≠ [] := List.ne_nil_of_length_pos (hlengths ▸ hn)
  have hshows := (hwell r hmem).2.shows ts
  have hgrow := (hshares.prepared hformed hF).grow_reaches hA.toHasHeads (q := t.next) hne hwithin' hshows
  have horigin : r.origin = q := by
    rw [← hr]
    exact (mem_of_serving hserving).2.1
  obtain ⟨k, t₁, hk, ht₁⟩ := iterate_to_step hformed hshares hts hc hrunning hmem horigin
  obtain ⟨m, t₂, hm, hiterate, ht₂⟩ := (hstep.trans hgrow).iterate ht₁
  obtain ⟨j, hj⟩ := iterate_to_verdict hformed hshares hne hF ht₂
  refine ⟨j + (m + k), r.acted ts, by omega, ?_, hviews⟩
  rw [Function.iterate_add_apply, Function.iterate_add_apply, hk, hiterate]
  exact hj

/-- Where there is no such transition, the machine erases a cell under a head at most, and rejects. -/
theorem iterate_of_unserved (hserving : serving P q (ts.map Tape.focus) = none) :
    ∃ k t, 0 < k ∧ d.compile.next^[k] c = ⟨Verdict.reject.state, [t]⟩
      ∧ List.Forall₂ Snapshot.Spares (ts.map Tape.snapshot) (decode t.cells n) := by
  obtain ⟨F, R, hF, hshares, hR⟩ := h.routes
  have hformed := fun r hr => (wellFormed hA h.proper hR r hr).1
  have hts : ts ≠ [] := List.ne_nil_of_length_pos (hlength ▸ hn)
  by_cases hsome : ∃ r ∈ R, r.origin = q
  . obtain ⟨r, hr, horigin⟩ := hsome
    obtain ⟨k, t, hk, ht⟩ := iterate_to_step hformed hshares hts hc hrunning hr horigin
    obtain ⟨m, t', hm, hiterate, hspares⟩ := h.step_of_unserved hA hlength hwithin hserving ht
    refine ⟨m + k, t', by omega, ?_, hspares⟩
    rw [Function.iterate_add_apply, hk, hiterate]
  . obtain ⟨tape, htapes, hview⟩ := hc.tape
    obtain ⟨state, tapes⟩ := c
    obtain rfl : tapes = [tape] := htapes
    obtain ⟨t, hnext, hspares⟩ := next_of_no_route hA hlength hwithin hF hformed hshares hsome
      (hc.running hrunning) (fun _ => hrunning) hview
    exact ⟨1, t, Nat.one_pos, hnext, hspares⟩

end

end Mirrors

end Draft

/-- The shared tape of a configuration shows what is seen of `n` tapes in a state. -/
def Segment.Reflects (g : Guard) (A : Alphabet) (n : Nat) (a : String × List View) (c : Config) :
    Prop :=
  ∃ ts, Holds g a.1 ts c ∧ ts.length = n ∧ (∀ t ∈ ts, t.view.Within A.declared)
    ∧ ts.map Tape.view = a.2

theorem Segment.Holds.isTerminal_state {g : Guard} {q : String} {ts : List Tape} {c : Config}
    (h : Holds g q ts c) : isTerminal c.state = isTerminal q := by
  cases hq : isTerminal q with
  | true => rw [h.halted hq, hq]
  | false =>
    rcases h.running hq with hc | hc
    . rw [hc]
      exact g.isTerminal_text_append _
    . rw [hc, growPart, growState, String.append_assoc, String.append_assoc]
      exact g.isTerminal_text_append _

namespace Draft.Mirrors

open Segment

variable {g : Guard} {A : Alphabet} {n : Nat} {first : String} {made : List ChainKey}
  {P : List JointTransition} {d : Draft} {c : Config} {a b : String × List View}
  (h : d.Mirrors g A n first made P) (hA : A.IsSegmented) (hn : 0 < n)
include h hA hn

theorem reflects_of_leads (hc : Reflects g A n a c) (hab : Leads P a b) :
    ∃ k, 0 < k ∧ Reflects g A n b (d.compile.next^[k] c) := by
  obtain ⟨ts, hholds, hlength, hwithin, hviews⟩ := hc
  obtain ⟨hrunning, hserving⟩ := hab
  next q vs t =>
  dsimp only at hholds hviews
  subst hviews
  have ht := (h.proper t (mem_of_serving hserving).1).1
  rw [Tape.map_focus_view] at hserving
  obtain ⟨k, ts', hk, hholds', hviews'⟩ :=
    h.iterate_of_serving hA hn hholds hlength hwithin hrunning hserving
  refine ⟨k, hk, ts', hholds', ?_, ?_, hviews'⟩
  . rw [← List.length_map Tape.view, hviews']
    exact length_act ht.toFits (by rw [List.length_map, hlength])
  . intro t' ht'
    apply within_act ht.cells.2 (List.forall_mem_map.mpr hwithin)
    rw [← hviews']
    exact List.mem_map_of_mem ht'

theorem reflects_of_run (hc : Reflects g A n a c) (hab : Relation.ReflTransGen (Leads P) a b) :
    ∃ k, Reflects g A n b (d.compile.next^[k] c) := by
  induction hab with
  | refl => exact ⟨0, hc⟩
  | tail _ hlast ih =>
    obtain ⟨k, hk⟩ := ih
    obtain ⟨m, _, hm⟩ := h.reflects_of_leads hA hn hk hlast
    exact ⟨m + k, by rwa [Function.iterate_add_apply]⟩

/-- The simulation ends with the verdict of the transitions. -/
theorem verdict_iff (hc : Reflects g A n a c) (v : Verdict) :
    (∃ k, ((advance P)^[k] a).1 = v.state) ↔ ∃ k, (d.compile.next^[k] c).state = v.state := by
  apply verdict_iff_of_simulation (fun a ha => by rw [advance, if_pos ha])
    (fun c => d.compile.next_of_terminal) _ _
    (R := fun a c => Reflects g A n a c ∨ a.1 = Verdict.reject.state ∧ c.state = a.1) (.inl hc)
  . rintro a c (⟨ts, hholds, _⟩ | ⟨_, hstate⟩) hterminal
    . exact hholds.halted hterminal
    . exact hstate
  . rintro ⟨q, vs⟩ c (hc | ⟨hreject, _⟩) hrunning
    . obtain ⟨ts, hholds, hlength, hwithin, hviews⟩ := id hc
      refine ⟨hholds.isTerminal_state.trans hrunning, ?_⟩
      cases hserving : serving P q (vs.map View.focus) with
      | some t =>
        have hleads := Leads.step hrunning hserving
        obtain ⟨k, hk, hreflects⟩ := h.reflects_of_leads hA hn hc hleads
        exact ⟨k, hk, .inl (by rwa [hleads.advance])⟩
      | none =>
        dsimp only at hviews
        rw [← hviews, Tape.map_focus_view] at hserving
        obtain ⟨k, _, hk, hiterate, _⟩ :=
          h.iterate_of_unserved hA hn hholds hlength hwithin hrunning hserving
        refine ⟨k, hk, .inr ?_⟩
        rw [advance, if_neg (by rw [hrunning]; exact Bool.false_ne_true), ← hviews,
          Tape.map_focus_view, hserving, hiterate]
        exact ⟨rfl, rfl⟩
    . rw [hreject, Machine.isTerminal_state] at hrunning
      cases hrunning

omit hn in
theorem reflects_input (hn : 0 < n) (hn' : (n - 1) * 3 + 1 < 2 ^ 63)
    (hfirst : isTerminal first = false) {word : List Cell}
    (hword : ∀ c ∈ word, c ∈ A.declared ∧ c ≠ .blank) :
    ∃ k, Reflects g A n (first, (Session.inputTapes n word).map Tape.view)
      (d.compile.next^[k] ⟨d.start, [.ofInput word]⟩) := by
  obtain ⟨F, R, hF, hshares, hR⟩ := h.routes
  have hformed := fun r hr => (wellFormed hA h.proper hR r hr).1
  have hlayout := (hshares.prepared hformed hF).layout_reaches hA.toHasHeads hn' hword
  obtain ⟨k, t, _, hiterate, ht⟩ := hlayout.iterate (Tape.view_ofInput word)
  have htapes : Session.inputTapes n word = .ofInput word :: List.replicate (n - 1) .blank := by
    cases n with
    | zero => exact absurd hn (Nat.lt_irrefl 0)
    | succ m => rfl
  have hon : Config.On n A.declared ⟨first, Session.inputTapes n word⟩ :=
    .input hA.blank fun c hc => (hword c hc).1
  refine ⟨k, _, ?_, hon.length, hon.within, rfl⟩
  rw [hshares.start, hiterate, htapes]
  exact ⟨⟨t, rfl, ht⟩, by simp [hfirst], fun _ => .inl rfl⟩

end Draft.Mirrors

theorem Draft.mirrors_of_openTapes {g : Guard} {A : Alphabet} {F : FeatureSet} {n : Nat}
    {first : String} {d : Draft} (hA : A.IsLettered) (hsimulating : A.simulating = false)
    (hF : F.enabled .multiTape = false) (hfirst : g.Free first)
    (hok : Build.openTapes n first
      { start := defaultStart, features := F, alphabet := A, guard := g } = .ok () d) :
    d.Mirrors g (A.shared first) n first [] [] := by
  rw [Build.openTapes_of_free hfirst, hF, if_neg Bool.false_ne_true] at hok
  have hshares := shares_of_simulateTapes hA hsimulating hfirst rfl rfl rfl rfl hF hok
  obtain ⟨xs, hxs, _⟩ := hshares.inventory
  refine ⟨hxs.guard, nofun, _, [], .of_common, hshares, ?_⟩
  intro r
  simp [serving]

end TuringLowering
