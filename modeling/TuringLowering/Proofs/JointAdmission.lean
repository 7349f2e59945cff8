import Mathlib.Data.List.Nodup
import TuringLowering.Proofs.Mirror
import TuringLowering.Proofs.Opening

/-!
This module contains the conditions under which transitions on several tapes go through, whatever the
features are: a transition is not refused if no earlier one is about a combination that it names.
-/

namespace TuringLowering

theorem Cell.joint_injective : Function.Injective Cell.joint := fun _ _ heq => (tuple.inj heq).1

theorem nodup_combinations {options : List (List Cell)} (h : ∀ cells ∈ options, cells.Nodup) :
    (combinations options).Nodup := by
  induction options with
  | nil => exact List.nodup_singleton _
  | cons cells options ih =>
    rw [List.forall_mem_cons] at h
    rw [combinations, List.nodup_flatMap]
    refine ⟨fun c _ => (ih h.2).map (List.cons_injective), ?_⟩
    refine h.1.imp fun {c c'} hne => ?_
    refine List.disjoint_left.mpr fun read hread hread' => ?_
    obtain ⟨rest, _, rfl⟩ := List.mem_map.mp hread
    obtain ⟨rest', _, heq⟩ := List.mem_map.mp hread'
    exact hne (List.cons.inj heq).1.symm

namespace Directive

variable {x : Directive} {s : String} {c : Cell}

theorem not_serves_of_origin (h : x.origin ≠ s) (c : Cell) : x.serves s c = false := by
  rw [Bool.eq_false_iff]
  intro hserves
  exact h (serves_eq_true_iff.mp hserves).1

def Apart (x y : Directive) : Prop :=
  x.origin ≠ y.origin ∨ ∀ c, x.read.Matches c → ¬ y.read.Matches c

theorem not_serves_of_read (h : ¬ x.read.Matches c) (s : String) : x.serves s c = false := by
  rw [Bool.eq_false_iff]
  intro hserves
  exact h (serves_eq_true_iff.mp hserves).2

theorem Apart.not_serves {y : Directive} (h : x.Apart y) (hc : c ∈ y.read.cells []) :
    x.serves y.origin c = false := by
  rcases h with horigin | hread
  . exact not_serves_of_origin horigin c
  . exact not_serves_of_read (fun hx => hread c hx (Pattern.matches_of_mem_cells hc)) _

end Directive

theorem StateTables.lookup_of_not_contains {s : StateTables} {name : String}
    (h : s.contains name = false) (c : Cell) : s.lookup name c = none := by
  rw [contains, Option.isSome_eq_false_iff, Option.isNone_iff_eq_none] at h
  rw [lookup, h, Option.bind_none]

namespace Alphabet.HasHeads

variable {A : Alphabet} (hA : A.HasHeads) (hnodup : A.declared.Nodup)
include hA hnodup

theorem nodup_between : ((Route.between A).cells []).Nodup := by
  obtain ⟨hleft, hright⟩ := hA.bound_not_mem
  rw [Route.between, Pattern.cells, List.nodup_append]
  refine ⟨hnodup, by decide, ?_⟩
  rintro b hb c hc rfl
  simp only [List.mem_cons, List.not_mem_nil, or_false] at hc
  rcases hc with rfl | rfl
  . exact hleft hb
  . exact hright hb

theorem nodup_of_mem_action {r : Route} {n : Nat} {w : Cell} {m : Move} {x : Directive}
    (h : x ∈ r.action A n w m) : (x.read.cells []).Nodup := by
  simp only [Route.action, List.mem_append, List.mem_cons, List.not_mem_nil, or_false,
    List.mem_map] at h
  rcases h with (rfl | rfl | rfl | rfl) | ⟨c, _, rfl⟩
  . exact hA.nodup_between hnodup
  . exact hA.nodup_heads hnodup
  . exact List.pairwise_singleton _ _
  . exact List.pairwise_singleton _ _
  . exact List.pairwise_singleton _ _

omit hA in
theorem nodup_of_mem_record {r : Route} {x : Directive} (h : x ∈ r.record A) :
    (x.read.cells []).Nodup := by
  simp only [Route.record, List.mem_cons, List.not_mem_nil, or_false] at h
  rcases h with rfl | rfl | rfl
  . exact hnodup
  . exact List.pairwise_singleton _ _
  . exact List.pairwise_singleton _ _

theorem pairwise_action (r : Route) (n : Nat) (w : Cell) (m : Move) :
    (r.action A n w m).Pairwise Directive.Apart := by
  obtain ⟨hleft, hright⟩ := hA.bound_not_mem
  have htag : r.applyState n ≠ r.tagState n := by
    intro heq
    have := congrArg String.length heq
    simp [Route.tagState] at this
  have hapart : (∀ c, (Route.between A).Matches c → c ∉ A.heads)
      ∧ (∀ a ∈ A.declared, Cell.boundLeft ≠ a) ∧ (∀ a ∈ A.declared, Cell.boundRight ≠ a)
      ∧ A.declared.Pairwise (· ≠ ·) := by
    refine ⟨?_, fun _ ha heq => hleft (heq ▸ ha), fun _ ha heq => hright (heq ▸ ha), hnodup⟩
    intro c hc hmem
    rw [hA.heads] at hmem
    obtain ⟨b, _, rfl⟩ := List.mem_map.mp hmem
    exact Route.not_matches_between hA.letters b hc
  simpa [Route.action, Directive.Apart, Directive.replace, Directive.pass, htag, List.pairwise_map,
    Pattern.Matches] using hapart

omit hnodup in
theorem pairwise_record (r : Route) : (r.record A).Pairwise Directive.Apart := by
  have hback : r.applyState 0 ≠ r.applyState 0 ++ "-doRecord" := by
    intro heq
    have := congrArg String.length heq
    simp at this
  have hleft : ∀ c ∈ A.declared, c ≠ .boundLeft := fun _ hc heq => hA.bound_not_mem.1 (heq ▸ hc)
  simpa [Route.record, Directive.Apart, Directive.replace, Directive.pass, hback, Pattern.Matches]
    using hleft

end Alphabet.HasHeads

namespace Route.WellFormed

variable {g : Guard} {n : Nat} {r : Route} (hr : r.WellFormed g n)
include hr

theorem not_readsNames_findState {i : Nat} (hi : i < n) : ¬ Segment.ReadsNames g (r.findState i) := by
  rintro (heq | heq)
  . exact hr.ne_findState hi (Segment.serves_stepState g) heq.symm
  . exact hr.ne_findState hi (Segment.serves_growPart g (by decide)) heq.symm

theorem not_readsNames_applyState {i : Nat} (hi : i ≤ n) (z : String) :
    ¬ Segment.ReadsNames g (r.applyState i ++ z) := by
  rintro (heq | heq)
  . exact hr.ne_applyState hi z (Segment.serves_stepState g) heq.symm
  . exact hr.ne_applyState hi z (Segment.serves_growPart g (by decide)) heq.symm

end Route.WellFormed

def Segment.Unsaid (A : Alphabet) (F : List Directive) (R : List Route) (ys : List Directive)
    (s : String) (c : Cell) : Prop :=
  ∀ y, (y ∈ F ∨ (∃ r ∈ R, r.Prescribes A y) ∨ y ∈ ys) → y.serves s c = false

namespace Draft.Shares

variable {g : Guard} {A : Alphabet} {n : Nat} {F ys zs : List Directive} {made : List ChainKey}
  {R : List Route} {r : Route} {d : Draft} {x : Directive}

theorem lookup_eq_none (h : d.Shares g A n F made R ys) {s : String} (hs : ¬ g.Generates s) {c : Cell}
    (hunsaid : Segment.Unsaid A F R ys s c) : d.states.lookup s c = none := by
  obtain ⟨xs, hxs, hmem⟩ := h.inventory
  by_contra hlookup
  obtain ⟨x, hx, hserves⟩ := hxs.exists_serves hs hlookup
  rw [hunsaid x ((hmem x).mp hx)] at hserves
  cases hserves

theorem lookup_ne_none (h : d.Shares g A n F made R ys)
    (hx : x ∈ F ∨ (∃ r ∈ R, r.Prescribes A x) ∨ x ∈ ys) (hread : x.read ≠ .any) {c : Cell}
    (hc : x.read.Matches c) : d.states.lookup x.origin c ≠ none := by
  obtain ⟨xs, hxs, hmem⟩ := h.inventory
  have hserving := hxs.settled x ((hmem x).mpr hx) hread c hc
  exact hxs.obeys.covered _ _ x hserving fun hany => absurd hany hread

section

variable (hA : A.IsSegmented) (hr : r.WellFormed g n) (hreads : ∀ c ∈ r.reads, c ∈ A.declared)
include hA hr hreads

theorem exists_directive (h : d.Shares g A n F made R ys) (horderly : d.alphabet.IsOrderly)
    (hx : r.Prescribes A x) (hnodup : (x.read.cells []).Nodup)
    (haccepts : ∀ c ∈ x.read.cells [], d.alphabet.accepts c = true)
    (hfree : ∀ c ∈ x.read.cells [], d.states.lookup x.origin c = none) :
    ∃ d', Build.directive x d = .ok () d' ∧ d'.alphabet = d.alphabet
      ∧ d'.Shares g A n F made R (ys ++ [x]) := by
  obtain ⟨xs, hxs, _⟩ := h.inventory
  have hread := hx.read_ne_any
  have horigin := hx.not_generates hr
  have hadmits : d.Admits x.origin x.read :=
    ⟨hnodup, haccepts, hfree, fun hany => absurd hany hread⟩
  obtain ⟨origin, read, w, m, next, rfl⟩ := hx.isTransition
  obtain ⟨d', hok⟩ := Build.exists_transition horderly hxs.obeys.sound (.inl horigin) hadmits
    (fun _ _ => id) w m next
  obtain ⟨_, hgrows⟩ := hxs.transition horigin hread (hx.mem_cells hA hr hreads) hok
  exact ⟨d', hok, hgrows.alphabet, h.prescribed hA hr hreads hx hok⟩

theorem exists_directives (h : d.Shares g A n F made R ys) (horderly : d.alphabet.IsOrderly)
    (hzs : ∀ z ∈ zs, r.Prescribes A z ∧ (z.read.cells []).Nodup
      ∧ ∀ c ∈ z.read.cells [], d.alphabet.accepts c = true ∧ Segment.Unsaid A F R ys z.origin c)
    (hpairs : zs.Pairwise Directive.Apart) :
    ∃ d', Build.directives zs d = .ok () d' ∧ d'.alphabet = d.alphabet
      ∧ d'.Shares g A n F made R (ys ++ zs) := by
  induction zs generalizing ys d with
  | nil => exact ⟨d, rfl, rfl, by rwa [List.append_nil]⟩
  | cons z zs ih =>
    rw [List.forall_mem_cons] at hzs
    rw [List.pairwise_cons] at hpairs
    obtain ⟨⟨hz, hnodup, hcells⟩, hzs⟩ := hzs
    obtain ⟨d₁, hok₁, halphabet₁, h₁⟩ := h.exists_directive hA hr hreads horderly hz hnodup
      (fun c hc => (hcells c hc).1)
      (fun c hc => h.lookup_eq_none (hz.not_generates hr) (hcells c hc).2)
    obtain ⟨d', hok, halphabet, h'⟩ := ih h₁ (halphabet₁ ▸ horderly)
      (by
        intro y hy
        obtain ⟨hy', hnodup, hcells⟩ := hzs y hy
        refine ⟨hy', hnodup, fun c hc => ⟨halphabet₁ ▸ (hcells c hc).1, ?_⟩⟩
        rintro x (hx | hx | hx)
        . exact (hcells c hc).2 x (.inl hx)
        . exact (hcells c hc).2 x (.inr (.inl hx))
        . rcases List.mem_append.mp hx with hx | hx
          . exact (hcells c hc).2 x (.inr (.inr hx))
          . rw [List.mem_singleton.mp hx]
            exact (hpairs.1 y hy).not_serves hc)
      hpairs.2
    rw [List.append_assoc] at h'
    exact ⟨d', Build.forM_cons_eq_ok.mpr ⟨d₁, hok₁, hok⟩, halphabet.trans halphabet₁, h'⟩

theorem accepts_of_prescribes (h : d.Shares g A n F made R ys) (hx : r.Prescribes A x)
    (hnames : ¬ Segment.ReadsNames g x.origin) :
    ∀ c ∈ x.read.cells [], d.alphabet.accepts c = true := by
  obtain ⟨xs, hxs, _⟩ := h.inventory
  intro c hc
  apply hxs.obeys.sound.accepts
  rcases hx.mem_cells hA hr hreads with hcells | hstate
  . exact hcells c (Pattern.matches_of_mem_cells hc)
  . exact absurd hstate hnames

end

theorem unsaid_of_lookup (h : d.Shares g A n F made R ys) {s : String} (hs : Segment.ReadsNames g s)
    {c : Cell} (hlookup : d.states.lookup s c = none) : Segment.Unsaid A F R ys s c := by
  obtain ⟨xs, hxs, hmem⟩ := h.inventory
  intro y hy
  rw [Bool.eq_false_iff]
  intro hserves
  obtain ⟨rfl, hmatch⟩ := Directive.serves_eq_true_iff.mp hserves
  have hread : y.read ≠ .any := fun hany => hxs.wild y ((hmem y).mpr hy) hany hs
  exact h.lookup_ne_none hy hread hmatch hlookup

section

variable {first : String} (hA : A.IsSegmented) (hF : Segment.Suffices g first n A F)
  (hR : ∀ r ∈ R, r.WellFormed g n) (hr : r.WellFormed g n)
  (hreads : ∀ c ∈ r.reads, c ∈ A.declared)
include hA hF hR hr hreads

theorem exists_entry (h : d.Shares g A n F made R []) (horderly : d.alphabet.IsOrderly)
    (hrunning : isTerminal r.origin = false) (haccepts : d.alphabet.accepts (.state r.origin) = true)
    (hnone : d.states.lookup (Segment.stepState g) (.state r.origin) = none) :
    ∃ d', Build.directives r.entry d = .ok () d' ∧ d'.alphabet = d.alphabet
      ∧ d'.Shares g A n F made R r.entry := by
  have hstep : Segment.Unsaid A F R [] (Segment.stepState g) (.state r.origin) :=
    h.unsaid_of_lookup (.inl rfl) hnone
  have hdone : Segment.Unsaid A F R [] (Segment.growPart g "done") (.state r.origin) := by
    intro y hy
    rw [Bool.eq_false_iff]
    intro hserves
    rcases hy with hy | ⟨r', hr', hy⟩ | hy
    . rw [(hF.verdict_of_serves hA hy (.inr rfl) hserves).2] at hrunning
      cases hrunning
    . -- Another route from this state would begin a step in it.
      have horigin := hy.origin_of_serves (hR r' hr') (.inr rfl) hserves
      have hentry : r'.Prescribes A (.replace (Segment.stepState g) (.state r.origin) .blank .right
          (r'.findState 0)) := by
        apply Route.Prescribes.entry
        simp [Route.entry, horigin, (hR r' hr').guard]
      exact h.lookup_ne_none (.inr (.inl ⟨r', hr', hentry⟩)) (by simp) rfl hnone
    . cases hy
  apply @exists_directives _ _ _ _ [] _ _ _ _ _ hA hr hreads h horderly
  . intro z hz
    refine ⟨.entry hz, ?_⟩
    simp only [Route.entry, hr.guard, List.mem_cons, List.not_mem_nil, or_false] at hz
    rcases hz with rfl | rfl
    . refine ⟨List.pairwise_singleton _ _, ?_⟩
      intro c hc
      rw [List.mem_singleton.mp hc]
      exact ⟨haccepts, hstep⟩
    . refine ⟨List.pairwise_singleton _ _, ?_⟩
      intro c hc
      rw [List.mem_singleton.mp hc]
      exact ⟨haccepts, hdone⟩
  . rw [Route.entry, List.pairwise_pair]
    apply Or.inl
    simp [Directive.replace, Segment.stepState, Segment.growPart, Segment.growState,
      String.append_assoc]

theorem exists_pass (h : d.Shares g A n F made R ys) (horderly : d.alphabet.IsOrderly)
    (hnodup : A.declared.Nodup) {i : Nat} (hi : i < n)
    (hys : ∀ x ∈ ys, x.origin ≠ r.findState i) :
    ∃ d', (d.states.contains (r.findState i) = true ∧ d' = d
        ∨ d.states.contains (r.findState i) = false
          ∧ Build.directive (.pass (r.findState i) (Route.between A) .right (r.findState i)) d
            = .ok () d')
      ∧ d'.alphabet = d.alphabet
      ∧ d'.Shares g A n F made R
        (ys ++ [.pass (r.findState i) (Route.between A) .right (r.findState i)]) := by
  cases hcontains : d.states.contains (r.findState i) with
  | true =>
    refine ⟨d, .inl ⟨rfl, rfl⟩, rfl, ?_⟩
    exact h.add_pass hA (hF.isCommon hA) hR hr hreads hi hys (.inl ⟨hcontains, rfl⟩)
  | false =>
    have hpass : r.Prescribes A (.pass (r.findState i) (Route.between A) .right (r.findState i)) :=
      .pass (by rwa [hr.readsLength])
    obtain ⟨d', hok, halphabet, h'⟩ := h.exists_directive hA hr hreads horderly hpass
      (hA.nodup_between hnodup)
      (h.accepts_of_prescribes hA hr hreads hpass (hr.not_readsNames_findState hi))
      (fun c _ => StateTables.lookup_of_not_contains hcontains c)
    exact ⟨d', .inr ⟨rfl, hok⟩, halphabet, h'⟩

theorem exists_found (h : d.Shares g A n F made R ys) (horderly : d.alphabet.IsOrderly)
    (hnew : ∀ r' ∈ R, r'.origin = r.origin → r'.reads ≠ r.reads) {i : Nat} {c : Cell}
    (hread : r.reads[i]? = some c) (hys : ∀ x ∈ ys, x.serves (r.findState i) c.tagged = false) :
    ∃ d', (i + 1 ≠ n ∧ d.states.lookup (r.findState i) c.tagged ≠ none ∧ d' = d
        ∨ (i + 1 = n ∨ d.states.lookup (r.findState i) c.tagged = none)
          ∧ Build.directive (.replace (r.findState i) c.tagged c.tagged .right
            (r.findState (i + 1))) d = .ok () d')
      ∧ d'.alphabet = d.alphabet
      ∧ d'.Shares g A n F made R
        (ys ++ [.replace (r.findState i) c.tagged c.tagged .right (r.findState (i + 1))]) := by
  have hi : i < n := by
    rw [← hr.readsLength]
    exact Route.length_of_getElem? hread
  by_cases hshared : i + 1 ≠ n ∧ d.states.lookup (r.findState i) c.tagged ≠ none
  . refine ⟨d, .inl ⟨hshared.1, hshared.2, rfl⟩, rfl, ?_⟩
    exact h.add_found hA (hF.isCommon hA) hR hr hreads hread hys (.inl ⟨hshared.1, hshared.2, rfl⟩)
  . have hneeded : i + 1 = n ∨ d.states.lookup (r.findState i) c.tagged = none := by
      rwa [ne_eq, ne_eq, not_and_or, not_not, not_not] at hshared
    have hnone : d.states.lookup (r.findState i) c.tagged = none := by
      rcases hneeded with hlast | hnone
      . -- The last cell was found already only for a route with the same cells.
        apply h.lookup_eq_none (hr.not_generates_findState hi)
        rintro y (hy | ⟨r', hr', hy⟩ | hy)
        . exact Directive.not_serves_of_origin (hr.ne_findState hi ((hF.isCommon hA).serves y hy)) _
        . rw [Bool.eq_false_iff]
          intro hserves
          have hletter := (hr.reads c (List.mem_of_getElem? hread)).1
          obtain ⟨horigin, htake, hfound⟩ := hy.reads_of_serves hr (hR r' hr')
            hA.letters hi hletter hserves
          obtain rfl : i = n - 1 := by omega
          exact hnew r' hr' horigin
            (hr.reads_eq (hR r' hr') (Nat.zero_lt_of_lt hi) htake (hfound.trans hread.symm))
        . exact hys y hy
      . exact hnone
    have hfound : r.Prescribes A
        (.replace (r.findState i) c.tagged c.tagged .right (r.findState (i + 1))) := .found hread
    obtain ⟨d', hok, halphabet, h'⟩ := h.exists_directive hA hr hreads horderly hfound
      (List.pairwise_singleton _ _)
      (h.accepts_of_prescribes hA hr hreads hfound (hr.not_readsNames_findState hi))
      (by
        intro b hb
        rw [List.mem_singleton.mp hb]
        exact hnone)
    exact ⟨d', .inr ⟨hneeded, hok⟩, halphabet, h'⟩

theorem exists_findHeads (h : d.Shares g A n F made R r.entry) (horderly : d.alphabet.IsOrderly)
    (hnodup : A.declared.Nodup) (hnew : ∀ r' ∈ R, r'.origin = r.origin → r'.reads ≠ r.reads) :
    ∃ d', Build.findHeads r d = .ok () d' ∧ d'.alphabet = d.alphabet
      ∧ d'.Shares g A n F made R (r.entry ++ r.reads.zipIdx.flatMap (r.search A)) := by
  unfold Build.findHeads
  rw [Build.bind_of_ok (Build.get_apply d)]
  apply @Build.exists_forM _ _ _ fun done e => e.alphabet = d.alphabet
    ∧ e.Shares g A n F made R (r.entry ++ done.flatMap (r.search A))
  . rintro done ⟨c, i⟩ rest e hitems ⟨halphabet, he⟩
    have hread : r.reads[i]? = some c :=
      @Route.getElem?_of_mem_zipIdx _ _ (c, i) (by rw [hitems]; simp)
    have hi : i < n := by
      rw [← hr.readsLength]
      exact Route.length_of_getElem? hread
    obtain ⟨e₁, hpass, halphabet₁, he₁⟩ := he.exists_pass hA hF hR hr hreads (halphabet ▸ horderly)
      hnodup hi (hr.origin_ne_of_append A hitems)
    obtain ⟨e₂, hfound, halphabet₂, he₂⟩ := he₁.exists_found hA hF hR hr hreads
      (by rw [halphabet₁, halphabet]; exact horderly) hnew hread
      (hr.not_serves_of_append hA.letters hitems)
    refine ⟨e₂, ?_, by rw [halphabet₂, halphabet₁, halphabet], ?_⟩
    . dsimp only
      rw [Build.bind_eq_ok]
      refine ⟨_, e, rfl, ?_⟩
      have hrest : (do
          let known ← Build.hasRule (r.findState i) c.tagged
          if (i + 1 == r.reads.length || !known) = true then
            Build.directive (.replace (r.findState i) c.tagged c.tagged .right (r.findState (i + 1)))
          else pure ()) e₁ = .ok () e₂ := by
        rw [Build.bind_eq_ok]
        refine ⟨_, e₁, rfl, ?_⟩
        rw [hr.readsLength]
        rcases hfound with ⟨hne, hlookup, rfl⟩ | ⟨hneeded, hok⟩
        . rw [if_neg (by simp [hne, Option.isSome_iff_ne_none.mpr hlookup])]
          rfl
        . rw [if_pos (by simpa using hneeded)]
          exact hok
      rcases hpass with ⟨hcontains, rfl⟩ | ⟨hcontains, hok⟩
      . rw [if_neg (by simp [hcontains])]
        exact hrest
      . rw [if_pos (by simp [hcontains]), h.between_eq, Build.bind_of_ok hok]
        exact hrest
    . rw [List.append_assoc, List.append_assoc] at he₂
      rwa [List.flatMap_append, List.flatMap_singleton]
  . exact ⟨rfl, by rwa [List.flatMap_nil, List.append_nil]⟩

omit hR hreads in
/--
Nothing is said about the states that act on a tape, or record the next state, if the first of them is
not there: each route that has one of them has that one.
-/
theorem unsaid_of_absent (h : d.Shares g A n F made R ys) {i : Nat} (hi : i ≤ n)
    (hys : ∀ z ∈ Route.endings, ∀ x ∈ ys, x.origin ≠ r.applyState i ++ z) {x : Directive}
    (hshare : ∀ r' ∈ R, ∀ y z, z ∈ Route.endings → r'.Prescribes A y →
      y.origin = r.applyState i ++ z → r'.Prescribes A x)
    (horigin : x.origin = r.applyState i) (hbound : x.read.Matches .boundLeft)
    (habsent : d.states.contains (r.applyState i) = false) {z : String} (hz : z ∈ Route.endings)
    (c : Cell) : Segment.Unsaid A F R ys (r.applyState i ++ z) c := by
  rintro y (hy | ⟨r', hr', hy⟩ | hy)
  . exact Directive.not_serves_of_origin (hr.ne_applyState hi z ((hF.isCommon hA).serves y hy)) c
  . apply Directive.not_serves_of_origin
    intro heq
    have hx := hshare r' hr' y z hz hy heq
    have hlookup := h.lookup_ne_none (.inr (.inl ⟨r', hr', hx⟩)) hx.read_ne_any hbound
    rw [horigin] at hlookup
    exact hlookup (StateTables.lookup_of_not_contains habsent _)
  . exact Directive.not_serves_of_origin (hys z hz y hy) c

omit hR in
theorem exists_block (h : d.Shares g A n F made R ys) (horderly : d.alphabet.IsOrderly) {i : Nat}
    (hi : i ≤ n) (hys : ∀ z ∈ Route.endings, ∀ x ∈ ys, x.origin ≠ r.applyState i ++ z)
    (hshare : ∀ r' ∈ R, ∀ y z, z ∈ Route.endings → r'.Prescribes A y →
      y.origin = r.applyState i ++ z → ∀ x ∈ zs, r'.Prescribes A x)
    (hx : x ∈ zs) (horigin : x.origin = r.applyState i) (hbound : x.read.Matches .boundLeft)
    (hzs : ∀ z ∈ zs, r.Prescribes A z ∧ (z.read.cells []).Nodup)
    (horigins : ∀ z ∈ zs, ∃ w ∈ Route.endings, z.origin = r.applyState i ++ w)
    (hpairs : zs.Pairwise Directive.Apart) :
    ∃ d', (d.states.contains (r.applyState i) = true ∧ d' = d
        ∨ d.states.contains (r.applyState i) = false ∧ Build.directives zs d = .ok () d')
      ∧ d'.alphabet = d.alphabet ∧ d'.Shares g A n F made R (ys ++ zs) := by
  have hempty : "" ∈ Route.endings := by decide
  cases hcontains : d.states.contains (r.applyState i) with
  | true =>
    refine ⟨d, .inl ⟨rfl, rfl⟩, rfl, ?_⟩
    obtain ⟨r', hr', y, hy, heq⟩ := h.share_apply (hF.isCommon hA) hr hi (hys "" hempty) hcontains
    apply h.shared
    intro z hz
    exact ⟨r', hr', hshare r' hr' y "" hempty hy heq z hz⟩
  | false =>
    obtain ⟨d', hok, halphabet, h'⟩ := h.exists_directives hA hr hreads horderly
      (by
        intro z hz
        obtain ⟨w, hw, hw'⟩ := horigins z hz
        refine ⟨(hzs z hz).1, (hzs z hz).2, fun c hc => ⟨?_, ?_⟩⟩
        . refine h.accepts_of_prescribes hA hr hreads (hzs z hz).1 ?_ c hc
          rw [hw']
          exact hr.not_readsNames_applyState hi w
        . rw [hw']
          exact h.unsaid_of_absent hA hF hr hi hys
            (fun r' hr' y z hz hy heq => hshare r' hr' y z hz hy heq x hx) horigin hbound hcontains hw c)
      hpairs
    exact ⟨d', .inr ⟨rfl, hok⟩, halphabet, h'⟩

theorem exists_applyActions
    (h : d.Shares g A n F made R (r.entry ++ r.reads.zipIdx.flatMap (r.search A)))
    (horderly : d.alphabet.IsOrderly) (hnodup : A.declared.Nodup) :
    ∃ d', Build.applyActions r d = .ok () d' ∧ d'.alphabet = d.alphabet
      ∧ d'.Shares g A n F made R (r.entry ++ r.reads.zipIdx.flatMap (r.search A)
        ++ (r.writes.zip r.moves).zipIdx.reverse.flatMap (r.act A)) := by
  unfold Build.applyActions
  rw [Build.bind_of_ok (Build.get_apply d)]
  apply @Build.exists_forM _ _ _ fun done e => e.alphabet = d.alphabet
    ∧ e.Shares g A n F made R
      (r.entry ++ r.reads.zipIdx.flatMap (r.search A) ++ done.flatMap (r.act A))
  . rintro done ⟨⟨w, m⟩, i⟩ rest e hitems ⟨halphabet, he⟩
    have hmem : ((w, m), i) ∈ (r.writes.zip r.moves).zipIdx := by
      rw [← List.mem_reverse, hitems]
      simp
    obtain ⟨hwrite, hmove⟩ := Route.getElem?_of_mem_zip hmem
    have hi : i < n := by
      rw [← hr.writesLength]
      exact Route.length_of_getElem? hwrite
    obtain ⟨e', hblock, halphabet', he'⟩ := he.exists_block hA hF hr hreads
      (halphabet ▸ horderly) hi
      (fun z hz => hr.origin_ne_of_reverse A hitems hz)
      (fun r' hr' y z hz hy heq x hx => hy.share_action hr (hR r' hr') hi hwrite hmove hz heq hx)
      (List.mem_append_left _ List.mem_cons_self) rfl (by simp [Directive.pass, Route.between, Pattern.Matches])
      (fun z hz => ⟨.action hwrite hmove hz, hA.nodup_of_mem_action hnodup hz⟩)
      (fun z hz => Route.origin_of_mem_action hz) (hA.pairwise_action hnodup r (i + 1) w m)
    refine ⟨e', ?_, by rw [halphabet', halphabet], ?_⟩
    . dsimp only
      rw [Build.bind_eq_ok]
      refine ⟨_, e, rfl, ?_⟩
      rcases hblock with ⟨hcontains, rfl⟩ | ⟨hcontains, hok⟩
      . rw [if_neg (by simp [hcontains])]
        rfl
      . rw [if_pos (by simp [hcontains]), h.action_eq]
        exact hok
    . rwa [List.flatMap_append, List.flatMap_singleton, ← List.append_assoc]
  . exact ⟨rfl, by rwa [List.flatMap_nil, List.append_nil]⟩

theorem exists_begin (h : d.Shares g A n F made R []) (horderly : d.alphabet.IsOrderly) (hn : 0 < n)
    (hrunning : isTerminal r.origin = false) :
    ∃ d', (((d.states.lookup (Segment.stepState r.guard) (.state r.origin)).isSome = true ∧ d' = d)
        ∨ (d.states.lookup (Segment.stepState r.guard) (.state r.origin)).isSome = false
          ∧ Build.directives r.entry { d with alphabet := d.alphabet.add (.state r.origin) }
            = .ok () d')
      ∧ d'.alphabet.IsOrderly ∧ d'.Shares g A n F made R r.entry := by
  rw [hr.guard]
  cases hknown : d.states.lookup (Segment.stepState g) (.state r.origin) with
  | some o =>
    obtain ⟨r', hr', hshared⟩ :=
      h.share_entry (hF.isCommon hA) hR hr hn (by rw [hknown]; exact Option.some_ne_none o)
    refine ⟨d, .inl ⟨rfl, rfl⟩, horderly, ?_⟩
    exact @shared _ _ _ _ [] _ _ _ _ h fun x hx => ⟨r', hr', hshared x hx⟩
  | none =>
    have horderly' := horderly.add r.origin
    have haccepts := horderly'.accepts (.state r.origin) (Alphabet.mem_symbols_add.mpr (.inr rfl))
    obtain ⟨d', hok, halphabet, h'⟩ := (h.addSymbol hA r.origin).exists_entry hA hF hR hr hreads
      horderly' hrunning haccepts hknown
    exact ⟨d', .inr ⟨rfl, hok⟩, halphabet ▸ horderly', h'⟩

/-- A route can be added if there is none for its state and its cells. -/
theorem exists_route (h : d.Shares g A n F made R []) (horderly : d.alphabet.IsOrderly)
    (hnodup : A.declared.Nodup) (hn : 0 < n) (hrunning : isTerminal r.origin = false)
    (hnew : ∀ r' ∈ R, r'.origin = r.origin → r'.reads ≠ r.reads) :
    ∃ d', Build.route r d = .ok () d' ∧ d'.alphabet.IsOrderly := by
  obtain ⟨d₁, hbegin, horderly₁, h₁⟩ := h.exists_begin hA hF hR hr hreads horderly hn hrunning
  obtain ⟨d₂, hfind, halphabet₂, h₂⟩ :=
    h₁.exists_findHeads hA hF hR hr hreads horderly₁ hnodup hnew
  have horderly₂ := halphabet₂ ▸ horderly₁
  obtain ⟨d₃, hactions, halphabet₃, h₃⟩ :=
    h₂.exists_applyActions hA hF hR hr hreads horderly₂ hnodup
  have horderly₃ := halphabet₃ ▸ horderly₂
  obtain ⟨d₄, hrecord, halphabet₄, _⟩ := h₃.exists_block hA hF hr hreads horderly₃
    (Nat.zero_le n) (fun z hz x hx => hr.origin_ne_back A hz hx)
    (fun r' hr' y z hz hy heq x hx => hy.share_record hr (hR r' hr') hz heq hx)
    (List.mem_cons_of_mem _ List.mem_cons_self) rfl rfl
    (fun z hz => ⟨.record hz, Alphabet.HasHeads.nodup_of_mem_record hnodup hz⟩)
    (fun z hz => Route.origin_of_mem_record hz) (hA.pairwise_record r)
  refine ⟨d₄, ?_, halphabet₄ ▸ horderly₃⟩
  have hrest : (do
      Build.findHeads r
      Build.applyActions r
      let known ← Build.hasState (r.applyState 0)
      if (!known) = true then do
        let e ← get
        Build.directives (r.record e.alphabet)
      else pure ()) d₁ = .ok () d₄ := by
    rw [Build.bind_of_ok hfind, Build.bind_of_ok hactions, Build.bind_eq_ok]
    refine ⟨_, d₃, rfl, ?_⟩
    rcases hrecord with ⟨hcontains, rfl⟩ | ⟨hcontains, hok⟩
    . rw [if_neg (by simp [hcontains])]
      rfl
    . rw [if_pos (by simp [hcontains]), Build.bind_of_ok (Build.get_apply d₃), h₃.record_eq]
      exact hok
  unfold Build.route
  rw [Build.bind_eq_ok]
  refine ⟨_, d, rfl, ?_⟩
  rcases hbegin with ⟨hknown, rfl⟩ | ⟨hknown, hok⟩
  . rw [if_neg (by simp [hknown])]
    exact hrest
  . rw [if_pos (by simp [hknown]), Build.bind_eq_ok]
    refine ⟨(), _, rfl, ?_⟩
    rw [Build.bind_of_ok hok]
    exact hrest

end

end Draft.Shares

end TuringLowering
