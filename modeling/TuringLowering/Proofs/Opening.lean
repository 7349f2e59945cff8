import TuringLowering.Proofs.Admission
import TuringLowering.Proofs.Mirror

/-!
This module contains the proof that several tapes can be opened on every draft without rules, whatever the
features are: the directives that serve all routes leave room for each other.
-/

namespace TuringLowering

namespace Alphabet

theorem IsOrderly.add {A : Alphabet} (h : A.IsOrderly) (q : String) : (A.add (.state q)).IsOrderly := by
  refine ⟨nodup_addNew h.nodup _, ?_⟩
  intro c hc
  rcases mem_symbols_add.mp hc with hmem | rfl
  . exact accepts_mono (fun b hb => mem_symbols_add.mpr (.inl hb)) (h.accepts c hmem)
  . exact accepts_of_mem_symbols hc

theorem isOrderly_shared {A : Alphabet} (hA : A.IsLettered) (hnodup : A.declared.Nodup)
    (hsimulating : A.simulating = false) (first : String) : (A.shared first).IsOrderly := by
  have hsegments : A.withSegments.IsOrderly := by
    have hsymbols : ∀ c ∈ A.withSegments.symbols, c ∈ Segment.cells (A.shared first) := by
      intro c hc
      rw [withSegments, if_neg (by simp [hsimulating]), Build.mem_foldl_addNew, hA.symbols] at hc
      rw [Segment.cells, declared_shared, heads_shared first hsimulating]
      simp only [List.mem_append] at hc ⊢
      tauto
    constructor
    . rw [withSegments, if_neg (by simp [hsimulating])]
      exact nodup_foldl_addNew (hA.symbols ▸ hnodup) _
    . intro c hc
      have hS := hasHeads_shared first hA hsimulating
      obtain ⟨m, tag, rfl⟩ := Segment.exists_atom hS (hsymbols c hc)
      exact accepts_of_mem_symbols hc
  exact ((hsegments.add first).add _).add _

end Alphabet

theorem Pattern.matches_of_mem_cells {p : Pattern} {c : Cell} (h : c ∈ p.cells []) : p.Matches c := by
  cases p with
  | cell c' => exact List.mem_singleton.mp h
  | oneOf cells => exact h
  | any => cases h

namespace Directive

/-- Another directive about a state is left with all its cells, or with `b` if it is about any cell. -/
def Spares (b : Cell) (y x : Directive) : Prop :=
  y.origin ≠ x.origin ∨ ∀ c ∈ x.read.cells [b], ¬ y.read.Matches c

theorem Spares.not_serves {b c : Cell} {x y : Directive} (h : y.Spares b x)
    (hc : c ∈ x.read.cells [b]) : y.serves x.origin c = false := by
  rw [Bool.eq_false_iff]
  intro hserves
  obtain ⟨horigin, hmatch⟩ := serves_eq_true_iff.mp hserves
  rcases h with h | h
  . exact h horigin
  . exact h c hc hmatch

theorem spares_idle (b : Cell) (s : String) (x : Directive) : (idle s).Spares b x := by
  right
  intro c _ hmatch
  cases hmatch

theorem joins_of_spares {B : List Cell} {xs : List Directive} {x : Directive} {b : Cell} (hb : b ∈ B)
    (hnodup : (x.read.cells []).Nodup) (hne : x.read.cells [b] ≠ []) (h : ∀ y ∈ xs, y.Spares b x) :
    x.Joins B xs := by
  have hserving {c : Cell} (hc : c ∈ x.read.cells [b]) : serving xs x.origin c = none :=
    List.find?_eq_none.mpr fun y hy => by simp [(h y hy).not_serves hc]
  refine ⟨hnodup, ?_, ?_⟩
  . intro c hc
    apply hserving
    cases hread : x.read with
    | any =>
      rw [hread] at hc
      cases hc
    | cell c' => rwa [hread] at hc
    | oneOf cells => rwa [hread] at hc
  . obtain ⟨c, hc⟩ := List.exists_mem_of_ne_nil _ hne
    refine ⟨c, ?_, hserving hc⟩
    cases hread : x.read with
    | any =>
      rw [hread] at hc
      rwa [List.mem_singleton.mp hc]
    | cell c' => rwa [hread] at hc
    | oneOf cells => rwa [hread] at hc

end Directive

namespace Alphabet.HasHeads

variable {A : Alphabet} (hA : A.HasHeads)
include hA

theorem not_mem_content {c : Cell}
    (hc : c ∈ [Cell.start, .boundLeft, .boundRight, .afterLast, Cell.boundRight.tagged]
      ∨ ∃ q, c = .state q) : c ∉ A.declared ∧ c ∉ A.heads := by
  have hletter {b : Cell} (hb : b.IsLetter) : ¬ (c = b ∨ c = b.tagged) := by
    obtain ⟨char, rfl⟩ | rfl := hb
    . rintro (rfl | rfl) <;> simp [Cell.ofChar, Cell.tagged, Cell.withHead] at hc
    . rintro (rfl | rfl) <;> simp [Cell.tagged, Cell.withHead] at hc
  constructor
  . exact fun hmem => hletter (hA.letters c hmem) (.inl rfl)
  . intro hmem
    rw [hA.heads] at hmem
    obtain ⟨b, hb, rfl⟩ := List.mem_map.mp hmem
    exact hletter (hA.letters b hb) (.inr rfl)

theorem bound_not_mem : Cell.boundLeft ∉ A.declared ∧ Cell.boundRight ∉ A.declared :=
  ⟨(hA.not_mem_content (.inl (by simp))).1, (hA.not_mem_content (.inl (by simp))).1⟩

variable (hnodup : A.declared.Nodup)
include hnodup

theorem nodup_heads : A.heads.Nodup := by
  rw [hA.heads]
  refine List.Nodup.map_on ?_ hnodup
  intro c hc c' hc' heq
  exact (hA.letters c hc).eq_of_tagged (hA.letters c' hc') heq

theorem nodup_cells : (Segment.cells A).Nodup := by
  rw [Segment.cells, List.nodup_append, List.nodup_append]
  refine ⟨⟨hnodup, hA.nodup_heads hnodup, ?_⟩, by decide, ?_⟩
  . rintro c hc c' hc' rfl
    rw [hA.heads] at hc'
    obtain ⟨b, _, rfl⟩ := List.mem_map.mp hc'
    have hhead := (hA.letters _ hc).head
    rw [Cell.head_tagged] at hhead
    cases hhead
  . rintro c hc c' hc' rfl
    have hnot := hA.not_mem_content (.inl hc')
    exact (List.mem_append.mp hc).elim hnot.1 hnot.2

end Alphabet.HasHeads

namespace Segment

variable {g : Guard} {first : String} {n : Nat} {A : Alphabet}

theorem wrap_ne {t t' p p' r : String} (ht : Guard.Clean t) (ht' : Guard.Clean t')
    (hne : t ≠ t' ∨ p ≠ p') : g.wrap [t, p, r] ≠ g.wrap [t', p', r] := by
  intro heq
  have hbehind := congrArg String.toList heq
  rw [Guard.toList_wrap, Guard.toList_wrap] at hbehind
  obtain ⟨rfl, hrest⟩ :=
    Guard.behind_inj_of_apart (.of_clean ht g) (.of_clean ht' g) (List.append_cancel_left hbehind)
  simp only [Guard.behind, List.cons.injEq, true_and] at hrest
  have hp := String.toList_injective (List.append_cancel_right hrest)
  exact hne.elim (absurd rfl) (absurd hp)

theorem names_common :
    ((common g first n A).filterMap Directive.key?).Pairwise fun k k' =>
      g.wrap k.nameParts ≠ g.wrap k'.nameParts := by
  have hfirst (p r : String) :
      g.wrap ["firstCellMarker", Draft.defaultStart, r] ≠ g.wrap ["afterCellMarker", p, r] :=
    wrap_ne (by decide) (by decide) (.inl (by decide))
  have hafter {p p' : String} (h : p ≠ p') (r : String) :
      g.wrap ["afterCellMarker", p, r] ≠ g.wrap ["afterCellMarker", p', r] :=
    wrap_ne (by decide) (by decide) (.inr h)
  rw [keys_common]
  simp only [List.pairwise_cons, List.forall_mem_cons, ChainKey.nameParts]
  refine ⟨⟨hfirst _ _, hfirst _ _, hfirst _ _, by simp⟩, ⟨hafter ?_ _, hafter ?_ _, by simp⟩,
    ⟨hafter ?_ _, by simp⟩, by simp⟩
  all_goals simp [layoutPart, growPart, growState, String.append_assoc]

theorem read_layout : ∀ x ∈ layout g Draft.defaultStart first n A.declared,
    (x.read.cells []).Nodup ∧ x.read.cells [.boundLeft] ≠ [] := by
  simp [layout, Pattern.cells, or_imp, forall_and]

theorem spares_layout (hnodup : A.declared.Nodup) :
    (layout g Draft.defaultStart first n A.declared).Pairwise (Directive.Spares .boundLeft) := by
  have hdeclared : A.declared.Pairwise fun a b => ¬ b = a := hnodup.imp fun hne heq => hne heq.symm
  simpa [layout, Directive.Spares, layoutPart, String.append_assoc, defaultStart_ne, List.pairwise_map,
    Pattern.Matches, Pattern.cells] using hdeclared

theorem read_growth (hA : A.HasHeads) (hnodup : A.declared.Nodup) : ∀ x ∈ growth g A,
    (x.read.cells []).Nodup ∧ x.read.cells [.boundLeft] ≠ [] := by
  have hcells := hA.nodup_cells hnodup
  have hcontent : (A.declared ++ (A.heads ++ [Cell.boundLeft, .boundRight])).Nodup :=
    hcells.sublist (by simp [cells])
  have hbound : (A.declared ++ (A.heads ++ [.boundLeft, .boundRight, Cell.boundRight.tagged])).Nodup :=
    hcells.sublist (by simp [cells])
  simp [growth, Pattern.cells, or_imp, forall_and, hcontent, hbound]

theorem spares_growth (hA : A.HasHeads) : (growth g A).Pairwise (Directive.Spares .boundLeft) := by
  have hmarker {c : Cell}
      (hc : c ∈ [Cell.start, .boundLeft, .boundRight, .afterLast, Cell.boundRight.tagged]) :=
    hA.not_mem_content (.inl hc)
  have hstate (q : String) := hA.not_mem_content (c := .state q) (.inr ⟨q, rfl⟩)
  simp [growth, Directive.Spares, growPart, growState, String.append_assoc, Pattern.Matches,
    Pattern.cells, Verdict.all, hmarker, hstate]
  decide

theorem spares_common (hA : A.HasHeads) (hnodup : A.declared.Nodup) :
    (common g first n A).Pairwise (Directive.Spares .boundLeft) := by
  have hapart : ∀ x ∈ layout g Draft.defaultStart first n A.declared, ∀ y ∈ growth g A,
      x.origin ≠ y.origin := by
    simp [layout, growth, layoutPart, growPart, growState, String.append_assoc, defaultStart_ne, or_imp,
      forall_and]
  have hstep : ∀ x ∈ layout g Draft.defaultStart first n A.declared, x.origin ≠ stepState g := by
    simp [layout, layoutPart, stepState, String.append_assoc, defaultStart_ne, or_imp, forall_and]
  rw [common, List.pairwise_append, List.pairwise_cons]
  refine ⟨spares_layout hnodup, ⟨fun y _ => Directive.spares_idle _ _ y, spares_growth hA⟩, ?_⟩
  intro x hx y hy
  left
  rcases List.mem_cons.mp hy with rfl | hy
  . exact hstep x hx
  . exact hapart x hx y hy

theorem spares_withIdle (g : Guard) (first : String) (n : Nat) (names : List String) (hA : A.HasHeads)
    (hnodup : A.declared.Nodup) :
    (names.map Directive.idle ++ common g first n A).Pairwise (Directive.Spares .boundLeft) := by
  have hidle : ∀ x ∈ names.map Directive.idle, ∀ y, x.Spares .boundLeft y :=
    List.forall_mem_map.mpr fun s _ => Directive.spares_idle _ s
  rw [List.pairwise_append]
  exact ⟨List.pairwise_of_forall_mem_list fun x hx y _ => hidle x hx y, spares_common hA hnodup,
    fun x hx y _ => hidle x hx y⟩

theorem names_withIdle (g : Guard) (first : String) (n : Nat) (A : Alphabet) (names : List String) :
    ((names.map Directive.idle ++ common g first n A).filterMap Directive.key?).Pairwise fun k k' =>
      g.wrap k.nameParts ≠ g.wrap k'.nameParts := by
  rw [List.filterMap_append, Directive.keys_idle]
  exact names_common

theorem withIdle_eq (names : List String) :
    names.map Directive.idle ++ common g first n A
      = names.map Directive.idle ++ layout g Draft.defaultStart first n A.declared
        ++ [.idle (stepState g)] ++ growth g A := by
  simp [common]

end Segment

namespace Draft

namespace Executed

variable {g : Guard} {B : List Cell} {S : String → Prop} {xs ys : List Directive} {x : Directive}
  {d : Draft}

theorem exists_directive (h : d.Executed g B S xs) (hA : d.alphabet.IsOrderly)
    (hapart : d.SymbolsApart) (horigin : ¬ g.Generates x.origin) (hjoins : x.Joins B xs)
    (hread : ∀ c ∈ x.read.cells [], c ∈ d.alphabet.symbols)
    (hmarker : ∀ origin read marker insert next,
      x = .gadget origin read (.insertAfter marker insert) next → d.alphabet.accepts marker = true)
    (hnames : ∀ y ∈ xs, ∀ k ∈ y.key?, ∀ k' ∈ x.key?, g.wrap k.nameParts ≠ g.wrap k'.nameParts) :
    ∃ d', Build.directive x d = .ok () d' := by
  apply h.obeys.exists_directive hA hapart horigin hjoins hread hmarker
  intro k hk e he hkind heq
  obtain ⟨hformed, hwrap⟩ := h.obeys.sound.formed e he hkind
  rw [hwrap, h.guard] at heq
  rcases h.keys e he with hstep | hjoint | ⟨y, hy, hkey⟩
  . -- A state that takes a step is generated for its key alone.
    have hkformed := (Directive.parts_of_key? d.guard hk).1
    rw [h.guard] at hformed hkformed
    rw [hformed.eq_of_wrap hkformed hstep heq] at hstep
    exact Directive.not_isStep_of_key? hk hstep
  . exact hkind hjoint
  . exact hnames y hy e.1 hkey k hk heq

theorem exists_directives (h : d.Executed g B S xs) (hA : d.alphabet.IsOrderly)
    (hapart : d.SymbolsApart) (horigins : ∀ y ∈ ys, ¬ g.Generates y.origin)
    (hreads : ∀ y ∈ ys, ∀ c ∈ y.read.cells [], c ∈ d.alphabet.symbols ∧ (c ∈ B ∨ S y.origin))
    (hwild : ∀ y ∈ ys, y.read = .any → ¬ S y.origin)
    (hmarkers : ∀ y ∈ ys, ∀ origin read marker insert next,
      y = .gadget origin read (.insertAfter marker insert) next → d.alphabet.accepts marker = true)
    {b : Cell} (hb : b ∈ B) (hcells : ∀ y ∈ ys, (y.read.cells []).Nodup ∧ y.read.cells [b] ≠ [])
    (hspares : (xs ++ ys).Pairwise (Directive.Spares b))
    (hnames : ((xs ++ ys).filterMap Directive.key?).Pairwise fun k k' =>
      g.wrap k.nameParts ≠ g.wrap k'.nameParts) :
    ∃ d', Build.directives ys d = .ok () d' := by
  induction ys generalizing xs d with
  | nil => exact ⟨d, rfl⟩
  | cons y ys ih =>
    rw [List.forall_mem_cons] at horigins hreads hwild hmarkers hcells
    have hjoins : y.Joins B xs := Directive.joins_of_spares hb hcells.1.1 hcells.1.2 fun x hx =>
      (List.pairwise_append.mp hspares).2.2 x hx y List.mem_cons_self
    rw [List.append_cons] at hspares hnames
    have hnames₁ := hnames
    rw [List.filterMap_append, List.pairwise_append] at hnames₁
    obtain ⟨d₁, hy⟩ := h.exists_directive hA hapart horigins.1 hjoins
      (fun c hc => (hreads.1 c hc).1) hmarkers.1
      (by
        intro x hx k hk k' hk'
        rw [List.filterMap_append, List.pairwise_append] at hnames₁
        exact hnames₁.1.2.2 k (List.mem_filterMap.mpr ⟨x, hx, hk⟩) k'
          (List.mem_filterMap.mpr ⟨y, List.mem_singleton_self y, hk'⟩))
    have hkeys₁ : ((xs ++ [y]).filterMap Directive.key?).Nodup :=
      hnames₁.1.imp fun hne heq => hne (congrArg (g.wrap ·.nameParts) heq)
    obtain ⟨h₁, hgrows⟩ := h.directives hapart (List.forall_mem_singleton.mpr horigins.1)
      (List.forall_mem_singleton.mpr hreads.1) (List.forall_mem_singleton.mpr hwild.1) hkeys₁
      (Build.forM_cons_eq_ok.mpr ⟨d₁, hy, rfl⟩)
    obtain ⟨d', hys⟩ := ih h₁ (hgrows.alphabet ▸ hA) (hapart.grows hgrows) horigins.2
      (hgrows.alphabet ▸ hreads.2) hwild.2 (hgrows.alphabet ▸ hmarkers.2) hcells.2 hspares hnames
    exact ⟨d', Build.forM_cons_eq_ok.mpr ⟨d₁, hy, hys⟩⟩

end Executed

section

variable {n : Nat} {first : String} {d : Draft} (hA : d.alphabet.IsLettered)
  (hnodup : d.alphabet.declared.Nodup) (hsimulating : d.alphabet.simulating = false)
  (hfirst : d.guard.Free first) (hd : d.Unbegun)
include hA hnodup hsimulating hfirst hd

/-- A shared tape can be prepared on every draft without rules. -/
theorem exists_simulateTapes (hstart : d.start = defaultStart) :
    ∃ d', Build.simulateTapes n first d = .ok () d' ∧ d'.alphabet = d.alphabet.shared first := by
  have hS := Alphabet.hasHeads_shared first hA hsimulating
  have horderly := Alphabet.isOrderly_shared hA hnodup hsimulating first
  have hapart := symbolsApart_withShared hA hsimulating hfirst
  have hdeclared : (d.alphabet.shared first).declared.Nodup := by rwa [Alphabet.declared_shared]
  have hbound : Cell.boundLeft ∈ Segment.cells (d.alphabet.shared first) := by simp [Segment.cells]
  have hcommon (x : Directive) (hx : x ∈ Segment.common d.guard first n (d.alphabet.shared first)) :=
    mem_common_facts hA hsimulating x hx
  have hmarkers : ∀ x ∈ Segment.common d.guard first n (d.alphabet.shared first),
      ∀ origin read marker insert next, x = .gadget origin read (.insertAfter marker insert) next →
        (d.alphabet.shared first).accepts marker = true := by
    rintro x hx origin read marker insert next rfl
    apply horderly.accepts
    exact (Alphabet.mem_symbols_shared first hA hsimulating).mpr (.inl (Segment.marker_mem_cells hx))
  have hspares := Segment.spares_withIdle d.guard first n d.states.names hS hdeclared
  have hnames := Segment.names_withIdle d.guard first n (d.alphabet.shared first) d.states.names
  rw [Segment.withIdle_eq] at hspares hnames
  have hspares₁ := hspares
  have hnames₁ := hnames
  rw [List.append_assoc, List.pairwise_append] at hspares₁
  rw [List.append_assoc, List.filterMap_append, List.pairwise_append] at hnames₁
  obtain ⟨d₁, h₁⟩ := (executed_withShared hA hsimulating hd).exists_directives
    horderly hapart (fun y hy => (hcommon y (Segment.mem_common_of_layout hy)).1)
    (fun y hy => (hcommon y (Segment.mem_common_of_layout hy)).2.1)
    (fun y hy => (hcommon y (Segment.mem_common_of_layout hy)).2.2)
    (fun y hy => hmarkers y (Segment.mem_common_of_layout hy)) hbound Segment.read_layout hspares₁.1
    hnames₁.1
  obtain ⟨d₂, h₂⟩ : ∃ d₂, Build.addState (Segment.stepState d.guard) d₁ = .ok () d₂ := ⟨_, rfl⟩
  obtain ⟨hexecuted, _, hrest⟩ := executed_layout hA hsimulating hfirst hd h₁ h₂
  have halphabet : d₂.alphabet = d.alphabet.shared first := by rw [hrest]; rfl
  have hguard : d₂.guard = d.guard := by rw [hrest]; rfl
  obtain ⟨d₃, h₃⟩ := hexecuted.exists_directives (halphabet ▸ horderly)
    (by
      intro c hc
      rw [hguard]
      rw [halphabet] at hc
      exact hapart c hc)
    (fun y hy => (hcommon y (Segment.mem_common_of_growth hy)).1)
    (by
      rw [halphabet]
      exact fun y hy => (hcommon y (Segment.mem_common_of_growth hy)).2.1)
    (fun y hy => (hcommon y (Segment.mem_common_of_growth hy)).2.2)
    (by
      rw [halphabet]
      exact fun y hy => hmarkers y (Segment.mem_common_of_growth hy))
    hbound (Segment.read_growth hS hdeclared) hspares hnames
  refine ⟨d₃, ?_, ?_⟩
  . rw [simulateTapes_apply, hstart, Build.bind_of_ok h₁, Build.bind_of_ok h₂, h₃]
  . obtain ⟨_, hgrows⟩ := executed_growth hA hsimulating hfirst hexecuted hrest h₃
    rw [hgrows.alphabet, halphabet]

end

end Draft

end TuringLowering
