import TuringLowering.Proofs.Layout

/-!
This module contains the proof that a draft whose tapes are simulated has, from the beginning, the
directives that serve all routes, and that it follows them whatever routes are added later.
-/

namespace TuringLowering

namespace Cell

def IsBare (c : Cell) : Prop := c.IsLetter ∨ c ∈ [start, boundLeft, boundRight, afterLast]

namespace IsBare

variable {c c' : Cell}

theorem length_display_le (h : c.IsBare) : c.display.toList.length ≤ 4 := by
  rcases h with (⟨char, rfl⟩ | rfl) | h
  . rw [toList_display_ofChar]
    exact Nat.le_of_ble_eq_true rfl
  . decide
  . revert c
    decide

theorem toList_display_tagged (h : c.IsBare) :
    c.tagged.display.toList = c.display.toList ++ ("-" ++ braced "HEAD").toList := by
  rcases h with (⟨char, rfl⟩ | rfl) | h
  . simp [ofChar, tagged, withHead, Mark.display]
  . decide
  . revert c
    decide

theorem eq_of_display (h : c.IsBare) (h' : c'.IsBare) (heq : c.display = c'.display) : c = c' := by
  have hmarker : ∀ c ∈ [start, boundLeft, boundRight, afterLast], 2 < c.display.toList.length
      ∧ c.display ≠ blank.display := by
    decide
  have hmarkers : ∀ c ∈ [start, boundLeft, boundRight, afterLast],
      ∀ c' ∈ [start, boundLeft, boundRight, afterLast], c.display = c'.display → c = c' := by
    decide
  have hletter {c c' : Cell} (h : c.IsLetter) (h' : c' ∈ [start, boundLeft, boundRight, afterLast]) :
      c.display ≠ c'.display := by
    intro heq
    rcases h with ⟨char, rfl⟩ | rfl
    . have hlen := (hmarker c' h').1
      rw [← heq, toList_display_ofChar] at hlen
      exact absurd hlen (Nat.not_lt_of_le (Nat.le_succ 1))
    . exact (hmarker c' h').2 heq.symm
  rcases h with h | h
  . rcases h' with h' | h'
    . exact h.eq_of_display h' heq
    . exact absurd heq (hletter h h')
  . rcases h' with h' | h'
    . exact absurd heq.symm (hletter h' h)
    . exact hmarkers c h c' h' heq

end IsBare

end Cell

namespace Segment

variable {g : Guard} {first : String} {n : Nat} {A : Alphabet}

theorem isBare_of_mem_cells (hA : A.HasHeads) {c : Cell} (h : c ∈ cells A) :
    ∃ b : Cell, b.IsBare ∧ (c = b ∨ c = b.tagged) := by
  rcases List.mem_append.mp h with h | h
  . rcases List.mem_append.mp h with h | h
    . exact ⟨c, .inl (hA.letters c h), .inl rfl⟩
    . rw [hA.heads] at h
      obtain ⟨b, hb, rfl⟩ := List.mem_map.mp h
      exact ⟨b, .inl (hA.letters b hb), .inr rfl⟩
  . simp only [List.mem_cons, List.not_mem_nil, or_false] at h
    rcases h with rfl | rfl | rfl | rfl | rfl
    . exact ⟨.start, .inr (by decide), .inl rfl⟩
    . exact ⟨.boundLeft, .inr (by decide), .inl rfl⟩
    . exact ⟨.boundRight, .inr (by decide), .inl rfl⟩
    . exact ⟨.afterLast, .inr (by decide), .inl rfl⟩
    . exact ⟨.boundRight, .inr (by decide), .inr rfl⟩

theorem eq_of_display (hA : A.HasHeads) {c c' : Cell} (h : c ∈ cells A) (h' : c' ∈ cells A)
    (heq : c.display = c'.display) : c = c' := by
  have hlist := congrArg String.toList heq
  have hlength : ("-" ++ braced "HEAD").toList.length = 7 := by decide
  have hne {b b' : Cell} (hb : b.IsBare) (hb' : b'.IsBare) : b.display ≠ b'.tagged.display := by
    intro heq
    have hle := hb.length_display_le
    rw [heq, hb'.toList_display_tagged, List.length_append, hlength] at hle
    omega
  obtain ⟨b, hb, rfl | rfl⟩ := isBare_of_mem_cells hA h
  . obtain ⟨b', hb', rfl | rfl⟩ := isBare_of_mem_cells hA h'
    . exact hb.eq_of_display hb' heq
    . exact absurd heq (hne hb hb')
  . obtain ⟨b', hb', rfl | rfl⟩ := isBare_of_mem_cells hA h'
    . exact absurd heq.symm (hne hb' hb)
    . rw [hb.toList_display_tagged, hb'.toList_display_tagged, List.append_left_inj,
        String.toList_inj] at hlist
      rw [hb.eq_of_display hb' hlist]

theorem apart_display_of_mem_cells (hA : A.HasHeads) {c : Cell} (h : c ∈ cells A) (g : Guard) :
    g.Apart c.display := by
  have hmarkers : ∀ c ∈ [Cell.start, .boundLeft, .boundRight, .afterLast], Guard.Clean c.display := by
    decide
  have htagged {b : Cell} (hb : b.IsBare) (hclean : Guard.Clean b.display) :
      Guard.Clean b.tagged.display := by
    unfold Guard.Clean at hclean ⊢
    rw [hb.toList_display_tagged, List.mem_append, not_or]
    exact ⟨hclean, by decide⟩
  obtain ⟨b, hb, hc⟩ := isBare_of_mem_cells hA h
  by_cases hclean : Guard.Clean b.display
  . apply Guard.Apart.of_clean
    rcases hc with rfl | rfl
    . exact hclean
    . exact htagged hb hclean
  . -- The letter is the guard character itself, and no underscore comes before it.
    right
    rcases hb with (⟨char, rfl⟩ | rfl) | hmarker
    . have hchar : char = Guard.mark := by
        by_contra hne
        apply hclean
        rw [Guard.Clean, Cell.toList_display_ofChar, List.mem_singleton]
        exact Ne.symm hne
      rcases hc with rfl | rfl
      . rw [Cell.toList_display_ofChar, hchar]
        decide
      . rw [Cell.IsBare.toList_display_tagged (.inl (.inl ⟨char, rfl⟩)), Cell.toList_display_ofChar,
          hchar]
        decide
    . exact absurd (by decide) hclean
    . exact absurd (hmarkers b hmarker) hclean

theorem free_display_state {q : String} (h : g.Free q) : g.Free (Cell.state q).display := by
  have hlist : (Cell.state q).display.toList = [] ++ 'Q' :: ([] ++ ':' :: ([] ++ '\x7b' :: (q.toList
      ++ '\x7d' :: []))) := by
    simp [Mark.display, braced]
  have hsize := g.size_pos
  unfold Guard.Free at h ⊢
  rw [hlist, Guard.longestRun_append_cons _ (by decide), Guard.longestRun_append_cons _ (by decide),
    Guard.longestRun_append_cons _ (by decide), Guard.longestRun_append_cons _ (by decide)]
  simp only [Guard.longestRun, Guard.longestRun.go] at h ⊢
  omega

theorem serves_common : ∀ x ∈ common g first n A, g.Serves x.origin := by
  have hstart : g.Serves Draft.defaultStart := .inl (by decide)
  have hlayout {part : String} (h : Guard.Clean part) := serves_layoutPart g h
  have hgrow {part : String} (h : Guard.Clean part) := serves_growPart g h
  simp only [common, layout, growth, List.forall_mem_append, List.forall_mem_cons,
    List.forall_mem_map, Directive.origin_transition, Directive.origin_gadget, Directive.idle,
    hstart, serves_stepState g, serves_growState g]
  simp (disch := decide) [hlayout, hgrow]

theorem mem_cells_common (hA : A.HasHeads) :
    ∀ x ∈ common g first n A, ∀ c ∈ x.read.cells [],
      c ∈ cells A ∨ x.origin = growPart g "done" ∧ ∃ v : Verdict, c = .state v.state := by
  simp only [common, layout, growth, List.forall_mem_append, List.forall_mem_cons,
    List.forall_mem_map, Directive.origin_transition, Directive.origin_gadget,
    Directive.read_transition, Directive.read_gadget, Directive.idle, Pattern.cells]
  simp +contextual [cells, hA.blank]

theorem not_readsNames_common :
    ∀ x ∈ common g first n A, x.read = .any → ¬ ReadsNames g x.origin := by
  simp [common, layout, growth, ReadsNames, Directive.idle, layoutPart, growPart, growState, stepState,
    String.append_assoc, defaultStart_ne, or_imp, forall_and]

theorem marker_mem_cells {origin next : String} {read : Pattern} {marker insert : Cell}
    (h : .gadget origin read (.insertAfter marker insert) next ∈ common g first n A) :
    marker ∈ cells A := by
  simp [common, layout, growth, Directive.idle] at h
  rcases h with ⟨_, _, ⟨rfl, _⟩, _⟩ | ⟨_, _, ⟨rfl, _⟩, _⟩ | ⟨_, _, ⟨rfl, _⟩, _⟩ <;> simp [cells]

theorem keys_common :
    (common g first n A).filterMap Directive.key?
      = [ .markFirst Draft.defaultStart .any .start (layoutPart g "insertLeftBound"),
          .insertAfter (layoutPart g "insertLeftBound") .any .start .boundLeft (layoutPart g "insertEmpty"),
          .insertAfter (layoutPart g "insertEmpty") .any .start .blank (layoutPart g "findEnd"),
          .insertAfter (growPart g "foundToGrab") .any Cell.boundRight.tagged .boundRight
            (growPart g "justInserted") ] := by
  have htransition (origin : String) (read : Pattern) (w : Writing) (m : Move) (next : String) :
      (Directive.transition origin read w m next).key? = none := rfl
  have hgadget (origin : String) (read : Pattern) (x : Gadget) (next : String) :
      (Directive.gadget origin read x next).key? = x.key? origin read next := rfl
  simp [common, layout, growth, Directive.idle, htransition, hgadget, Gadget.key?, List.filterMap_map]

theorem nodup_keys_common : ((common g first n A).filterMap Directive.key?).Nodup := by
  rw [keys_common]
  simp [layoutPart, growPart, growState, String.append_assoc]

end Segment

namespace Alphabet

/-- The symbols of a machine with a shared tape, before the first transition. -/
def shared (A : Alphabet) (first : String) : Alphabet :=
  ((A.withSegments.add (.state first)).add (.state Verdict.accept.state)).add
    (.state Verdict.reject.state)

variable {A : Alphabet} (first : String)

theorem declared_shared : (A.shared first).declared = A.declared := by
  unfold shared add withSegments
  split <;> rfl

section

variable (hA : A.IsLettered) (hsimulating : A.simulating = false)

include hsimulating

theorem heads_shared : (A.shared first).heads = A.declared.map Cell.tagged := by
  simp [shared, add, withSegments, hsimulating]

include hA

theorem mem_symbols_shared {c : Cell} :
    c ∈ (A.shared first).symbols
      ↔ c ∈ Segment.cells (A.shared first)
        ∨ ∃ q ∈ [first, Verdict.accept.state, Verdict.reject.state], c = .state q := by
  have hsegments : c ∈ A.withSegments.symbols ↔ c ∈ Segment.cells (A.shared first) := by
    rw [Segment.cells, declared_shared, heads_shared first hsimulating, withSegments,
      if_neg (by simp [hsimulating]), Build.mem_foldl_addNew, hA.symbols]
    simp only [List.mem_append]
    tauto
  simp only [shared, mem_symbols_add, hsegments, List.mem_cons, List.not_mem_nil, or_false,
    exists_eq_or_imp, exists_eq_left, or_assoc]

theorem hasHeads_shared : (A.shared first).HasHeads := by
  constructor
  . rw [declared_shared]
    exact hA.letters
  . rw [declared_shared]
    exact hA.blank
  . rw [heads_shared first hsimulating, declared_shared]

theorem isSegmented_shared (hclean : ∀ c ∈ A.declared, Guard.Clean c.display) :
    (A.shared first).IsSegmented := by
  refine ⟨hasHeads_shared first hA hsimulating, ?_⟩
  rw [declared_shared]
  exact hclean

end

end Alphabet

theorem Segment.exists_atom {A : Alphabet} (hA : A.HasHeads) {c : Cell} (h : c ∈ cells A) :
    ∃ m tag, c = .atom m tag := by
  have hbare {b : Cell} (hb : b.IsBare) : ∃ m tag, b = .atom m tag := by
    rcases hb with (⟨char, rfl⟩ | rfl) | hb
    . exact ⟨_, _, rfl⟩
    . exact ⟨_, _, rfl⟩
    . simp only [List.mem_cons, List.not_mem_nil, or_false] at hb
      rcases hb with rfl | rfl | rfl | rfl <;> exact ⟨_, _, rfl⟩
  obtain ⟨b, hb, rfl | rfl⟩ := isBare_of_mem_cells hA h
  . exact hbare hb
  . obtain ⟨m, tag, rfl⟩ := hbare hb
    exact ⟨_, _, rfl⟩

theorem Pattern.mem_cells_of_matches {p : Pattern} {rest : List Cell} (hread : p ≠ .any) {c : Cell}
    (h : p.Matches c) : c ∈ p.cells rest := by
  cases p with
  | cell c' => exact List.mem_singleton.mpr h
  | oneOf cells => exact h
  | any => exact absurd rfl hread

theorem Directive.keys_idle (names : List String) : (names.map idle).filterMap key? = [] := by
  rw [List.filterMap_map, List.filterMap_eq_nil_iff]
  exact fun _ _ => rfl

namespace Draft

theorem Executed.directives {g : Guard} {B : List Cell} {S : String → Prop} {xs ys : List Directive}
    {d d' : Draft} (h : d.Executed g B S xs) (hapart : d.SymbolsApart)
    (horigins : ∀ y ∈ ys, ¬ g.Generates y.origin)
    (hreads : ∀ y ∈ ys, ∀ c ∈ y.read.cells [], c ∈ d.alphabet.symbols ∧ (c ∈ B ∨ S y.origin))
    (hwild : ∀ y ∈ ys, y.read = .any → ¬ S y.origin)
    (hkeys : ((xs ++ ys).filterMap Directive.key?).Nodup)
    (hok : Build.directives ys d = .ok () d') :
    d'.Executed g B S (xs ++ ys)
      ∧ d.Grows (fun s => ¬ g.Generates s) (fun _ => True) (fun k => k.kind ≠ .jointMove) d' := by
  apply @Build.forM_induction _ _ _ (fun done e => e.Executed g B S (xs ++ done)
    ∧ d.Grows (fun s => ¬ g.Generates s) (fun _ => True) (fun k => k.kind ≠ .jointMove) e) _ d d' _ hok
  . rintro done y rest e e' rfl ⟨hdone, hgrows⟩ hok
    have hy : y ∈ done ++ y :: rest := by simp
    have hnew : ∀ z ∈ xs ++ done, ∀ k, z.key? = some k → y.key? ≠ some k := by
      intro z hz k hk hk'
      rw [← List.append_assoc, List.filterMap_append, List.nodup_append] at hkeys
      exact hkeys.2.2 k (List.mem_filterMap.mpr ⟨z, hz, hk⟩) k
        (List.mem_filterMap.mpr ⟨y, by simp, hk'⟩) rfl
    obtain ⟨hexec, hstep⟩ := hdone.directive (horigins y hy) (hapart.grows hgrows)
      (by
        intro c hc
        rw [hgrows.alphabet]
        exact (hreads y hy c hc).1)
      hnew (hwild y hy)
      (by
        intro hread
        by_cases hS : S y.origin
        . exact .inr hS
        . refine .inl fun c hc => ?_
          exact (hreads y hy c (Pattern.mem_cells_of_matches hread hc)).2.resolve_right hS)
      hok
    rw [List.append_assoc] at hexec
    refine ⟨hexec, hgrows.trans (hstep.mono (fun _ _ => trivial) ?_)⟩
    rintro k (hk | hk)
    . rcases hk with hk | hk <;> simp [hk]
    . exact Directive.kind_of_key? hk
  . rw [List.append_nil]
    exact ⟨h, .refl d⟩

section

variable {n : Nat} {first : String} {d d' : Draft} (hA : d.alphabet.IsLettered)
  (hsimulating : d.alphabet.simulating = false) (hfirst : d.guard.Free first)

structure Unbegun (d : Draft) : Prop where
  states : ∀ e ∈ d.states.entries, d.guard.Free e.1 ∧ e.2 = .empty
  chains : d.chains = []

omit hA hsimulating in
theorem Unbegun.of_empty (hstates : d.states = {}) (hchains : d.chains = []) : d.Unbegun := by
  refine ⟨?_, hchains⟩
  rw [hstates]
  exact List.forall_mem_nil _

omit hA hsimulating in
/-- The author's names do not contain the guard, so that they stay as they are. -/
theorem Unbegun.withGuard (h : d.Unbegun) {g : Guard} (hle : d.guard.size ≤ g.size) :
    (d.withGuard g).Unbegun := by
  constructor
  . intro e he
    obtain ⟨e₀, he₀, rfl⟩ := List.mem_map.mp he
    obtain ⟨hfree, hempty⟩ := h.states e₀ he₀
    dsimp only
    rw [Guard.rename_of_free hfree, hempty]
    exact ⟨hfree.mono hle, rfl⟩
  . change d.chains.map _ = []
    rw [h.chains, List.map_nil]

omit hA hsimulating in
theorem Unbegun.addState (h : d.Unbegun) {name : String} (hname : d.guard.Free name) :
    ((Build.addState name).after d).Unbegun := by
  refine ⟨?_, h.chains⟩
  change ∀ e ∈ (d.states.ensure name).entries, _
  intro e he
  unfold StateTables.ensure at he
  split at he
  . exact h.states e he
  . rcases List.mem_append.mp he with he | he
    . exact h.states e he
    . rw [List.mem_singleton.mp he]
      exact ⟨hname, rfl⟩

def withShared (d : Draft) (first : String) : Draft := { d with alphabet := d.alphabet.shared first }

include hA hsimulating

theorem executed_withShared (hd : d.Unbegun) :
    (d.withShared first).Executed d.guard (Segment.cells (d.alphabet.shared first))
      (Segment.ReadsNames d.guard) (d.states.names.map .idle) := by
  have hS := Alphabet.hasHeads_shared first hA hsimulating
  have hmem {c : Cell} (hc : c ∈ Segment.cells (d.alphabet.shared first)) :=
    (Alphabet.mem_symbols_shared first hA hsimulating).mpr (.inl hc)
  have hstates : ∀ e ∈ d.states.entries, ¬ d.guard.Generates e.1 ∧ e.2 = .empty :=
    fun e he => ⟨fun hgenerates => hgenerates.not_free (hd.states e he).1, (hd.states e he).2⟩
  refine ⟨rfl, Obeys.idle (d := d.withShared first) hstates hd.chains
    (Alphabet.mem_cells_of_declared hS.blank) ?_ (fun _ => hmem) ?_ (fun _ h => h), ?_, ?_, ?_⟩
  . intro c hc
    obtain ⟨m, tag, rfl⟩ := Segment.exists_atom hS hc
    exact Alphabet.accepts_of_mem_symbols (hmem hc)
  . intro c hc c' hc' heq
    rcases (Alphabet.mem_symbols_shared first hA hsimulating).mp hc' with hc' | ⟨q, _, rfl⟩
    . exact Segment.eq_of_display hS hc hc' heq
    . exact absurd heq (hS.display_ne_state hc q)
  . intro x hx _ c hc
    obtain ⟨s, _, rfl⟩ := List.mem_map.mp hx
    cases hc
  . intro x hx hread
    obtain ⟨s, _, rfl⟩ := List.mem_map.mp hx
    cases hread
  . intro e he
    have : e ∈ d.chains := he
    rw [hd.chains] at this
    cases this

include hfirst in
theorem symbolsApart_withShared : (d.withShared first).SymbolsApart := by
  intro c hc
  rcases (Alphabet.mem_symbols_shared first hA hsimulating).mp hc with hc | ⟨q, hq, rfl⟩
  . have hS := Alphabet.hasHeads_shared first hA hsimulating
    exact Segment.apart_display_of_mem_cells hS hc _
  . apply Or.inl
    apply Segment.free_display_state
    simp only [List.mem_cons, List.not_mem_nil, or_false] at hq
    rcases hq with rfl | rfl | rfl
    . exact hfirst
    . exact Guard.Clean.free (by decide) _
    . exact Guard.Clean.free (by decide) _

theorem mem_common_facts (x : Directive)
    (hx : x ∈ Segment.common d.guard first n (d.alphabet.shared first)) :
    ¬ d.guard.Generates x.origin
      ∧ (∀ c ∈ x.read.cells [], c ∈ (d.alphabet.shared first).symbols
        ∧ (c ∈ Segment.cells (d.alphabet.shared first) ∨ Segment.ReadsNames d.guard x.origin))
      ∧ (x.read = .any → ¬ Segment.ReadsNames d.guard x.origin) := by
  have hS := Alphabet.hasHeads_shared first hA hsimulating
  refine ⟨(Segment.serves_common x hx).not_generates, ?_, Segment.not_readsNames_common x hx⟩
  intro c hc
  rw [Alphabet.mem_symbols_shared first hA hsimulating]
  rcases Segment.mem_cells_common hS x hx c hc with hc | ⟨horigin, v, rfl⟩
  . exact ⟨.inl hc, .inl hc⟩
  . refine ⟨.inr ⟨v.state, ?_, rfl⟩, .inr (.inr horigin)⟩
    cases v <;> simp

omit hA hsimulating in
theorem simulateTapes_apply (n : Nat) (first : String) (d : Draft) :
    Build.simulateTapes n first d
      =
    (do
      Build.directives (Segment.layout d.guard d.start first n (d.alphabet.shared first).declared)
      Build.addState (Segment.stepState d.guard)
      Build.directives (Segment.growth d.guard (d.alphabet.shared first))) (d.withShared first) := rfl

include hfirst in
theorem executed_layout {d₁ d₂ : Draft} (hd : d.Unbegun)
    (hlayout : Build.directives (Segment.layout d.guard defaultStart first n
      (d.alphabet.shared first).declared) (d.withShared first) = .ok () d₁)
    (hidle : Build.addState (Segment.stepState d.guard) d₁ = .ok () d₂) :
    d₂.Executed d.guard (Segment.cells (d.alphabet.shared first)) (Segment.ReadsNames d.guard)
        (d.states.names.map .idle
          ++ Segment.layout d.guard defaultStart first n (d.alphabet.shared first).declared
          ++ [.idle (Segment.stepState d.guard)])
      ∧ d₂.Pends d.guard []
      ∧ d₂ = { d.withShared first with states := d₂.states, chains := d₂.chains } := by
  have hcommon (x : Directive) (hx : x ∈ Segment.common d.guard first n (d.alphabet.shared first)) :=
    mem_common_facts hA hsimulating x hx
  have hkeys : ((Segment.common d.guard first n (d.alphabet.shared first)).filterMap
      Directive.key?).Nodup := Segment.nodup_keys_common
  rw [Segment.common, List.filterMap_append, List.nodup_append] at hkeys
  obtain ⟨h₁, hgrows₁⟩ := (executed_withShared hA hsimulating hd).directives
    (symbolsApart_withShared hA hsimulating hfirst)
    (fun y hy => (hcommon y (Segment.mem_common_of_layout hy)).1)
    (fun y hy => (hcommon y (Segment.mem_common_of_layout hy)).2.1)
    (fun y hy => (hcommon y (Segment.mem_common_of_layout hy)).2.2)
    (by
      rw [List.filterMap_append, Directive.keys_idle]
      exact hkeys.1) hlayout
  obtain ⟨h₂, hrest₂⟩ := h₁.addState (Segment.serves_stepState _).not_generates hidle
  refine ⟨h₂, ?_, by rw [hrest₂, hgrows₁.rest]⟩
  have hpends : (d.withShared first).Pends d.guard [] := by
    intro k name _
    have hempty : (d.withShared first).chains = [] := hd.chains
    rw [hempty]
    simp
  have := hpends.grows hgrows₁ fun _ h => h
  rw [hrest₂]
  exact this

include hfirst in
theorem executed_growth {d₂ : Draft}
    (h : d₂.Executed d.guard (Segment.cells (d.alphabet.shared first)) (Segment.ReadsNames d.guard)
      (d.states.names.map .idle
        ++ Segment.layout d.guard defaultStart first n (d.alphabet.shared first).declared
        ++ [.idle (Segment.stepState d.guard)]))
    (hrest : d₂ = { d.withShared first with states := d₂.states, chains := d₂.chains })
    (hok : Build.directives (Segment.growth d.guard (d.alphabet.shared first)) d₂ = .ok () d') :
    d'.Executed d.guard (Segment.cells (d.alphabet.shared first)) (Segment.ReadsNames d.guard)
        (d.states.names.map .idle ++ Segment.common d.guard first n (d.alphabet.shared first))
      ∧ d₂.Grows (fun s => ¬ d.guard.Generates s) (fun _ => True) (fun k => k.kind ≠ .jointMove) d' := by
  have hcommon (x : Directive) (hx : x ∈ Segment.common d.guard first n (d.alphabet.shared first)) :=
    mem_common_facts hA hsimulating x hx
  have halphabet : d₂.alphabet = d.alphabet.shared first := by rw [hrest]; rfl
  have hguard : d₂.guard = d.guard := by rw [hrest]; rfl
  have hassoc : d.states.names.map .idle
      ++ Segment.layout d.guard defaultStart first n (d.alphabet.shared first).declared
      ++ [.idle (Segment.stepState d.guard)] ++ Segment.growth d.guard (d.alphabet.shared first)
      = d.states.names.map .idle ++ Segment.common d.guard first n (d.alphabet.shared first) := by
    simp [Segment.common]
  rw [← hassoc]
  apply h.directives _ _ _ _ _ hok
  . intro c hc
    rw [hguard]
    rw [halphabet] at hc
    exact symbolsApart_withShared hA hsimulating hfirst c hc
  . exact fun y hy => (hcommon y (Segment.mem_common_of_growth hy)).1
  . rw [halphabet]
    exact fun y hy => (hcommon y (Segment.mem_common_of_growth hy)).2.1
  . exact fun y hy => (hcommon y (Segment.mem_common_of_growth hy)).2.2
  . rw [hassoc, List.filterMap_append, Directive.keys_idle]
    exact Segment.nodup_keys_common

include hfirst in
/-- A shared tape is prepared: the directives that serve all routes are there. -/
theorem executed_simulateTapes (hd : d.Unbegun) (hstart : d.start = defaultStart)
    (hok : Build.simulateTapes n first d = .ok () d') :
    d'.Executed d.guard (Segment.cells (d.alphabet.shared first)) (Segment.ReadsNames d.guard)
        (d.states.names.map .idle ++ Segment.common d.guard first n (d.alphabet.shared first))
      ∧ d'.Pends d.guard []
      ∧ d' = { d.withShared first with states := d'.states, chains := d'.chains } := by
  rw [simulateTapes_apply, hstart] at hok
  obtain ⟨_, d₁, hlayout, hok⟩ := Build.bind_eq_ok.mp hok
  obtain ⟨_, d₂, hidle, hgrowth⟩ := Build.bind_eq_ok.mp hok
  obtain ⟨h₂, hpends, hrest⟩ := executed_layout hA hsimulating hfirst hd hlayout hidle
  obtain ⟨h₃, hgrows⟩ := executed_growth hA hsimulating hfirst h₂ hrest hgrowth
  refine ⟨h₃, hpends.grows hgrows fun _ h => h, ?_⟩
  rw [hgrows.rest, hrest]

include hfirst in
theorem shares_of_simulateTapes (hstates : d.states = {}) (hchains : d.chains = [])
    (hstart : d.start = defaultStart) (htapes : d.tapes = .multi n)
    (hfeatures : d.features.enabled .multiTape = false)
    (hok : Build.simulateTapes n first d = .ok () d') :
    d'.Shares d.guard (d.alphabet.shared first) n
      (Segment.common d.guard first n (d.alphabet.shared first)) [] [] [] := by
  obtain ⟨h, hpends, hrest⟩ :=
    executed_simulateTapes hA hsimulating hfirst (.of_empty hstates hchains) hstart hok
  have hnames : d.states.names = [] := by rw [hstates]; rfl
  rw [hnames] at h
  refine ⟨?_, ?_, ?_, ?_, ?_, hpends, _, h, by simp⟩
  . rw [hrest]
    exact hstart
  . rw [hrest]
    exact htapes
  . rw [hrest]
    exact hfeatures
  . rw [hrest]
    rfl
  . rw [hrest]
    rfl

end

end Draft

theorem Guard.isTerminal_text_append (g : Guard) (s : String) : isTerminal (g.text ++ s) = false := by
  apply isTerminal_of_mem_mark
  rw [String.toList_append, text, String.toList_ofList]
  apply List.mem_append_left
  exact List.mem_replicate.mpr ⟨Nat.pos_iff_ne_zero.mp g.size_pos, rfl⟩

theorem Guard.isTerminal_of_rooted {g : Guard} {c : Char} {q s : String} {cs : List Char}
    (h : s.toList = g.rooted c q cs) : isTerminal s = false := by
  apply isTerminal_of_mem_mark
  rw [h, rooted]
  apply List.mem_append_left
  exact List.mem_replicate.mpr ⟨Nat.pos_iff_ne_zero.mp g.size_pos, rfl⟩

theorem Segment.isTerminal_common {g : Guard} {first : String} {n : Nat} {A : Alphabet} :
    ∀ x ∈ common g first n A, isTerminal x.origin = false := by
  have hstart : isTerminal Draft.defaultStart = false := by decide
  simp only [common, layout, growth, List.forall_mem_append, List.forall_mem_cons,
    List.forall_mem_map, Directive.origin_transition, Directive.origin_gadget, Directive.idle,
    layoutPart, growPart, growState, stepState, String.append_assoc, hstart,
    g.isTerminal_text_append]
  simp

theorem Route.Prescribes.isTerminal_origin {g : Guard} {n : Nat} {r : Route} {A : Alphabet}
    {x : Directive} (hr : r.WellFormed g n) (h : r.Prescribes A x) :
    isTerminal x.origin = false := by
  rcases h.origin_cases hr with (heq | heq) | ⟨i, hi, heq⟩ | ⟨i, hi, z, _, heq⟩
  . rw [heq]
    exact g.isTerminal_text_append _
  . rw [heq, Segment.growPart, Segment.growState, String.append_assoc, String.append_assoc]
    exact g.isTerminal_text_append _
  . rw [heq]
    exact Guard.isTerminal_of_rooted (r.toList_findState (by rw [hr.readsLength]; exact hi))
  . rw [heq]
    exact Guard.isTerminal_of_rooted
      (r.toList_applyState_append (by rw [hr.length_actionTexts]; exact hi) z)

theorem Draft.Executed.prepared {g : Guard} {A : Alphabet} {first : String} {n : Nat}
    {xs : List Directive} {d : Draft} (h : d.Executed g (Segment.cells A) (Segment.ReadsNames g) xs)
    (hmem : ∀ x ∈ Segment.common g first n A, x ∈ xs)
    (hother : ∀ x ∈ Segment.common g first n A, x.read = .any → ∀ y ∈ xs, y.origin = x.origin →
      y ∈ Segment.common g first n A ∨ ∀ c, ¬ y.read.Matches c) : d.Prepared g A first n := by
  constructor
  . intro x hx hread
    exact h.heeds (hmem x hx) hread (Segment.isTerminal_common x hx)
  . intro x hx hread v v' hfocus hsole hworks
    apply h.reaches_any (hmem x hx) hread _ hfocus (Segment.isTerminal_common x hx) hworks
    intro y hy horigin hmatch
    rcases hother x hx hread y hy horigin with hy | hnone
    . exact hsole y hy horigin hmatch
    . exact absurd hmatch (hnone _)

/-- The directives that serve all routes, and states in which nothing is done. -/
structure Segment.Suffices (g : Guard) (first : String) (n : Nat) (A : Alphabet)
    (F : List Directive) : Prop where
  mem : ∀ x ∈ common g first n A, x ∈ F
  cases : ∀ x ∈ F, x ∈ common g first n A ∨ ∃ s, Guard.Clean s ∧ x = .idle s

namespace Segment.Suffices

variable {g : Guard} {first : String} {n : Nat} {A : Alphabet} {F : List Directive}

theorem of_common : Suffices g first n A (common g first n A) := ⟨fun _ h => h, fun _ h => .inl h⟩

theorem concat (h : Suffices g first n A F) {s : String} (hs : Guard.Clean s) :
    Suffices g first n A (F ++ [.idle s]) := by
  refine ⟨fun x hx => List.mem_append_left _ (h.mem x hx), ?_⟩
  intro x hx
  rcases List.mem_append.mp hx with hx | hx
  . exact h.cases x hx
  . exact .inr ⟨s, hs, List.mem_singleton.mp hx⟩

end Segment.Suffices

namespace Draft.Shares

variable {g : Guard} {A : Alphabet} {n : Nat} {first : String} {F : List Directive}
  {made : List ChainKey} {R : List Route} {d : Draft} (hR : ∀ r ∈ R, r.WellFormed g n)
  (h : d.Shares g A n F made R [])

include hR h

theorem heeds_of_mem {r : Route} (hr : r ∈ R) {x : Directive} (hx : r.Prescribes A x) :
    d.Heeds (Segment.cells A) x := by
  obtain ⟨xs, hxs, hmem⟩ := h.inventory
  exact hxs.heeds ((hmem x).mpr (.inr (.inl ⟨r, hr, hx⟩))) hx.read_ne_any
    (hx.isTerminal_origin (hR r hr))

theorem prepared (hF : Segment.Suffices g first n A F) : d.Prepared g A first n := by
  obtain ⟨xs, hxs, hmem⟩ := h.inventory
  have hcommon (x : Directive) (hx : x ∈ Segment.common g first n A) : x ∈ xs :=
    (hmem x).mpr (.inl (hF.mem x hx))
  apply hxs.prepared hcommon
  intro x hx hread y hy horigin
  rcases (hmem y).mp hy with hy | ⟨r, hr, hy⟩ | hy
  . rcases hF.cases y hy with hy | ⟨s, _, rfl⟩
    . exact .inl hy
    . exact .inr fun c hmatch => by cases hmatch
  . -- The states of routes are not among those in which all cells are read.
    exfalso
    have hserves := Segment.serves_common x hx
    rcases hy.origin_cases (hR r hr) with hnames | ⟨i, hi, heq⟩ | ⟨i, hi, z, _, heq⟩
    . rw [horigin] at hnames
      exact hxs.wild x (hcommon x hx) hread hnames
    . exact (hR r hr).ne_findState hi hserves (horigin.symm.trans heq)
    . exact (hR r hr).ne_applyState hi z hserves (horigin.symm.trans heq)
  . cases hy

end Draft.Shares

end TuringLowering
