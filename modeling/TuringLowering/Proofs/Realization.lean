import TuringLowering.Proofs.Letters
import TuringLowering.Proofs.Obedience
import TuringLowering.Proofs.Transparency

/-!
This module contains the invariant that ties a draft on one tape to the directives it was made from:
whatever its features, it does for a state and a cell what the first directive about them says.
-/

namespace TuringLowering

namespace Directive

/-- The key was made for a directive: it begins with its state and with what can only be its pattern. -/
def Stems (x : Directive) (k : ChainKey) : Prop :=
  ∃ read rest, k.parts = x.origin :: read :: rest
    ∧ ∀ p : Pattern, p.Over Cell.IsLetter → p.display = read → p = x.read

variable {x : Directive}

theorem over_read {P : Cell → Prop} (h : x.Over P) : x.read.Over P := by
  cases x with
  | transition _ _ _ _ _ => exact h.1
  | gadget _ _ _ _ => exact h.1

theorem stems_of_key? {k : ChainKey} (hx : x.read.Over Cell.IsLetter) (h : x.key? = some k) :
    x.Stems k := by
  have hread (p : Pattern) (hp : p.Over Cell.IsLetter) (heq : p.display = x.read.display) :
      p = x.read := Pattern.eq_of_display hp hx heq
  cases x with
  | transition _ _ _ _ _ => cases h
  | gadget origin read x next =>
    cases x with
    | shift m => cases h
    | markFirst marker =>
      cases h
      exact ⟨_, _, rfl, hread⟩
    | insertAfter marker insert =>
      cases h
      exact ⟨_, _, rfl, hread⟩

theorem Stems.serves_eq {y : Directive} {k : ChainKey} (h : y.Stems k)
    (hx : x.read.Over Cell.IsLetter) (hk : x.key? = some k) (state : String) (c : Cell) :
    y.serves state c = x.serves state c := by
  obtain ⟨read, rest, hparts, hread⟩ := h
  have hsame : x.origin = y.origin ∧ x.read = y.read := by
    cases x with
    | transition _ _ _ _ _ => cases hk
    | gadget origin pattern x next =>
      cases x with
      | shift m => cases hk
      | markFirst marker =>
        cases hk
        simp only [List.cons.injEq] at hparts
        exact ⟨hparts.1, hread _ hx hparts.2.1⟩
      | insertAfter marker insert =>
        cases hk
        simp only [List.cons.injEq] at hparts
        exact ⟨hparts.1, hread _ hx hparts.2.1⟩
  unfold serves
  rw [hsame.1, hsame.2]

end Directive

structure Alphabet.IsLettered (A : Alphabet) : Prop where
  symbols : A.symbols = A.declared
  blank : .blank ∈ A.declared
  letters : ∀ c ∈ A.declared, c.IsLetter

theorem Alphabet.IsLettered.accepts {A : Alphabet} (h : A.IsLettered) {c : Cell}
    (hc : c ∈ A.declared) : A.accepts c = true := by
  have hmem := hc
  rw [← h.symbols] at hmem
  obtain ⟨char, rfl⟩ | rfl := h.letters c hc
  . exact decide_eq_true hmem
  . exact decide_eq_true hmem

/-- The alphabet in which each character is a symbol. -/
def Alphabet.ofChars (input extra : List Char) : Alphabet :=
  .declare (input.map .ofChar) (extra.map .ofChar)

/-- The requests for a machine with an alphabet of single characters. -/
def Request.all (input extra : List Char) (features : List Feature) (xs : List Directive) :
    List Request :=
  .alphabets (input.map .ofChar) (extra.map .ofChar) :: .features features :: xs.map .directive

theorem Alphabet.isLettered_ofChars (input extra : List Char) :
    (Alphabet.ofChars input extra).IsLettered := by
  refine ⟨rfl, ?_, ?_⟩
  . exact Build.mem_foldl_addNew.mpr (.inl (List.mem_append.mpr (.inr (List.mem_singleton_self _))))
  . intro c hc
    rcases Build.mem_foldl_addNew.mp hc with hc | hc
    . simp only [List.mem_append, List.mem_map, List.mem_singleton] at hc
      obtain (⟨char, _, rfl⟩ | ⟨char, _, rfl⟩) | rfl := hc
      . exact .inl ⟨char, rfl⟩
      . exact .inl ⟨char, rfl⟩
      . exact .inr rfl
    . cases hc

namespace Draft

structure Realizes (A : Alphabet) (xs : List Directive) (d : Draft) : Prop where
  alphabet : d.alphabet = A
  start : d.start = defaultStart
  tapes : ∀ n, d.tapes ≠ .multi n
  cells : d.Over Cell.Nameless
  obeys : d.Obeys A.declared d.guard.Free xs
  names : ∀ x ∈ xs, d.guard.Free x.origin ∧ d.guard.Free x.next
  reads : ∀ x ∈ xs, x.read.Over (· ∈ A.declared)
  requested : ∀ e ∈ d.chains, ¬ Build.IsStep e.1 → ∃ x ∈ xs, x.Stems e.1

namespace Realizes

variable {A : Alphabet} {xs : List Directive} {d d' : Draft} {x : Directive}

theorem nil (hA : A.IsLettered) {F : FeatureSet} :
    ({ start := defaultStart, features := F, alphabet := A } : Draft).Realizes A [] := by
  refine ⟨rfl, rfl, nofun, ⟨?_, ?_⟩, ?_, nofun, nofun, nofun⟩
  . intro c hc
    rw [hA.symbols] at hc
    exact (hA.letters c hc).nameless
  . intro s c o _ ho
    cases ho
  . apply Obeys.nil rfl rfl hA.blank
    . exact fun c hc => hA.accepts hc
    . rw [hA.symbols]
      exact fun _ => id
    . rw [hA.symbols]
      intro c hc c' hc'
      exact (hA.letters c hc).eq_of_display (hA.letters c' hc')
    . intro s hs hgenerates
      exact hgenerates.not_free hs

theorem withTapes (h : d.Realizes A xs) : ({ d with tapes := .single } : Draft).Realizes A xs := by
  refine ⟨h.alphabet, h.start, nofun, ⟨h.cells.symbols, h.cells.rules⟩, ?_, h.names, h.reads,
    h.requested⟩
  exact h.obeys.extend rfl rfl (fun _ => .inl) (fun _ => id) (fun _ => id) (fun _ => id) fun _ => .inl

theorem mem_of_serving {q : String} {c : Cell} (h : Directive.serving xs q c = some x) :
    x ∈ xs ∧ x.origin = q ∧ x.read.Matches c :=
  ⟨List.mem_of_find?_eq_some h, Directive.serves_eq_true_iff.mp (List.find?_some h)⟩

section

variable (hA : A.IsLettered) (h : d.Realizes A xs) {g : Guard} (hlt : d.guard.size < g.size)

include hA h hlt

theorem sound_withGuard : (d.withGuard g).Sound A.declared g.Free fun _ => False := by
  apply h.obeys.sound.withGuard h.cells (Nat.le_of_lt hlt)
  intro c hc
  exact (hA.letters c hc).free (Nat.lt_of_le_of_lt d.guard.size_pos hlt)

theorem free_of_find?_withGuard {q : String} (hq : g.Free q)
    (hfind : (d.withGuard g).states.find? q ≠ none) :
    d.guard.Free q ∧ d.guard.rename g q = q ∧ d.states.find? q ≠ none := by
  have hle := Nat.le_of_lt hlt
  obtain ⟨q₀, rfl, hfind₀⟩ := exists_of_find?_withGuard hle hfind
  have hold := Guard.rename_eq_of_free hle hq
  rcases h.obeys.sound.known q₀ hfind₀ with hfree | ⟨e, he, hkind, hname⟩
  . rw [hold]
    exact ⟨hfree, hold, hfind₀⟩
  . have hgenerates := (h.sound_withGuard hA hlt).generates (mem_chains_withGuard.mpr ⟨e, he, rfl⟩)
      hkind (rename_generated hname)
    exact absurd hq hgenerates.not_free

theorem obeys_withGuard : (d.withGuard g).Obeys A.declared g.Free xs := by
  have hle := Nat.le_of_lt hlt
  have hname {s : String} (hs : d.guard.Free s) : d.guard.rename g s = s :=
    Guard.rename_of_free hs g
  have hnameless (c : Cell) (hc : c ∈ A.declared) : c.Nameless := (hA.letters c hc).nameless
  refine ⟨h.sound_withGuard hA hlt, ?_, ?_, ?_, ?_⟩
  . intro q v v' x hx hv hq hworks
    obtain ⟨hmem, rfl, _⟩ := mem_of_serving hx
    have := (h.obeys.served _ v v' x hx hv hq hworks).withGuard h.cells hle
    rwa [hname (h.names x hmem).1, hname (h.names x hmem).2] at this
  . intro q c x hx hc
    obtain ⟨hmem, rfl, hmatch⟩ := mem_of_serving hx
    have hcell := (h.reads x hmem).of_matches hmatch hc
    have hcovered := h.obeys.covered _ c x hx hc
    rwa [← hname (h.names x hmem).1, lookup_withGuard hle (hnameless c hcell), ne_eq,
      Option.map_eq_none_iff]
  . intro q c hq hnone
    by_contra hlookup
    have hfind : (d.withGuard g).states.find? q ≠ none := by
      intro hfind
      rw [StateTables.lookup, hfind] at hlookup
      exact hlookup rfl
    obtain ⟨hfree, hold, _⟩ := h.free_of_find?_withGuard hA hlt hq hfind
    rw [← hold] at hlookup
    rcases lookup_of_withGuard hle hlookup with hc | ⟨c₀, rfl, hc₀⟩
    . exact hc c (h.obeys.unserved q c hfree hnone)
    . cases hserving : Directive.serving xs q c₀ with
      | none => exact hc₀ (h.obeys.unserved q c₀ hfree hserving)
      | some x =>
        obtain ⟨hmem, rfl, hmatch⟩ := mem_of_serving hserving
        have hx : x.serves x.origin (c₀.mapNames (d.guard.rename g)) = true := by
          rw [Directive.serves_eq_true_iff]
          refine ⟨rfl, ?_⟩
          by_cases hany : x.read = .any
          . rw [hany]
            trivial
          . have hcell := (h.reads x hmem).of_matches hmatch fun h => absurd h hany
            rwa [hnameless c₀ hcell]
        exact List.find?_eq_none.mp hnone x hmem hx
  . intro q hq hxs
    by_contra hfind
    obtain ⟨hfree, _, hfind₀⟩ := h.free_of_find?_withGuard hA hlt hq hfind
    exact hfind₀ (h.obeys.absent q hfree hxs)

end

theorem withGuard (hA : A.IsLettered) (h : d.Realizes A xs) {g : Guard}
    (hlt : d.guard.size < g.size) : (d.withGuard g).Realizes A xs := by
  have hle := Nat.le_of_lt hlt
  have hsize : 1 < g.size := Nat.lt_of_le_of_lt d.guard.size_pos hlt
  refine ⟨?_, ?_, h.tapes, over_withGuard h.cells hle, h.obeys_withGuard hA hlt, ?_, h.reads, ?_⟩
  . rw [alphabet_withGuard h.cells]
    exact h.alphabet
  . change d.guard.rename g d.start = _
    rw [h.start]
    exact Guard.rename_of_clean (by decide) _ _
  . intro x hx
    exact ⟨(h.names x hx).1.mono hle, (h.names x hx).2.mono hle⟩
  . intro e he hstep
    obtain ⟨e₀, he₀, rfl⟩ := mem_chains_withGuard.mp he
    obtain ⟨x, hx, read, rest, hparts, hread⟩ := h.requested e₀ he₀ hstep
    refine ⟨x, hx, d.guard.rename g read, rest.map (d.guard.rename g), ?_, ?_⟩
    . simp only [ChainKey.mapNames, hparts, List.map_cons, Guard.rename_of_free (h.names x hx).1]
    . intro p hp heq
      have hfree := Pattern.free_display hp hsize
      rw [heq] at hfree
      rw [Guard.rename_eq_of_free hle hfree] at heq
      exact hread p hp heq

theorem avoid (hA : A.IsLettered) (h : d.Realizes A xs) (name : String) :
    (d.avoid name).Realizes A xs :=
  avoid_induction name h fun _ => h.withGuard hA

theorem obeys_of_serving {ys : List Directive} {B : List Cell} {N : String → Prop}
    (h : d.Obeys B N xs) (hsame : ∀ q c, Directive.serving ys q c = Directive.serving xs q c)
    (hmem : ∀ x ∈ xs, x ∈ ys) : d.Obeys B N ys := by
  refine ⟨h.sound, ?_, ?_, ?_, ?_⟩
  . intro q v v' x hx
    rw [hsame] at hx
    exact h.served q v v' x hx
  . intro q c x hx
    rw [hsame] at hx
    exact h.covered q c x hx
  . intro q c hq hnone
    rw [hsame] at hnone
    exact h.unserved q c hq hnone
  . intro q hq hys
    exact h.absent q hq fun x hx => hys x (hmem x hx)

theorem directive (hA : A.IsLettered) (h : d.Realizes A xs) (hx : x.Over (· ∈ A.declared))
    (horigin : d.guard.Free x.origin) (hnext : d.guard.Free x.next)
    (hok : Build.directive x d = .ok () d') : d'.Realizes A (xs ++ [x]) := by
  have hread := Directive.over_read hx
  have hletters : x.read.Over Cell.IsLetter := hread.mono hA.letters
  have hapart : d.SymbolsApart := by
    intro c hc
    rw [h.alphabet, hA.symbols] at hc
    exact (hA.letters c hc).apart _
  have hover : d'.Over Cell.Nameless := by
    have := Build.directive_over (hx.mono fun c hc => (hA.letters c hc).nameless)
      (hA.letters _ hA.blank).nameless d h.cells
    rwa [Build.after, hok] at this
  have hnames : ∀ z ∈ xs ++ [x], d.guard.Free z.origin ∧ d.guard.Free z.next := by
    intro z hz
    rcases List.mem_append.mp hz with hz | hz
    . exact h.names z hz
    . rw [List.mem_singleton.mp hz]
      exact ⟨horigin, hnext⟩
  have hreads : ∀ z ∈ xs ++ [x], z.read.Over (· ∈ A.declared) := by
    intro z hz
    rcases List.mem_append.mp hz with hz | hz
    . exact h.reads z hz
    . rw [List.mem_singleton.mp hz]
      exact hread
  have hcells : ∀ c ∈ x.read.cells [], c ∈ d.alphabet.symbols := by
    rw [h.alphabet, hA.symbols]
    intro c hc
    exact hread.of_mem_cells hc
  have hrequested : ∀ e ∈ d.chains, ¬ Build.IsStep e.1 → ∃ z ∈ xs ++ [x], z.Stems e.1 := by
    intro e he hstep
    obtain ⟨z, hz, hkey⟩ := h.requested e he hstep
    exact ⟨z, List.mem_append_left _ hz, hkey⟩
  rcases h.obeys.directive horigin hapart hcells hok with
    ⟨k, name, hk, hmem, rfl⟩ | ⟨hobeys, hgrows, _⟩
  . -- The states were generated for an earlier directive about the same cells.
    obtain ⟨y, hy, hstems⟩ := h.requested _ hmem (Directive.not_isStep_of_key? hk)
    refine ⟨h.alphabet, h.start, h.tapes, hover, ?_, hnames, hreads, hrequested⟩
    apply obeys_of_serving h.obeys _ fun z hz => List.mem_append_left _ hz
    intro q c
    rw [Directive.serving_concat]
    split
    . next hserves =>
      rw [← hstems.serves_eq hletters hk] at hserves
      apply Option.or_of_isSome
      exact List.find?_isSome.mpr ⟨y, hy, hserves⟩
    . exact Option.or_none
  . have hguard := hgrows.guard
    refine ⟨?_, ?_, ?_, hover, ?_, ?_, hreads, ?_⟩
    . rw [hgrows.alphabet, h.alphabet]
    . rw [hgrows.rest]
      exact h.start
    . rw [hgrows.rest]
      exact h.tapes
    . rw [hguard]
      exact hobeys
    . rw [hguard]
      exact hnames
    . intro e he hstep
      rcases hgrows.new e he with he | hk | hk
      . exact hrequested e he hstep
      . exact absurd hk hstep
      . exact ⟨x, List.mem_append_right _ (List.mem_singleton_self x),
          Directive.stems_of_key? hletters hk⟩

end Realizes

end Draft

namespace Build

theorem enableFeatures_eq_ok {features : List Feature} {d d' : Draft}
    (h : enableFeatures features d = .ok () d') : ∃ s, d' = { d with features := s } := by
  rw [enableFeatures, bind_eq_ok] at h
  obtain ⟨_, d₁, hcheck, h⟩ := h
  have hsame : d₁ = d := by
    rw [checkUnsettled, bind_eq_ok] at hcheck
    obtain ⟨e, _, he, hcheck⟩ := hcheck
    cases he
    split at hcheck
    . cases hcheck
    . cases hcheck
      rfl
  subst hsame
  clear hcheck
  induction features generalizing d₁ with
  | nil =>
    cases h
    exact ⟨_, rfl⟩
  | cons f features ih =>
    rw [forM_cons_eq_ok] at h
    obtain ⟨d₂, hf, h⟩ := h
    rw [bind_eq_ok] at hf
    obtain ⟨e, _, he, hf⟩ := hf
    cases he
    rw [bind_eq_ok] at hf
    obtain ⟨s, d₃, hs, hf⟩ := hf
    cases hf
    cases henable : d₁.features.enable f with
    | error e =>
      rw [henable] at hs
      cases hs
    | ok s' =>
      rw [henable] at hs
      cases hs
      obtain ⟨s'', hs''⟩ := ih _ h
      exact ⟨s'', hs''⟩

theorem claimSingleTape_eq_ok {call : Call} {d d' : Draft}
    (h : claimSingleTape call d = .ok () d') : d' = { d with tapes := .single } := by
  rw [claimSingleTape, bind_eq_ok] at h
  obtain ⟨e, _, he, h⟩ := h
  cases he
  cases htapes : d.tapes with
  | undecided =>
    rw [htapes] at h
    cases h
    rfl
  | single =>
    rw [htapes] at h
    cases h
    rw [← htapes]
  | multi n =>
    rw [htapes] at h
    cases h

end Build

namespace Draft

variable {A : Alphabet}

theorem Realizes.userDirective {xs : List Directive} {d d' : Draft} {x : Directive}
    (hA : A.IsLettered) (h : d.Realizes A xs) (hx : x.Over (· ∈ A.declared))
    (hok : Build.userDirective x d = .ok () d') : d'.Realizes A (xs ++ [x]) := by
  have havoid (d : Draft) (a b : String) : ((d.avoid a).avoid b).guard.Free a
      ∧ ((d.avoid a).avoid b).guard.Free b :=
    ⟨(d.free_avoid a).mono ((d.avoid a).size_le_avoid b), (d.avoid a).free_avoid b⟩
  cases x with
  | transition origin read w m next =>
    rw [Build.userDirective, Build.bind_eq_ok] at hok
    obtain ⟨_, d₁, hclaim, hok⟩ := hok
    obtain rfl := Build.claimSingleTape_eq_ok hclaim
    have hfree := havoid { d with tapes := .single } next origin
    exact ((h.withTapes.avoid hA next).avoid hA origin).directive hA hx hfree.2 hfree.1 hok
  | gadget origin read g next =>
    rw [Build.userDirective, Build.bind_eq_ok] at hok
    obtain ⟨_, d₁, hclaim, hok⟩ := hok
    obtain rfl := Build.claimSingleTape_eq_ok hclaim
    have hfree := havoid { d with tapes := .single } origin next
    exact ((h.withTapes.avoid hA origin).avoid hA next).directive hA hx hfree.1 hfree.2 hok

theorem Realizes.submitAll {xs ys : List Directive} {d d' : Draft} (hA : A.IsLettered)
    (h : d.Realizes A xs) (hys : ∀ y ∈ ys, y.Over (· ∈ A.declared))
    (hok : Build.submitAll (ys.map .directive) d = .ok () d') : d'.Realizes A (xs ++ ys) := by
  induction ys generalizing xs d with
  | nil =>
    cases hok
    rwa [List.append_nil]
  | cons y ys ih =>
    rw [List.forall_mem_cons] at hys
    rw [List.map_cons, Build.submitAll, Build.forM_cons_eq_ok] at hok
    obtain ⟨d₁, hy, hok⟩ := hok
    have := ih (h.userDirective hA hys.1 hy) hys.2 hok
    rwa [List.append_assoc] at this

/-- The draft that directives lead to under some features does what they say. -/
theorem realizes_of_submitAll {input extra : List Char} {features : List Feature}
    {xs : List Directive} {d : Draft}
    (hxs : ∀ x ∈ xs, x.Over (· ∈ (Alphabet.ofChars input extra).declared))
    (hok : Build.submitAll (Request.all input extra features xs) (.new defaultStart) = .ok () d) :
    d.Realizes (.ofChars input extra) xs := by
  have hA := Alphabet.isLettered_ofChars input extra
  rw [Build.submitAll, Request.all, Build.forM_cons_eq_ok] at hok
  obtain ⟨d₁, halphabets, hok⟩ := hok
  cases halphabets
  rw [Build.forM_cons_eq_ok] at hok
  obtain ⟨d₂, hfeatures, hok⟩ := hok
  obtain ⟨s, rfl⟩ := Build.enableFeatures_eq_ok hfeatures
  exact (Realizes.nil hA).submitAll hA hxs hok

end Draft

end TuringLowering
