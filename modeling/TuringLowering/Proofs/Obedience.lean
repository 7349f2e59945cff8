import TuringLowering.Proofs.Carrying

/-!
This module contains what it means for a draft on one tape to do what directives say. The first
directive about a state and a cell takes precedence, and it is followed whatever the features are.
-/

namespace TuringLowering

instance (p : Pattern) (c : Cell) : Decidable (p.Matches c) :=
  match p with
  | .cell c' => inferInstanceAs (Decidable (c = c'))
  | .oneOf cells => inferInstanceAs (Decidable (c ∈ cells))
  | .any => inferInstanceAs (Decidable True)

namespace Directive

def origin : Directive → String
  | .transition origin _ _ _ _ => origin
  | .gadget origin _ _ _ => origin

def read : Directive → Pattern
  | .transition _ read _ _ _ => read
  | .gadget _ read _ _ => read

def next : Directive → String
  | .transition _ _ _ _ next => next
  | .gadget _ _ _ next => next

def serves (state : String) (c : Cell) (x : Directive) : Bool :=
  x.origin = state && decide (x.read.Matches c)

/-- The first directive about a state and a cell. -/
def serving (xs : List Directive) (state : String) (c : Cell) : Option Directive :=
  xs.find? (serves state c)

/-- How what is seen changes by a directive, if the cells on the way are among those of `B`. -/
def Works (B : List Cell) : Directive → View → View → Prop
  | .transition _ _ w m _ => Build.Travels B w m
  | .gadget _ _ x _ => x.Works B

def key? : Directive → Option ChainKey
  | .transition _ _ _ _ _ => none
  | .gadget origin read x next => x.key? origin read next

variable {x : Directive} {B : List Cell}

theorem serves_eq_true_iff {state : String} {c : Cell} :
    x.serves state c = true ↔ x.origin = state ∧ x.read.Matches c := by
  simp [serves]

theorem not_isStep_of_key? {k : ChainKey} (h : x.key? = some k) : ¬ Build.IsStep k := by
  cases x with
  | transition _ _ _ _ _ => cases h
  | gadget origin read x next =>
    cases x with
    | shift m => cases h
    | markFirst marker =>
      cases h
      simp [Build.IsStep]
    | insertAfter marker insert =>
      cases h
      simp [Build.IsStep]

theorem kind_of_key? {k : ChainKey} (h : x.key? = some k) : k.kind ≠ .jointMove := by
  cases x with
  | transition _ _ _ _ _ => cases h
  | gadget origin read x next =>
    cases x with
    | shift m => cases h
    | markFirst marker =>
      cases h
      exact nofun
    | insertAfter marker insert =>
      cases h
      exact nofun

theorem serving_concat (xs : List Directive) (x : Directive) (state : String) (c : Cell) :
    serving (xs ++ [x]) state c
      =
    (serving xs state c).or (if x.serves state c then some x else none) := by
  unfold serving
  rw [List.find?_append, List.find?_singleton]

end Directive

/-- A directive about no cell: the state is there, without rules. -/
def Directive.idle (s : String) : Directive := .transition s (.oneOf []) .keep .right s

theorem Directive.not_serves_idle (s q : String) (c : Cell) : (idle s).serves q c = false := by
  rw [Bool.eq_false_iff]
  intro hserves
  cases (serves_eq_true_iff.mp hserves).2

namespace Draft

/-- The draft does what directives say in states that `N` allows. -/
structure Obeys (B : List Cell) (N : String → Prop) (xs : List Directive) (d : Draft) : Prop where
  sound : d.Sound B N fun _ => False
  served : ∀ q v v' x, Directive.serving xs q v.focus = some x → (x.read = .any → v.focus ∈ B) →
    isTerminal q = false → x.Works B v v' → d.Reaches q v x.next v'
  covered : ∀ q c x, Directive.serving xs q c = some x → (x.read = .any → c ∈ B) →
    d.states.lookup q c ≠ none
  unserved : ∀ q c, N q → Directive.serving xs q c = none → d.states.lookup q c = none
  absent : ∀ q, N q → (∀ x ∈ xs, x.origin ≠ q) → d.states.find? q = none

namespace Obeys

variable {B : List Cell} {N : String → Prop} {K : ChainKey → Prop} {xs : List Directive}
  {d d' : Draft} {x : Directive}

theorem idle (hstates : ∀ e ∈ d.states.entries, N e.1 ∧ e.2 = .empty) (hchains : d.chains = [])
    (hblank : .blank ∈ B) (haccepts : ∀ c ∈ B, d.alphabet.accepts c = true)
    (hsymbols : ∀ c ∈ B, c ∈ d.alphabet.symbols)
    (hdisplays : ∀ c ∈ B, ∀ c' ∈ d.alphabet.symbols, c.display = c'.display → c = c')
    (hforeign : ∀ s, N s → ¬ d.guard.Generates s) :
    d.Obeys B N (d.states.names.map Directive.idle) := by
  have hmem (e : ChainKey × String) : e ∉ d.chains := by
    rw [hchains]
    exact List.not_mem_nil
  have hserving (q : String) (c : Cell) (x : Directive) :
      Directive.serving (d.states.names.map Directive.idle) q c ≠ some x := by
    intro hx
    obtain ⟨s, _, rfl⟩ := List.mem_map.mp (List.mem_of_find?_eq_some hx)
    exact absurd (List.find?_some hx) (by simp [Directive.not_serves_idle])
  refine ⟨⟨hblank, haccepts, hsymbols, hdisplays, hforeign, ?_, ?_, ?_⟩, ?_, ?_, ?_, ?_⟩
  . exact fun e he => absurd he (hmem e)
  . intro s hs
    obtain ⟨table, htable⟩ := Option.ne_none_iff_exists'.mp hs
    exact .inl (hstates _ (StateTables.mem_entries_of_find? htable)).1
  . exact fun e he => absurd he (hmem e)
  . exact fun q v _ x hx => absurd hx (hserving q v.focus x)
  . exact fun q c x hx => absurd hx (hserving q c x)
  . exact fun q c _ _ => StateTables.lookup_of_empty (fun e he => (hstates e he).2) q c
  . intro q _ hother
    by_contra hs
    obtain ⟨table, htable⟩ := Option.ne_none_iff_exists'.mp hs
    exact hother (.idle q) (List.mem_map_of_mem (List.mem_map_of_mem
      (StateTables.mem_entries_of_find? htable))) rfl

theorem nil (hstates : d.states = {}) (hchains : d.chains = []) (hblank : .blank ∈ B)
    (haccepts : ∀ c ∈ B, d.alphabet.accepts c = true) (hsymbols : ∀ c ∈ B, c ∈ d.alphabet.symbols)
    (hdisplays : ∀ c ∈ B, ∀ c' ∈ d.alphabet.symbols, c.display = c'.display → c = c')
    (hforeign : ∀ s, N s → ¬ d.guard.Generates s) : d.Obeys B N [] := by
  have hentries : d.states.entries = [] := by rw [hstates]
  have hnames : d.states.names = [] := by rw [hstates]; rfl
  have hidle : d.Obeys B N (d.states.names.map Directive.idle) := by
    apply idle _ hchains hblank haccepts hsymbols hdisplays hforeign
    rw [hentries]
    exact List.forall_mem_nil _
  rwa [hnames] at hidle

theorem extend (h : d.Obeys B N xs) (hguard : d'.guard = d.guard) (hstates : d'.states = d.states)
    (hchains : ∀ e ∈ d'.chains, e ∈ d.chains ∨ e.1.kind = .jointMove)
    (hkept : ∀ e ∈ d.chains, e ∈ d'.chains)
    (haccepts : ∀ c, d.alphabet.accepts c = true → d'.alphabet.accepts c = true)
    (hsymbols : ∀ c ∈ d.alphabet.symbols, c ∈ d'.alphabet.symbols)
    (hdisplays : ∀ c ∈ d'.alphabet.symbols, c ∈ d.alphabet.symbols ∨ ∀ b ∈ B, b.display ≠ c.display) :
    d'.Obeys B N xs := by
  have hbelow : d.Below d' := by
    refine ⟨haccepts, ?_⟩
    intro s c o ho
    rwa [hstates]
  refine ⟨⟨h.sound.blank, ?_, ?_, ?_, ?_, ?_, ?_, ?_⟩, ?_, ?_, ?_, ?_⟩
  . exact fun c hc => haccepts c (h.sound.accepts c hc)
  . exact fun c hc => hsymbols c (h.sound.symbols c hc)
  . intro c hc c' hc' heq
    rcases hdisplays c' hc' with hold | hnew
    . exact h.sound.displays c hc c' hold heq
    . exact absurd heq (hnew c hc)
  . rw [hguard]
    exact h.sound.foreign
  . intro e he hkind
    rw [hguard]
    rcases hchains e he with he | hjoint
    . exact h.sound.formed e he hkind
    . exact absurd hjoint hkind
  . intro s hs
    rw [hstates] at hs
    rcases h.sound.known s hs with hN | ⟨e, he, hkind, hname⟩
    . exact .inl hN
    . exact .inr ⟨e, hkept e he, hkind, hname⟩
  . intro e he hopened
    rcases hchains e he with he | hjoint
    . exact (h.sound.performs e he hopened).mono hbelow
    . refine ⟨?_, ?_, ?_⟩
      . rintro m next heq
        rw [heq] at hjoint
        cases hjoint
      . rintro c _ m next heq
        rw [heq] at hjoint
        cases hjoint
      . rintro (hkind | hkind)
        . rw [hjoint] at hkind
          cases hkind
        . rw [hjoint] at hkind
          cases hkind
  . intro q v v' x hx hv hq hworks
    exact hbelow.reaches (h.served q v v' x hx hv hq hworks)
  . rw [hstates]
    exact h.covered
  . rw [hstates]
    exact h.unserved
  . rw [hstates]
    exact h.absent

theorem of_lowers (h : d.Obeys B N xs) (horigin : N x.origin)
    (hlow : d.Lowers B N (fun _ => False) K x.origin x.read x.next (x.Works B) d') :
    d'.Obeys B N (xs ++ [x]) := by
  refine ⟨hlow.sound, ?_, ?_, ?_, ?_⟩
  . intro q v v' y hy hv hq hworks
    rw [Directive.serving_concat] at hy
    cases hserving : Directive.serving xs q v.focus with
    | some z =>
      rw [hserving, Option.some_or] at hy
      cases hy
      exact hlow.grows.below.reaches (h.served q v v' y hserving hv hq hworks)
    | none =>
      rw [hserving, Option.none_or] at hy
      split at hy
      . next hserves =>
        cases hy
        obtain ⟨rfl, hmatch⟩ := Directive.serves_eq_true_iff.mp hserves
        exact hlow.reaches v v' hv hmatch (h.unserved _ _ horigin hserving) hq hworks
      . cases hy
  . intro q c y hy hc
    rw [Directive.serving_concat] at hy
    cases hserving : Directive.serving xs q c with
    | some z =>
      rw [hserving, Option.some_or] at hy
      cases hy
      exact hlow.grows.lookup_ne_none (h.covered q c y hserving hc)
    | none =>
      rw [hserving, Option.none_or] at hy
      split at hy
      . next hserves =>
        cases hy
        obtain ⟨rfl, hmatch⟩ := Directive.serves_eq_true_iff.mp hserves
        exact hlow.covers c hc hmatch
      . cases hy
  . intro q c hq hnone
    rw [Directive.serving_concat, Option.or_eq_none_iff] at hnone
    have hbefore := h.unserved q c hq hnone.1
    by_cases heq : q = x.origin
    . subst heq
      apply hlow.missing c _ hbefore
      intro hmatch
      rw [if_pos (Directive.serves_eq_true_iff.mpr ⟨rfl, hmatch⟩)] at hnone
      cases hnone.2
    . rw [hlow.grows.lookup_other heq (.inl hq), hbefore]
  . intro q hq hxs
    simp only [List.mem_append, List.mem_singleton] at hxs
    rw [hlow.grows.other q (Ne.symm (hxs x (.inr rfl))) (.inl hq)]
    exact h.absent q hq fun y hy => hxs y (.inl hy)

theorem transition (h : d.Obeys B N xs) {origin next : String} {read : Pattern} {w : Writing}
    {m : Move} (horigin : N origin) (hok : Build.transition origin read w m next d = .ok () d') :
    d'.Obeys B N (xs ++ [.transition origin read w m next])
      ∧ d.Grows N (· = origin) (fun k => k.kind = .continuation) d'
      ∧ (read ≠ .any → ∀ c, read.Matches c → d.states.lookup origin c = none) := by
  have hlow := Build.transition_lowers hok h.sound (.inl horigin) fun _ _ => id
  exact ⟨h.of_lowers horigin hlow, hlow.grows, hlow.free⟩

theorem directive (h : d.Obeys B N xs) (horigin : N x.origin) (hapart : d.SymbolsApart)
    (hread : ∀ c ∈ x.read.cells [], c ∈ d.alphabet.symbols)
    (hok : Build.directive x d = .ok () d') :
    (∃ k name, x.key? = some k ∧ (k, name) ∈ d.chains ∧ d' = d)
      ∨ (d'.Obeys B N (xs ++ [x])
        ∧ d.Grows N (· = x.origin) (fun k => Build.IsStep k ∨ x.key? = some k) d'
        ∧ (x.read ≠ .any → ∀ c, x.read.Matches c → d.states.lookup x.origin c = none)) := by
  cases x with
  | transition origin read w m next =>
    obtain ⟨hobeys, hgrows, hfree⟩ := h.transition horigin hok
    exact .inr ⟨hobeys, hgrows.mono (fun _ hs => hs) fun _ hk => .inl (.inl hk), hfree⟩
  | gadget origin read g next =>
    rcases Build.gadget_lowers hok h.sound hapart (.inl horigin) hread with hmemo | hlow
    . exact .inl hmemo
    . exact .inr ⟨h.of_lowers horigin hlow, hlow.grows, hlow.free⟩

end Obeys

end Draft

end TuringLowering
