import TuringLowering.Proofs.Letters
import TuringLowering.Proofs.Obedience

/-!
This module contains the inventory of the directives that a draft was made of. Each of them that reads
certain cells only is followed on these cells, whatever else was added before or after it.
-/

namespace TuringLowering

namespace Draft

/--
The draft was made of these directives. Cells outside `B` are read only in states for which `S` holds,
where no directive is about all cells.
-/
structure Executed (g : Guard) (B : List Cell) (S : String → Prop) (xs : List Directive)
    (d : Draft) : Prop where
  guard : d.guard = g
  obeys : d.Obeys B (fun s => ¬ g.Generates s) xs
  settled : ∀ x ∈ xs, x.read ≠ .any → ∀ c, x.read.Matches c →
    Directive.serving xs x.origin c = some x
  wild : ∀ x ∈ xs, x.read = .any → ¬ S x.origin
  keys : ∀ e ∈ d.chains, Build.IsStep e.1 ∨ e.1.kind = .jointMove ∨ ∃ x ∈ xs, x.key? = some e.1

namespace Executed

variable {g : Guard} {B : List Cell} {S : String → Prop} {xs : List Directive} {d d' : Draft}
  {x : Directive}

theorem concat (h : d.Executed g B S xs) {K : ChainKey → Prop}
    (hobeys : d'.Obeys B (fun s => ¬ g.Generates s) (xs ++ [x]))
    (hgrows : d.Grows (fun s => ¬ g.Generates s) (· = x.origin) K d')
    (hK : ∀ k, K k → Build.IsStep k ∨ x.key? = some k)
    (hfree : x.read ≠ .any → ∀ c, x.read.Matches c → d.states.lookup x.origin c = none)
    (hwild : x.read = .any → ¬ S x.origin)
    (hcells : x.read ≠ .any → (∀ c, x.read.Matches c → c ∈ B) ∨ S x.origin) :
    d'.Executed g B S (xs ++ [x]) := by
  refine ⟨hgrows.guard.trans h.guard, hobeys, ?_, ?_, ?_⟩
  . intro y hy hread c hmatch
    rw [Directive.serving_concat]
    rcases List.mem_append.mp hy with hy | hy
    . rw [h.settled y hy hread c hmatch, Option.some_or]
    . rw [List.mem_singleton] at hy
      subst hy
      -- An earlier directive about the cell would have left no room for a rule.
      have hnone : Directive.serving xs y.origin c = none := by
        by_contra hsome
        obtain ⟨z, hz⟩ := Option.ne_none_iff_exists'.mp hsome
        apply h.obeys.covered y.origin c z hz _ (hfree hread c hmatch)
        intro hany
        rcases hcells hread with hB | hS
        . exact hB c hmatch
        . have hserves := List.find?_some hz
          obtain ⟨horigin, _⟩ := Directive.serves_eq_true_iff.mp hserves
          apply absurd _ (h.wild z (List.mem_of_find?_eq_some hz) hany)
          rwa [horigin]
      rw [hnone, Option.none_or, if_pos (Directive.serves_eq_true_iff.mpr ⟨rfl, hmatch⟩)]
  . intro y hy hany
    rcases List.mem_append.mp hy with hy | hy
    . exact h.wild y hy hany
    . rw [List.mem_singleton] at hy
      subst hy
      exact hwild hany
  . intro e he
    rcases hgrows.new e he with he | hk
    . rcases h.keys e he with hstep | hjoint | ⟨y, hy, hkey⟩
      . exact .inl hstep
      . exact .inr (.inl hjoint)
      . exact .inr (.inr ⟨y, List.mem_append_left _ hy, hkey⟩)
    . rcases hK e.1 hk with hstep | hkey
      . exact .inl hstep
      . exact .inr (.inr ⟨x, List.mem_append_right _ (List.mem_singleton_self x), hkey⟩)

theorem transition (h : d.Executed g B S xs) {origin next : String} {read : Pattern} {w : Writing}
    {m : Move} (horigin : ¬ g.Generates origin) (hread : read ≠ .any)
    (hcells : (∀ c, read.Matches c → c ∈ B) ∨ S origin)
    (hok : Build.directive (.transition origin read w m next) d = .ok () d') :
    d'.Executed g B S (xs ++ [.transition origin read w m next])
      ∧ d.Grows (fun s => ¬ g.Generates s) (· = origin) (fun k => k.kind = .continuation) d' := by
  obtain ⟨hobeys, hgrows, hfree⟩ := h.obeys.transition horigin hok
  exact ⟨h.concat hobeys hgrows (fun _ hk => .inl (.inl hk)) hfree (fun hany => absurd hany hread)
    fun _ => hcells, hgrows⟩

theorem directive (h : d.Executed g B S xs) (horigin : ¬ g.Generates x.origin)
    (hapart : d.SymbolsApart) (hread : ∀ c ∈ x.read.cells [], c ∈ d.alphabet.symbols)
    (hnew : ∀ y ∈ xs, ∀ k, y.key? = some k → x.key? ≠ some k)
    (hwild : x.read = .any → ¬ S x.origin)
    (hcells : x.read ≠ .any → (∀ c, x.read.Matches c → c ∈ B) ∨ S x.origin)
    (hok : Build.directive x d = .ok () d') :
    d'.Executed g B S (xs ++ [x])
      ∧ d.Grows (fun s => ¬ g.Generates s) (· = x.origin)
        (fun k => Build.IsStep k ∨ x.key? = some k) d' := by
  rcases h.obeys.directive horigin hapart hread hok with
    ⟨k, name, hk, hmem, _⟩ | ⟨hobeys, hgrows, hfree⟩
  . exfalso
    rcases h.keys _ hmem with hstep | hjoint | ⟨y, hy, hkey⟩
    . exact Directive.not_isStep_of_key? hk hstep
    . exact Directive.kind_of_key? hk hjoint
    . exact hnew y hy k hkey hk
  . exact ⟨h.concat hobeys hgrows (fun _ hk => hk) hfree hwild hcells, hgrows⟩

theorem addState (h : d.Executed g B S xs) {s : String} (hs : ¬ g.Generates s)
    (hok : Build.addState s d = .ok () d') :
    d'.Executed g B S (xs ++ [.idle s]) ∧ d' = { d with states := d'.states } := by
  have hadds : d.Adds s (.oneOf []) (fun _ _ => False) d' := .of_addState hok
  have hlow := @Adds.lowers B _ _ (fun _ => False) d d' s s _ _
    ((Directive.idle s).Works B) hadds h.obeys.sound (.inl hs) fun _ _ => False.elim
  refine ⟨h.concat (h.obeys.of_lowers hs hlow) hlow.grows (fun _ => False.elim) ?_ nofun ?_, hadds.rest⟩
  . intro _ c hc
    cases hc
  . intro _
    refine .inl ?_
    intro c hc
    cases hc

theorem extend (h : d.Executed g B S xs) (hguard : d'.guard = d.guard)
    (hstates : d'.states = d.states)
    (hchains : ∀ e ∈ d'.chains, e ∈ d.chains ∨ e.1.kind = .jointMove)
    (hkept : ∀ e ∈ d.chains, e ∈ d'.chains)
    (haccepts : ∀ c, d.alphabet.accepts c = true → d'.alphabet.accepts c = true)
    (hsymbols : ∀ c ∈ d.alphabet.symbols, c ∈ d'.alphabet.symbols)
    (hdisplays : ∀ c ∈ d'.alphabet.symbols, c ∈ d.alphabet.symbols ∨ ∀ b ∈ B, b.display ≠ c.display) :
    d'.Executed g B S xs := by
  refine ⟨hguard.trans h.guard,
    h.obeys.extend hguard hstates hchains hkept haccepts hsymbols hdisplays, h.settled, h.wild, ?_⟩
  intro e he
  rcases hchains e he with he | hjoint
  . exact h.keys e he
  . exact .inr (.inl hjoint)

theorem reaches (h : d.Executed g B S xs) (hx : x ∈ xs) (hread : x.read ≠ .any) {v v' : View}
    (hmatch : x.read.Matches v.focus) (hrunning : isTerminal x.origin = false)
    (hworks : x.Works B v v') : d.Reaches x.origin v x.next v' :=
  h.obeys.served _ v v' x (h.settled x hx hread _ hmatch) (fun hany => absurd hany hread) hrunning
    hworks

theorem reaches_any (h : d.Executed g B S xs) (hx : x ∈ xs) (hread : x.read = .any) {v v' : View}
    (hother : ∀ y ∈ xs, y.origin = x.origin → y.read.Matches v.focus → y = x)
    (hfocus : v.focus ∈ B) (hrunning : isTerminal x.origin = false) (hworks : x.Works B v v') :
    d.Reaches x.origin v x.next v' := by
  have hserves : x.serves x.origin v.focus = true := by
    rw [Directive.serves_eq_true_iff, hread]
    exact ⟨rfl, trivial⟩
  obtain ⟨y, hy⟩ := Option.isSome_iff_exists.mp (List.find?_isSome.mpr ⟨x, hx, hserves⟩)
  obtain ⟨horigin, hmatch⟩ := Directive.serves_eq_true_iff.mp (List.find?_some hy)
  obtain rfl := hother y (List.mem_of_find?_eq_some hy) horigin hmatch
  exact h.obeys.served _ v v' y hy (fun _ => hfocus) hrunning hworks

theorem exists_serves (h : d.Executed g B S xs) {s : String} (hs : ¬ g.Generates s) {c : Cell}
    (hlookup : d.states.lookup s c ≠ none) : ∃ x ∈ xs, x.serves s c = true := by
  by_contra hnone
  apply hlookup
  apply h.obeys.unserved s c hs
  apply List.find?_eq_none.mpr
  intro x hx hserves
  exact hnone ⟨x, hx, hserves⟩

theorem exists_origin (h : d.Executed g B S xs) {s : String} (hs : ¬ g.Generates s)
    (hfind : d.states.find? s ≠ none) : ∃ x ∈ xs, x.origin = s := by
  by_contra hnone
  apply hfind
  apply h.obeys.absent s hs
  intro x hx horigin
  exact hnone ⟨x, hx, horigin⟩

end Executed

end Draft

end TuringLowering
