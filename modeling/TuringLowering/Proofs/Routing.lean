import TuringLowering.Proofs.Inventory
import TuringLowering.Proofs.Sharing

/-!
This module contains what a draft with a shared tape is made of: the directives that serve all routes,
and those of each route that was added, whether it was the first one to need them or not.
-/

namespace TuringLowering

namespace Segment

/-- The cells that may stand on a shared tape, names of states apart. -/
def cells (A : Alphabet) : List Cell :=
  A.declared ++ A.heads ++ [.start, .boundLeft, .boundRight, .afterLast, Cell.boundRight.tagged]

def ReadsNames (g : Guard) (s : String) : Prop := s = stepState g ∨ s = growPart g "done"

end Segment

namespace Alphabet

structure HasHeads (A : Alphabet) : Prop where
  letters : ∀ c ∈ A.declared, c.IsLetter
  blank : .blank ∈ A.declared
  heads : A.heads = A.declared.map Cell.tagged

structure IsSegmented (A : Alphabet) : Prop extends HasHeads A where
  clean : ∀ c ∈ A.declared, Guard.Clean c.display

theorem mem_cells_of_declared {A : Alphabet} {c : Cell} (h : c ∈ A.declared) : c ∈ Segment.cells A :=
  List.mem_append_left _ (List.mem_append_left _ h)

theorem mem_cells_of_heads {A : Alphabet} {c : Cell} (h : c ∈ A.heads) : c ∈ Segment.cells A :=
  List.mem_append_left _ (List.mem_append_right _ h)

namespace HasHeads

variable {A : Alphabet} (hA : A.HasHeads)

include hA

theorem mem_tagged {c : Cell} (h : c ∈ A.declared) : c.tagged ∈ Segment.cells A := by
  apply mem_cells_of_heads
  rw [hA.heads]
  exact List.mem_map_of_mem h

theorem display_ne_state {b : Cell} (hb : b ∈ Segment.cells A) (q : String) :
    b.display ≠ (Cell.state q).display := by
  have hstate : (Cell.state q).display.toList
      = 'Q' :: ':' :: (braced q).toList := by
    simp [Mark.display]
  intro heq
  have hlist := congrArg String.toList heq
  rw [hstate] at hlist
  have hmark : ∀ b ∈ [Cell.start, .boundLeft, .boundRight, .afterLast, Cell.boundRight.tagged],
      b.display.toList.head? = some '\x7b' := by
    decide
  have htagged (char : Char) : (Cell.ofChar char).tagged.display.toList.take 2 = [char, '-'] := by
    have hshort : Mark.looksReserved (String.singleton char) = false := by
      simp [Mark.looksReserved]
    simp [Cell.ofChar, Cell.tagged, Cell.withHead, Mark.display, hshort]
  rcases List.mem_append.mp hb with hb | hb
  . rcases List.mem_append.mp hb with hb | hb
    . obtain ⟨char, rfl⟩ | rfl := hA.letters b hb
      . rw [Cell.toList_display_ofChar] at hlist
        simp at hlist
      . rw [Cell.toList_display_blank] at hlist
        simp at hlist
    . rw [hA.heads] at hb
      obtain ⟨c, hc, rfl⟩ := List.mem_map.mp hb
      obtain ⟨char, rfl⟩ | rfl := hA.letters c hc
      . have := congrArg (List.take 2) hlist
        rw [htagged] at this
        simp at this
      . have hhead : Cell.blank.tagged.display.toList.head? = some 'Q' := congrArg List.head? hlist
        exact absurd hhead (by decide)
  . have hhead : b.display.toList.head? = some 'Q' := congrArg List.head? hlist
    rw [hmark b hb] at hhead
    exact absurd hhead (by decide)

end HasHeads

end Alphabet

namespace Route.Prescribes

variable {A : Alphabet} {g : Guard} {n : Nat} {r : Route} {x : Directive}

theorem isTransition (h : r.Prescribes A x) :
    ∃ origin read w m next, x = .transition origin read w m next := by
  cases h with
  | entry mem =>
    simp only [Route.entry, List.mem_cons, List.not_mem_nil, or_false] at mem
    rcases mem with rfl | rfl <;> exact ⟨_, _, _, _, _, rfl⟩
  | pass lt => exact ⟨_, _, _, _, _, rfl⟩
  | found read => exact ⟨_, _, _, _, _, rfl⟩
  | action write move mem =>
    simp only [Route.action, List.mem_append, List.mem_cons, List.not_mem_nil, or_false,
      List.mem_map] at mem
    rcases mem with (rfl | rfl | rfl | rfl) | ⟨c, _, rfl⟩ <;> exact ⟨_, _, _, _, _, rfl⟩
  | record mem =>
    simp only [Route.record, List.mem_cons, List.not_mem_nil, or_false] at mem
    rcases mem with rfl | rfl | rfl <;> exact ⟨_, _, _, _, _, rfl⟩

theorem mem_cells_of_between {c : Cell} (h : (Route.between A).Matches c) :
    c ∈ Segment.cells A := by
  rcases List.mem_append.mp h with h | h
  . exact Alphabet.mem_cells_of_declared h
  . simp only [List.mem_cons, List.not_mem_nil, or_false] at h
    rcases h with rfl | rfl <;> simp [Segment.cells]

theorem mem_cells (hA : A.IsSegmented) (hr : r.WellFormed g n) (hreads : ∀ c ∈ r.reads, c ∈ A.declared)
    (h : r.Prescribes A x) :
    (∀ c, x.read.Matches c → c ∈ Segment.cells A) ∨ Segment.ReadsNames g x.origin := by
  have hbound : Cell.boundLeft ∈ Segment.cells A ∧ Cell.boundRight ∈ Segment.cells A := by
    simp [Segment.cells]
  cases h with
  | entry mem =>
    right
    have := Route.origin_of_mem_entry mem
    rwa [hr.guard] at this
  | pass lt =>
    left
    exact fun _ => mem_cells_of_between
  | @found i c read =>
    left
    intro c' hc'
    rw [show c' = c.tagged from hc']
    exact hA.mem_tagged (hreads c (List.mem_of_getElem? read))
  | action write move mem =>
    left
    simp only [Route.action, List.mem_append, List.mem_cons, List.not_mem_nil, or_false,
      List.mem_map] at mem
    intro c' hc'
    rcases mem with (rfl | rfl | rfl | rfl) | ⟨c, hc, rfl⟩
    . exact mem_cells_of_between hc'
    . exact Alphabet.mem_cells_of_heads hc'
    . rw [show c' = .boundLeft from hc']
      exact hbound.1
    . rw [show c' = .boundRight from hc']
      exact hbound.2
    . rw [show c' = c from hc']
      exact Alphabet.mem_cells_of_declared hc
  | record mem =>
    left
    simp only [Route.record, List.mem_cons, List.not_mem_nil, or_false] at mem
    intro c' hc'
    rcases mem with rfl | rfl | rfl
    . exact Alphabet.mem_cells_of_declared hc'
    . rw [show c' = .boundLeft from hc']
      exact hbound.1
    . rw [show c' = .blank from hc']
      exact Alphabet.mem_cells_of_declared hA.blank

end Route.Prescribes

namespace Draft

def Pends (g : Guard) (made : List ChainKey) (d : Draft) : Prop :=
  ∀ k name, k.kind = .jointMove → ((k, name) ∈ d.chains ↔ k ∈ made ∧ name = g.wrap k.parts)

theorem Pends.grows {g : Guard} {made : List ChainKey} {N S : String → Prop}
    {K : ChainKey → Prop} {d d' : Draft} (h : d.Pends g made) (hgrows : d.Grows N S K d')
    (hK : ∀ k, K k → k.kind ≠ .jointMove) : d'.Pends g made := by
  intro k name hk
  rw [← h k name hk]
  constructor
  . intro hmem
    rcases hgrows.new _ hmem with hmem | hnew
    . exact hmem
    . exact absurd hk (hK k hnew)
  . exact hgrows.chains _

/--
A draft with a shared tape was made of the directives of `F`, those of the routes of `R`, and, while
one more route is added to it, those of `ys`.
-/
structure Shares (g : Guard) (A : Alphabet) (n : Nat) (F : List Directive) (made : List ChainKey)
    (R : List Route) (ys : List Directive) (d : Draft) : Prop where
  start : d.start = defaultStart
  tapes : d.tapes = .multi n
  features : d.features.enabled .multiTape = false
  declared : d.alphabet.declared = A.declared
  heads : d.alphabet.heads = A.heads
  pends : d.Pends g made
  inventory : ∃ xs, d.Executed g (Segment.cells A) (Segment.ReadsNames g) xs
    ∧ ∀ x, x ∈ xs ↔ x ∈ F ∨ (∃ r ∈ R, r.Prescribes A x) ∨ x ∈ ys

namespace Shares

variable {g : Guard} {A : Alphabet} {n : Nat} {F ys zs : List Directive} {made : List ChainKey}
  {R : List Route} {r : Route} {d d' : Draft} {x : Directive}

theorem congr (h : d.Shares g A n F made R ys)
    (hiff : ∀ x, (x ∈ F ∨ (∃ r ∈ R, r.Prescribes A x) ∨ x ∈ ys)
      ↔ (x ∈ F ∨ (∃ r ∈ R, r.Prescribes A x) ∨ x ∈ zs)) : d.Shares g A n F made R zs := by
  obtain ⟨xs, hxs, hmem⟩ := h.inventory
  exact ⟨h.start, h.tapes, h.features, h.declared, h.heads, h.pends, xs, hxs,
    fun x => (hmem x).trans (hiff x)⟩

theorem shared (h : d.Shares g A n F made R ys) (hzs : ∀ x ∈ zs, ∃ r ∈ R, r.Prescribes A x) :
    d.Shares g A n F made R (ys ++ zs) := by
  apply h.congr
  intro x
  rw [List.mem_append]
  constructor
  . rintro (hF | hR | hy)
    . exact .inl hF
    . exact .inr (.inl hR)
    . exact .inr (.inr (.inl hy))
  . rintro (hF | hR | hy | hz)
    . exact .inl hF
    . exact .inr (.inl hR)
    . exact .inr (.inr hy)
    . exact .inr (.inl (hzs x hz))

variable (hA : A.IsSegmented) (hr : r.WellFormed g n) (hreads : ∀ c ∈ r.reads, c ∈ A.declared)

include hA hr hreads

theorem prescribed (h : d.Shares g A n F made R ys) (hx : r.Prescribes A x)
    (hok : Build.directive x d = .ok () d') : d'.Shares g A n F made R (ys ++ [x]) := by
  obtain ⟨xs, hxs, hmem⟩ := h.inventory
  have hread := hx.read_ne_any
  have hcells := hx.mem_cells hA hr hreads
  have horigin := hx.not_generates hr
  obtain ⟨origin, read, w, m, next, rfl⟩ := hx.isTransition
  obtain ⟨hxs', hgrows⟩ := hxs.transition horigin hread hcells hok
  refine ⟨?_, ?_, ?_, ?_, ?_, h.pends.grows hgrows ?_, _, hxs', ?_⟩
  . rw [hgrows.rest]
    exact h.start
  . rw [hgrows.rest]
    exact h.tapes
  . rw [hgrows.features]
    exact h.features
  . rw [hgrows.alphabet]
    exact h.declared
  . rw [hgrows.alphabet]
    exact h.heads
  . intro k hk hjoint
    rw [hk] at hjoint
    cases hjoint
  . intro x
    rw [List.mem_append, hmem, List.mem_append, or_assoc, or_assoc]
    rfl

theorem directives (h : d.Shares g A n F made R ys) (hzs : ∀ x ∈ zs, r.Prescribes A x)
    (hok : Build.directives zs d = .ok () d') : d'.Shares g A n F made R (ys ++ zs) := by
  apply @Build.forM_induction _ _ _ (fun done d => d.Shares g A n F made R (ys ++ done)) _ d d' _ hok
  . intro done x rest d₁ d₂ hitems h hok
    have hx := hzs x (by rw [hitems]; simp)
    have := h.prescribed hA hr hreads hx hok
    rwa [List.append_assoc] at this
  . rwa [List.append_nil]

end Shares

end Draft

namespace Route

theorem nodup_zipIdx {α : Type} (xs : List α) : (xs.zipIdx.map Prod.snd).Nodup := by
  rw [List.zipIdx_map_snd]
  exact List.nodup_range'

theorem ne_of_append {α : Type} {xs done rest : List (α × Nat)} {a : α × Nat}
    (hnodup : (xs.map Prod.snd).Nodup) (h : xs = done ++ a :: rest) {b : α × Nat} (hb : b ∈ done) :
    b.2 ≠ a.2 := by
  rw [h, List.map_append, List.map_cons, List.nodup_append] at hnodup
  exact hnodup.2.2 _ (List.mem_map_of_mem hb) _ List.mem_cons_self

def search (r : Route) (A : Alphabet) (p : Cell × Nat) : List Directive :=
  [ .pass (r.findState p.2) (between A) .right (r.findState p.2),
    .replace (r.findState p.2) p.1.tagged p.1.tagged .right (r.findState (p.2 + 1)) ]

def act (r : Route) (A : Alphabet) (p : (Cell × Move) × Nat) : List Directive :=
  r.action A (p.2 + 1) p.1.1 p.1.2

variable {A : Alphabet} {g : Guard} {n : Nat} {r : Route} {x : Directive}

theorem getElem?_of_mem_zipIdx {α : Type} {xs : List α} {p : α × Nat} (h : p ∈ xs.zipIdx) :
    xs[p.2]? = some p.1 := List.mem_zipIdx_iff_getElem?.mp h

theorem getElem?_of_mem_zip {ws : List Cell} {ms : List Move} {p : (Cell × Move) × Nat}
    (h : p ∈ (ws.zip ms).zipIdx) : ws[p.2]? = some p.1.1 ∧ ms[p.2]? = some p.1.2 :=
  List.getElem?_zip_eq_some.mp (getElem?_of_mem_zipIdx h)

theorem prescribes_of_mem_search {p : Cell × Nat} (hp : p ∈ r.reads.zipIdx) (h : x ∈ r.search A p) :
    r.Prescribes A x := by
  have hread := getElem?_of_mem_zipIdx hp
  simp only [search, List.mem_cons, List.not_mem_nil, or_false] at h
  rcases h with rfl | rfl
  . exact .pass (length_of_getElem? hread)
  . exact .found hread

theorem prescribes_of_mem_act {p : (Cell × Move) × Nat} (hp : p ∈ (r.writes.zip r.moves).zipIdx)
    (h : x ∈ r.act A p) : r.Prescribes A x := by
  obtain ⟨hwrite, hmove⟩ := getElem?_of_mem_zip hp
  exact .action hwrite hmove h

theorem prescribes_iff :
    r.Prescribes A x
      ↔ x ∈ r.entry ++ r.reads.zipIdx.flatMap (r.search A)
        ++ (r.writes.zip r.moves).zipIdx.reverse.flatMap (r.act A) ++ r.record A := by
  simp only [List.mem_append, List.mem_flatMap, List.mem_reverse]
  constructor
  . intro h
    cases h with
    | entry mem => exact .inl (.inl (.inl mem))
    | @pass i lt =>
      refine .inl (.inl (.inr ⟨(r.reads[i], i), ?_, List.mem_cons_self⟩))
      exact List.mem_zipIdx_iff_getElem?.mpr (List.getElem?_eq_getElem lt)
    | @found i c read =>
      refine .inl (.inl (.inr ⟨(c, i), List.mem_zipIdx_iff_getElem?.mpr read, ?_⟩))
      exact List.mem_cons_of_mem _ List.mem_cons_self
    | @action i w m _ write move mem =>
      refine .inl (.inr ⟨((w, m), i), List.mem_zipIdx_iff_getElem?.mpr ?_, mem⟩)
      exact List.getElem?_zip_eq_some.mpr ⟨write, move⟩
    | record mem => exact .inr mem
  . rintro (((h | ⟨p, hp, h⟩) | ⟨p, hp, h⟩) | h)
    . exact .entry h
    . exact prescribes_of_mem_search hp h
    . exact prescribes_of_mem_act hp h
    . exact .record h

end Route

namespace Route.WellFormed

variable {g : Guard} {n : Nat} {r : Route}

theorem serves_of_mem_entry (hr : r.WellFormed g n) {x : Directive} (hx : x ∈ r.entry) :
    g.Serves x.origin := by
  rcases Route.origin_of_mem_entry hx with h | h
  . rw [h, hr.guard]
    exact Segment.serves_stepState g
  . rw [h, hr.guard]
    exact Segment.serves_growPart g (by decide)

theorem origin_of_mem_search {A : Alphabet} {p : Cell × Nat} {x : Directive} (hx : x ∈ r.search A p) :
    x.origin = r.findState p.2 := by
  simp only [Route.search, List.mem_cons, List.not_mem_nil, or_false] at hx
  rcases hx with rfl | rfl <;> rfl

theorem origin_ne_of_append (hr : r.WellFormed g n) (A : Alphabet) {done rest : List (Cell × Nat)}
    {c : Cell} {i : Nat} (hitems : r.reads.zipIdx = done ++ (c, i) :: rest) :
    ∀ x ∈ r.entry ++ done.flatMap (r.search A), x.origin ≠ r.findState i := by
  have hlt {p : Cell × Nat} (hp : p ∈ r.reads.zipIdx) : p.2 < n := by
    rw [← hr.readsLength]
    exact Route.length_of_getElem? (Route.getElem?_of_mem_zipIdx hp)
  have hi : i < n := @hlt (c, i) (by rw [hitems]; simp)
  intro x hx horigin
  rcases List.mem_append.mp hx with hx | hx
  . exact hr.ne_findState hi (hr.serves_of_mem_entry hx) horigin
  . obtain ⟨p, hp, hx⟩ := List.mem_flatMap.mp hx
    have hp' : p ∈ r.reads.zipIdx := by
      rw [hitems]
      exact List.mem_append_left _ hp
    rw [origin_of_mem_search hx] at horigin
    exact Route.ne_of_append (Route.nodup_zipIdx r.reads) hitems hp
      (hr.findState_inj hr (hlt hp') hi horigin).1

theorem not_serves_of_append (hr : r.WellFormed g n) {A : Alphabet} (hA : ∀ c ∈ A.declared, c.IsLetter)
    {done rest : List (Cell × Nat)} {c : Cell} {i : Nat}
    (hitems : r.reads.zipIdx = done ++ (c, i) :: rest) :
    ∀ x ∈ r.entry ++ done.flatMap (r.search A)
      ++ [.pass (r.findState i) (Route.between A) .right (r.findState i)],
      x.serves (r.findState i) c.tagged = false := by
  intro x hx
  rw [Bool.eq_false_iff, ne_eq, Directive.serves_eq_true_iff]
  rintro ⟨horigin, hmatch⟩
  rcases List.mem_append.mp hx with hx | hx
  . exact hr.origin_ne_of_append A hitems x hx horigin
  . rw [List.mem_singleton.mp hx] at hmatch
    exact Route.not_matches_between hA c hmatch

theorem origin_ne_applyState (hr : r.WellFormed g n) (A : Alphabet) {x : Directive}
    (hx : x ∈ r.entry ++ r.reads.zipIdx.flatMap (r.search A)) {i : Nat} (hi : i ≤ n) (z : String) :
    x.origin ≠ r.applyState i ++ z := by
  rcases List.mem_append.mp hx with hx | hx
  . exact hr.ne_applyState hi z (hr.serves_of_mem_entry hx)
  . obtain ⟨p, hp, hx⟩ := List.mem_flatMap.mp hx
    have hlt : p.2 < n := by
      rw [← hr.readsLength]
      exact Route.length_of_getElem? (Route.getElem?_of_mem_zipIdx hp)
    rw [origin_of_mem_search hx]
    exact hr.findState_ne_applyState hr hlt hi

theorem origin_ne_of_reverse (hr : r.WellFormed g n) (A : Alphabet)
    {done rest : List ((Cell × Move) × Nat)} {p : Cell × Move} {i : Nat}
    (hitems : (r.writes.zip r.moves).zipIdx.reverse = done ++ (p, i) :: rest) {z : String}
    (hz : z ∈ Route.endings) :
    ∀ x ∈ r.entry ++ r.reads.zipIdx.flatMap (r.search A) ++ done.flatMap (r.act A),
      x.origin ≠ r.applyState (i + 1) ++ z := by
  have hlt {p : (Cell × Move) × Nat} (hp : p ∈ (r.writes.zip r.moves).zipIdx) : p.2 < n := by
    rw [← hr.writesLength]
    exact Route.length_of_getElem? (Route.getElem?_of_mem_zip hp).1
  have hi : i < n := @hlt (p, i) (by rw [← List.mem_reverse, hitems]; simp)
  have hnodup : ((r.writes.zip r.moves).zipIdx.reverse.map Prod.snd).Nodup := by
    rw [List.map_reverse, List.Nodup, List.pairwise_reverse]
    exact (Route.nodup_zipIdx (r.writes.zip r.moves)).imp Ne.symm
  intro x hx horigin
  rcases List.mem_append.mp hx with hx | hx
  . exact hr.origin_ne_applyState A hx hi z horigin
  . obtain ⟨q, hq, hx⟩ := List.mem_flatMap.mp hx
    have hq' : q ∈ (r.writes.zip r.moves).zipIdx := by
      rw [← List.mem_reverse, hitems]
      exact List.mem_append_left _ hq
    obtain ⟨z', hz', horigin'⟩ := Route.origin_of_mem_action hx
    rw [horigin'] at horigin
    have hindex := (hr.applyState_inj hr (hlt hq') hi hz' hz horigin).1
    exact Route.ne_of_append hnodup hitems hq (Nat.succ.inj hindex)

theorem origin_ne_back (hr : r.WellFormed g n) (A : Alphabet) {z : String} (hz : z ∈ Route.endings)
    {x : Directive} (hx : x ∈ r.entry ++ r.reads.zipIdx.flatMap (r.search A)
      ++ (r.writes.zip r.moves).zipIdx.reverse.flatMap (r.act A)) : x.origin ≠ r.applyState 0 ++ z := by
  rcases List.mem_append.mp hx with hx | hx
  . exact hr.origin_ne_applyState A hx (Nat.zero_le n) z
  . obtain ⟨p, hp, hx⟩ := List.mem_flatMap.mp hx
    obtain ⟨hwrite, _⟩ := Route.getElem?_of_mem_zip (List.mem_reverse.mp hp)
    have hlt : p.2 < n := by
      rw [← hr.writesLength]
      exact Route.length_of_getElem? hwrite
    obtain ⟨z', hz', horigin⟩ := Route.origin_of_mem_action hx
    rw [horigin]
    intro heq
    exact absurd (hr.applyState_inj hr hlt (Nat.zero_le n) hz' hz heq).1 (Nat.succ_ne_zero _)

end Route.WellFormed

/-- Directives that serve all routes: they do not say what is done in a state between two steps. -/
structure Segment.IsCommon (g : Guard) (F : List Directive) : Prop where
  serves : ∀ x ∈ F, g.Serves x.origin
  unnamed : ∀ x ∈ F, ∀ q, x.serves (Segment.stepState g) (.state q) = false

namespace Draft.Shares

variable {g : Guard} {A : Alphabet} {n : Nat} {F ys zs : List Directive} {made : List ChainKey}
  {R : List Route} {r : Route} {d d' : Draft} {x : Directive}

section

variable (hF : Segment.IsCommon g F) (hR : ∀ r ∈ R, r.WellFormed g n) (hr : r.WellFormed g n)

include hF hR hr

theorem share_pass (h : d.Shares g A n F made R ys) {i : Nat} (hi : i < n)
    (hys : ∀ x ∈ ys, x.origin ≠ r.findState i) (hfind : d.states.contains (r.findState i) = true) :
    ∃ r' ∈ R, r'.Prescribes A (.pass (r.findState i) (Route.between A) .right (r.findState i)) := by
  obtain ⟨xs, hxs, hmem⟩ := h.inventory
  have hstate : d.states.find? (r.findState i) ≠ none := by
    intro hnone
    rw [StateTables.contains, hnone] at hfind
    cases hfind
  obtain ⟨x, hx, horigin⟩ := hxs.exists_origin (hr.not_generates_findState hi) hstate
  rcases (hmem x).mp hx with hx | ⟨r', hr', hx⟩ | hx
  . exact absurd horigin (hr.ne_findState hi (hF.serves x hx))
  . exact ⟨r', hr', hx.share_pass hr (hR r' hr') hi horigin⟩
  . exact absurd horigin (hys x hx)

theorem share_found (hA : ∀ c ∈ A.declared, c.IsLetter) (h : d.Shares g A n F made R ys) {i : Nat}
    (hi : i + 1 < n) {c : Cell} (hread : r.reads[i]? = some c)
    (hys : ∀ x ∈ ys, x.serves (r.findState i) c.tagged = false)
    (hlookup : d.states.lookup (r.findState i) c.tagged ≠ none) :
    ∃ r' ∈ R, r'.Prescribes A
      (.replace (r.findState i) c.tagged c.tagged .right (r.findState (i + 1))) := by
  obtain ⟨xs, hxs, hmem⟩ := h.inventory
  have hi' := Nat.lt_of_succ_lt hi
  obtain ⟨x, hx, hserves⟩ := hxs.exists_serves (hr.not_generates_findState hi') hlookup
  rcases (hmem x).mp hx with hx | ⟨r', hr', hx⟩ | hx
  . obtain ⟨horigin, _⟩ := Directive.serves_eq_true_iff.mp hserves
    exact absurd horigin (hr.ne_findState hi' (hF.serves x hx))
  . exact ⟨r', hr', hx.share_found hr (hR r' hr') hA hi hread hserves⟩
  . rw [hys x hx] at hserves
    cases hserves

omit hR in
theorem share_apply (h : d.Shares g A n F made R ys) {i : Nat} (hi : i ≤ n)
    (hys : ∀ x ∈ ys, x.origin ≠ r.applyState i ++ "")
    (hfind : d.states.contains (r.applyState i) = true) :
    ∃ r' ∈ R, ∃ x, r'.Prescribes A x ∧ x.origin = r.applyState i ++ "" := by
  obtain ⟨xs, hxs, hmem⟩ := h.inventory
  have hstate : d.states.find? (r.applyState i) ≠ none := by
    intro hnone
    rw [StateTables.contains, hnone] at hfind
    cases hfind
  rw [← @String.append_empty (r.applyState i)] at hstate
  obtain ⟨x, hx, horigin⟩ := hxs.exists_origin (hr.not_generates_applyState hi "") hstate
  rcases (hmem x).mp hx with hx | ⟨r', hr', hx⟩ | hx
  . exact absurd horigin (hr.ne_applyState hi "" (hF.serves x hx))
  . exact ⟨r', hr', x, hx, horigin⟩
  . exact absurd horigin (hys x hx)

theorem share_entry (hn : 0 < n) (h : d.Shares g A n F made R [])
    (hlookup : d.states.lookup (Segment.stepState g) (.state r.origin) ≠ none) :
    ∃ r' ∈ R, ∀ x ∈ r.entry, r'.Prescribes A x := by
  obtain ⟨xs, hxs, hmem⟩ := h.inventory
  obtain ⟨x, hx, hserves⟩ := hxs.exists_serves (Segment.serves_stepState g).not_generates hlookup
  rcases (hmem x).mp hx with hx | ⟨r', hr', hx⟩ | hx
  . rw [hF.unnamed x hx] at hserves
    cases hserves
  . exact ⟨r', hr', fun y hy => hx.share_entry hr (hR r' hr') hn hserves hy⟩
  . cases hx

end

theorem addSymbol (hA : A.IsSegmented) (h : d.Shares g A n F made R ys) (q : String) :
    ({ d with alphabet := d.alphabet.add (.state q) } : Draft).Shares g A n F made R ys := by
  obtain ⟨xs, hxs, hmem⟩ := h.inventory
  refine ⟨h.start, h.tapes, h.features, h.declared, h.heads, h.pends, xs, ?_, hmem⟩
  have hsymbols : ∀ c ∈ d.alphabet.symbols, c ∈ (d.alphabet.add (.state q)).symbols :=
    fun c hc => Alphabet.mem_symbols_add.mpr (.inl hc)
  refine hxs.extend rfl rfl (fun _ => .inl) (fun _ => id)
    (fun c hc => Alphabet.accepts_mono hsymbols hc) hsymbols ?_
  intro c hc
  rcases Alphabet.mem_symbols_add.mp hc with hc | rfl
  . exact .inl hc
  . exact .inr fun b hb => hA.display_ne_state hb q

theorem between_eq (h : d.Shares g A n F made R ys) :
    Route.between d.alphabet = Route.between A := by
  rw [Route.between, h.declared, Route.between]

theorem action_eq (h : d.Shares g A n F made R ys) (r : Route) (i : Nat) (w : Cell) (m : Move) :
    r.action d.alphabet i w m = r.action A i w m := by
  simp only [Route.action, h.between_eq, h.heads, h.declared]

theorem record_eq (h : d.Shares g A n F made R ys) (r : Route) :
    r.record d.alphabet = r.record A := by
  simp only [Route.record, h.declared]

section

variable (hA : A.IsSegmented) (hF : Segment.IsCommon g F) (hR : ∀ r ∈ R, r.WellFormed g n)
  (hr : r.WellFormed g n) (hreads : ∀ c ∈ r.reads, c ∈ A.declared)

include hA hF hR hr hreads

theorem add_pass (h : d.Shares g A n F made R ys) {i : Nat} (hi : i < n)
    (hys : ∀ x ∈ ys, x.origin ≠ r.findState i)
    (hok : d.states.contains (r.findState i) = true ∧ d' = d
      ∨ Build.directive (.pass (r.findState i) (Route.between A) .right (r.findState i)) d
        = .ok () d') :
    d'.Shares g A n F made R
      (ys ++ [.pass (r.findState i) (Route.between A) .right (r.findState i)]) := by
  rcases hok with ⟨hcontains, rfl⟩ | hok
  . obtain ⟨r', hr', hshared⟩ := h.share_pass hF hR hr hi hys hcontains
    apply h.shared
    intro x hx
    rw [List.mem_singleton.mp hx]
    exact ⟨r', hr', hshared⟩
  . exact h.prescribed hA hr hreads (.pass (by rwa [hr.readsLength])) hok

theorem add_found (h : d.Shares g A n F made R ys) {i : Nat} {c : Cell}
    (hread : r.reads[i]? = some c) (hys : ∀ x ∈ ys, x.serves (r.findState i) c.tagged = false)
    (hok : i + 1 ≠ n ∧ d.states.lookup (r.findState i) c.tagged ≠ none ∧ d' = d
      ∨ Build.directive (.replace (r.findState i) c.tagged c.tagged .right (r.findState (i + 1))) d
        = .ok () d') :
    d'.Shares g A n F made R
      (ys ++ [.replace (r.findState i) c.tagged c.tagged .right (r.findState (i + 1))]) := by
  rcases hok with ⟨hne, hlookup, rfl⟩ | hok
  . have hlt := Route.length_of_getElem? hread
    rw [hr.readsLength] at hlt
    obtain ⟨r', hr', hshared⟩ := h.share_found hF hR hr hA.letters
      (by omega) hread hys hlookup
    apply h.shared
    intro x hx
    rw [List.mem_singleton.mp hx]
    exact ⟨r', hr', hshared⟩
  . exact h.prescribed hA hr hreads (.found hread) hok

theorem findHeads (h : d.Shares g A n F made R r.entry) (hok : Build.findHeads r d = .ok () d') :
    d'.Shares g A n F made R (r.entry ++ r.reads.zipIdx.flatMap (r.search A)) := by
  have hbetween := h.between_eq
  unfold Build.findHeads at hok
  rw [Build.bind_eq_ok] at hok
  obtain ⟨_, _, hget, hok⟩ := hok
  cases hget
  apply @Build.forM_induction _ _ _
    (fun done d => d.Shares g A n F made R (r.entry ++ done.flatMap (r.search A))) _ d d' _ hok
  . rintro done ⟨c, i⟩ rest d₁ d₂ hitems h hok
    have hread : r.reads[i]? = some c :=
      @Route.getElem?_of_mem_zipIdx _ _ (c, i) (by rw [hitems]; simp)
    have hi : i < n := by
      rw [← hr.readsLength]
      exact Route.length_of_getElem? hread
    have hearlier := hr.origin_ne_of_append A hitems
    dsimp only at hok
    rw [Build.bind_eq_ok] at hok
    obtain ⟨b, _, hb, hok⟩ := hok
    cases hb
    obtain ⟨d₃, h₃, hok⟩ : ∃ d₃, (d₁.states.contains (r.findState i) = true ∧ d₃ = d₁
          ∨ Build.directive (.pass (r.findState i) (Route.between A) .right (r.findState i)) d₁
            = .ok () d₃)
        ∧ (do
          let known ← Build.hasRule (r.findState i) c.tagged
          if (i + 1 == r.reads.length || !known) = true then
            Build.directive (.replace (r.findState i) c.tagged c.tagged .right (r.findState (i + 1)))
          else pure ()) d₃ = .ok () d₂ := by
      split at hok
      . rw [Build.bind_eq_ok] at hok
        obtain ⟨_, d₃, hdirective, hok⟩ := hok
        rw [hbetween] at hdirective
        exact ⟨d₃, .inr hdirective, hok⟩
      . next hcontains =>
        rw [Bool.not_eq_true', Bool.not_eq_false] at hcontains
        exact ⟨d₁, .inl ⟨hcontains, rfl⟩, hok⟩
    have h₃ := h.add_pass hA hF hR hr hreads hi hearlier h₃
    rw [Build.bind_eq_ok] at hok
    obtain ⟨b, _, hb, hok⟩ := hok
    cases hb
    have hunserved := hr.not_serves_of_append hA.letters hitems
    have h₂ : d₂.Shares g A n F made R (r.entry ++ done.flatMap (r.search A)
        ++ [.pass (r.findState i) (Route.between A) .right (r.findState i)]
        ++ [.replace (r.findState i) c.tagged c.tagged .right (r.findState (i + 1))]) := by
      apply h₃.add_found hA hF hR hr hreads hread hunserved
      split at hok
      . exact .inr hok
      . next hknown =>
        rw [Bool.or_eq_true, not_or, beq_iff_eq, hr.readsLength, Bool.not_eq_true',
          Bool.not_eq_false] at hknown
        cases hok
        exact .inl ⟨hknown.1, Option.isSome_iff_ne_none.mp hknown.2, rfl⟩
    rw [List.append_assoc, List.append_assoc] at h₂
    rwa [List.flatMap_append, List.flatMap_singleton]
  . rwa [List.flatMap_nil, List.append_nil]

theorem applyActions (h : d.Shares g A n F made R (r.entry ++ r.reads.zipIdx.flatMap (r.search A)))
    (hok : Build.applyActions r d = .ok () d') :
    d'.Shares g A n F made R (r.entry ++ r.reads.zipIdx.flatMap (r.search A)
      ++ (r.writes.zip r.moves).zipIdx.reverse.flatMap (r.act A)) := by
  have haction := h.action_eq r
  unfold Build.applyActions at hok
  rw [Build.bind_eq_ok] at hok
  obtain ⟨_, _, hget, hok⟩ := hok
  cases hget
  apply @Build.forM_induction _ _ _
    (fun done d => d.Shares g A n F made R
      (r.entry ++ r.reads.zipIdx.flatMap (r.search A) ++ done.flatMap (r.act A))) _ d d' _ hok
  . rintro done ⟨⟨w, m⟩, i⟩ rest d₁ d₂ hitems h hok
    have hmem : ((w, m), i) ∈ (r.writes.zip r.moves).zipIdx := by
      rw [← List.mem_reverse, hitems]
      simp
    obtain ⟨hwrite, hmove⟩ := Route.getElem?_of_mem_zip hmem
    have hi : i < n := by
      rw [← hr.writesLength]
      exact Route.length_of_getElem? hwrite
    have hempty : "" ∈ Route.endings := by decide
    have hearlier := hr.origin_ne_of_reverse A hitems hempty
    dsimp only at hok
    rw [Build.bind_eq_ok] at hok
    obtain ⟨b, _, hb, hok⟩ := hok
    cases hb
    rw [List.flatMap_append, List.flatMap_singleton, ← List.append_assoc]
    split at hok
    . rw [haction] at hok
      exact h.directives hA hr hreads (fun x hx => Route.prescribes_of_mem_act hmem hx) hok
    . next hcontains =>
      rw [Bool.not_eq_true', Bool.not_eq_false] at hcontains
      cases hok
      obtain ⟨r', hr', x, hx, horigin⟩ := h.share_apply hF hr hi hearlier hcontains
      apply h.shared
      intro y hy
      exact ⟨r', hr', hx.share_action hr (hR r' hr') hi hwrite hmove hempty horigin hy⟩
  . rwa [List.flatMap_nil, List.append_nil]

/-- A route is added to the others. -/
theorem route (hn : 0 < n) (h : d.Shares g A n F made R []) (hok : Build.route r d = .ok () d') :
    d'.Shares g A n F made (R ++ [r]) [] := by
  unfold Build.route at hok
  rw [Build.bind_eq_ok] at hok
  obtain ⟨b, _, hb, hok⟩ := hok
  cases hb
  obtain ⟨d₁, h₁, hok⟩ : ∃ d₁, d₁.Shares g A n F made R r.entry
      ∧ (do
        Build.findHeads r
        Build.applyActions r
        let known ← Build.hasState (r.applyState 0)
        if (!known) = true then do
          let e ← get
          Build.directives (r.record e.alphabet)
        else pure ()) d₁ = .ok () d' := by
    split at hok
    . rw [Build.bind_eq_ok] at hok
      obtain ⟨_, d₁, hsymbol, hok⟩ := hok
      cases hsymbol
      rw [Build.bind_eq_ok] at hok
      obtain ⟨_, d₂, hentry, hok⟩ := hok
      exact ⟨d₂, (h.addSymbol hA r.origin).directives hA hr hreads (fun x hx => .entry hx) hentry, hok⟩
    . next hknown =>
      rw [Bool.not_eq_true', Bool.not_eq_false, hr.guard] at hknown
      obtain ⟨r', hr', hshared⟩ := h.share_entry hF hR hr hn (Option.isSome_iff_ne_none.mp hknown)
      exact ⟨d, @shared _ _ _ _ [] _ _ _ _ h fun x hx => ⟨r', hr', hshared x hx⟩, hok⟩
  rw [Build.bind_eq_ok] at hok
  obtain ⟨_, d₂, hfind, hok⟩ := hok
  have h₂ := h₁.findHeads hA hF hR hr hreads hfind
  rw [Build.bind_eq_ok] at hok
  obtain ⟨_, d₃, hactions, hok⟩ := hok
  have h₃ := h₂.applyActions hA hF hR hr hreads hactions
  rw [Build.bind_eq_ok] at hok
  obtain ⟨b, _, hb, hok⟩ := hok
  cases hb
  have h₄ : d'.Shares g A n F made R (r.entry ++ r.reads.zipIdx.flatMap (r.search A)
      ++ (r.writes.zip r.moves).zipIdx.reverse.flatMap (r.act A) ++ r.record A) := by
    split at hok
    . rw [Build.bind_eq_ok] at hok
      obtain ⟨_, _, hget, hok⟩ := hok
      cases hget
      rw [h₃.record_eq] at hok
      exact h₃.directives hA hr hreads (fun x hx => .record hx) hok
    . next hcontains =>
      rw [Bool.not_eq_true', Bool.not_eq_false] at hcontains
      cases hok
      have hempty : "" ∈ Route.endings := by decide
      obtain ⟨r', hr', x, hx, horigin⟩ := h₃.share_apply hF hr (Nat.zero_le n)
        (fun x hx => hr.origin_ne_back A hempty hx) hcontains
      apply h₃.shared
      intro y hy
      exact ⟨r', hr', hx.share_record hr (hR r' hr') hempty horigin hy⟩
  obtain ⟨xs, hxs, hmem⟩ := h₄.inventory
  refine ⟨h₄.start, h₄.tapes, h₄.features, h₄.declared, h₄.heads, h₄.pends, xs, hxs, ?_⟩
  intro x
  rw [hmem, ← Route.prescribes_iff]
  simp only [List.mem_append, List.mem_singleton, List.not_mem_nil, or_false]
  constructor
  . rintro (hF | ⟨r', hr', hx⟩ | hx)
    . exact .inl hF
    . exact .inr ⟨r', .inl hr', hx⟩
    . exact .inr ⟨r, .inr rfl, hx⟩
  . rintro (hF | ⟨r', hr' | rfl, hx⟩)
    . exact .inl hF
    . exact .inr (.inl ⟨r', hr', hx⟩)
    . exact .inr (.inr hx)

end

end Draft.Shares

end TuringLowering
