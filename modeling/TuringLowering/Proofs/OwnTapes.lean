import TuringLowering.Proofs.JointProgram

/-!
This module contains machines with several tapes of their own: they do what the first transition about
their state and the cells under all heads says.
-/

namespace TuringLowering

theorem mem_combinations {options : List (List Cell)} {cells : List Cell} :
    cells ∈ combinations options ↔ List.Forall₂ (· ∈ ·) cells options := by
  induction options generalizing cells with
  | nil => simp [combinations]
  | cons first rest ih =>
    simp only [combinations, List.mem_flatMap, List.mem_map, ih, List.forall₂_cons_right_iff]
    constructor
    . rintro ⟨c, hc, tail, htail, rfl⟩
      exact ⟨c, tail, hc, htail, rfl⟩
    . rintro ⟨c, tail, hc, htail, rfl⟩
      exact ⟨c, hc, tail, htail, rfl⟩

theorem exists_mem_combinations {options : List (List Cell)} (h : ∀ cells ∈ options, cells ≠ []) :
    ∃ cells, cells ∈ combinations options := by
  induction options with
  | nil => exact ⟨[], List.mem_singleton.mpr rfl⟩
  | cons first rest ih =>
    rw [List.forall_mem_cons] at h
    obtain ⟨c, hc⟩ := List.exists_mem_of_ne_nil first h.1
    obtain ⟨cells, hcells⟩ := ih h.2
    exact ⟨c :: cells, mem_combinations.mpr (.cons hc (mem_combinations.mp hcells))⟩

theorem JointPattern.exists_mem_combinations {p : JointPattern} {symbols : List Cell} {n : Nat}
    (hsymbols : symbols ≠ []) (h : .oneOf [] ∉ p.perTape n) :
    ∃ cells, cells ∈ combinations ((p.perTape n).map (Pattern.cells symbols)) := by
  apply TuringLowering.exists_mem_combinations
  rw [List.forall_mem_map]
  intro q hq hnil
  cases q with
  | cell c => cases hnil
  | oneOf cells => exact h (hnil ▸ hq)
  | any => exact hsymbols hnil

theorem Pattern.matches_iff_mem_cells {p : Pattern} {symbols : List Cell} {c : Cell}
    (hc : c ∈ symbols) : p.Matches c ↔ c ∈ p.cells symbols := by
  cases p with
  | cell c' => exact List.mem_singleton.symm
  | oneOf cells => rfl
  | any => exact ⟨fun _ => hc, fun _ => trivial⟩

theorem JointPattern.matches_iff_perTape {p : JointPattern} {cells : List Cell} {n : Nat}
    (hlength : cells.length = n) :
    p.Matches cells ↔ List.Forall₂ Pattern.Matches (p.perTape n) cells := by
  cases p with
  | tapes patterns => rfl
  | any =>
    refine ⟨fun _ => ?_, fun _ => trivial⟩
    subst hlength
    induction cells with
    | nil => exact .nil
    | cons c cells ih => exact .cons trivial (ih trivial)

theorem JointPattern.matches_iff_mem_combinations {p : JointPattern} {symbols cells : List Cell}
    {n : Nat} (hlength : cells.length = n) (hcells : ∀ c ∈ cells, c ∈ symbols) :
    p.Matches cells ↔ cells ∈ combinations ((p.perTape n).map (Pattern.cells symbols)) := by
  rw [matches_iff_perTape hlength, mem_combinations, List.forall₂_map_right_iff]
  generalize p.perTape n = patterns
  clear hlength
  induction patterns generalizing cells with
  | nil => simp
  | cons p patterns ih =>
    cases cells with
    | nil => simp
    | cons c cells =>
      rw [List.forall_mem_cons] at hcells
      rw [List.forall₂_cons, List.forall₂_cons, ih hcells.2,
        Pattern.matches_iff_mem_cells hcells.1]

def JointTransition.Gives (t : JointTransition) (cells : List Cell) (o : Outcome) : Prop :=
  o = ⟨List.zipWith Writing.action t.writes t.moves, t.next⟩
    ∨ o = ⟨List.zipWith Action.write (Writing.ontoAll t.writes cells) t.moves, t.next⟩

structure Draft.AddsJoint (n : Nat) (t : JointTransition) (d d' : Draft) : Prop where
  rest : d' = { d with states := d'.states }
  other : ∀ s c, s ≠ t.origin → d'.states.lookup s c = d.states.lookup s c
  kept : ∀ c o, d.states.lookup t.origin c = some o → d'.states.lookup t.origin c = some o
  new : ∀ cells : List Cell, cells.length = n → (∀ c ∈ cells, c ∈ d.alphabet.symbols) →
    t.read.Matches cells → d.states.lookup t.origin (.joint cells) = none →
    ∃ o, t.Gives cells o ∧ d'.states.lookup t.origin (.joint cells) = some o
  missing : ∀ cells : List Cell, cells.length = n → (∀ c ∈ cells, c ∈ d.alphabet.symbols) →
    ¬ t.read.Matches cells → d.states.lookup t.origin (.joint cells) = none →
    d'.states.lookup t.origin (.joint cells) = none

namespace Build

variable {d d' : Draft} {n : Nat} {t : JointTransition}

theorem lookup_addWildcard {origin : String} {o : Outcome}
    (h : addRule origin (fun _ => RuleTable.addWildcard o) d = .ok () d') (c : Cell) :
    d'.states.lookup origin c = (d.states.lookup origin c).or (some o) := by
  rw [addRule_apply] at h
  cases htable : RuleTable.addWildcard o (d.states.table origin) with
  | error e => simp [htable] at h
  | ok table =>
    simp only [htable, EStateM.Result.ok.injEq, true_and] at h
    rw [← h, StateTables.lookup_eq, StateTables.table_set _ _ _ _ (by
      simp [StateTables.contains_ensure]), if_pos rfl, RuleTable.addWildcard_eq_ok htable,
      StateTables.lookup_eq]

theorem addWildcard_addsJoint {o : Outcome} (ho : ∀ cells, t.Gives cells o) (hread : t.read = .any)
    (h : addRule t.origin (fun _ => RuleTable.addWildcard o) d = .ok () d') :
    d.AddsJoint n t d' := by
  have hadds := Draft.Adds.of_addWildcard (R := fun _ _ => True) (fun _ => trivial) h
  refine ⟨hadds.rest, fun s c hs => hadds.lookup_other hs c, hadds.kept, ?_, ?_⟩
  . intro cells _ _ _ hnone
    refine ⟨o, ho cells, ?_⟩
    rw [lookup_addWildcard h, hnone, Option.none_or]
  . intro cells _ _ hnot
    rw [hread] at hnot
    exact absurd trivial hnot

theorem addRules_addsJoint (reads : List (List Cell)) {R : Cell → Outcome → Prop}
    (hR : ∀ cells o, R (.joint cells) o → t.Gives cells o)
    (hmatches : ∀ cells : List Cell, cells.length = n → (∀ c ∈ cells, c ∈ d.alphabet.symbols) →
      d.states.lookup t.origin (.joint cells) = none → (t.read.Matches cells ↔ cells ∈ reads))
    (h : d.Adds t.origin (.oneOf (reads.map .joint)) R d') : d.AddsJoint n t d' := by
  have hmem (cells : List Cell) :
      (Pattern.oneOf (reads.map .joint)).Matches (.joint cells) ↔ cells ∈ reads := by
    simp [Pattern.Matches]
  refine ⟨h.rest, fun s c hs => h.lookup_other hs c, h.kept, ?_, ?_⟩
  . intro cells hlength hcells hread hnone
    have hin := (hmem cells).mpr ((hmatches cells hlength hcells hnone).mp hread)
    obtain ⟨o, ho, hlookup⟩ := h.new _ hin nofun hnone
    exact ⟨o, hR cells o ho, hlookup⟩
  . intro cells hlength hcells hread hnone
    apply h.missing _ _ hnone
    rwa [hmem, ← hmatches cells hlength hcells hnone]

theorem exactCells?_eq_some {patterns : List Pattern} {cells : List Cell}
    (h : Pattern.exactCells? patterns = some cells) : patterns = cells.map .cell := by
  induction patterns generalizing cells with
  | nil =>
    cases h
    rfl
  | cons p patterns ih =>
    simp only [Pattern.exactCells?, List.mapM_cons, Option.bind_eq_bind, Option.bind_eq_some_iff,
      Option.pure_def, Option.some.injEq] at h
    obtain ⟨c, hc, cells, hcells, rfl⟩ := h
    cases p with
    | cell c' =>
      cases hc
      rw [ih hcells, List.map_cons]
    | oneOf _ => cases hc
    | any => cases hc

theorem matches_exact {cells cells' : List Cell} :
    List.Forall₂ Pattern.Matches (cells.map .cell) cells' ↔ cells' = cells := by
  rw [List.forall₂_map_left_iff, ← List.forall₂_eq_eq_eq]
  exact ⟨fun h => h.flip, fun h => h.flip⟩

theorem jointForCells_addsJoint {reads : List (List Cell)}
    (hmatches : ∀ cells : List Cell, cells.length = n → (∀ c ∈ cells, c ∈ d.alphabet.symbols) →
      d.states.lookup t.origin (.joint cells) = none → (t.read.Matches cells ↔ cells ∈ reads))
    {source : JointPattern}
    (h : jointForCells t.origin reads t.writes t.moves t.next source d = .ok () d') :
    d.AddsJoint n t d' := by
  have hadds : d.Adds t.origin (.oneOf (reads.map .joint)) (fun c o => t.Gives c.components o) d' :=
    .of_addRules (fun _ _ => .inl rfl) (fun _ _ => .inr rfl) h
  exact addRules_addsJoint reads (fun _ _ => id) hmatches hadds

theorem jointPerTape_addsJoint
    (h : jointPerTape t.origin (t.read.perTape n) t.writes t.moves t.next d = .ok () d') :
    d.AddsJoint n t d' := by
  unfold jointPerTape at h
  cases hexact : Pattern.exactCells? (t.read.perTape n) with
  | some cells =>
    simp only [hexact] at h
    have hadds : d.Adds t.origin (.cell (.joint cells)) (fun c o => t.Gives c.components o) d' :=
      .of_addExact (.inl rfl) h
    apply addRules_addsJoint [cells] (fun _ _ => id) _ (hadds.cons (.nil d'))
    intro cells' hlength _ _
    rw [JointPattern.matches_iff_perTape hlength, exactCells?_eq_some hexact, matches_exact,
      List.mem_singleton]
  | none =>
    simp only [hexact] at h
    apply jointForCells_addsJoint _ h
    intro cells hlength hcells hnone
    rw [JointPattern.matches_iff_mem_combinations hlength hcells]
    split
    . simp [hnone]
    . rfl

theorem joint_addsJoint (hfits : t.Fits n)
    (h : joint t.origin t.read t.writes t.moves t.next d = .ok () d') : d.AddsJoint n t d' := by
  rw [joint, bind_of_ok (enabled_apply _ _)] at h
  split at h
  . next hany => exact addWildcard_addsJoint (fun cells => .inl rfl) hany.1 h
  . rw [hfits.writes] at h
    exact jointPerTape_addsJoint h

end Build

theorem Writing.view_action (w : Writing) (m : Move) (t : Tape) :
    ((w.action m).apply t).view = (t.view.write (w.onto t.view.focus)).move m := by
  cases w with
  | put c => exact Action.view_write c m t
  | keep => rw [Writing.onto, View.write_focus]; exact Action.view_preserve m t

theorem JointTransition.Gives.views {t : JointTransition} {tapes : List Tape} {o : Outcome}
    (hwrites : t.writes.length = tapes.length) (hmoves : t.moves.length = tapes.length)
    (h : t.Gives (tapes.map Tape.focus) o) :
    o.next = t.next ∧ (o.apply tapes).map Tape.view = t.act (tapes.map Tape.view) := by
  obtain ⟨origin, read, writes, moves, next⟩ := t
  dsimp only at hwrites hmoves
  rcases h with rfl | rfl
  all_goals
    refine ⟨rfl, ?_⟩
    simp only [Outcome.apply, act]
    induction tapes generalizing writes moves with
    | nil => simp [Outcome.applyAll]
    | cons tape tapes ih =>
      obtain ⟨w, writes, rfl⟩ := List.exists_cons_of_length_eq_add_one hwrites
      obtain ⟨m, moves, rfl⟩ := List.exists_cons_of_length_eq_add_one hmoves
      have hrest := ih writes moves (by simpa using hwrites) (by simpa using hmoves)
      simp only [List.map_cons, List.zipWith_cons_cons, List.zip_cons_cons, Outcome.applyAll,
        Writing.ontoAll, List.cons.injEq]
      refine ⟨?_, hrest⟩
      first
      | exact w.view_action m tape
      | rw [Action.view_write, Tape.focus_view]

theorem Alphabet.accepts_joint {A : Alphabet} {cells : List Cell}
    (h : ∀ c ∈ cells, A.accepts c = true) : A.accepts (.joint cells) = true := by
  simpa [accepts] using h

namespace Draft

open JointTransition

/-- The draft has `n` tapes of its own and does on them what the transitions of `P` say. -/
structure Owns (g : Guard) (A : Alphabet) (F : FeatureSet) (n : Nat) (first : String)
    (made : List ChainKey) (P : List JointTransition) (d : Draft) : Prop where
  guard : d.guard = g
  start : d.start = first
  alphabet : d.alphabet = A
  tapes : d.tapes = .multi n
  features : d.features = F
  pends : d.Pends g made
  proper : ∀ t ∈ P, t.Proper g A n
  served : ∀ q cells t, cells.length = n → (∀ c ∈ cells, c ∈ A.declared) →
    serving P q cells = some t → ∃ o, t.Gives cells o ∧ d.states.lookup q (.joint cells) = some o
  unserved : ∀ q cells, cells.length = n → (∀ c ∈ cells, c ∈ A.declared) →
    serving P q cells = none → d.states.lookup q (.joint cells) = none

def program (g : Guard) (F : FeatureSet) (ts : List JointTransition) :
    List ChainKey × List JointTransition :=
  if F.enabled .moveMulti then ([], ts) else unrollAll g ts

namespace Owns

variable {g : Guard} {A : Alphabet} {F : FeatureSet} {n : Nat} {first : String}
  {made : List ChainKey} {P : List JointTransition} {d d' : Draft} {t : JointTransition}

theorem chain (h : d.Owns g A F n first made P) (k : ChainKey) :
    ({ d with chains := d.chains ++ [(k, g.wrap k.parts)] } : Draft).Owns g A F n first
      (made ++ [k]) P :=
  ⟨h.guard, h.start, h.alphabet, h.tapes, h.features, h.pends.concat k, h.proper, h.served,
    h.unserved⟩

section

variable (hA : A.IsLettered) (hF : F.enabled .multiTape = true)
include hA hF

theorem direct (h : d.Owns g A F n first made P) (ht : t.Proper g A n)
    (hok : Build.jointTransition.direct t d = .ok () d') :
    d'.Owns g A F n first made (P ++ [t]) := by
  rw [Build.jointTransition.direct, Build.bind_of_ok (Build.enabled_apply _ _), h.features, hF,
    if_pos rfl] at hok
  have hadds := Build.joint_addsJoint ht.toFits hok
  have hsymbols : d.alphabet.symbols = A.declared := by rw [h.alphabet, hA.symbols]
  rw [hadds.rest]
  refine ⟨h.guard, h.start, h.alphabet, h.tapes, h.features, h.pends, ?_, ?_, ?_⟩
  . rw [List.forall_mem_append, List.forall_mem_singleton]
    exact ⟨h.proper, ht⟩
  . intro q cells u hlength hcells hserving
    dsimp only
    rw [serving_concat] at hserving
    cases hearlier : serving P q cells with
    | some u' =>
      rw [hearlier, Option.some_or, Option.some.injEq] at hserving
      obtain ⟨o, ho, hlookup⟩ := h.served q cells u hlength hcells (hserving ▸ hearlier)
      refine ⟨o, ho, ?_⟩
      by_cases hq : q = t.origin
      . subst hq
        exact hadds.kept _ o hlookup
      . rwa [hadds.other q _ hq]
    | none =>
      rw [hearlier, Option.none_or] at hserving
      split at hserving
      . next hserves =>
        cases hserving
        simp only [serves, decide_eq_true_eq] at hserves
        obtain ⟨rfl, hmatches⟩ := hserves
        exact hadds.new cells hlength (by rwa [hsymbols]) hmatches
          (h.unserved _ cells hlength hcells hearlier)
      . cases hserving
  . intro q cells hlength hcells hserving
    rw [serving_concat, Option.or_eq_none_iff] at hserving
    have hnone := h.unserved q cells hlength hcells hserving.1
    by_cases hq : q = t.origin
    . subst hq
      apply hadds.missing cells hlength (by rwa [hsymbols]) _ hnone
      simpa [serves] using hserving.2
    . dsimp only
      rwa [hadds.other q _ hq]

theorem unrolls (hmoves : F.enabled .moveMulti = false) :
    Build.Unrolls g A n fun made P d => d.Owns g A F n first made P where
  guard h := h.guard
  pends h := h.pends
  moves h := by rw [h.features, hmoves, Bool.false_and]
  chain h _ _ := h.chain _
  direct h ht _ hok := h.direct hA hF ht hok

theorem jointTransition (hn : 0 < n) {ts : List JointTransition}
    (h : d.Owns g A F n first (program g F ts).1 (program g F ts).2) (ht : t.Proper g A n)
    (hnext : g.Free t.next) (hok : Build.jointTransition t d = .ok () d') :
    d'.Owns g A F n first (program g F (ts ++ [t])).1 (program g F (ts ++ [t])).2 := by
  cases hmoves : F.enabled .moveMulti with
  | true =>
    simp only [program, hmoves, if_true] at h ⊢
    rw [Build.jointTransition, Build.go_of_direct (by rw [h.features, hmoves, hF]; rfl)] at hok
    exact h.direct hA hF ht hok
  | false =>
    simp only [program, hmoves, Bool.false_eq_true, if_false] at h ⊢
    rw [unrollAll_concat]
    exact (unrolls hA hF hmoves).go hn (distance_le_foldl t.moves 0).2 ht hnext h hok

theorem submitAll (hn : 0 < n) {done ts : List JointTransition}
    (h : d.Owns g A F n first (program g F done).1 (program g F done).2)
    (hover : ∀ t ∈ ts, t.Over (· ∈ A.declared))
    (hfree : ∀ t ∈ ts, g.Free t.origin ∧ g.Free t.next)
    (hok : Build.submitAll (ts.map .joint) d = .ok () d') :
    d'.Owns g A F n first (program g F (done ++ ts)).1 (program g F (done ++ ts)).2
      ∧ ∀ t ∈ ts, t.Fits n := by
  induction ts generalizing done d with
  | nil =>
    cases hok
    rw [List.append_nil]
    exact ⟨h, nofun⟩
  | cons t ts ih =>
    rw [List.forall_mem_cons] at hover hfree
    rw [List.map_cons, Build.submitAll, Build.forM_cons_eq_ok] at hok
    obtain ⟨d₁, hjoint, hok⟩ := hok
    obtain ⟨hfits, hjoint⟩ := Build.userJoint_of_free h.tapes (by rw [h.guard]; exact hfree.1.1)
      (by rw [h.guard]; exact hfree.1.2) hjoint
    have hproper := Proper.of_free hfits hover.1 hfree.1.1 hfree.1.2
    obtain ⟨howns, hrest⟩ := ih (h.jointTransition hA hF hn hproper hfree.1.2 hjoint) hover.2 hfree.2
      hok
    rw [List.append_assoc] at howns
    rw [List.forall_mem_cons]
    exact ⟨howns, hfits, hrest⟩

end

theorem openTapes (hF : F.enabled .multiTape = true) {start : String} (hfirst : g.Free first)
    (hok : Build.openTapes n first { start, features := F, alphabet := A, guard := g }
      = .ok () d) : d.Owns g A F n first [] [] := by
  rw [Build.openTapes_of_free hfirst, if_pos hF] at hok
  cases hok
  refine ⟨rfl, rfl, rfl, rfl, rfl, ?_, nofun, nofun, ?_⟩
  . intro k name _
    simp
  . intro q cells _ _ _
    rw [StateTables.lookup_eq, StateTables.table_ensure]
    rfl

end Owns

end Draft

structure Config.On (n : Nat) (B : List Cell) (c : Config) : Prop where
  length : c.tapes.length = n
  within : ∀ t ∈ c.tapes, t.view.Within B

theorem Config.On.input {n : Nat} {B : List Cell} {q : String} {word : List Cell}
    (hblank : .blank ∈ B) (hword : ∀ c ∈ word, c ∈ B) :
    Config.On n B ⟨q, Session.inputTapes n word⟩ := by
  cases n with
  | zero => exact ⟨rfl, nofun⟩
  | succ n =>
    refine ⟨by simp [Session.inputTapes], ?_⟩
    rw [Session.inputTapes, List.forall_mem_cons]
    refine ⟨Draft.within_ofInput hblank hword, ?_⟩
    intro t ht
    rw [(List.mem_replicate.mp ht).2]
    exact @Draft.within_ofInput [] _ hblank nofun

theorem Config.On.focus_mem {n : Nat} {B : List Cell} {c : Config} (h : c.On n B) :
    ∀ x ∈ c.tapes.map Tape.focus, x ∈ B := by
  intro x hx
  obtain ⟨t, ht, rfl⟩ := List.mem_map.mp hx
  rw [← t.focus_view]
  exact h.within t ht _

theorem Config.On.of_act {n : Nat} {B : List Cell} {c c' : Config} (hc : c.On n B) {t : JointTransition}
    (ht : t.Fits n) (hwrites : ∀ w ∈ t.writes, w.Over (· ∈ B))
    (hviews : c'.tapes.map Tape.view = t.act (c.tapes.map Tape.view)) : c'.On n B := by
  constructor
  . have := JointTransition.length_act ht ((c.tapes.length_map Tape.view).trans hc.length)
    rwa [← hviews, List.length_map] at this
  . intro t' ht'
    apply JointTransition.within_act hwrites (List.forall_mem_map.mpr hc.within)
    rw [← hviews]
    exact List.mem_map_of_mem ht'

section

variable {d : Draft} {c : Config} {n : Nat} (hn : 1 < n) (hlength : c.tapes.length = n)
  (haccepts : ∀ x ∈ c.tapes.map Tape.focus, d.alphabet.accepts x = true)
include hn hlength haccepts

theorem Draft.rule?_key :
    d.compile.rule? c.state (Session.key c.tapes)
      =
    d.states.lookup c.state (.joint (c.tapes.map Tape.focus)) := by
  have hkey : Session.key c.tapes = .joint (c.tapes.map Tape.focus) := by
    unfold Session.key
    split
    . next heq =>
      rw [heq, List.length_singleton] at hlength
      omega
    . rfl
  rw [hkey, Machine.rule?, if_pos]
  . rfl
  . exact Alphabet.accepts_joint haccepts

theorem Draft.next_of_gives {t : JointTransition} (ht : t.Fits n) {o : Outcome}
    (ho : t.Gives (c.tapes.map Tape.focus) o) (hrunning : isTerminal c.state = false)
    (hlookup : d.states.lookup c.state (.joint (c.tapes.map Tape.focus)) = some o) :
    (d.compile.next c).state = t.next
      ∧ (d.compile.next c).tapes.map Tape.view = t.act (c.tapes.map Tape.view) := by
  have hnext : d.compile.next c = ⟨o.next, o.apply c.tapes⟩ := by
    rw [Machine.next, hrunning, if_neg Bool.false_ne_true, Machine.lookup, rule?_key hn hlength haccepts,
      hlookup]
    rfl
  rw [hnext]
  exact ho.views (ht.writes.trans hlength.symm) (ht.moves.trans hlength.symm)

end

namespace Draft.Owns

open JointTransition

variable {g : Guard} {A : Alphabet} {F : FeatureSet} {n : Nat} {first : String}
  {made : List ChainKey} {P : List JointTransition} {d : Draft} {c : Config}
  (h : d.Owns g A F n first made P) (hA : A.IsLettered) (hF : F.enabled .multiTape = true)
  (hn : 1 < n)

include h

theorem physicalTapes (hF : F.enabled .multiTape = true) : d.compile.physicalTapes = n := by
  rw [compile, h.features, if_pos hF, h.tapes]
  rfl

include hA

theorem accepts_focus (hc : c.On n A.declared) :
    ∀ x ∈ c.tapes.map Tape.focus, d.alphabet.accepts x = true := by
  intro x hx
  rw [h.alphabet]
  exact hA.accepts (hc.focus_mem x hx)

include hn

theorem lookup_key (hc : c.On n A.declared) :
    d.compile.rule? c.state (Session.key c.tapes)
      =
    d.states.lookup c.state (.joint (c.tapes.map Tape.focus)) :=
  rule?_key hn hc.length (h.accepts_focus hA hc)

/-- The machine does what the first transition about its state and the cells read says. -/
theorem next_of_serving (hc : c.On n A.declared) (hrunning : isTerminal c.state = false)
    {t : JointTransition} (hserving : serving P c.state (c.tapes.map Tape.focus) = some t) :
    (d.compile.rule? c.state (Session.key c.tapes)).isSome = true
      ∧ (d.compile.next c).state = t.next ∧ (d.compile.next c).On n A.declared
      ∧ (d.compile.next c).tapes.map Tape.view = t.act (c.tapes.map Tape.view) := by
  obtain ⟨o, ho, hlookup⟩ := h.served _ _ t (by rw [List.length_map, hc.length])
    hc.focus_mem hserving
  have ht := h.proper t (mem_of_serving hserving).1
  obtain ⟨hstate, hviews⟩ :=
    next_of_gives hn hc.length (h.accepts_focus hA hc) ht.toFits ho hrunning hlookup
  refine ⟨?_, hstate, hc.of_act ht.toFits ht.cells.2 hviews, hviews⟩
  rw [h.lookup_key hA hn hc, hlookup]
  rfl

theorem next_of_unserved (hc : c.On n A.declared) (hrunning : isTerminal c.state = false)
    (hserving : serving P c.state (c.tapes.map Tape.focus) = none) :
    d.compile.rule? c.state (Session.key c.tapes) = none
      ∧ (d.compile.next c).state = Verdict.reject.state := by
  have hrule : d.compile.rule? c.state (Session.key c.tapes) = none := by
    rw [h.lookup_key hA hn hc]
    exact h.unserved _ _ (by rw [List.length_map, hc.length]) hc.focus_mem hserving
  refine ⟨hrule, ?_⟩
  rw [Machine.next, hrunning, if_neg Bool.false_ne_true, Machine.lookup, hrule]
  rfl

theorem leads_of_rule (hc : c.On n A.declared) (hrunning : isTerminal c.state = false)
    (hrule : (d.compile.rule? c.state (Session.key c.tapes)).isSome = true) :
    (d.compile.next c).On n A.declared
      ∧ Leads P (c.state, c.tapes.map Tape.view)
        ((d.compile.next c).state, (d.compile.next c).tapes.map Tape.view) := by
  cases hserving : serving P c.state (c.tapes.map Tape.focus) with
  | none =>
    rw [(h.next_of_unserved hA hn hc hrunning hserving).1] at hrule
    cases hrule
  | some t =>
    obtain ⟨_, hstate, hon, hviews⟩ := h.next_of_serving hA hn hc hrunning hserving
    rw [hstate, hviews]
    refine ⟨hon, .step hrunning ?_⟩
    rwa [Tape.map_focus_view]

theorem verdict_iff (hc : c.On n A.declared) (v : Verdict) :
    (∃ k, (d.compile.next^[k] c).state = v.state)
      ↔ ∃ k, ((advance P)^[k] (c.state, c.tapes.map Tape.view)).1 = v.state := by
  apply verdict_iff_of_simulation (fun c => d.compile.next_of_terminal)
    (fun a ha => by rw [advance, if_pos ha]) _ _ (R := fun c a => c.state = a.1
      ∧ (isTerminal c.state = false → c.On n A.declared ∧ c.tapes.map Tape.view = a.2))
    ⟨rfl, fun _ => ⟨hc, rfl⟩⟩
  . rintro c a ⟨hstate, _⟩ _
    exact hstate.symm
  . rintro c ⟨q, vs⟩ ⟨rfl, hrest⟩ hrunning
    refine ⟨hrunning, 1, Nat.one_pos, ?_⟩
    obtain ⟨hc, rfl⟩ := hrest hrunning
    rw [Function.iterate_one, advance, if_neg (by rw [hrunning]; exact Bool.false_ne_true),
      Tape.map_focus_view]
    cases hserving : serving P c.state (c.tapes.map Tape.focus) with
    | some t =>
      obtain ⟨_, hstate, hon, hviews⟩ := h.next_of_serving hA hn hc hrunning hserving
      exact ⟨hstate, fun _ => ⟨hon, hviews⟩⟩
    | none =>
      have hstate := (h.next_of_unserved hA hn hc hrunning hserving).2
      refine ⟨hstate, fun hnot => ?_⟩
      rw [hstate, Machine.isTerminal_state] at hnot
      cases hnot

end Draft.Owns

end TuringLowering
