import TuringLowering.Proofs.Continuations
import TuringLowering.Proofs.Isomorphism
import TuringLowering.Proofs.Matching
import TuringLowering.Proofs.OwnTapes
import TuringLowering.Proofs.Transparency

/-!
This module contains what the rules of a machine say about the transitions that were asked for: whatever
features are enabled, the first transition about a state and the symbols under the heads determines what
happens. A guard that is widened renames the states that the symbols name, and nothing else.
-/

namespace TuringLowering

def JointPattern.mapNames (f : String → String) : JointPattern → JointPattern
  | .any => .any
  | .tapes patterns => .tapes (patterns.map (Pattern.mapNames f))

namespace JointTransition

/-- What a transition does to tapes: each head writes and moves. -/
def onTapes (t : JointTransition) (tapes : List Tape) : List Tape :=
  List.zipWith (fun (p : Writing × Move) tape => (tape.write (p.1.onto tape.focus)).move p.2)
    (t.writes.zip t.moves) tapes

def mapCells (f : String → String) (t : JointTransition) : JointTransition :=
  { t with
    read := t.read.mapNames f
    writes := t.writes.map (Writing.mapNames f) }

end JointTransition

section

variable {f : String → String} (hf : Function.Injective f)

section

include hf

theorem Pattern.matches_mapNames {p : Pattern} {c : Cell} :
    (p.mapNames f).Matches (c.mapNames f) ↔ p.Matches c := by
  cases p with
  | cell x => exact Cell.mapNames_inj hf
  | oneOf cells => exact Cell.mem_map_mapNames hf
  | any => rfl

theorem JointPattern.matches_mapNames {p : JointPattern} {cells : List Cell} :
    (p.mapNames f).Matches (cells.map (Cell.mapNames f)) ↔ p.Matches cells := by
  cases p with
  | any => rfl
  | tapes patterns =>
    simp only [mapNames, Matches, List.forall₂_map_left_iff, List.forall₂_map_right_iff,
      Pattern.matches_mapNames hf]

theorem JointTransition.serving_mapCells {ts : List JointTransition}
    (hts : ∀ t ∈ ts, f t.origin = t.origin) (q : String) (cells : List Cell) :
    serving (ts.map (mapCells f)) (f q) (cells.map (Cell.mapNames f))
      = (serving ts q cells).map (mapCells f) := by
  have hserves (t : JointTransition) (ht : t ∈ ts) :
      (t.mapCells f).serves (f q) (cells.map (Cell.mapNames f)) = t.serves q cells := by
    have horigin : t.origin = f q ↔ t.origin = q := by
      conv_lhs => rw [← hts t ht]
      exact hf.eq_iff
    simp only [serves, mapCells, JointPattern.matches_mapNames hf, horigin]
  unfold serving
  induction ts with
  | nil => rfl
  | cons t ts ih =>
    rw [List.forall_mem_cons] at hserves hts
    rw [List.map_cons, List.find?_cons, List.find?_cons, hserves.1]
    cases t.serves q cells with
    | true => rfl
    | false => exact ih hts.2 hserves.2

end

theorem Writing.ontoAll_mapNames (writes : List Writing) (cells : List Cell) :
    ontoAll (writes.map (Writing.mapNames f)) (cells.map (Cell.mapNames f))
      = (ontoAll writes cells).map (Cell.mapNames f) := by
  unfold ontoAll
  rw [List.zipWith_map, List.map_zipWith]
  simp only [Writing.onto_mapNames]

theorem JointTransition.Gives.mapNames {t : JointTransition} {cells : List Cell} {o : Outcome}
    (h : t.Gives cells o) :
    ({ t.mapCells f with next := f t.next } : JointTransition).Gives (cells.map (Cell.mapNames f))
      (o.mapNames f) := by
  rcases h with rfl | rfl
  . left
    simp only [Outcome.mapNames, JointTransition.mapCells, List.zipWith_map_left, List.map_zipWith,
      Writing.action_mapNames]
  . right
    simp only [Outcome.mapNames, JointTransition.mapCells, Writing.ontoAll_mapNames,
      List.zipWith_map_left, List.map_zipWith, Action.mapNames]

theorem JointTransition.Gives.mapCells {t : JointTransition} {cells : List Cell} {o : Outcome}
    (hnext : f t.next = t.next) (h : t.Gives cells o) :
    (t.mapCells f).Gives (cells.map (Cell.mapNames f)) (o.mapNames f) := by
  have hmap := h.mapNames (f := f)
  rw [hnext] at hmap
  exact hmap

theorem Pattern.mapNames_mapNames (f' : String → String) (p : Pattern) :
    (p.mapNames f).mapNames f' = p.mapNames (f' ∘ f) := by
  cases p <;> simp [mapNames, Function.comp_def]

theorem Pattern.mapNames_id : Pattern.mapNames id = id := by
  funext p
  cases p <;> simp [mapNames]

theorem Writing.mapNames_mapNames (f' : String → String) (w : Writing) :
    (w.mapNames f).mapNames f' = w.mapNames (f' ∘ f) := by
  cases w <;> simp [mapNames]

theorem Writing.mapNames_id : Writing.mapNames id = id := by
  funext w
  cases w <;> simp [mapNames]

namespace JointTransition

theorem mapCells_mapCells (f' : String → String) (t : JointTransition) :
    (t.mapCells f).mapCells f' = t.mapCells (f' ∘ f) := by
  obtain ⟨origin, read, writes, moves, next⟩ := t
  cases read <;> simp [mapCells, JointPattern.mapNames, Pattern.mapNames_mapNames,
    Writing.mapNames_mapNames, Function.comp_def]

theorem mapCells_id (t : JointTransition) : t.mapCells id = t := by
  obtain ⟨origin, read, writes, moves, next⟩ := t
  cases read <;> simp [mapCells, JointPattern.mapNames, Pattern.mapNames_id, Writing.mapNames_id]

theorem Fits.mapCells {n : Nat} {t : JointTransition} (h : t.Fits n) : (t.mapCells f).Fits n where
  reads patterns hpatterns := by
    obtain ⟨origin, read, writes, moves, next⟩ := t
    cases read with
    | any => cases hpatterns
    | tapes patterns' =>
      cases hpatterns
      rw [List.length_map]
      exact h.reads patterns' rfl
  writes := (List.length_map _).trans h.writes
  moves := h.moves

theorem serving_ne_none_iff {ts : List JointTransition} {q : String} {cells : List Cell} :
    serving ts q cells ≠ none ↔ ∃ t ∈ ts, t.origin = q ∧ t.read.Matches cells := by
  simp [serving, serves]

theorem map_rename_self (g : Guard) (ts : List JointTransition) :
    ts.map (mapCells (g.rename g)) = ts := by
  have hself : g.rename g = id := funext g.rename_self
  rw [hself, List.map_congr_left fun t _ => t.mapCells_id, List.map_id']

theorem map_rename_rename {g g' : Guard} (h : g.size ≤ g'.size) (g'' : Guard)
    (ts : List JointTransition) :
    (ts.map (mapCells (g.rename g'))).map (mapCells (g'.rename g''))
      = ts.map (mapCells (g.rename g'')) := by
  have htrans : g'.rename g'' ∘ g.rename g' = g.rename g'' := funext (Guard.rename_rename h g'')
  rw [List.map_map]
  apply List.map_congr_left
  intro t _
  rw [Function.comp_apply, mapCells_mapCells, htrans]

theorem mapCells_of_kept {t : JointTransition}
    (h : ∀ c ∈ (Request.joint t).mentioned, c.mapNames f = c) : t.mapCells f = t := by
  obtain ⟨origin, read, writes, moves, next⟩ := t
  simp only [Request.mentioned, List.forall_mem_append, List.forall_mem_flatMap] at h
  have hwrites : writes.map (Writing.mapNames f) = writes := by
    refine (List.map_congr_left fun w hw => ?_).trans (List.map_id _)
    cases w with
    | put c => exact congrArg Writing.put (h.2 _ hw c List.mem_cons_self)
    | keep => rfl
  have hread : read.mapNames f = read := by
    cases read with
    | any => rfl
    | tapes patterns =>
      refine congrArg JointPattern.tapes ((List.map_congr_left fun p hp => ?_).trans (List.map_id _))
      have hcells := h.1 p hp
      cases p with
      | cell c => exact congrArg Pattern.cell (hcells c List.mem_cons_self)
      | oneOf cells => exact congrArg Pattern.oneOf ((List.map_congr_left hcells).trans (List.map_id _))
      | any => rfl
  simp only [mapCells, hread, hwrites]

end JointTransition

end

theorem Writing.apply_action (w : Writing) (m : Move) (t : Tape) :
    (w.action m).apply t = (t.write (w.onto t.focus)).move m := by
  cases w <;> rfl

theorem JointTransition.Gives.apply {t : JointTransition} {tapes : List Tape} {o : Outcome}
    (hwrites : t.writes.length = tapes.length) (hmoves : t.moves.length = tapes.length)
    (h : t.Gives (tapes.map Tape.focus) o) : o.next = t.next ∧ o.apply tapes = t.onTapes tapes := by
  obtain ⟨origin, read, writes, moves, next⟩ := t
  dsimp only at hwrites hmoves
  rcases h with rfl | rfl
  all_goals
    refine ⟨rfl, ?_⟩
    simp only [Outcome.apply, onTapes]
    induction tapes generalizing writes moves with
    | nil => simp [Outcome.applyAll]
    | cons tape tapes ih =>
      obtain ⟨w, writes, rfl⟩ := List.exists_cons_of_length_eq_add_one hwrites
      obtain ⟨m, moves, rfl⟩ := List.exists_cons_of_length_eq_add_one hmoves
      have hrest := ih writes moves (by simpa using hwrites) (by simpa using hmoves)
      simp only [List.map_cons, List.zipWith_cons_cons, List.zip_cons_cons, Outcome.applyAll,
        Writing.ontoAll, List.cons.injEq]
      refine ⟨?_, hrest⟩
      first
      | exact w.apply_action m tape
      | rfl

theorem StateTables.lookup_mapNames_of_ne {f : String → String} {q : String} (hq : ∀ s, f s ≠ q)
    (states : StateTables) (c : Cell) : (states.mapNames f).lookup q c = none := by
  have hfind : (states.mapNames f).find? q = none := by
    rw [find?, Option.map_eq_none_iff, List.find?_eq_none]
    intro e he
    obtain ⟨⟨s, table⟩, _, rfl⟩ := List.mem_map.mp he
    simpa using hq s
  rw [lookup, hfind, Option.bind_none]

namespace Draft

open JointTransition (serving)

structure Serves (d : Draft) (ts : List JointTransition) : Prop where
  tapes : ∀ n, d.tapes = .multi n → 1 < n
  fits : ∀ t ∈ ts, t.Fits d.tapes.count
  free : ∀ t ∈ ts, d.guard.Free t.origin ∧ d.guard.Free t.next
  served : ∀ q cells t, cells.length = d.tapes.count → (∀ c ∈ cells, c ∈ d.alphabet.symbols) →
    serving ts q cells = some t → ∃ o, t.Gives cells o ∧ d.states.lookup q (.key cells) = some o
  unserved : ∀ q cells, cells.length = d.tapes.count → (∀ c ∈ cells, c ∈ d.alphabet.symbols) →
    serving ts q cells = none → d.states.lookup q (.key cells) = none

structure Gains (d : Draft) (t : JointTransition) (d' : Draft) : Prop where
  rest : d' = { d with states := d'.states }
  other : ∀ s c, s ≠ t.origin → d'.states.lookup s c = d.states.lookup s c
  kept : ∀ c o, d.states.lookup t.origin c = some o → d'.states.lookup t.origin c = some o
  new : ∀ cells : List Cell, cells.length = d.tapes.count → (∀ c ∈ cells, c ∈ d.alphabet.symbols) →
    t.read.Matches cells → d.states.lookup t.origin (.key cells) = none →
    ∃ o, t.Gives cells o ∧ d'.states.lookup t.origin (.key cells) = some o
  missing : ∀ cells : List Cell, cells.length = d.tapes.count → (∀ c ∈ cells, c ∈ d.alphabet.symbols) →
    ¬ t.read.Matches cells → d.states.lookup t.origin (.key cells) = none →
    d'.states.lookup t.origin (.key cells) = none

variable {d d' : Draft} {ts : List JointTransition} {t : JointTransition}

theorem Gains.of_joint {n : Nat} (hn : 1 < n) (htapes : d.tapes = .multi n) (h : d.AddsJoint n t d') :
    d.Gains t d' := by
  have hkey {cells : List Cell} (hlength : cells.length = d.tapes.count) :
      cells.length = n ∧ Cell.key cells = .joint cells := by
    rw [htapes] at hlength
    exact ⟨hlength, Cell.key_eq_joint (by rw [hlength]; exact Nat.ne_of_gt hn)⟩
  refine ⟨h.rest, h.other, h.kept, ?_, ?_⟩
  . intro cells hlength
    obtain ⟨hlength, heq⟩ := hkey hlength
    rw [heq]
    exact h.new cells hlength
  . intro cells hlength
    obtain ⟨hlength, heq⟩ := hkey hlength
    rw [heq]
    exact h.missing cells hlength

theorem Gains.of_single {origin next : String} {read : Pattern} {w : Writing} {m : Move}
    (htapes : d.tapes.count = 1) (h : d.Adds origin read (w.Gives m next) d') :
    d.Gains ⟨origin, .tapes [read], [w], [m], next⟩ d' := by
  have hmatches (c : Cell) : (JointPattern.tapes [read]).Matches [c] ↔ read.Matches c := by
    simp [JointPattern.Matches]
  refine ⟨h.rest, fun s c hs => h.lookup_other hs c, h.kept, ?_, ?_⟩
  . intro cells hlength hcells hmatch hnone
    obtain ⟨c, rfl⟩ := List.length_eq_one_iff.mp (hlength.trans htapes)
    obtain ⟨o, ho, hlookup⟩ := h.new c ((hmatches c).mp hmatch)
      (fun _ => hcells c (List.mem_singleton_self c)) hnone
    exact ⟨o, ho.symm, hlookup⟩
  . intro cells hlength _ hmatch hnone
    obtain ⟨c, rfl⟩ := List.length_eq_one_iff.mp (hlength.trans htapes)
    exact h.missing c (fun hc => hmatch ((hmatches c).mpr hc)) hnone

namespace Serves

theorem gain (h : d.Serves ts) (ht : t.Fits d.tapes.count)
    (hfree : d.guard.Free t.origin ∧ d.guard.Free t.next) (hgains : d.Gains t d') :
    d'.Serves (ts ++ [t]) := by
  have htapes : d'.tapes = d.tapes := congrArg (·.tapes) hgains.rest
  have hguard : d'.guard = d.guard := congrArg (·.guard) hgains.rest
  have halphabet : d'.alphabet = d.alphabet := congrArg (·.alphabet) hgains.rest
  refine ⟨?_, ?_, ?_, ?_, ?_⟩
  . rw [htapes]
    exact h.tapes
  . rw [htapes]
    exact List.forall_mem_append.mpr ⟨h.fits, List.forall_mem_singleton.mpr ht⟩
  . rw [hguard]
    exact List.forall_mem_append.mpr ⟨h.free, List.forall_mem_singleton.mpr hfree⟩
  . rw [htapes, halphabet]
    intro q cells t' hlength hcells hserving
    rw [JointTransition.serving_concat] at hserving
    cases hfirst : serving ts q cells with
    | some t₀ =>
      -- The rules of an earlier transition stay; a rule for the later one would be a duplicate.
      rw [hfirst, Option.some_or] at hserving
      cases hserving
      obtain ⟨o, ho, hlookup⟩ := h.served q cells t' hlength hcells hfirst
      refine ⟨o, ho, ?_⟩
      by_cases hq : q = t.origin
      . rw [hq] at hlookup ⊢
        exact hgains.kept _ _ hlookup
      . rw [hgains.other _ _ hq, hlookup]
    | none =>
      have hnone := h.unserved q cells hlength hcells hfirst
      rw [hfirst, Option.none_or] at hserving
      split at hserving
      . next hserves =>
        cases hserving
        simp only [JointTransition.serves, decide_eq_true_eq] at hserves
        obtain ⟨rfl, hmatch⟩ := hserves
        exact hgains.new cells hlength hcells hmatch hnone
      . cases hserving
  . rw [htapes, halphabet]
    intro q cells hlength hcells hserving
    rw [JointTransition.serving_concat, Option.or_eq_none_iff] at hserving
    have hnone := h.unserved q cells hlength hcells hserving.1
    by_cases hq : q = t.origin
    . subst hq
      apply hgains.missing cells hlength hcells _ hnone
      intro hmatch
      simp [JointTransition.serves, hmatch] at hserving
    . rw [hgains.other _ _ hq, hnone]

theorem withGuard {g : Guard} (h : d.Serves ts) (hle : d.guard.size ≤ g.size) :
    (d.withGuard g).Serves (ts.map (.mapCells (d.guard.rename g))) := by
  have hf : Function.Injective (d.guard.rename g) := fun _ _ => Guard.rename_injective hle
  have horigin (t : JointTransition) (ht : t ∈ ts) : d.guard.rename g t.origin = t.origin :=
    Guard.rename_of_free (h.free t ht).1 g
  refine ⟨h.tapes, ?_, ?_, ?_, ?_⟩
  . rw [List.forall_mem_map]
    exact fun t ht => (h.fits t ht).mapCells
  . rw [List.forall_mem_map]
    exact fun t ht => ⟨(h.free t ht).1.mono hle, (h.free t ht).2.mono hle⟩
  . intro q cells t hlength hcells hserving
    obtain ⟨cells, hsymbols, rfl⟩ := Cell.exists_map_mapNames hcells
    rw [List.length_map] at hlength
    obtain ⟨hmem, rfl, _⟩ := JointTransition.mem_of_serving hserving
    obtain ⟨t, ht, rfl⟩ := List.mem_map.mp hmem
    have hq : d.guard.rename g t.origin = (t.mapCells (d.guard.rename g)).origin := horigin t ht
    rw [← hq, JointTransition.serving_mapCells hf horigin, Option.map_eq_some_iff] at hserving
    obtain ⟨t₀, hserving, ht₀⟩ := hserving
    obtain ⟨o, ho, hlookup⟩ := h.served _ cells t₀ hlength hsymbols hserving
    have hnext := Guard.rename_of_free (h.free t₀ (JointTransition.mem_of_serving hserving).1).2 g
    refine ⟨o.mapNames (d.guard.rename g), ht₀ ▸ ho.mapCells hnext, ?_⟩
    rw [← hq, ← Cell.mapNames_key]
    exact (StateTables.lookup_mapNames hf _ _ _).trans (congrArg _ hlookup)
  . intro q cells hlength hcells hserving
    obtain ⟨cells, hsymbols, rfl⟩ := Cell.exists_map_mapNames hcells
    rw [List.length_map] at hlength
    -- A name that no name is widened to has no rules, whether or not it contains the old guard.
    by_cases hq : ∃ s, d.guard.rename g s = q
    . obtain ⟨s, rfl⟩ := hq
      rw [JointTransition.serving_mapCells hf horigin, Option.map_eq_none_iff] at hserving
      have hlookup := h.unserved s cells hlength hsymbols hserving
      rw [← Cell.mapNames_key]
      exact (StateTables.lookup_mapNames hf _ _ _).trans (congrArg _ hlookup)
    . exact StateTables.lookup_mapNames_of_ne (fun s hs => hq ⟨s, hs⟩) _ _

theorem avoid (h : d.Serves ts) (name : String) :
    (d.avoid name).Serves (ts.map (.mapCells (d.guard.rename (d.avoid name).guard))) := by
  refine avoid_induction (P := fun e => e.Serves (ts.map (.mapCells (d.guard.rename e.guard)))) name ?_
    fun g hlt => h.withGuard (Nat.le_of_lt hlt)
  rwa [JointTransition.map_rename_self]

theorem avoidBoth (h : d.Serves ts) (a b : String) :
    (d.avoidBoth a b).Serves (ts.map (.mapCells (d.guard.rename (d.avoidBoth a b).guard))) := by
  have hboth := (h.avoid a).avoid b
  rwa [JointTransition.map_rename_rename (d.size_le_avoid a)] at hboth

theorem congr (h : d.Serves ts) (htapes : ∀ n, d'.tapes = .multi n → 1 < n)
    (hcount : d'.tapes.count = d.tapes.count) (hguard : d'.guard = d.guard)
    (halphabet : d'.alphabet = d.alphabet) (hlookup : ∀ s c, d'.states.lookup s c = d.states.lookup s c) :
    d'.Serves ts := by
  refine ⟨htapes, ?_, ?_, ?_, ?_⟩
  . rw [hcount]
    exact h.fits
  . rw [hguard]
    exact h.free
  . simp only [hcount, halphabet, hlookup]
    exact h.served
  . simp only [hcount, halphabet, hlookup]
    exact h.unserved

theorem nil (htapes : ∀ n, d.tapes = .multi n → 1 < n) (hempty : ∀ s c, d.states.lookup s c = none) :
    d.Serves [] := by
  refine ⟨htapes, nofun, nofun, ?_, fun q cells _ _ _ => hempty _ _⟩
  intro q cells t _ _ hserving
  cases hserving

end Serves

end Draft

/-- The transition on all tapes that a request asks for. -/
def Request.asks? : Request → Option JointTransition
  | .directive (.transition origin read w m next) => some ⟨origin, .tapes [read], [w], [m], next⟩
  | .joint t => some t
  | _ => none

/-- Whether a request is for a transition whose movements are no more than one rule, or for a state. -/
def Request.isUnsplit (F : FeatureSet) : Request → Bool
  | .directive (.transition _ _ _ m _) => F.supports m
  | .joint t => F.enabled .multiTape && (F.enabled .moveMulti || !t.moves.any Move.isLong)
  | .state _ => true
  | _ => false

/-- The transitions that are asked for; names on the tape that contain the guard are widened with it. -/
def Draft.asked (d : Draft) : List Request → List JointTransition
  | [] => []
  | r :: rs =>
    let d' := (Build.submit r).after d
    r.asks?.toList.map (.mapCells (d'.guard.rename (d'.receive rs).guard)) ++ d'.asked rs

namespace Draft

variable {d d' : Draft} {ts : List JointTransition}

/-- What was served is served under the names that are now in use, and so are more transitions. -/
structure Advances (d : Draft) (ts more : List JointTransition) (d' : Draft) : Prop where
  features : d'.features = d.features
  guard : d.guard.size ≤ d'.guard.size
  serves : d'.Serves (ts.map (.mapCells (d.guard.rename d'.guard)) ++ more)

theorem size_le_avoidBoth (d : Draft) (a b : String) : d.guard.size ≤ (d.avoidBoth a b).guard.size :=
  (d.size_le_avoid a).trans ((d.avoid a).size_le_avoid b)

namespace Serves

theorem gain_ready {t : JointTransition} {a b : String} (use : TapeUse)
    (h : ({ d.avoidBoth a b with tapes := use } : Draft).Serves
      (ts.map (.mapCells (d.guard.rename (d.avoidBoth a b).guard))))
    (ht : t.Fits use.count)
    (hfree : (d.avoidBoth a b).guard.Free t.origin ∧ (d.avoidBoth a b).guard.Free t.next)
    (hgains : ({ d.avoidBoth a b with tapes := use } : Draft).Gains t d') : d.Advances ts [t] d' := by
  have hguard : d'.guard = (d.avoidBoth a b).guard := congrArg (·.guard) hgains.rest
  have hfeatures : d'.features = (d.avoidBoth a b).features := congrArg (·.features) hgains.rest
  refine ⟨hfeatures.trans (d.features_avoidBoth a b), ?_, ?_⟩
  . rw [hguard]
    exact d.size_le_avoidBoth a b
  . rw [hguard]
    exact h.gain ht hfree hgains

theorem directive {origin next : String} {read : Pattern} {w : Writing} {m : Move} (h : d.Serves ts)
    (hm : d.features.supports m = true)
    (hok : Build.submit (.directive (.transition origin read w m next)) d = .ok () d') :
    d.Advances ts [⟨origin, .tapes [read], [w], [m], next⟩] d' := by
  have hmulti := not_multi_of_submit hok
  have hcount : d.tapes.count = 1 := by
    cases htapes : d.tapes with
    | undecided => rfl
    | single => rfl
    | multi n => exact absurd htapes (hmulti n)
  have hm' : (d.readied next origin).features.supports m = true := by
    rw [show (d.readied next origin).features = d.features from d.features_avoidBoth next origin]
    exact hm
  rw [submit_eq hmulti] at hok
  change Build.transition origin read w m next (d.readied next origin) = _ at hok
  rw [Build.transition_of_supports hm'] at hok
  have hready : (d.readied next origin).Serves _ :=
    (h.avoidBoth next origin).congr nofun (by rw [tapes_avoidBoth, hcount]; rfl) rfl rfl fun _ _ => rfl
  refine hready.gain_ready .single ⟨?_, rfl, rfl⟩ (d.free_avoidBoth next origin).symm
    (.of_single rfl (Build.direct_adds hok))
  intro patterns hpatterns
  cases hpatterns
  rfl

theorem joint {t : JointTransition} (h : d.Serves ts) (hmulti : d.features.enabled .multiTape = true)
    (hmoves : d.features.enabled .moveMulti = true ∨ t.moves.any Move.isLong = false)
    (hok : Build.submit (.joint t) d = .ok () d') : d.Advances ts [t] d' := by
  obtain ⟨n, htapes, hreads, hwrites, hlengths, hok⟩ := Build.userJoint_eq_ok hok
  have hfits : t.Fits n := ⟨hreads, hwrites, hlengths⟩
  have hfeatures : (d.avoidBoth t.origin t.next).features = d.features := d.features_avoidBoth _ _
  have hdirect : Build.jointTransition.direct t (d.avoidBoth t.origin t.next) = .ok () d' := by
    rw [← hok, Build.jointTransition]
    rcases hmoves with hmoves | hmoves
    . exact (Build.go_of_direct (by rw [hfeatures, hmoves, hmulti]; rfl) _).symm
    . exact (Build.go_short hmoves).symm
  have hjoint : Build.joint t.origin t.read t.writes t.moves t.next (d.avoidBoth t.origin t.next)
      = .ok () d' := by
    rw [← hdirect, Build.jointTransition.direct, Build.bind_of_ok (Build.enabled_apply _ _),
      hfeatures, hmulti, if_pos rfl]
  have htapes' : (d.avoidBoth t.origin t.next).tapes = .multi n := (d.tapes_avoidBoth _ _).trans htapes
  have hready := h.avoidBoth t.origin t.next
  have hgains := Gains.of_joint (h.tapes n htapes) htapes' (Build.joint_addsJoint hfits hjoint)
  refine hready.gain_ready (d.avoidBoth t.origin t.next).tapes ?_
    (d.free_avoidBoth t.origin t.next) hgains
  rw [htapes']
  exact hfits

theorem state {name : String} (h : d.Serves ts) (hok : Build.submit (.state name) d = .ok () d') :
    d.Advances ts [] d' := by
  cases hok
  refine ⟨features_avoid d name, d.size_le_avoid name, ?_⟩
  rw [List.append_nil]
  exact (h.avoid name).congr (h.avoid name).tapes rfl rfl rfl fun _ _ => StateTables.lookup_ensure _ _ _ _

theorem submit {r : Request} (h : d.Serves ts) (hr : r.isUnsplit d.features = true)
    (hok : Build.submit r d = .ok () d') : d.Advances ts r.asks?.toList d' := by
  cases r with
  | directive x =>
    cases x with
    | transition origin read w m next => exact h.directive hr hok
    | gadget => cases hr
  | joint t =>
    simp only [Request.isUnsplit, Bool.and_eq_true, Bool.or_eq_true, Bool.not_eq_true'] at hr
    exact h.joint hr.1 hr.2 hok
  | state name => exact h.state hok
  | alphabets => cases hr
  | features => cases hr
  | tapes => cases hr

/-- By induction on the requests: what was asked for first is renamed by each one that follows. -/
theorem submitAll {rs : List Request} {e : Draft} (h : d.Serves ts)
    (hrs : ∀ r ∈ rs, r.isUnsplit d.features = true) (hok : Build.submitAll rs d = .ok () e) :
    d.Advances ts (d.asked rs) e := by
  induction rs generalizing d ts with
  | nil =>
    cases hok
    refine ⟨rfl, Nat.le_refl _, ?_⟩
    rw [JointTransition.map_rename_self, asked, List.append_nil]
    exact h
  | cons r rs ih =>
    obtain ⟨_, d', hr, hrest⟩ := Build.bind_eq_ok.mp hok
    rw [List.forall_mem_cons] at hrs
    have hfirst := h.submit hrs.1 hr
    have hlater := ih hfirst.serves (by rw [hfirst.features]; exact hrs.2) hrest
    refine ⟨hlater.features.trans hfirst.features, hfirst.guard.trans hlater.guard, ?_⟩
    have hafter : (Build.submit r).after d = d' := by rw [Build.after, hr]
    have hreceive : d'.receive rs = e := receive_of_submitAll hrest
    rw [asked, hafter, hreceive, ← JointTransition.map_rename_rename hfirst.guard, ← List.append_assoc,
      ← List.map_append]
    exact hlater.serves

end Serves

theorem asked_of_nameless {rs : List Request}
    (h : ∀ t ∈ rs.filterMap Request.asks?, ∀ c ∈ (Request.joint t).mentioned, c.Nameless) (d : Draft) :
    d.asked rs = rs.filterMap Request.asks? := by
  induction rs generalizing d with
  | nil => rfl
  | cons r rs ih =>
    rw [asked]
    cases hr : r.asks? with
    | none =>
      rw [List.filterMap_cons_none hr] at h ⊢
      exact ih h _
    | some t =>
      rw [List.filterMap_cons_some hr, List.forall_mem_cons] at h
      rw [List.filterMap_cons_some hr, ih h.2]
      exact congrArg (· :: _) (JointTransition.mapCells_of_kept fun c hc => h.1 c hc _)

/-- As the guard never gets shorter, it is the same all along if it ends as it began. -/
theorem Serves.asked_eq {rs : List Request} {e : Draft} (h : d.Serves ts)
    (hrs : ∀ r ∈ rs, r.isUnsplit d.features = true) (hok : Build.submitAll rs d = .ok () e)
    (hguard : e.guard.size ≤ d.guard.size) : d.asked rs = rs.filterMap Request.asks? := by
  induction rs generalizing d ts with
  | nil => rfl
  | cons r rs ih =>
    obtain ⟨_, d', hr, hrest⟩ := Build.bind_eq_ok.mp hok
    rw [List.forall_mem_cons] at hrs
    have hfirst := h.submit hrs.1 hr
    have hrs' : ∀ r ∈ rs, r.isUnsplit d'.features = true := by
      rw [hfirst.features]
      exact hrs.2
    have hlater := hfirst.serves.submitAll hrs' hrest
    have hsame : e.guard = d'.guard :=
      Guard.eq_of_size (Nat.le_antisymm (hguard.trans hfirst.guard) hlater.guard)
    have hafter : (Build.submit r).after d = d' := by rw [Build.after, hr]
    rw [asked, hafter, receive_of_submitAll hrest, hsame, JointTransition.map_rename_self,
      ih hfirst.serves hrs' hrest (hguard.trans hfirst.guard)]
    cases hasks : r.asks? with
    | none => rw [List.filterMap_cons_none hasks]; rfl
    | some t => rw [List.filterMap_cons_some hasks]; rfl

end Draft

/-- Of the transitions that were asked for, the first one about a state and the symbols under the heads
is what the rules say; there is no rule where there is no such transition. -/
theorem lowered_rules_first_match {rs : List Request} {d e : Draft}
    (hempty : ∀ s c, d.states.lookup s c = none) (htapes : ∀ n, d.tapes = .multi n → 1 < n)
    (hrs : ∀ r ∈ rs, r.isUnsplit d.features = true) (hok : Build.submitAll rs d = .ok () e) :
    let ts := d.asked rs
    -- Only a guard that gets wider renames what a transition is about, and only if that is a state.
    ((e.guard = d.guard
          ∨ ∀ t ∈ rs.filterMap Request.asks?, ∀ c ∈ (Request.joint t).mentioned, c.Nameless) →
        ts = rs.filterMap Request.asks?)
      ∧ ∀ (q : String) (tapes : List Tape), tapes.length = e.tapes.count →
        (∀ t ∈ tapes, t.focus ∈ e.alphabet.symbols) →
        (e.states.lookup q (Session.key tapes) ≠ none
            ↔ ∃ t ∈ ts, t.origin = q ∧ t.read.Matches (tapes.map Tape.focus))
          ∧ ∀ t, JointTransition.serving ts q (tapes.map Tape.focus) = some t →
            ∃ o, e.states.lookup q (Session.key tapes) = some o ∧ o.next = t.next
              ∧ o.apply tapes = t.onTapes tapes := by
  have hstart : d.Serves [] := .nil htapes hempty
  have hserves : e.Serves (d.asked rs) := (hstart.submitAll hrs hok).serves
  refine ⟨?_, ?_⟩
  . rintro (hguard | hnameless)
    . exact hstart.asked_eq hrs hok (by rw [hguard])
    . exact Draft.asked_of_nameless hnameless d
  intro q tapes hlength hfocus
  rw [Session.key_eq]
  have hcells : ∀ c ∈ tapes.map Tape.focus, c ∈ e.alphabet.symbols := List.forall_mem_map.mpr hfocus
  have hlength' : (tapes.map Tape.focus).length = e.tapes.count := by rw [List.length_map, hlength]
  refine ⟨?_, ?_⟩
  . rw [← JointTransition.serving_ne_none_iff]
    refine not_congr ⟨?_, hserves.unserved q _ hlength' hcells⟩
    intro hlookup
    by_contra hserving
    obtain ⟨t, ht⟩ := Option.ne_none_iff_exists'.mp hserving
    obtain ⟨o, _, ho⟩ := hserves.served q _ t hlength' hcells ht
    rw [hlookup] at ho
    cases ho
  . intro t hserving
    obtain ⟨o, hgives, hlookup⟩ := hserves.served q _ t hlength' hcells hserving
    have hfits := hserves.fits t (JointTransition.mem_of_serving hserving).1
    exact ⟨o, hlookup, hgives.apply (hfits.writes.trans hlength.symm) (hfits.moves.trans hlength.symm)⟩

/-- Between two tapes, the second transition is the first one about the cells; it names a state. -/
theorem lowered_rules_first_match_renamed :
    let a : Cell := .literal "a"
    let b : Cell := .literal "b"
    let d := (Draft.new "qstart").receive
      [.alphabets [a, b] [.state "Ω"], .features [.moveNone, .multiTape], .tapes 2 "q"]
    let rs : List Request :=
      [ .joint ⟨"q", .tapes [.cell a, .any], [.keep, .put b], [.right, .right], "r"⟩,
        .joint ⟨"q", .tapes [.any, .cell (.state "Ω")], [.put (.state "Ω"), .keep], [.right, .left], "r"⟩,
        .joint ⟨"q", .any, [.keep, .keep], [.left, .left], "ACCEPT"⟩,
        .joint ⟨"Ω", .any, [.put a, .put b], [.left, .right], "q"⟩ ]
    let e := (Build.submitAll rs).after d
    let tapes : List Tape := [⟨[], b, [a]⟩, ⟨[a], .state "ΩΩ", []⟩]
    (Build.submitAll rs).succeeds d = true
      ∧ ∃ o, e.states.lookup "q" (Session.key tapes) = some o ∧ o.next = "r"
        ∧ o.apply tapes = [⟨[.state "ΩΩ"], a, [.blank]⟩, ⟨[], a, [.state "ΩΩ"]⟩] := by
  intro a b d rs e tapes
  have hsucceeds : (Build.submitAll rs).succeeds d = true := by decide +kernel
  have hstates : d.states = (Draft.new "qstart").states.ensure "q" := by decide +kernel
  have hok : Build.submitAll rs d = .ok () e := Build.eq_ok_of_succeeds hsucceeds
  have hfacts : d.tapes = .multi 2 ∧ e.tapes.count = tapes.length
      ∧ (∀ r ∈ rs, r.isUnsplit d.features = true) ∧ (∀ t ∈ tapes, t.focus ∈ e.alphabet.symbols) := by
    decide +kernel
  have hserving : JointTransition.serving (d.asked rs) "q" (tapes.map Tape.focus)
      = some ⟨"q", .tapes [.any, .cell (.state "ΩΩ")], [.put (.state "ΩΩ"), .keep], [.right, .left],
        "r"⟩ := by
    decide +kernel
  clear_value d e
  have hempty (s : String) (c : Cell) : d.states.lookup s c = none := by
    rw [hstates, StateTables.lookup_ensure]
    rfl
  have hmulti (n : Nat) (hn : d.tapes = .multi n) : 1 < n := by
    rw [hfacts.1] at hn
    cases hn
    decide
  obtain ⟨_, hfirst⟩ := lowered_rules_first_match hempty hmulti hfacts.2.2.1 hok
  exact ⟨hsucceeds, (hfirst "q" tapes hfacts.2.1.symm hfacts.2.2.2).2 _ hserving⟩

/-- A guard that is widened later on renames the state that a transition writes. -/
theorem written_state_renamed :
    let a : Cell := .literal "a"
    let t : JointTransition := ⟨"q", .tapes [.cell a], [.put (.state "Ω")], [.right], "r"⟩
    let d := (Draft.new "qstart").receive
      [ .alphabets [a, .state "Ω"] [],
        .directive (.transition "q" (.cell a) (.put (.state "Ω")) .right "r"),
        .directive (.transition "Ω" (.cell a) .keep .right "r") ]
    let tapes : List Tape := [⟨[], a, [a]⟩]
    (d.states.lookup "q" a).map (·.apply tapes) = some [⟨[.state "ΩΩ"], a, [.blank]⟩]
      ∧ t.onTapes tapes = [⟨[.state "Ω"], a, [.blank]⟩] := by
  decide +kernel

end TuringLowering
