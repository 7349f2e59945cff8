import TuringLowering.Proofs.Capability
import TuringLowering.Proofs.Matching
import TuringLowering.Proofs.OwnTapes

/-!
This module contains the proof that requests are accepted or refused alike, whether symbols can share a
rule or not, and that what is accepted with wildcards is accepted without them.
-/

namespace TuringLowering

/--
In a transition that reads any symbol on some tapes but not on all, the symbols for the others have `S`.
-/
def JointTransition.ReadsAmong (S : Cell → Prop) (t : JointTransition) : Prop :=
  ∀ patterns, t.read = .tapes patterns → .any ∈ patterns → ∀ p ∈ patterns, ∀ c ∈ p.cells [], S c

namespace Build

variable {F F' : FeatureSet} {S : Cell → Prop} {u : TapeUse}

theorem chain_tracks (key : ChainKey) (parts : List String) :
    Tracks (Draft.Parallel F F' S u) (F.SameWildcard F') (chain key parts) (chain key parts) := by
  intro d d' h
  rw [chain_apply, chain_apply, h.chains, h.guard]
  cases d.chains.find? (·.1 = key) with
  | some e => exact ⟨d', rfl, h⟩
  | none =>
    refine ⟨_, rfl, ⟨h.features, ?_, h.tapes, h.tables, h.orderly, h.known⟩⟩
    rw [h.rest]

theorem addState_tracks (name : String) :
    Tracks (Draft.Parallel F F' S u) (F.SameWildcard F') (addState name) (addState name) := by
  apply Tracks.of_modify
  intro d d' h
  refine h.of_tables rfl rfl fun s => ?_
  dsimp only
  rw [StateTables.table_ensure, StateTables.table_ensure]
  exact h.tables s

theorem wildcard_tracks (hF : F.Resembles F') {wild wild' x x' : Build Unit}
    (hwild : Tracks (Draft.Parallel F F' S u) (F.SameWildcard F') wild wild')
    (hexpand : ¬ F.SameWildcard F' → Tracks (Draft.Parallel F F' S u) (F.SameWildcard F') wild x')
    (hx : Tracks (Draft.Parallel F F' S u) (F.SameWildcard F') x x') :
    Tracks (Draft.Parallel F F' S u) (F.SameWildcard F')
      (enabled .wildcard >>= fun b => if b then wild else x)
      (enabled .wildcard >>= fun b => if b then wild' else x') := by
  apply Tracks.enabled_bind
  intro d d' h
  have henabled (s : FeatureSet) : s.enabled .wildcard = s.has .wildcard := rfl
  rw [h.features, h.features', henabled, henabled]
  cases hhas : F.has .wildcard with
  | true =>
    cases hhas' : F'.has .wildcard with
    | true => exact hwild
    | false =>
      refine hexpand fun hsame => ?_
      rw [FeatureSet.SameWildcard, hhas, hhas'] at hsame
      cases hsame
  | false =>
    cases hhas' : F'.has .wildcard with
    | true =>
      rw [hF.wildcard hhas'] at hhas
      cases hhas
    | false => exact hx

section Single

theorem uncovered_expands {d d' : Draft} (h : d.Parallel F F' S .single d')
    (hstrict : ¬ F.SameWildcard F') (state : String) {o : Outcome} {grouped : Bool} {shared : Outcome}
    {each : Cell → Outcome} {source : Option JointPattern} :
    Matched (Draft.Parallel F F' S .single) (F.SameWildcard F')
      (addRule state (fun _ => RuleTable.addWildcard o) d)
      (addRules state (d'.uncovered state) grouped shared each source d') := by
  obtain ⟨hnodup, haccepts⟩ := h.orderly hstrict
  rw [← h.alphabet] at hnodup
  refine addWildcard_expands h hstrict (Draft.nodup_uncovered hnodup) (fun c => ?_) (fun c hc => ?_)
  . rw [Draft.mem_uncovered, h.alphabet, Option.isNone_iff_eq_none]
    rfl
  . rw [Draft.mem_uncovered, h.alphabet] at hc
    exact haccepts c hc.1

theorem directForCells_tracks (origin : String) (cells : List Cell) (w : Writing) (m : Move)
    (next : String) :
    Tracks (Draft.Parallel F F' S .single) (F.SameWildcard F') (directForCells origin cells w m next)
      (directForCells origin cells w m next) :=
  Tracks.get_bind fun _ _ _ => addRules_tracks origin cells

variable (hF : F.Resembles F')

include hF

theorem direct_tracks (origin : String) (read : Pattern) (w : Writing) (m : Move) (next : String) :
    Tracks (Draft.Parallel F F' S .single) (F.SameWildcard F') (direct origin read w m next)
      (direct origin read w m next) := by
  unfold direct
  cases read with
  | cell c => exact addExact_tracks origin c
  | oneOf cells => exact directForCells_tracks origin cells w m next
  | any =>
    refine wildcard_tracks hF (addWildcard_tracks origin) (fun hstrict d d' h => ?_)
      (Tracks.get_bind fun d d' h => ?_)
    . rw [bind_of_ok (get_apply d'), directForCells, bind_of_ok (get_apply d')]
      exact uncovered_expands h hstrict origin
    . rw [h.uncovered]
      exact directForCells_tracks origin _ w m next

theorem transition_go_tracks (n : Nat) (origin : String) (read : Pattern) (w : Writing) (m : Move)
    (next : String) :
    Tracks (Draft.Parallel F F' S .single) (F.SameWildcard F') (transition.go n origin read w m next)
      (transition.go n origin read w m next) := by
  induction n generalizing origin read w m next with
  | zero => exact direct_tracks hF origin read w m next
  | succ n ih =>
    apply Tracks.get_bind
    intro d d' h
    rw [h.features, h.features', hF.supports]
    split
    . exact direct_tracks hF origin read w m next
    . apply Tracks.bind (chain_tracks _ _)
      intro (state, isNew)
      cases isNew with
      | true => exact Tracks.bind (ih state .any .keep _ next) fun _ => direct_tracks hF origin read w _ state
      | false => exact direct_tracks hF origin read w _ state

theorem transition_tracks (origin : String) (read : Pattern) (w : Writing) (m : Move) (next : String) :
    Tracks (Draft.Parallel F F' S .single) (F.SameWildcard F') (transition origin read w m next)
      (transition origin read w m next) := transition_go_tracks hF _ origin read w m next

theorem addAction_tracks (origin : String) (read : Pattern) (a : Action) (next : String) :
    Tracks (Draft.Parallel F F' S .single) (F.SameWildcard F') (addAction origin read a next)
      (addAction origin read a next) := by
  apply Tracks.enabled_bind
  intro _ _ _
  cases read with
  | cell c => exact addExact_tracks origin c
  | oneOf cells => exact addRules_tracks origin cells
  | any =>
    refine wildcard_tracks hF (addWildcard_tracks origin) (fun hstrict d d' h => ?_)
      (Tracks.get_bind fun d d' h => ?_)
    . rw [bind_of_ok (get_apply d')]
      exact uncovered_expands h hstrict origin
    . rw [h.uncovered]
      exact addRules_tracks origin _

theorem shiftChain_tracks (origin : String) (read : Pattern) (m : Move) (next : String) :
    Tracks (Draft.Parallel F F' S .single) (F.SameWildcard F') (shiftChain origin read m next)
      (shiftChain origin read m next) := by
  apply Tracks.get_bind
  intro d d' h
  rw [h.uncovered]
  apply Tracks.forM
  intro symbol _
  apply Tracks.bind (chain_tracks _ _)
  intro (paste, isNew)
  have hcarry := transition_tracks (S := S) hF origin (.cell symbol) (.put .blank) .right paste
  cases isNew with
  | true => exact Tracks.bind (transition_tracks hF paste .any (.put symbol) m next) fun _ => hcarry
  | false => exact hcarry

theorem enabled_bind_tracks {f : Feature}
    (hf : f ∉ [Feature.multiMatch, .multiMatchNoChange, .wildcard]) {k : Bool → Build Unit}
    (hk : ∀ b, Tracks (Draft.Parallel F F' S u) (F.SameWildcard F') (k b) (k b)) :
    Tracks (Draft.Parallel F F' S u) (F.SameWildcard F') (enabled f >>= k) (enabled f >>= k) := by
  apply Tracks.enabled_bind
  intro d d' h
  rw [h.features, h.features', hF.enabled hf]
  exact hk _

theorem shift_tracks (origin : String) (read : Pattern) (m : Move) (next : String) :
    Tracks (Draft.Parallel F F' S .single) (F.SameWildcard F') (shift origin read m next)
      (shift origin read m next) := by
  apply enabled_bind_tracks hF (by decide)
  intro b
  cases b with
  | true => exact addAction_tracks hF origin read (.shift m) next
  | false => exact shiftChain_tracks hF origin read m next

theorem seekEnd_tracks (state next : String) :
    Tracks (Draft.Parallel F F' S .single) (F.SameWildcard F') (seekEnd state next)
      (seekEnd state next) :=
  Tracks.bind (transition_tracks hF _ _ _ _ _) fun _ => transition_tracks hF _ _ _ _ _

theorem markFirstChain_tracks (origin : String) (read : Pattern) (marker : Cell) (next : String) :
    Tracks (Draft.Parallel F F' S .single) (F.SameWildcard F') (markFirstChain origin read marker next)
      (markFirstChain origin read marker next) := by
  apply Tracks.bind (chain_tracks _ _)
  intro (base, isNew)
  cases isNew with
  | true =>
    refine Tracks.bind (transition_tracks hF _ _ _ _ _) fun _ => ?_
    refine Tracks.bind (seekEnd_tracks hF _ _) fun _ => ?_
    refine Tracks.bind (transition_tracks hF _ _ _ _ _) fun _ => ?_
    exact shift_tracks hF _ _ _ _
  | false => exact Tracks.pure ()

theorem insertAfterChain_tracks (origin : String) (read : Pattern) (marker insert : Cell)
    (next : String) :
    Tracks (Draft.Parallel F F' S .single) (F.SameWildcard F')
      (insertAfterChain origin read marker insert next)
      (insertAfterChain origin read marker insert next) := by
  apply Tracks.bind (chain_tracks _ _)
  intro (base, isNew)
  cases isNew with
  | true =>
    refine Tracks.bind (transition_tracks hF _ _ _ _ _) fun _ => ?_
    refine Tracks.bind (seekEnd_tracks hF _ _) fun _ => ?_
    refine Tracks.bind (transition_tracks hF _ _ _ _ _) fun _ => ?_
    refine Tracks.bind (shift_tracks hF _ _ _ _) fun _ => ?_
    exact transition_tracks hF _ _ _ _ _
  | false => exact Tracks.pure ()

theorem directive_tracks (x : Directive) :
    Tracks (Draft.Parallel F F' S .single) (F.SameWildcard F') (directive x) (directive x) := by
  cases x with
  | transition origin read w m next => exact transition_tracks hF origin read w m next
  | gadget origin read g next =>
    have hfeature : ∀ k : Gadget.Kind,
        k.feature ∉ [Feature.multiMatch, .multiMatchNoChange, .wildcard] := by
      intro k
      cases k <;> decide
    apply enabled_bind_tracks hF (hfeature g.kind)
    intro b
    cases b with
    | true => exact addAction_tracks hF origin read g.action next
    | false =>
      cases g with
      | shift m => exact shiftChain_tracks hF origin read m next
      | markFirst marker => exact markFirstChain_tracks hF origin read marker next
      | insertAfter marker insert => exact insertAfterChain_tracks hF origin read marker insert next

end Single

section Joint

variable {n : Nat}

theorem jointForCells_tracks (origin : String) (reads : List (List Cell)) (writes : List Writing)
    (moves : List Move) (next : String) (source : JointPattern) :
    Tracks (Draft.Parallel F F' S u) (F.SameWildcard F')
      (jointForCells origin reads writes moves next source)
      (jointForCells origin reads writes moves next source) :=
  Tracks.get_bind fun _ _ _ => addRules_tracks origin _

theorem mem_symbols_of_mem_cells {symbols : List Cell} {p : Pattern}
    (hp : ∀ c ∈ p.cells [], c ∈ symbols) : ∀ c ∈ p.cells symbols, c ∈ symbols := by
  cases p with
  | cell c => exact hp
  | oneOf cells => exact hp
  | any => exact fun _ hc => hc

theorem jointPerTape_tracks (origin : String) {patterns : List Pattern}
    (hlength : patterns.length = n)
    (hpatterns : .any ∈ patterns → ¬ F.SameWildcard F' → ∀ p ∈ patterns, ∀ c ∈ p.cells [], S c)
    (writes : List Writing) (moves : List Move) (next : String) :
    Tracks (Draft.Parallel F F' S (.multi n)) (F.SameWildcard F')
      (jointPerTape origin patterns writes moves next)
      (jointPerTape origin patterns writes moves next) := by
  unfold jointPerTape
  cases Pattern.exactCells? patterns with
  | some cells => exact addExact_tracks origin (.joint cells)
  | none =>
    apply Tracks.get_bind
    intro d d' h
    have hreads : (if patterns.contains .any then
          (combinations (patterns.map (Pattern.cells d'.alphabet.symbols))).filter
            fun read => (d'.states.lookup origin (.joint read)).isNone
        else combinations (patterns.map (Pattern.cells d'.alphabet.symbols)))
        = if patterns.contains .any then
          (combinations (patterns.map (Pattern.cells d.alphabet.symbols))).filter
            fun read => (d.states.lookup origin (.joint read)).isNone
        else combinations (patterns.map (Pattern.cells d.alphabet.symbols)) := by
      rw [h.alphabet]
      split
      . next hany =>
        apply List.filter_congr
        intro read hread
        rw [StateTables.lookup_eq, StateTables.lookup_eq]
        refine ((h.tables origin).isNone_lookup ?_).symm
        by_cases hstrict : F.SameWildcard F'
        . exact .inl hstrict
        . have hread' := length_of_mem_combinations hread
          rw [List.length_map, hlength] at hread'
          refine .inr ⟨read, hread', fun c hc => ?_, rfl⟩
          obtain ⟨cells, hcells, hc⟩ := mem_of_mem_combinations hread c hc
          obtain ⟨p, hp, rfl⟩ := List.mem_map.mp hcells
          refine mem_symbols_of_mem_cells (fun c hc => h.known c ?_) c hc
          exact hpatterns (List.contains_iff_mem.mp hany) hstrict p hp c hc
      . rfl
    dsimp only
    rw [hreads]
    exact jointForCells_tracks origin _ writes moves next _

theorem mem_combinations_any {symbols read : List Cell} :
    read ∈ combinations ((List.replicate n Pattern.any).map (Pattern.cells symbols))
      ↔ read.length = n ∧ ∀ c ∈ read, c ∈ symbols := by
  rw [List.map_replicate, mem_combinations]
  induction n generalizing read with
  | zero =>
    cases read <;> simp
  | succ n ih =>
    cases read with
    | nil => simp
    | cons c read =>
      rw [List.replicate_succ, List.forall₂_cons, ih, List.length_cons, List.forall_mem_cons,
        Nat.succ_inj, and_left_comm]
      rfl

theorem joint_expands (hn : 0 < n) (hstrict : ¬ F.SameWildcard F') (origin : String)
    (writes : List Writing) (moves : List Move) (next : String) (o : Outcome) :
    Tracks (Draft.Parallel F F' S (.multi n)) (F.SameWildcard F')
      (addRule origin fun _ => RuleTable.addWildcard o)
      (jointPerTape origin (List.replicate n .any) writes moves next) := by
  intro d d' h
  have hexact : Pattern.exactCells? (List.replicate n .any) = none := by
    obtain ⟨k, rfl⟩ := Nat.exists_eq_add_of_lt hn
    rw [Nat.zero_add, List.replicate_succ]
    rfl
  have hany : (List.replicate n Pattern.any).contains .any = true := by
    rw [List.contains_iff_mem, List.mem_replicate]
    exact ⟨Nat.ne_of_gt hn, rfl⟩
  obtain ⟨hnodup, haccepts⟩ := h.orderly hstrict
  rw [jointPerTape, hexact]
  dsimp only
  rw [bind_of_ok (get_apply d'), hany, if_pos rfl, h.alphabet, jointForCells,
    bind_of_ok (get_apply d')]
  refine addWildcard_expands h hstrict ?_ (fun c => ?_) (fun c hc => ?_)
  . refine List.Nodup.map Cell.joint_injective
      (List.Nodup.filter _ (nodup_combinations fun cells hcells => ?_))
    obtain ⟨p, hp, rfl⟩ := List.mem_map.mp hcells
    rw [List.eq_of_mem_replicate hp]
    exact hnodup
  . simp only [List.mem_map, List.mem_filter, mem_combinations_any]
    constructor
    . rintro ⟨read, ⟨⟨hlength, hread⟩, hnone⟩, rfl⟩
      exact ⟨⟨read, hlength, hread, rfl⟩, hnone⟩
    . rintro ⟨⟨read, hlength, hread, rfl⟩, hnone⟩
      exact ⟨read, ⟨⟨hlength, hread⟩, hnone⟩, rfl⟩
  . obtain ⟨read, hread, rfl⟩ := List.mem_map.mp hc
    rw [List.mem_filter, mem_combinations_any] at hread
    rw [Alphabet.accepts, Cell.fold_tuple, List.all_map, List.all_eq_true]
    exact fun c hc => haccepts c (hread.1.2 c hc)

variable (hF : F.Resembles F')

include hF

theorem joint_tracks (hn : 0 < n) {t : JointTransition} (ht : t.writes.length = n)
    (hlength : ∀ patterns, t.read = .tapes patterns → patterns.length = n)
    (hreads : ¬ F.SameWildcard F' → t.ReadsAmong S) :
    Tracks (Draft.Parallel F F' S (.multi n)) (F.SameWildcard F')
      (joint t.origin t.read t.writes t.moves t.next) (joint t.origin t.read t.writes t.moves t.next) := by
  have hperTape : Tracks (Draft.Parallel F F' S (.multi n)) (F.SameWildcard F')
      (jointPerTape t.origin (t.read.perTape t.writes.length) t.writes t.moves t.next)
      (jointPerTape t.origin (t.read.perTape t.writes.length) t.writes t.moves t.next) := by
    apply jointPerTape_tracks
    . cases hread : t.read with
      | any => rw [JointPattern.perTape, List.length_replicate, ht]
      | tapes patterns => exact hlength patterns hread
    . intro hany hstrict p hp c hc
      cases hread : t.read with
      | any =>
        rw [hread] at hp
        rw [List.eq_of_mem_replicate hp] at hc
        cases hc
      | tapes patterns =>
        rw [hread] at hany hp
        exact hreads hstrict patterns hread hany p hp c hc
  unfold joint
  by_cases hread : t.read = .any
  . simp only [hread, true_and]
    refine wildcard_tracks hF (addWildcard_tracks t.origin) (fun hstrict => ?_) ?_
    . rw [ht]
      exact joint_expands hn hstrict t.origin t.writes t.moves t.next _
    . rwa [hread] at hperTape
  . simp only [hread, false_and, if_false]
    exact Tracks.enabled_bind fun _ _ _ => hperTape

theorem jointTransition_go_tracks (hn : 0 < n) (hmulti : F.enabled .multiTape = true) (k : Nat)
    {t : JointTransition} (ht : t.writes.length = n)
    (hlength : ∀ patterns, t.read = .tapes patterns → patterns.length = n)
    (hreads : ¬ F.SameWildcard F' → t.ReadsAmong S) :
    Tracks (Draft.Parallel F F' S (.multi n)) (F.SameWildcard F') (jointTransition.go k t)
      (jointTransition.go k t) := by
  have hdirect {t : JointTransition} (ht : t.writes.length = n)
      (hlength : ∀ patterns, t.read = .tapes patterns → patterns.length = n)
      (hreads : ¬ F.SameWildcard F' → t.ReadsAmong S) :
      Tracks (Draft.Parallel F F' S (.multi n)) (F.SameWildcard F') (jointTransition.direct t)
        (jointTransition.direct t) := by
    apply Tracks.enabled_bind
    intro d d' h
    rw [h.features, h.features', ← hF.enabled (by decide), hmulti]
    exact joint_tracks hF hn ht hlength hreads
  induction k generalizing t with
  | zero => exact hdirect ht hlength hreads
  | succ k ih =>
    apply enabled_bind_tracks hF (by decide)
    intro moveMulti
    apply enabled_bind_tracks hF (by decide)
    intro multiTape
    dsimp only
    split
    . apply Tracks.bind (chain_tracks _ _)
      intro (state, isNew)
      have hstep := @hdirect { t with moves := t.moves.map Move.step, next := state } ht hlength hreads
      cases isNew with
      | true =>
        refine Tracks.bind (ih ?_ nofun fun _ => nofun) fun _ => hstep
        rw [List.length_map, ht]
      | false => exact hstep
    . exact hdirect ht hlength hreads

end Joint

end Build

/-- Parallel drafts, whatever the tapes are used for; several tapes are the machine's own. -/
def Draft.Paired (F F' : FeatureSet) (S : Cell → Prop) (d d' : Draft) : Prop :=
  ∃ u, d.Parallel F F' S u d' ∧ ∀ n, u = .multi n → 0 < n ∧ F.enabled .multiTape = true

theorem Draft.Parallel.use {F F' : FeatureSet} {S : Cell → Prop} {u : TapeUse} (u' : TapeUse) {d d' : Draft}
    (h : d.Parallel F F' S u d')
    (hkey : ∀ c, u'.Key d.alphabet.symbols c → u.Key d.alphabet.symbols c) :
    { d with tapes := u' }.Parallel F F' S u' { d' with tapes := u' } := by
  refine ⟨h.features, ?_, rfl, fun s => ?_, h.orderly, h.known⟩
  . rw [h.rest]
  . rcases h.tables s with hsame | ⟨hstrict, hwild, hwild', hcovers⟩
    . exact .inl hsame
    . exact .inr ⟨hstrict, hwild, hwild', fun c hc => hcovers c (hkey c hc)⟩

/-- A request that adds to a machine, rather than choosing its alphabets or features. -/
def Request.IsDefinition : Request → Prop
  | .alphabets _ _ | .features _ => False
  | .state _ | .directive _ | .tapes _ _ | .joint _ => True

instance (r : Request) : Decidable r.IsDefinition :=
  match r with
  | .alphabets _ _ | .features _ => isFalse id
  | .state _ | .directive _ | .tapes _ _ | .joint _ => isTrue trivial

namespace Build

variable {F F' : FeatureSet} {S : Cell → Prop}

theorem Tracks.paired {u : TapeUse} {x x' : Build Unit} {d d' : Draft}
    (hx : Tracks (Draft.Parallel F F' S u) (F.SameWildcard F') x x') (h : d.Parallel F F' S u d')
    (hu : ∀ n, u = .multi n → 0 < n ∧ F.enabled .multiTape = true) :
    Matched (Draft.Paired F F' S) (F.SameWildcard F') (x d) (x' d') := by
  have hmatched := hx d d' h
  cases hrun : x d with
  | ok a e =>
    rw [hrun] at hmatched
    obtain ⟨e', hrun', he⟩ := hmatched
    exact ⟨e', hrun', u, he, hu⟩
  | error err e =>
    rw [hrun] at hmatched
    exact hmatched

variable (hF : F.Resembles F') (hS : ∀ c, S c → c.IsSteady)

include hS

theorem avoid_tracks {u : TapeUse} (name : String) :
    Tracks (Draft.Parallel F F' S u) (F.SameWildcard F') (avoid name) (avoid name) :=
  Tracks.of_modify fun _ _ h => h.avoid hS name

omit hS in
theorem claimSingleTape_tracks (call : Call) {body : Build Unit}
    (hbody : Tracks (Draft.Parallel F F' S .single) (F.SameWildcard F') body body) :
    Tracks (Draft.Paired F F' S) (F.SameWildcard F') (claimSingleTape call >>= fun _ => body)
      (claimSingleTape call >>= fun _ => body) := by
  rintro d d' ⟨u, h, hu⟩
  have htapes : d'.tapes = d.tapes := by rw [h.rest]
  by_cases hmulti : ∃ n, u = .multi n
  . obtain ⟨n, rfl⟩ := hmulti
    have hthrow (e : Draft) (he : e.tapes = .multi n) :
        claimSingleTape call e = .error (.needsSingleTape call) e := by
      unfold claimSingleTape
      rw [bind_of_ok (get_apply e), he]
      rfl
    rw [bind_of_error (hthrow d h.tapes), bind_of_error (hthrow d' (htapes.trans h.tapes))]
    exact fun _ => ⟨d', rfl⟩
  . have hsingle : ∀ n, d.tapes ≠ .multi n := fun n hn => hmulti ⟨n, h.tapes ▸ hn⟩
    rw [bind_of_ok (claimSingleTape_apply call hsingle),
      bind_of_ok (claimSingleTape_apply call (htapes ▸ hsingle))]
    refine hbody.paired (h.use .single fun c hc => ?_) nofun
    cases u with
    | undecided => exact .inl hc
    | single => exact hc
    | multi n => exact absurd ⟨n, rfl⟩ hmulti

include hF

theorem userDirective_tracks (x : Directive) :
    Tracks (Draft.Paired F F' S) (F.SameWildcard F') (userDirective x) (userDirective x) := by
  cases x with
  | transition origin read w m next =>
    apply claimSingleTape_tracks
    refine Tracks.bind (avoid_tracks hS next) fun _ => Tracks.bind (avoid_tracks hS origin) fun _ => ?_
    exact directive_tracks hF (.transition origin read w m next)
  | gadget origin read g next =>
    apply claimSingleTape_tracks
    refine Tracks.bind (avoid_tracks hS origin) fun _ => Tracks.bind (avoid_tracks hS next) fun _ => ?_
    exact directive_tracks hF (.gadget origin read g next)

theorem openTapes_matched {d d' : Draft} {count : Nat} (hcount : 0 < count) (first : String)
    (hmulti : F.enabled .multiTape = true) (h : d.Parallel F F' S .undecided d') :
    Matched (Draft.Paired F F' S) (F.SameWildcard F') (openTapes count first d)
      (openTapes count first d') := by
  have havoid := h.avoid hS first
  have hopened (e : Draft) (he : (e.avoid first).features.enabled .multiTape = true) :
      openTapes count first e = .ok () { e.avoid first with
        start := first
        states := (e.avoid first).states.ensure first
        tapes := .multi count } := by
    rw [openTapes_apply, if_pos he]
  rw [hopened d (by rw [havoid.features, hmulti]),
    hopened d' (by rw [havoid.features', ← hF.enabled (by decide), hmulti])]
  refine ⟨_, rfl, .multi count, ?_, ?_⟩
  . have huse := havoid.use (.multi count) (by
      rintro c ⟨cells, _, hcells⟩
      exact .inr ⟨cells, hcells⟩)
    refine ⟨huse.features, ?_, rfl, fun s => ?_, huse.orderly, huse.known⟩
    . rw [havoid.rest]
    . dsimp only
      rw [StateTables.table_ensure, StateTables.table_ensure]
      exact huse.tables s
  . intro n hn
    obtain rfl := TapeUse.multi.inj hn
    exact ⟨hcount, hmulti⟩

theorem setTapes_tracks {count : Nat} (first : String) (hmulti : F.enabled .multiTape = true) :
    Tracks (Draft.Paired F F' S) (F.SameWildcard F') (setTapes count first) (setTapes count first) := by
  rintro d d' ⟨u, h, hu⟩
  have htapes : d'.tapes = u := by rw [h.rest, h.tapes]
  by_cases hcount : count ≤ 1
  . have hthrow (e : Draft) : setTapes count first e = .error (.tooFewTapes count) e := by
      unfold setTapes
      rw [if_pos hcount]
      rfl
    rw [hthrow, hthrow]
    exact fun _ => ⟨d', rfl⟩
  . unfold setTapes
    rw [if_neg hcount]
    dsimp only
    rw [bind_of_ok (get_apply d), bind_of_ok (get_apply d'), htapes, h.tapes]
    cases u with
    | single => exact fun _ => ⟨d', rfl⟩
    | multi n => exact fun _ => ⟨d', rfl⟩
    | undecided => exact openTapes_matched hF hS (by omega) first hmulti h

omit hF hS in
theorem checkArities_tracks {R : Draft → Draft → Prop} {strict : Prop} (n : Nat) (t : JointTransition) :
    Tracks R strict (checkArities n t) (checkArities n t) := by
  have hcheck (actual : Nat) (what : PerTape) :
      Tracks R strict (checkArity n actual what) (checkArity n actual what) := by
    unfold checkArity
    split
    . exact Tracks.pure ()
    . exact Tracks.throw _
  have hrest : Tracks R strict
      (checkArity n t.writes.length .outputs >>= fun _ => checkArity n t.moves.length .movements)
      (checkArity n t.writes.length .outputs >>= fun _ => checkArity n t.moves.length .movements) :=
    Tracks.bind (hcheck _ _) fun _ => hcheck _ _
  unfold checkArities
  split
  . exact Tracks.bind (hcheck _ _) fun _ => hrest
  . exact hrest

theorem userJoint_tracks {t : JointTransition} (hreads : ¬ F.SameWildcard F' → t.ReadsAmong S) :
    Tracks (Draft.Paired F F' S) (F.SameWildcard F') (userJoint t) (userJoint t) := by
  rintro d d' ⟨u, h, hu⟩
  have htapes : d'.tapes = u := by rw [h.rest, h.tapes]
  rw [userJoint, bind_of_ok (get_apply d), bind_of_ok (get_apply d'), htapes, h.tapes]
  cases u with
  | undecided => exact fun _ => ⟨d', rfl⟩
  | single => exact fun _ => ⟨d', rfl⟩
  | multi n =>
    obtain ⟨hn, hmulti⟩ := hu n rfl
    -- The transition is looked at only if it has one item for each tape.
    refine (Tracks.bind_ok (checkArities_tracks n t) fun _ e e₁ hcheck => ?_).paired h hu
    obtain ⟨_, hread, hwrites, _⟩ := checkArities_eq_ok hcheck
    refine Tracks.bind (avoid_tracks hS t.origin) fun _ => Tracks.bind (avoid_tracks hS t.next) fun _ => ?_
    exact jointTransition_go_tracks hF hn hmulti _ hwrites hread hreads

theorem submit_tracks {r : Request} (hr : r.IsDefinition)
    (hmulti : ∀ n first, r = .tapes n first → F.enabled .multiTape = true)
    (hreads : ∀ t, r = .joint t → ¬ F.SameWildcard F' → t.ReadsAmong S) :
    Tracks (Draft.Paired F F' S) (F.SameWildcard F') (submit r) (submit r) := by
  cases r with
  | alphabets input extra => exact hr.elim
  | features features => exact hr.elim
  | state name =>
    rintro d d' ⟨u, h, hu⟩
    exact (Tracks.bind (avoid_tracks hS name) fun _ => addState_tracks name).paired h hu
  | directive x => exact userDirective_tracks hF hS x
  | tapes count first => exact setTapes_tracks hF hS first (hmulti count first rfl)
  | joint t => exact userJoint_tracks hF hS (hreads t rfl)

end Build

namespace Draft

/-- The replies to requests that are submitted one by one, up to and including the first refusal. -/
def replies (d : Draft) : List Request → List (Except RequestError Unit)
  | [] => []
  | r :: rs =>
    match Build.submit r d with
    | .ok _ d => .ok () :: d.replies rs
    | .error e _ => [.error e]

theorem replies_cons_of_ok {d d' : Draft} {r : Request} (h : Build.submit r d = .ok () d')
    (rs : List Request) : d.replies (r :: rs) = .ok () :: d'.replies rs := by
  rw [replies, h]

theorem replies_cons_of_error {d d' : Draft} {r : Request} {e : RequestError}
    (h : Build.submit r d = .error e d') (rs : List Request) : d.replies (r :: rs) = [.error e] := by
  rw [replies, h]

theorem replies_configured (start : String) (input extra : List Cell) (F : FeatureSet)
    (rs : List Request) :
    (new start).replies (.alphabets input extra :: .features F.toList :: rs)
      =
    .ok () :: .ok () :: replies { start, features := F, alphabet := .declare input extra } rs := by
  have halphabets : Build.submit (.alphabets input extra) (new start)
      = .ok () { start, alphabet := .declare input extra } := rfl
  obtain ⟨s, hs, hhas⟩ := @Build.exists_enableFeatures { start, alphabet := .declare input extra }
    F.toList rfl F.nodup_toList fun _ _ => rfl
  obtain rfl : s = F := by
    rw [FeatureSet.mk.injEq]
    funext f
    rw [Bool.eq_iff_iff, hhas, FeatureSet.mem_toList]
    exact or_iff_left Bool.false_ne_true
  have hfeatures : Build.submit (.features s.toList) { start, alphabet := .declare input extra }
      = .ok () { start, features := s, alphabet := .declare input extra } := hs
  rw [replies_cons_of_ok halphabets, replies_cons_of_ok hfeatures]

variable {F F' : FeatureSet} {S : Cell → Prop} {d d' : Draft}

theorem Paired.replies (h : d.Paired F F' S d') {rs : List Request}
    (hrs : ∀ r ∈ rs, Build.Tracks (Paired F F' S) (F.SameWildcard F') (Build.submit r) (Build.submit r)) :
    (F.SameWildcard F' → d'.replies rs = d.replies rs)
      ∧ ((∀ reply ∈ d.replies rs, reply = .ok ()) → ∀ reply ∈ d'.replies rs, reply = .ok ()) := by
  induction rs generalizing d d' with
  | nil => exact ⟨fun _ => rfl, fun h => h⟩
  | cons r rs ih =>
    rw [List.forall_mem_cons] at hrs
    have hr := hrs.1 d d' h
    cases hrun : Build.submit r d with
    | ok _ e =>
      rw [hrun] at hr
      obtain ⟨e', hrun', he⟩ := hr
      obtain ⟨hsame, hall⟩ := ih he hrs.2
      rw [replies_cons_of_ok hrun, replies_cons_of_ok hrun']
      refine ⟨fun hstrict => by rw [hsame hstrict], fun hok => ?_⟩
      rw [List.forall_mem_cons] at hok ⊢
      exact ⟨rfl, hall hok.2⟩
    | error cause e =>
      rw [hrun] at hr
      rw [replies_cons_of_error hrun]
      refine ⟨fun hstrict => ?_, fun hok => ?_⟩
      . obtain ⟨e', hrun'⟩ := hr hstrict
        rw [replies_cons_of_error hrun']
      . cases hok _ List.mem_cons_self

theorem paired_of_declare (start : String) (input extra : List Cell)
    (hS : ∀ c, S c → c ∈ (Alphabet.declare input extra).symbols)
    (horderly : ¬ F.SameWildcard F' → ∀ c ∈ (Alphabet.declare input extra).symbols,
      (Alphabet.declare input extra).accepts c = true) :
    Paired F F' S { start, features := F, alphabet := .declare input extra }
      { start, features := F', alphabet := .declare input extra } := by
  refine ⟨.undecided, ⟨rfl, rfl, rfl, fun _ => .inl (.refl _), fun hstrict => ⟨?_, horderly hstrict⟩, hS⟩,
    nofun⟩
  exact Alphabet.nodup_foldl_addNew List.nodup_nil _

end Draft

/--
Features for matching have little to do with which requests are accepted. Whether symbols can share a
rule makes no difference to any reply. What is accepted with wildcards is accepted without them, if all
declared symbols can be read at all, and if transitions that read any symbol on some of the tapes read
declared symbols on the others.
-/
theorem replies_independent_of_matching (start : String) (input extra : List Cell) {F G : FeatureSet}
    {rs : List Request} (hrs : ∀ r ∈ rs, r.IsDefinition)
    (htapes : ∀ n first, .tapes n first ∈ rs → F.enabled .multiTape = true) :
    let A := Alphabet.declare input extra
    let replies (H : FeatureSet) :=
      (Draft.new start).replies (.alphabets input extra :: .features H.toList :: rs)
    (F.AgreeExcept [.multiMatch, .multiMatchNoChange] G → replies F = replies G)
      ∧ (F.AgreeExcept [.wildcard] G → F.has .wildcard = true → G.has .wildcard = false →
        (∀ c ∈ A.symbols, A.accepts c = true) →
        (∀ t, .joint t ∈ rs → t.ReadsAmong fun c => c ∈ A.symbols ∧ c.IsSteady) →
        (∀ reply ∈ replies F, reply = .ok ()) → ∀ reply ∈ replies G, reply = .ok ()) := by
  intro A replies
  have hreplies (H : FeatureSet) : replies H
      = .ok () :: .ok () :: Draft.replies { start, features := H, alphabet := A } rs :=
    Draft.replies_configured start input extra H rs
  rw [hreplies, hreplies]
  constructor
  . intro hagree
    have hwildcard : F.SameWildcard G := hagree .wildcard (by decide)
    have hF : F.Resembles G := by
      refine ⟨fun f hf => hagree f fun hmem => hf ?_, fun h => hwildcard.trans h⟩
      exact List.mem_append_left [Feature.wildcard] hmem
    have hpaired := Draft.paired_of_declare (S := fun _ => False) start input extra (fun _ => False.elim)
      fun hstrict => absurd hwildcard hstrict
    rw [(hpaired.replies fun r hr => ?_).1 hwildcard]
    refine Build.submit_tracks hF (fun _ => False.elim) (hrs r hr) ?_ ?_
    . rintro n first rfl
      exact htapes n first hr
    . exact fun _ _ hstrict => absurd hwildcard hstrict
  . intro hagree hhas hhas' haccepts hreads hok
    have hF : F.Resembles G := by
      refine ⟨fun f hf => hagree f fun hmem => hf ?_, fun _ => hhas⟩
      exact List.mem_append_right [Feature.multiMatch, .multiMatchNoChange] hmem
    have hpaired := Draft.paired_of_declare (S := fun c => c ∈ A.symbols ∧ c.IsSteady) start
      input extra (fun _ h => h.1) fun (_ : ¬ F.SameWildcard G) => haccepts
    rw [List.forall_mem_cons, List.forall_mem_cons] at hok ⊢
    refine ⟨rfl, rfl, (hpaired.replies fun r hr => ?_).2 hok.2.2⟩
    refine Build.submit_tracks hF (fun _ h => h.2) (hrs r hr) ?_ ?_
    . rintro n first rfl
      exact htapes n first hr
    . rintro t rfl _
      exact hreads t hr

theorem replies_independent_of_matching_two_tapes :
    let F : FeatureSet := ⟨fun f => f ∈ [.wildcard, .moveNone, .multiTape, .multiMatch]⟩
    let G : FeatureSet := ⟨fun f => f ∈ [.moveNone, .multiTape, .multiMatch]⟩
    let move (read : JointPattern) (next : String) : Request :=
      .joint ⟨"q", read, [.keep, .put (.ofChar 'b')], [.right, .leftBy 2], next⟩
    let rs := [.tapes 2 "q", move (.tapes [.cell (.ofChar 'a'), .any]) "q", move .any "ACCEPT"]
    let replies (H : FeatureSet) := (Draft.new Draft.defaultStart).replies
      (.alphabets (Cell.ofText "ab") [] :: .features H.toList :: rs)
    replies F = replies ⟨fun f => f ∈ [.wildcard, .moveNone, .multiTape]⟩
      ∧ (∀ reply ∈ replies F, reply = .ok ()) ∧ ∀ reply ∈ replies G, reply = .ok () := by
  intro F G move rs replies
  have hrs : ∀ r ∈ rs, r.IsDefinition := by decide
  have htapes : ∀ n first, .tapes n first ∈ rs → F.enabled .multiTape = true := fun _ _ _ => by decide
  have hok : ∀ reply ∈ replies F, reply = .ok () := by decide +kernel
  have hreads : ∀ t, .joint t ∈ rs →
      t.ReadsAmong fun c => c ∈ (Alphabet.declare (Cell.ofText "ab") []).symbols ∧ c.IsSteady := by
    intro t ht patterns hpatterns _ p hp c hc
    obtain rfl : c = .ofChar 'a' := by
      simp only [rs, move, List.mem_cons, List.not_mem_nil, or_false, reduceCtorEq, false_or,
        Request.joint.injEq] at ht
      obtain rfl | rfl := ht
      . cases hpatterns
        simp only [List.mem_cons, List.not_mem_nil, or_false] at hp
        obtain rfl | rfl := hp
        . exact List.mem_singleton.mp hc
        . cases hc
      . cases hpatterns
    exact ⟨by decide, fun _ _ => rfl⟩
  refine ⟨(replies_independent_of_matching _ _ _ hrs htapes).1 ?_, hok,
    (replies_independent_of_matching _ _ _ hrs htapes).2 ?_ rfl rfl (by decide +kernel) hreads hok⟩
  . have hagree : ∀ f ∈ Feature.all, f ∉ [Feature.multiMatch, .multiMatchNoChange] →
        F.has f = decide (f ∈ [Feature.wildcard, .moveNone, .multiTape]) := by decide
    exact fun f => hagree f (Feature.mem_all f)
  . have hagree : ∀ f ∈ Feature.all, f ∉ [Feature.wildcard] → F.has f = G.has f := by decide
    exact fun f => hagree f (Feature.mem_all f)

/--
A wildcard leaves out a declared combination whose parts are not declared, which can not be read, and next
to a wildcard there are no combinations left for a symbol that is not declared. Rules that take the place
of the wildcard are refused, or such a symbol is found out.
-/
theorem replies_dependent_on_wildcards :
    let passed := [.directive (.pass "p" .any .right "ACCEPT")]
    let joint (read : JointPattern) : Request :=
      .joint ⟨"q", read, [.keep, .keep], [.right, .right], "ACCEPT"⟩
    let covered := [.tapes 2 "q", joint .any, joint (.tapes [.cell (.ofChar 'z'), .any])]
    let replies (input : List Cell) (features : List Feature) (rs : List Request) :=
      (Draft.new Draft.defaultStart).replies (.alphabets input [] :: .features features :: rs)
    (∀ reply ∈ replies [.joint [.ofChar 'x']] [.wildcard] passed, reply = .ok ())
      ∧ replies [.joint [.ofChar 'x']] [] passed
        = [.ok (), .ok (), .error (.rule "p" (.foreignSymbol (.joint [.ofChar 'x'])))]
      ∧ (∀ reply ∈ replies [.ofChar 'a'] [.wildcard, .moveNone, .multiTape] covered, reply = .ok ())
      ∧ replies [.ofChar 'a'] [.moveNone, .multiTape] covered
        = [.ok (), .ok (), .ok (), .ok (),
          .error (.rule "q" (.foreignSymbol (.joint [.ofChar 'z', .ofChar 'a'])))] := by
  decide +kernel

end TuringLowering
