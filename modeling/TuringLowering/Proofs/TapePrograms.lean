import TuringLowering.Proofs.JointAdmission
import TuringLowering.Proofs.MultiTape
import TuringLowering.Proofs.StoredPrograms

/-!
This module contains programs on several tapes. They go through with every set of features, and what
they leave on the tapes is read off their transitions, whether the tapes are simulated or not.
-/

namespace TuringLowering

theorem Pattern.nodup_cells {p : Pattern} {B : List Cell} (hB : B.Nodup) (h : (p.cells []).Nodup) :
    (p.cells B).Nodup := by
  cases p with
  | cell c => exact h
  | oneOf cells => exact h
  | any => exact hB

namespace JointTransition

instance (n : Nat) (t : JointTransition) : Decidable (t.Fits n) :=
  decidable_of_iff ((t.read.perTape n).length = n ∧ t.writes.length = n ∧ t.moves.length = n) (by
    refine ⟨fun h => ⟨fun patterns hread => ?_, h.2.1, h.2.2⟩, fun h => ⟨?_, h.writes, h.moves⟩⟩
    . have hlength := h.1
      rwa [hread] at hlength
    . cases hread : t.read with
      | any => exact List.length_replicate
      | tapes patterns => exact h.reads patterns hread)

def reads (B : List Cell) (n : Nat) (t : JointTransition) : List (List Cell) :=
  combinations ((t.read.perTape n).map (Pattern.cells B))

/--
A transition names cells once each, and no earlier one is about a combination that it names. If it takes
any cell of some tape, what earlier ones have left over is enough.
-/
def Joins (B : List Cell) (n : Nat) (P : List JointTransition) (t : JointTransition) : Prop :=
  (∀ p ∈ t.read.perTape n, (p.cells []).Nodup)
    ∧ if .any ∈ t.read.perTape n then ∃ cells ∈ t.reads B n, serving P t.origin cells = none
      else ∀ cells ∈ t.reads B n, serving P t.origin cells = none

instance (B : List Cell) (n : Nat) (P : List JointTransition) (t : JointTransition) :
    Decidable (t.Joins B n P) :=
  inferInstanceAs (Decidable (_ ∧ _))

variable {B : List Cell} {n : Nat} {P : List JointTransition} {t : JointTransition}

theorem Joins.nodup_reads (h : t.Joins B n P) (hB : B.Nodup) : (t.reads B n).Nodup := by
  apply nodup_combinations
  rw [List.forall_mem_map]
  exact fun p hp => Pattern.nodup_cells hB (h.1 p hp)

theorem Joins.unserved (h : t.Joins B n P) (hany : .any ∉ t.read.perTape n) {cells : List Cell}
    (hcells : cells ∈ t.reads B n) : serving P t.origin cells = none := by
  have hrest := h.2
  rw [if_neg hany] at hrest
  exact hrest cells hcells

theorem Joins.exists_unserved (h : t.Joins B n P) (hany : .any ∈ t.read.perTape n) :
    ∃ cells ∈ t.reads B n, serving P t.origin cells = none := by
  have hrest := h.2
  rwa [if_pos hany] at hrest

end JointTransition

namespace Draft

open JointTransition

namespace Owns

variable {g : Guard} {A : Alphabet} {F : FeatureSet} {n : Nat} {first : String}
  {made : List ChainKey} {P : List JointTransition} {d d' : Draft} {t : JointTransition}

theorem addState (h : d.Owns g A F n first made P) (s : String) :
    ({ d with states := d.states.ensure s } : Draft).Owns g A F n first made P := by
  have hlookup (q : String) (c : Cell) : (d.states.ensure s).lookup q c = d.states.lookup q c := by
    rw [StateTables.lookup_eq, StateTables.table_ensure, ← StateTables.lookup_eq]
  refine ⟨h.guard, h.start, h.alphabet, h.tapes, h.features, h.pends, h.proper, ?_, ?_⟩
  . intro q cells t hlength hcells hserving
    rw [hlookup]
    exact h.served q cells t hlength hcells hserving
  . intro q cells hlength hcells hserving
    rw [hlookup]
    exact h.unserved q cells hlength hcells hserving

theorem exists_direct (h : d.Owns g A F n first made P) (hA : A.IsLettered)
    (hnodup : A.declared.Nodup) (hF : F.enabled .multiTape = true) (hn : 0 < n)
    (ht : t.Proper g A n) (hjoins : t.Joins A.declared n P) :
    ∃ d', Build.jointTransition.direct t d = .ok () d' := by
  have hsymbols : d.alphabet.symbols = A.declared := by rw [h.alphabet, hA.symbols]
  have hnone {cells : List Cell} (hcells : cells ∈ t.reads A.declared n)
      (hserving : serving P t.origin cells = none) :
      d.states.lookup t.origin (.joint cells) = none := by
    obtain ⟨hlength, hdeclared⟩ := ht.of_mem_combinations hcells
    exact h.unserved _ cells hlength hdeclared hserving
  have haccepts {cells : List Cell} (hcells : cells ∈ t.reads A.declared n) :
      d.alphabet.accepts (.joint cells) = true := by
    rw [h.alphabet]
    exact Alphabet.accepts_joint fun c hc => hA.accepts ((ht.of_mem_combinations hcells).2 c hc)
  rw [Build.jointTransition.direct, Build.bind_of_ok (Build.enabled_apply _ _), h.features, hF,
    if_pos rfl, Build.joint, Build.bind_of_ok (Build.enabled_apply _ _)]
  split
  . next hwild =>
    obtain ⟨cells, hcells, hserving⟩ := hjoins.exists_unserved (by
      rw [hwild.1, JointPattern.perTape, List.mem_replicate]
      exact ⟨Nat.ne_of_gt hn, rfl⟩)
    exact Build.exists_addRule_wildcard (hnone hcells hserving) _
  . rw [ht.writes]
    unfold Build.jointPerTape
    cases hexact : Pattern.exactCells? (t.read.perTape n) with
    | some cells =>
      have hpatterns := Build.exactCells?_eq_some hexact
      have hcells : cells ∈ t.reads A.declared n := by
        rw [reads, hpatterns, List.map_map, mem_combinations, List.forall₂_map_right_iff]
        exact List.forall₂_same.mpr fun c _ => List.mem_singleton_self c
      refine Build.exists_addRule_exact (hnone hcells (hjoins.unserved ?_ hcells)) (haccepts hcells) _
      rw [hpatterns]
      simp
    | none =>
      dsimp only
      rw [Build.bind_of_ok (Build.get_apply d), Build.jointForCells,
        Build.bind_of_ok (Build.get_apply d), hsymbols]
      apply Build.exists_addRules
      . apply List.Nodup.map Cell.joint_injective
        split
        . exact (hjoins.nodup_reads hnodup).filter _
        . exact hjoins.nodup_reads hnodup
      . rw [List.forall_mem_map]
        intro cells hcells
        split at hcells
        . rw [List.mem_filter, Option.isNone_iff_eq_none] at hcells
          exact ⟨hcells.2, haccepts hcells.1⟩
        . next hany =>
          rw [List.contains_iff_mem] at hany
          exact ⟨hnone hcells (hjoins.unserved hany hcells), haccepts hcells⟩

theorem iterate_of_run (h : d.Owns g A F n first made P) (hA : A.IsLettered) (hn : 1 < n)
    {a b : String × List View} (hrun : Relation.ReflTransGen (Leads P) a b) {c : Config}
    (hc : c.On n A.declared) (hstate : c.state = a.1) (hviews : c.tapes.map Tape.view = a.2) :
    ∃ k tapes, tapes.length = n ∧ tapes.map Tape.view = b.2
      ∧ d.compile.next^[k] c = ⟨b.1, tapes⟩ := by
  induction hrun using Relation.ReflTransGen.head_induction_on generalizing c with
  | refl => exact ⟨0, c.tapes, hc.length, hviews, by rw [← hstate]; rfl⟩
  | head hstep _ ih =>
    obtain ⟨hrunning, hserving⟩ := hstep
    dsimp only at hstate hviews
    rw [← hviews, Tape.map_focus_view, ← hstate] at hserving
    obtain ⟨_, hstate', hc', hviews'⟩ := h.next_of_serving hA hn hc (hstate ▸ hrunning) hserving
    obtain ⟨k, tapes, hlength, htapes, hk⟩ := ih hc' hstate' (by rw [hviews', hviews])
    exact ⟨k + 1, tapes, hlength, htapes, by rwa [Function.iterate_succ_apply]⟩

end Owns

namespace Mirrors

variable {g : Guard} {A : Alphabet} {n : Nat} {first : String} {made : List ChainKey}
  {P : List JointTransition} {d d' : Draft} {t : JointTransition}

theorem addState (h : d.Mirrors g A n first made P) {s : String} (hs : Guard.Clean s) :
    ({ d with states := d.states.ensure s } : Draft).Mirrors g A n first made P := by
  obtain ⟨F, R, hF, hshares, hR⟩ := h.routes
  obtain ⟨xs, hxs, hmem⟩ := hshares.inventory
  obtain ⟨hxs', _⟩ := hxs.addState (fun hgenerates => hgenerates.not_free (hs.free g)) rfl
  refine ⟨h.guard, h.proper, _, R, hF.concat hs, ⟨hshares.start, hshares.tapes, hshares.features,
    hshares.declared, hshares.heads, hshares.pends, _, hxs', ?_⟩, hR⟩
  intro x
  rw [List.mem_append, List.mem_append, hmem, or_right_comm]

theorem isKnown_of_mem {F : List Directive} {R : List Route} {r r' : Route}
    (hshares : d.Shares g A n F made R []) (hn : 0 < n) (hr : r.WellFormed g n)
    (hr' : r'.WellFormed g n) (hmem : r' ∈ R) (horigin : r'.origin = r.origin)
    (hreads : r'.reads = r.reads) : r.isKnown d = true := by
  have hlt : n - 1 < n := Nat.sub_lt hn Nat.one_pos
  obtain ⟨c, hc⟩ : ∃ c, r.reads[n - 1]? = some c :=
    ⟨_, List.getElem?_eq_getElem (hr.readsLength.symm ▸ hlt)⟩
  have hfind : r'.findState (n - 1) = r.findState (n - 1) :=
    hr'.findState_congr hr hlt horigin (by rw [hreads])
  have hlookup := @Shares.lookup_ne_none _ _ _ _ _ _ _ _ _ hshares
    (.inr (.inl ⟨r', hmem, .found (hreads ▸ hc)⟩)) nofun c.tagged rfl
  rw [Route.isKnown, List.getLast?_eq_getElem?, hr.readsLength, hc]
  dsimp only
  rw [← hfind]
  exact Option.isSome_iff_ne_none.mpr hlookup

theorem exists_direct (h : d.Mirrors g A n first made P) (hA : A.IsSegmented)
    (horderly : d.alphabet.IsOrderly) (hnodup : A.declared.Nodup) (hn : 0 < n)
    (ht : t.Proper g A n) (hrunning : isTerminal t.origin = false)
    (hjoins : t.Joins A.declared n P) :
    ∃ d', Build.jointTransition.direct t d = .ok () d' ∧ d'.alphabet.IsOrderly := by
  obtain ⟨F, R, hF, hshares, hR⟩ := h.routes
  have hwell := fun r hr => (wellFormed hA h.proper hR r hr).1
  rw [Build.jointTransition.direct, Build.bind_of_ok (Build.enabled_apply _ _), hshares.features,
    if_neg Bool.false_ne_true, Build.simulated, Build.bind_of_ok (Build.get_apply d),
    hshares.declared, h.guard, ht.writes]
  obtain ⟨routes, heq, hsub, hfresh⟩ : ∃ routes : List Route,
      routes = (if (t.read.perTape n).contains .any then
          ((t.reads A.declared n).map (t.routeOn g)).filter (!·.isKnown d)
        else (t.reads A.declared n).map (t.routeOn g))
      ∧ routes.Sublist ((t.reads A.declared n).map (t.routeOn g))
      ∧ ∀ r ∈ routes, serving P r.origin r.reads = none := by
    refine ⟨_, rfl, ?_, ?_⟩
    . split
      . exact List.filter_sublist
      . exact .refl _
    . intro r hr
      split at hr
      . rw [List.mem_filter, Bool.not_eq_true'] at hr
        obtain ⟨hlength, hreads, hserves, heq⟩ := (mem_routesOf ht).mp hr.1
        cases hserving : serving P r.origin r.reads with
        | none => rfl
        | some u =>
          have horigin := (mem_of_serving hserving).2.1
          have hmem : u.routeOn g r.reads ∈ R :=
            (hR _).mpr ⟨hlength, hreads, u, by rw [← hserving, ← horigin]; rfl, rfl⟩
          have hr' : r.WellFormed g n := heq ▸ (ht.wellFormed_routeOn hA hlength hreads).1
          rw [isKnown_of_mem hshares hn hr' (hwell _ hmem) hmem horigin rfl] at hr
          cases hr.2
      . next hany =>
        rw [List.contains_iff_mem] at hany
        obtain ⟨cells, hcells, rfl⟩ := List.mem_map.mp hr
        exact hjoins.unserved hany hcells
  have hnodup' : (routes.map Route.reads).Nodup := by
    apply (hsub.map Route.reads).nodup
    rw [List.map_map]
    exact (List.map_id _).symm ▸ hjoins.nodup_reads hnodup
  change ∃ d', (if (t.read.perTape n).contains .any then
      ((t.reads A.declared n).map (t.routeOn g)).filter (!·.isKnown d)
    else (t.reads A.declared n).map (t.routeOn g)).forM Build.route d = .ok () d' ∧ _
  rw [← heq]
  have hadded := @Build.exists_forM _ routes Build.route (fun done e => e.alphabet.IsOrderly
    ∧ e.Shares g A n F made (R ++ done) []) ?_ d ⟨horderly, by rwa [List.append_nil]⟩
  . obtain ⟨d', hok, horderly', _⟩ := hadded
    exact ⟨d', hok, horderly'⟩
  . rintro done r rest e hitems ⟨horderly, he⟩
    have hmem : r ∈ routes := by
      rw [hitems]
      simp
    have hformed : ∀ r ∈ routes, r.WellFormed g n ∧ (∀ c ∈ r.reads, c ∈ A.declared) ∧ r.origin = t.origin := by
      intro r hr
      obtain ⟨hlength, hreads, _, heq⟩ := (mem_routesOf ht).mp (hsub.subset hr)
      rw [heq]
      exact ⟨(ht.wellFormed_routeOn hA hlength hreads).1, hreads, rfl⟩
    obtain ⟨hr, hreads, horigin⟩ := hformed r hmem
    have hwell' : ∀ r ∈ R ++ done, r.WellFormed g n := by
      rw [List.forall_mem_append]
      refine ⟨hwell, fun r' hr' => (hformed r' ?_).1⟩
      rw [hitems]
      exact List.mem_append_left _ hr'
    obtain ⟨e', hok, horderly'⟩ := he.exists_route hA hF hwell' hr hreads horderly hnodup hn
      (horigin ▸ hrunning) (by
        intro r' hr' horigin' hsame
        rcases List.mem_append.mp hr' with hr' | hr'
        . obtain ⟨_, _, u, hserving, _⟩ := (hR r').mp hr'
          rw [horigin', hsame, hfresh r hmem] at hserving
          cases hserving
        . rw [hitems, List.map_append, List.map_cons, List.nodup_append] at hnodup'
          exact hnodup'.2.2 _ (List.mem_map_of_mem hr') _ List.mem_cons_self hsame)
    refine ⟨e', hok, horderly', ?_⟩
    rw [← List.append_assoc]
    exact he.route hA (hF.isCommon hA) hwell' hr hreads hn hok

end Mirrors

end Draft

namespace Request

def joints : List Request → List JointTransition
  | [] => []
  | .joint t :: rs => t :: joints rs
  | _ :: rs => joints rs

/--
Requests on `n` tapes, with cells of `B` and movements of at most one cell. Each transition joins those
before it, and no name needs a wider guard.
-/
def CoherentOn (B : List Cell) (n : Nat) : List JointTransition → List Request → Prop
  | _, [] => True
  | P, .state s :: rs => Guard.Clean s ∧ CoherentOn B n P rs
  | P, .joint t :: rs => (t.Fits n ∧ t.Over (· ∈ B) ∧ Guard.Clean t.origin ∧ Guard.Clean t.next)
    ∧ (isTerminal t.origin = false ∧ t.moves.any Move.isLong = false ∧ t.Joins B n P)
    ∧ CoherentOn B n (P ++ [t]) rs
  | _, _ :: _ => False

instance decidableCoherentOn (B : List Cell) (n : Nat) :
    (P : List JointTransition) → (rs : List Request) → Decidable (CoherentOn B n P rs)
  | _, [] => inferInstanceAs (Decidable True)
  | P, .state _ :: rs =>
    have := decidableCoherentOn B n P rs
    inferInstanceAs (Decidable (_ ∧ _))
  | P, .joint t :: rs =>
    have := decidableCoherentOn B n (P ++ [t]) rs
    inferInstanceAs (Decidable (_ ∧ _ ∧ _))
  | _, .alphabets _ _ :: _ => inferInstanceAs (Decidable False)
  | _, .features _ :: _ => inferInstanceAs (Decidable False)
  | _, .directive _ :: _ => inferInstanceAs (Decidable False)
  | _, .tapes _ _ :: _ => inferInstanceAs (Decidable False)

end Request

theorem Build.userJoint_apply {n : Nat} {t : JointTransition} {d : Draft} (h : d.tapes = .multi n)
    (ht : t.Fits n) : userJoint t d = jointTransition t (d.avoidBoth t.origin t.next) := by
  rw [userJoint, bind_of_ok (get_apply d), h]
  dsimp only
  rw [bind_of_ok (checkArities_apply ht.reads ht.writes ht.moves d)]
  rfl

/-- The draft does on `n` tapes what the transitions of `P` say, whether it simulates them or not. -/
def Draft.Enacts (A : Alphabet) (n : Nat) (first : String) (P : List JointTransition) (d : Draft) :
    Prop :=
  (d.features.enabled .multiTape = true ∧ d.Owns .single A d.features n first [] P)
    ∨ (d.alphabet.IsOrderly ∧ d.Mirrors .single (A.shared first) n first [] P)

namespace Draft.Enacts

open JointTransition

variable {A : Alphabet} {n : Nat} {first : String} {P : List JointTransition} {d : Draft}
  {t : JointTransition}

theorem guard (h : d.Enacts A n first P) : d.guard = .single := by
  rcases h with ⟨_, h⟩ | ⟨_, h⟩
  . exact h.guard
  . exact h.guard

theorem tapes (h : d.Enacts A n first P) : d.tapes = .multi n := by
  rcases h with ⟨_, h⟩ | ⟨_, h⟩
  . exact h.tapes
  . obtain ⟨_, _, _, hshares, _⟩ := h.routes
    exact hshares.tapes

theorem exists_userState (h : d.Enacts A n first P) {s : String} (hs : Guard.Clean s) :
    ∃ d', Build.userState s d = .ok () d' ∧ d'.Enacts A n first P := by
  have hok : Build.userState s d = .ok () { d with states := d.states.ensure s } := by
    rw [Build.userState, Build.bind_of_ok (Build.avoid_apply _ _), avoid_of_free (hs.free _)]
    rfl
  refine ⟨_, hok, ?_⟩
  rcases h with ⟨hF, h⟩ | ⟨horderly, h⟩
  . exact .inl ⟨hF, h.addState s⟩
  . exact .inr ⟨horderly, h.addState hs⟩

section

variable (hA : A.IsLettered) (hnodup : A.declared.Nodup) (hS : (A.shared first).IsSegmented)
  (hn : 0 < n)
include hA hnodup hS hn

theorem exists_userJoint (h : d.Enacts A n first P)
    (ht : t.Fits n ∧ t.Over (· ∈ A.declared) ∧ Guard.Clean t.origin ∧ Guard.Clean t.next)
    (hrunning : isTerminal t.origin = false) (hshort : t.moves.any Move.isLong = false)
    (hjoins : t.Joins A.declared n P) :
    ∃ d', Build.userJoint t d = .ok () d' ∧ d'.Enacts A n first (P ++ [t]) := by
  obtain ⟨hfits, hover, horigin, hnext⟩ := ht
  have hproper := Proper.of_free hfits hover (horigin.free .single) (hnext.free .single)
  have hproper' : t.Proper .single (A.shared first) n :=
    ⟨hfits, by rwa [Alphabet.declared_shared], hproper.origin, hproper.next⟩
  have hmoves : ∀ m ∈ t.moves, m.isLong = false := by simpa using hshort
  rw [Build.userJoint_apply h.tapes hfits, avoidBoth, avoid_of_free (horigin.free _),
    avoid_of_free (hnext.free _), Build.jointTransition, Build.go_short hshort]
  rcases h with ⟨hF, h⟩ | ⟨horderly, h⟩
  . obtain ⟨d', hok⟩ := h.exists_direct hA hnodup hF hn hproper hjoins
    have h' := h.direct hA hF hproper hok
    refine ⟨d', hok, .inl ?_⟩
    rw [h'.features]
    exact ⟨hF, h'⟩
  . rw [← Alphabet.declared_shared (A := A) first] at hnodup hjoins
    obtain ⟨d', hok, horderly'⟩ := h.exists_direct hS horderly hnodup hn hproper' hrunning hjoins
    exact ⟨d', hok, .inr ⟨horderly', h.direct hS hn hproper' hmoves hok⟩⟩

theorem exists_submitAll {rs : List Request} (h : d.Enacts A n first P)
    (hcoherent : Request.CoherentOn A.declared n P rs) :
    ∃ d', Build.submitAll rs d = .ok () d' ∧ d'.Enacts A n first (P ++ Request.joints rs) := by
  fun_induction Request.CoherentOn A.declared n P rs generalizing d with
  | case1 P => exact ⟨d, rfl, by rwa [Request.joints, List.append_nil]⟩
  | case2 P s rs ih =>
    obtain ⟨d₁, hstate, h₁⟩ := h.exists_userState hcoherent.1
    obtain ⟨d', hrest, h'⟩ := ih h₁ hcoherent.2
    exact ⟨d', Build.forM_cons_eq_ok.mpr ⟨d₁, hstate, hrest⟩, h'⟩
  | case3 P t rs ih =>
    obtain ⟨ht, ⟨hrunning, hshort, hjoins⟩, hcoherent⟩ := hcoherent
    obtain ⟨d₁, hjoint, h₁⟩ := h.exists_userJoint hA hnodup hS hn ht hrunning hshort hjoins
    obtain ⟨d', hrest, h'⟩ := ih h₁ hcoherent
    refine ⟨d', Build.forM_cons_eq_ok.mpr ⟨d₁, hjoint, hrest⟩, ?_⟩
    rwa [List.append_assoc] at h'
  | case4 => exact hcoherent.elim

end

theorem leaves_of_run (h : d.Enacts A n first P) (hA : A.IsLettered)
    (hS : (A.shared first).IsSegmented) (hn : 1 < n) (hn' : (n - 1) * 3 + 1 < 2 ^ 63)
    (hfirst : isTerminal first = false) {word : List Cell}
    (hword : ∀ c ∈ word, c ∈ A.declared ∧ c ≠ .blank) {v : Verdict} {tapes : List Snapshot}
    (hrun : Relation.ReflTransGen (Leads P) (first, (Session.inputTapes n word).map Tape.view)
      (v.state, tapes.map Snapshot.view)) : d.compile.Leaves word v tapes := by
  rcases h with ⟨hF, h⟩ | ⟨_, h⟩
  . have hinitial : d.compile.initial word = _ := h.initial hF
    have hon : (d.compile.initial word).On n A.declared := by
      rw [hinitial]
      exact .input hA.blank fun c hc => (hword c hc).1
    obtain ⟨k, ts, hlength, hviews, hk⟩ :=
      h.iterate_of_run hA hn hrun hon (by rw [hinitial]) (by rw [hinitial])
    obtain ⟨m, hverdict, htapes⟩ := Machine.ran_of_iterate hk
    apply Machine.leaves_of_alike hverdict
    rw [Machine.logicalTapes_of_several hn (by rw [htapes, hlength]), htapes]
    exact Snapshot.alike_of_view (by rw [Tape.map_view_snapshot, hviews])
  . rw [← Alphabet.declared_shared (A := A) first] at hword
    obtain ⟨i, hi⟩ := h.reflects_input hS (Nat.zero_lt_of_lt hn) hn' hfirst hword
    obtain ⟨k, us, hholds, hlength, hwithin, hviews⟩ :=
      h.reflects_of_run hS (Nat.zero_lt_of_lt hn) hi hrun
    rw [← h.initial, ← Function.iterate_add_apply] at hholds
    dsimp only at hholds hviews
    obtain ⟨t, htape, ht⟩ := hholds.tape
    have hconfig : d.compile.next^[k + i] (d.compile.initial word) = ⟨v.state, [t]⟩ := by
      rw [← hholds.halted (Machine.isTerminal_state v), ← htape]
    obtain ⟨m, hverdict, htapes⟩ := Machine.ran_of_iterate hconfig
    have hletters : ∀ u ∈ us, ∀ c ∈ u.cells, c.IsLetter := by
      intro u hu c hc
      exact hS.letters c (Tape.mem_of_within (hwithin u hu) hc)
    apply Machine.leaves_of_alike hverdict
    rw [h.logicalTapes hn htapes, ← hlength, Segment.decode_shared hletters ht]
    exact Snapshot.alike_of_view (by rw [Tape.map_view_snapshot, hviews])

end Draft.Enacts

namespace Program

abbrev alphabet (p : Program) : Alphabet :=
  .ofChars p.inputAlphabet.toList p.extraAlphabet.toList

/-- A program on `n` tapes whose requests do not get in each other's way. -/
structure OnTapes (p : Program) (n : Nat) (first : String) (rs : List Request) : Prop where
  definition : p.definition = .tapes n first :: rs
  nodup : p.symbols.Nodup
  clean : ∀ c ∈ p.symbols, Guard.Clean c.display
  several : 1 < n
  bounded : (n - 1) * 3 + 1 < 2 ^ 63
  named : Guard.Clean first
  running : isTerminal first = false
  coherent : Request.CoherentOn p.symbols n [] rs

namespace OnTapes

variable {p : Program} {n : Nat} {first : String} {rs : List Request} (h : p.OnTapes n first rs)
include h

theorem segmented : (p.alphabet.shared first).IsSegmented :=
  Alphabet.isSegmented_shared first (Alphabet.isLettered_ofChars _ _) (Alphabet.simulating_ofChars _ _)
    h.clean

theorem exists_openTapes (F : FeatureSet) :
    ∃ d, Build.openTapes n first
        { start := Draft.defaultStart, features := F, alphabet := p.alphabet } = .ok () d
      ∧ d.Enacts p.alphabet n first [] := by
  have hA := Alphabet.isLettered_ofChars p.inputAlphabet.toList p.extraAlphabet.toList
  have hsimulating := Alphabet.simulating_ofChars p.inputAlphabet.toList p.extraAlphabet.toList
  have hfree := h.named.free .single
  cases hmulti : F.enabled .multiTape with
  | true =>
    obtain ⟨d, hopen⟩ : ∃ d, Build.openTapes n first
        { start := Draft.defaultStart, features := F, alphabet := p.alphabet } = .ok () d := by
      rw [Build.openTapes_of_free hfree, if_pos hmulti]
      exact ⟨_, rfl⟩
    have howns := Draft.Owns.openTapes hmulti hfree hopen
    refine ⟨d, hopen, .inl ?_⟩
    rw [howns.features]
    exact ⟨hmulti, howns⟩
  | false =>
    obtain ⟨d, hsimulate, halphabet⟩ := @Draft.exists_simulateTapes n first
      { start := Draft.defaultStart, features := F, alphabet := p.alphabet, tapes := .multi n } hA
      h.nodup hsimulating hfree (.of_empty rfl rfl) rfl
    have hopen : Build.openTapes n first
        { start := Draft.defaultStart, features := F, alphabet := p.alphabet } = .ok () d := by
      rw [Build.openTapes_of_free hfree, if_neg (by rw [hmulti]; exact Bool.false_ne_true), hsimulate]
    refine ⟨d, hopen, .inr ⟨?_, ?_⟩⟩
    . rw [halphabet]
      exact Alphabet.isOrderly_shared hA h.nodup hsimulating first
    . exact Draft.mirrors_of_openTapes hA hsimulating hmulti hfree hopen

theorem exists_enacts (s : FeatureSet) :
    ∃ d, p.draft s = .ok d ∧ d.Enacts p.alphabet n first (Request.joints rs) := by
  obtain ⟨F, hF, _⟩ := @Build.exists_enableFeatures
    { start := Draft.defaultStart, alphabet := p.alphabet } s.toList rfl s.nodup_toList fun _ _ => rfl
  obtain ⟨d₁, hopen, h₁⟩ := h.exists_openTapes F
  obtain ⟨d, hok, hd⟩ := h₁.exists_submitAll (Alphabet.isLettered_ofChars _ _) h.nodup h.segmented
    (Nat.zero_lt_of_lt h.several) h.coherent
  have hall : Build.submitAll (p.requests s) (.new Draft.defaultStart) = .ok () d := by
    rw [requests, h.definition]
    refine Build.forM_cons_eq_ok.mpr ⟨{ start := Draft.defaultStart, alphabet := p.alphabet }, rfl, ?_⟩
    refine Build.forM_cons_eq_ok.mpr ⟨_, hF, Build.forM_cons_eq_ok.mpr ⟨d₁, ?_, hok⟩⟩
    rw [Build.submit, Build.setTapes_apply h.several first rfl, hopen]
  refine ⟨d, ?_, hd⟩
  unfold draft
  simp only [EStateM.run, hall]

/-- What the transitions leave on the tapes, the machine leaves with every set of features. -/
theorem leaves_of_run {word : List Cell} (hword : ∀ c ∈ word, c ∈ p.symbols ∧ c ≠ .blank) {v : Verdict}
    {tapes : List Snapshot}
    (hrun : Relation.ReflTransGen (JointTransition.Leads (Request.joints rs))
      (first, (Session.inputTapes n word).map Tape.view) (v.state, tapes.map Snapshot.view))
    (s : FeatureSet) : ∃ m, p.compile s = .ok m ∧ m.Leaves word v tapes := by
  obtain ⟨d, hdraft, hd⟩ := h.exists_enacts s
  refine ⟨d.compile, by rw [compile, hdraft]; rfl, ?_⟩
  exact hd.leaves_of_run (Alphabet.isLettered_ofChars _ _) h.segmented h.several h.bounded h.running
    hword hrun

end OnTapes

end Program

end TuringLowering
