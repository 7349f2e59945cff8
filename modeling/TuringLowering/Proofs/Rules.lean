import TuringLowering.Proofs.Execution
import TuringLowering.Proofs.Operation

/-!
This module contains what the rules of a state are after rules were added to it: those that were there
are kept, and a symbol that had none has the new one if it was asked for.
-/

namespace TuringLowering

namespace RuleTable

variable {t t' : RuleTable} {alphabet : Alphabet}

theorem lookup_of_checkCell {c : Cell} (h : t.checkCell alphabet c = .ok ()) :
    t.wildcard = none ∧ t.listed? c = none ∧ alphabet.accepts c = true := by
  unfold checkCell at h
  split at h
  . cases h
  . next hwild =>
    split at h
    . cases h
    . next hcovers =>
      split at h
      . next haccepts =>
        simp only [hasWildcard, covers, Option.isSome_iff_ne_none, not_not] at hwild hcovers
        exact ⟨hwild, hcovers, haccepts⟩
      . cases h

theorem listed_of_checkCells {seen cells : List Cell}
    (h : t.checkCells alphabet seen cells = .ok ()) :
    ∀ c ∈ cells, t.lookup c = none ∧ alphabet.accepts c = true := by
  induction cells generalizing seen with
  | nil => simp
  | cons c cells ih =>
    simp only [checkCells, bind, Except.bind] at h
    cases hc : t.checkCell alphabet c with
    | error e => simp [hc] at h
    | ok u =>
      simp only [hc] at h
      split at h
      . cases h
      . obtain ⟨hwild, hlisted, haccepts⟩ := lookup_of_checkCell hc
        rw [List.forall_mem_cons]
        exact ⟨⟨by rw [lookup, hlisted, hwild]; rfl, haccepts⟩, ih h⟩

theorem eq_of_addExact {c : Cell} {o : Outcome} (h : addExact c o alphabet t = .ok t') :
    t.checkCell alphabet c = .ok () ∧ t' = { t with exact := t.exact ++ [(c, o)] } := by
  simp only [addExact, bind, Except.bind] at h
  cases hc : t.checkCell alphabet c with
  | error e => simp [hc] at h
  | ok u =>
    simp only [hc, pure, Except.pure, Except.ok.injEq] at h
    exact ⟨rfl, h.symm⟩

theorem eq_of_addGroup {group : RuleGroup} (h : addGroup group alphabet t = .ok t') :
    t.checkCells alphabet [] group.cells = .ok () ∧ t' = { t with groups := t.groups ++ [group] } := by
  simp only [addGroup, bind, Except.bind] at h
  cases hc : t.checkCells alphabet [] group.cells with
  | error e => simp [hc] at h
  | ok u =>
    simp only [hc, pure, Except.pure, Except.ok.injEq] at h
    exact ⟨rfl, h.symm⟩

theorem eq_of_addWildcard {o : Outcome} (h : addWildcard o t = .ok t') :
    t.wildcard = none ∧ t' = { t with wildcard := some o } := by
  unfold addWildcard at h
  split at h
  . cases h
  . next hwild =>
    simp only [Except.ok.injEq] at h
    simp only [hasWildcard, Option.isSome_iff_ne_none, not_not] at hwild
    exact ⟨hwild, h.symm⟩

theorem lookup_eq_none_iff {c : Cell} :
    t.lookup c = none ↔ t.listed? c = none ∧ t.wildcard = none := by
  rw [lookup]
  cases t.listed? c with
  | none => simp
  | some o => simp

theorem listed?_addExact {c : Cell} {o : Outcome} (h : addExact c o alphabet t = .ok t') (x : Cell) :
    t'.listed? x = if x = c then some o else t.listed? x := by
  obtain ⟨hcheck, rfl⟩ := eq_of_addExact h
  have hlisted := (lookup_of_checkCell hcheck).2.1
  unfold listed? at hlisted ⊢
  rw [List.find?_append]
  by_cases hx : x = c
  . cases hfind : t.exact.find? (·.1 = c) with
    | some rule => simp [hfind] at hlisted
    | none => simp [hx, hfind]
  . simp [hx, Ne.symm hx]

theorem listed?_addGroup {group : RuleGroup} (h : addGroup group alphabet t = .ok t') (x : Cell) :
    t'.listed? x = if x ∈ group.cells then some group.outcome else t.listed? x := by
  obtain ⟨hcheck, rfl⟩ := eq_of_addGroup h
  unfold listed?
  rw [List.find?_append]
  by_cases hx : x ∈ group.cells
  . have hlisted := (lookup_eq_none_iff.mp (listed_of_checkCells hcheck x hx).1).1
    unfold listed? at hlisted
    cases hfind : t.exact.find? (·.1 = x) with
    | some rule => simp [hfind] at hlisted
    | none =>
      cases hgroup : t.groups.find? (x ∈ ·.cells) with
      | some g => simp [hfind, hgroup] at hlisted
      | none => simp [hx]
  . simp [hx]

theorem addExact_eq_ok {c : Cell} {o : Outcome} (h : addExact c o alphabet t = .ok t') :
    t.lookup c = none ∧ alphabet.accepts c = true
      ∧ ∀ x, t'.lookup x = if x = c then some o else t.lookup x := by
  obtain ⟨hcheck, ht'⟩ := eq_of_addExact h
  obtain ⟨hwild, hlisted, haccepts⟩ := lookup_of_checkCell hcheck
  refine ⟨lookup_eq_none_iff.mpr ⟨hlisted, hwild⟩, haccepts, ?_⟩
  intro x
  have hwild' : t'.wildcard = t.wildcard := by rw [ht']
  rw [lookup, listed?_addExact h, hwild']
  split <;> rfl

theorem addGroup_eq_ok {group : RuleGroup} (h : addGroup group alphabet t = .ok t') :
    (∀ c ∈ group.cells, t.lookup c = none ∧ alphabet.accepts c = true)
      ∧ ∀ x, t'.lookup x = if x ∈ group.cells then some group.outcome else t.lookup x := by
  obtain ⟨hcheck, ht'⟩ := eq_of_addGroup h
  refine ⟨listed_of_checkCells hcheck, ?_⟩
  intro x
  have hwild' : t'.wildcard = t.wildcard := by rw [ht']
  rw [lookup, listed?_addGroup h, hwild']
  split <;> rfl

theorem addWildcard_eq_ok {o : Outcome} (h : addWildcard o t = .ok t') (x : Cell) :
    t'.lookup x = (t.lookup x).or (some o) := by
  obtain ⟨hwild, rfl⟩ := eq_of_addWildcard h
  have hlisted : listed? { t with wildcard := some o } x = t.listed? x := rfl
  rw [lookup, lookup, hlisted, hwild]
  cases t.listed? x <;> rfl

end RuleTable

def Pattern.Matches : Pattern → Cell → Prop
  | .cell c, x => x = c
  | .oneOf cells, x => x ∈ cells
  | .any, _ => True

theorem Pattern.cell_ne_any (c : Cell) : Pattern.cell c ≠ .any := by simp

theorem Pattern.oneOf_ne_any (cells : List Cell) : Pattern.oneOf cells ≠ .any := by simp

/--
What adding rules for a pattern to a state does: each symbol that had no rule gets one for which `R`
holds if it matches. A wildcard need not match more than the symbols there are.
-/
structure Draft.Adds (origin : String) (p : Pattern) (R : Cell → Outcome → Prop)
    (d d' : Draft) : Prop where
  rest : d' = { d with states := d'.states }
  other : ∀ s, s ≠ origin → d'.states.find? s = d.states.find? s
  kept : ∀ c o, d.states.lookup origin c = some o → d'.states.lookup origin c = some o
  new : ∀ c, p.Matches c → (p = .any → c ∈ d.alphabet.symbols) →
    d.states.lookup origin c = none → ∃ o, R c o ∧ d'.states.lookup origin c = some o
  missing : ∀ c, ¬ p.Matches c → d.states.lookup origin c = none →
    d'.states.lookup origin c = none
  free : p ≠ .any → ∀ c, p.Matches c → d.states.lookup origin c = none
  accepted : p ≠ .any → ∀ c, p.Matches c → d.alphabet.accepts c = true

namespace Draft.Adds

variable {origin : String} {R : Cell → Outcome → Prop} {d d' d'' : Draft}

theorem lookup_other {p : Pattern} (h : Adds origin p R d d') {s : String} (hs : s ≠ origin)
    (c : Cell) : d'.states.lookup s c = d.states.lookup s c := by
  rw [StateTables.lookup, h.other s hs, StateTables.lookup]

theorem lookup_of_not_matches {s : String} {p : Pattern} {R : Cell → Outcome → Prop}
    {d e : Draft} (h : d.Adds s p R e) {c : Cell} (hc : ¬ p.Matches c) :
    e.states.lookup s c = d.states.lookup s c := by
  cases ho : d.states.lookup s c with
  | none => exact h.missing c hc ho
  | some o => exact h.kept c o ho

theorem guard {p : Pattern} (h : Adds origin p R d d') : d'.guard = d.guard := by
  rw [h.rest]

theorem chains {p : Pattern} (h : Adds origin p R d d') : d'.chains = d.chains := by
  rw [h.rest]

theorem alphabet {p : Pattern} (h : Adds origin p R d d') : d'.alphabet = d.alphabet := by
  rw [h.rest]

theorem features {p : Pattern} (h : Adds origin p R d d') : d'.features = d.features := by
  rw [h.rest]

theorem below {p : Pattern} (h : Adds origin p R d d') : d.Below d' := by
  constructor
  . intro c hc
    rwa [h.alphabet]
  . intro s c o ho
    by_cases hs : s = origin
    . subst hs
      exact h.kept c o ho
    . rwa [h.lookup_other hs]

theorem of_addRule {p : Pattern} {add : Alphabet → RuleTable → Except RuleError RuleTable}
    (h : Build.addRule origin add d = .ok () d')
    (hadd : ∀ t t', add d.alphabet t = .ok t' →
      (∀ c o, t.lookup c = some o → t'.lookup c = some o)
      ∧ (∀ c, p.Matches c → t.lookup c = none → ∃ o, R c o ∧ t'.lookup c = some o)
      ∧ (∀ c, ¬ p.Matches c → t.lookup c = none → t'.lookup c = none)
      ∧ (p ≠ .any → ∀ c, p.Matches c → t.lookup c = none ∧ d.alphabet.accepts c = true)) :
    Adds origin p R d d' := by
  rw [Build.addRule_apply] at h
  cases ht : add d.alphabet (d.states.table origin) with
  | error e => simp [ht] at h
  | ok t =>
    simp only [ht, EStateM.Result.ok.injEq, true_and] at h
    obtain ⟨hkept, hnew, hnone, hfree⟩ := hadd _ _ ht
    have hcontains : (d.states.ensure origin).contains origin := by
      simp [StateTables.contains_ensure]
    have htable : ∀ c, d'.states.lookup origin c = t.lookup c := by
      intro c
      rw [← h, StateTables.lookup_eq, StateTables.table_set _ _ _ _ hcontains, if_pos rfl]
    refine ⟨?_, ?_, ?_, ?_, ?_, ?_, fun hp c hc => (hfree hp c hc).2⟩
    . rw [← h]
    . intro s hs
      rw [← h, StateTables.find?_set, if_neg hs, StateTables.find?_ensure, if_neg hs]
    all_goals simp only [htable, StateTables.lookup_eq d.states origin]
    . exact hkept
    . exact fun c hc _ => hnew c hc
    . exact hnone
    . exact fun hp c hc => (hfree hp c hc).1

theorem of_addExact {c : Cell} {o : Outcome} (hR : R c o)
    (h : Build.addRule origin (RuleTable.addExact c o) d = .ok () d') :
    Adds origin (.cell c) R d d' := by
  apply of_addRule h
  intro t t' ht
  obtain ⟨hnone, haccepts, hlookup⟩ := RuleTable.addExact_eq_ok ht
  refine ⟨?_, ?_, ?_, ?_⟩
  . intro x o' ho'
    have hx : x ≠ c := by
      rintro rfl
      rw [hnone] at ho'
      cases ho'
    rw [hlookup, if_neg hx, ho']
  . rintro x rfl _
    exact ⟨o, hR, by rw [hlookup, if_pos rfl]⟩
  . intro x hx hx'
    rw [hlookup]
    exact (if_neg hx).trans hx'
  . rintro _ x rfl
    exact ⟨hnone, haccepts⟩

theorem of_addGroup {cells : List Cell} {o : Outcome} {source : Option JointPattern}
    (hR : ∀ c ∈ cells, R c o)
    (h : Build.addRule origin (RuleTable.addGroup ⟨cells, o, source⟩) d = .ok () d') :
    Adds origin (.oneOf cells) R d d' := by
  apply of_addRule h
  intro t t' ht
  obtain ⟨hnone, hlookup⟩ := RuleTable.addGroup_eq_ok ht
  refine ⟨?_, ?_, ?_, ?_⟩
  . intro x o' ho'
    have hx : x ∉ cells := by
      intro hx
      rw [(hnone x hx).1] at ho'
      cases ho'
    rw [hlookup, if_neg hx, ho']
  . intro x hx _
    exact ⟨o, hR x hx, (hlookup x).trans (if_pos hx)⟩
  . intro x hx hx'
    rw [hlookup]
    exact (if_neg hx).trans hx'
  . intro _ x hx
    exact hnone x hx

theorem of_addWildcard {o : Outcome} (hR : ∀ c, R c o)
    (h : Build.addRule origin (fun _ => RuleTable.addWildcard o) d = .ok () d') :
    Adds origin .any R d d' := by
  apply of_addRule h
  intro t t' ht
  have hlookup := RuleTable.addWildcard_eq_ok ht
  refine ⟨?_, ?_, ?_, ?_⟩
  . intro x o' ho'
    rw [hlookup, ho', Option.some_or]
  . intro x _ hx
    exact ⟨o, hR x, by rw [hlookup, hx, Option.none_or]⟩
  . intro x hx
    exact absurd trivial hx
  . intro hp
    exact absurd rfl hp

theorem nil (d : Draft) : Adds origin (.oneOf []) R d d := by
  refine ⟨rfl, fun _ _ => rfl, fun _ _ h => h, ?_, fun _ _ h => h, ?_, ?_⟩
  . intro c hc
    cases hc
  . intro _ c hc
    cases hc
  . intro _ c hc
    cases hc

theorem of_addState (h : Build.addState origin d = .ok () d') :
    Adds origin (.oneOf []) R d d' := by
  rw [Build.addState_apply] at h
  replace h := (EStateM.Result.ok.inj h).2
  have hlookup : ∀ c, d'.states.lookup origin c = d.states.lookup origin c := by
    intro c
    rw [← h, StateTables.lookup_eq, StateTables.table_ensure, StateTables.lookup_eq]
  refine ⟨?_, ?_, ?_, ?_, ?_, ?_, ?_⟩
  . rw [← h]
  . intro s hs
    rw [← h, StateTables.find?_ensure, if_neg hs]
  . intro c o ho
    rw [hlookup, ho]
  . intro c hc
    cases hc
  . intro c _ hc
    rw [hlookup, hc]
  . intro _ c hc
    cases hc
  . intro _ c hc
    cases hc

theorem cons {c : Cell} {cells : List Cell} (h : Adds origin (.cell c) R d d')
    (h' : Adds origin (.oneOf cells) R d' d'') : Adds origin (.oneOf (c :: cells)) R d d'' := by
  refine ⟨?_, ?_, ?_, ?_, ?_, ?_, ?_⟩
  . rw [h'.rest, h.rest]
  . intro s hs
    rw [h'.other s hs, h.other s hs]
  . intro x o ho
    exact h'.kept x o (h.kept x o ho)
  . intro x hx _ hnone
    rcases List.mem_cons.mp hx with rfl | hx
    . obtain ⟨o, hR, ho⟩ := h.new x rfl nofun hnone
      exact ⟨o, hR, h'.kept x o ho⟩
    . exact h'.new x hx nofun (h'.free nofun x hx)
  . intro x hx hnone
    have hx' : ¬ (x = c ∨ x ∈ cells) := fun h => hx (List.mem_cons.mpr h)
    rw [not_or] at hx'
    exact h'.missing x hx'.2 (h.missing x hx'.1 hnone)
  . intro _ x hx
    rcases List.mem_cons.mp hx with rfl | hx
    . exact h.free nofun x rfl
    . have hnone := h'.free nofun x hx
      cases ho : d.states.lookup origin x with
      | none => rfl
      | some o =>
        rw [h.kept x o ho] at hnone
        cases hnone
  . intro _ x hx
    rcases List.mem_cons.mp hx with rfl | hx
    . exact h.accepted nofun x rfl
    . rw [← h.alphabet]
      exact h'.accepted nofun x hx

theorem of_addRules {cells : List Cell} {grouped : Bool} {shared : Outcome}
    {each : Cell → Outcome} {source : Option JointPattern} (hshared : ∀ c ∈ cells, R c shared)
    (heach : ∀ c ∈ cells, R c (each c))
    (h : Build.addRules origin cells grouped shared each source d = .ok () d') :
    Adds origin (.oneOf cells) R d d' := by
  unfold Build.addRules at h
  split at h
  . split at h
    . next hempty =>
      rw [List.isEmpty_iff.mp hempty]
      exact of_addState h
    . exact of_addGroup hshared h
  . induction cells generalizing d with
    | nil =>
      cases h
      exact nil _
    | cons c cells ih =>
      rw [List.forall_mem_cons] at hshared heach
      rw [Build.forM_cons_eq_ok] at h
      obtain ⟨e, hc, hcells⟩ := h
      exact cons (of_addExact heach.1 hc) (ih hshared.2 heach.2 hcells)

theorem any_of_uncovered (h : Adds origin (.oneOf (d.uncovered origin)) R d d') :
    Adds origin .any R d d' := by
  refine ⟨h.rest, h.other, h.kept, ?_, ?_, fun hp => absurd rfl hp, fun hp => absurd rfl hp⟩
  . intro c _ hc hnone
    apply h.new c _ nofun hnone
    exact mem_uncovered.mpr ⟨hc rfl, hnone⟩
  . intro c hc
    exact absurd trivial hc

end Draft.Adds

def Writing.Gives (w : Writing) (m : Move) (next : String) (c : Cell) (o : Outcome) : Prop :=
  o = .single (.write (w.onto c) m) next ∨ o = .single (w.action m) next

theorem Writing.Gives.view_apply {w : Writing} {m : Move} {next : String} {c : Cell} {o : Outcome}
    (h : w.Gives m next c o) :
    ∃ a, o = .single a next ∧
      ∀ t : Tape, t.focus = c → (a.apply t).view = (t.view.write (w.onto c)).move m := by
  rcases h with rfl | rfl
  . exact ⟨_, rfl, fun t _ => Action.view_write _ _ t⟩
  . refine ⟨_, rfl, fun t ht => ?_⟩
    cases w with
    | put c' => exact Action.view_write _ _ t
    | keep =>
      rw [action, Action.view_preserve, onto, ← ht, ← Tape.focus_view, View.write_focus]

namespace Build

variable {d d' : Draft} {origin next : String} {read : Pattern} {m : Move}

theorem directForCells_adds {cells : List Cell} {w : Writing}
    (h : directForCells origin cells w m next d = .ok () d') :
    d.Adds origin (.oneOf cells) (w.Gives m next) d' := by
  apply Draft.Adds.of_addRules _ _ h
  . exact fun _ _ => .inr rfl
  . exact fun _ _ => .inl rfl

theorem direct_adds {w : Writing} (h : direct origin read w m next d = .ok () d') :
    d.Adds origin read (w.Gives m next) d' := by
  unfold direct at h
  cases read with
  | cell c => exact Draft.Adds.of_addExact (.inl rfl) h
  | oneOf cells => exact directForCells_adds h
  | any =>
    rw [bind_eq_ok] at h
    obtain ⟨b, e, hb, h⟩ := h
    cases hb
    split at h
    . exact Draft.Adds.of_addWildcard (fun _ => .inr rfl) h
    . exact Draft.Adds.any_of_uncovered (directForCells_adds h)

theorem addAction_adds {a : Action} (h : addAction origin read a next d = .ok () d') :
    d.Adds origin read (fun _ o => o = .single a next) d' := by
  unfold addAction at h
  rw [bind_eq_ok] at h
  obtain ⟨grouped, e, hgrouped, h⟩ := h
  cases hgrouped
  cases read with
  | cell c => exact Draft.Adds.of_addExact rfl h
  | oneOf cells => exact Draft.Adds.of_addRules (fun _ _ => rfl) (fun _ _ => rfl) h
  | any =>
    rw [bind_eq_ok] at h
    obtain ⟨b, e, hb, h⟩ := h
    cases hb
    split at h
    . exact Draft.Adds.of_addWildcard (fun _ => rfl) h
    . exact Draft.Adds.any_of_uncovered
        (Draft.Adds.of_addRules (fun _ _ => rfl) (fun _ _ => rfl) h)

end Build

end TuringLowering
