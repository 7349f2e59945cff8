import TuringLowering.Proofs.Continuations

/-!
This module contains what becomes of a request that is made again after it was refused. What was added before
it was refused stays, and so do the states that were generated for it, even if their rules were not finished.
It is refused again if its own state has no room for its rules; but a gadget that is spelled out by states
of its own is then taken to be there.
-/

namespace TuringLowering

/-- The error is about the rules of a state. -/
def RequestError.Blames (err : RequestError) (s : String) : Prop := ∃ cause, err = .rule s cause

/-- A gadget that is spelled out by states of its own, which are made once for all. -/
def Directive.madeOnce (F : FeatureSet) : Directive → Bool
  | .gadget _ _ (.markFirst _) _ => !F.enabled .gadgetFirstCellMarker
  | .gadget _ _ (.insertAfter _ _) _ => !F.enabled .gadgetInsertAfterMarker
  | _ => false

def Draft.Blocks (d : Draft) (s : String) (c : Cell) : Prop :=
  d.states.lookup s c ≠ none ∨ d.alphabet.accepts c = false

namespace Build

variable {α : Type} {d d' : Draft} {err : RequestError} {s : String}

theorem succeeds_of_error {x : Build α} (h : x d = .error err d') : x.succeeds d = false := by
  rw [succeeds, h]

theorem exists_error {x : Build α} (h : x.succeeds d = false) : ∃ err, x d = .error err (x.after d) := by
  unfold succeeds at h
  unfold after
  cases hx : x d with
  | ok a d' => simp [hx] at h
  | error err d' => exact ⟨err, rfl⟩

theorem bind_eq_error {β : Type} {x : Build α} {f : α → Build β} (h : (x >>= f) d = .error err d') :
    x d = .error err d' ∨ ∃ a d₁, x d = .ok a d₁ ∧ f a d₁ = .error err d' := by
  cases hx : x d with
  | error err' d₁ =>
    rw [bind_of_error hx] at h
    cases h
    exact .inl rfl
  | ok a d₁ =>
    rw [bind_of_ok hx] at h
    exact .inr ⟨a, d₁, rfl, h⟩

theorem forM_eq_error {items : List α} {f : α → Build Unit} (h : items.forM f d = .error err d') :
    ∃ done a rest d₁, items = done ++ a :: rest ∧ done.forM f d = .ok () d₁ ∧ f a d₁ = .error err d' := by
  induction items generalizing d with
  | nil => cases h
  | cons a items ih =>
    rw [List.forM_eq_forM, List.forM_cons] at h
    rcases bind_eq_error h with ha | ⟨_, d₁, ha, hrest⟩
    . exact ⟨[], a, items, d, rfl, rfl, ha⟩
    . obtain ⟨done, b, rest, d₂, rfl, hdone, hb⟩ := ih hrest
      exact ⟨a :: done, b, rest, d₂, rfl, forM_cons_eq_ok.mpr ⟨d₁, ha, hdone⟩, hb⟩

theorem forM_fails {I : Draft → Prop} {items : List α} {f : α → Build Unit} {a : α} (ha : a ∈ items)
    (hmaintains : ∀ x ∈ items, Maintains I (f x)) (hfails : ∀ d, I d → (f a).succeeds d = false)
    (hd : I d) : (items.forM f).succeeds d = false := by
  obtain ⟨done, rest, rfl⟩ := List.append_of_mem ha
  cases h : (done ++ a :: rest).forM f d with
  | error err d' => exact succeeds_of_error h
  | ok _ d' =>
    have hsteps : done.forM f d = .ok () ((done.forM f).after d)
        ∧ ∃ d₂, f a ((done.forM f).after d) = .ok () d₂ := by
      rw [List.forM_eq_forM, List.forM_append, bind_eq_ok] at h
      obtain ⟨_, d₁, hdone, hrest⟩ := h
      obtain ⟨d₂, ha, _⟩ := forM_cons_eq_ok.mp hrest
      rw [after, List.forM_eq_forM, hdone]
      exact ⟨rfl, d₂, ha⟩
    obtain ⟨_, d₂, ha⟩ := hsteps
    have hI := Maintains.forM (fun x hx => hmaintains x (List.mem_append_left _ hx)) d hd
    have hfalse := hfails _ hI
    rw [succeeds, ha] at hfalse
    cases hfalse

section

variable {add add' : Alphabet → RuleTable → Except RuleError RuleTable}

theorem addRule_blames (h : addRule s add d = .error err d') : err.Blames s := by
  rw [addRule_apply] at h
  cases ht : add d.alphabet (d.states.table s) with
  | ok t => simp [ht] at h
  | error cause =>
    simp only [ht, EStateM.Result.error.injEq] at h
    exact ⟨cause, h.1.symm⟩

theorem addRule_again (hadd : ∀ a t cause, add a t = .error cause → add' a t = .error cause)
    (h : addRule s add d = .error err d') : (addRule s add').succeeds d' = false := by
  obtain rfl := eq_of_addRule_error h
  rw [addRule_apply] at h
  cases ht : add d.alphabet (d.states.table s) with
  | ok t => simp [ht] at h
  | error cause =>
    have htable : (d.states.ensure s).table s = d.states.table s := StateTables.table_ensure _ _ _
    rw [succeeds, addRule_apply]
    simp only [htable, hadd _ _ _ ht]

end

theorem addExact_blocks {c : Cell} {o : Outcome}
    (h : addRule s (RuleTable.addExact c o) d = .error err d') : d'.Blocks s c := by
  obtain rfl := eq_of_addRule_error h
  rw [Draft.Blocks, StateTables.lookup_ensure]
  by_contra hblocks
  simp only [not_or, ne_eq, not_not, Bool.not_eq_false] at hblocks
  obtain ⟨d₁, hok⟩ := exists_addRule_exact hblocks.1 hblocks.2 o
  cases h.symm.trans hok

section

variable {cells : List Cell} {grouped : Bool} {shared shared' : Outcome} {each each' : Cell → Outcome}
  {source : Option JointPattern}

theorem addRules_blames (h : addRules s cells grouped shared each source d = .error err d') :
    err.Blames s := by
  unfold addRules at h
  cases grouped with
  | true =>
    rw [if_pos rfl] at h
    split at h
    . cases h
    . exact addRule_blames h
  | false =>
    obtain ⟨_, _, _, _, _, _, hcell⟩ := forM_eq_error h
    exact addRule_blames hcell

theorem addRules_fails {c : Cell} (hc : c ∈ cells) (hblocks : d.Blocks s c) :
    (addRules s cells grouped shared each source).succeeds d = false := by
  cases h : addRules s cells grouped shared each source d with
  | error err d' => exact succeeds_of_error h
  | ok _ d' =>
    have hadds := Draft.Adds.of_addRules (R := fun _ _ => True) (fun _ _ => trivial) (fun _ _ => trivial) h
    rcases hblocks with hsome | hforeign
    . exact absurd (hadds.free nofun c hc) hsome
    . rw [hadds.accepted nofun c hc] at hforeign
      cases hforeign

theorem addRules_again (h : addRules s cells grouped shared each source d = .error err d') :
    (addRules s cells grouped shared' each' source).succeeds d' = false := by
  cases grouped with
  | true =>
    unfold addRules at h ⊢
    rw [if_pos rfl] at h ⊢
    split at h
    . cases h
    . next hne =>
      rw [if_neg hne]
      apply addRule_again _ h
      intro a t cause hadd
      unfold RuleTable.addGroup at hadd ⊢
      cases hcheck : t.checkCells a [] cells with
      | error cause' => simpa [hcheck] using hadd
      | ok _ => simp [hcheck, Bind.bind, Except.bind, Pure.pure, Except.pure] at hadd
  | false =>
    obtain ⟨done, c, rest, d₁, rfl, _, hcell⟩ := forM_eq_error h
    exact addRules_fails (List.mem_append_right _ List.mem_cons_self) (addExact_blocks hcell)

theorem addRule_barred {add : Alphabet → RuleTable → Except RuleError RuleTable} {p : Pattern} (hp : p ≠ .any)
    (hadds : ∀ d d', addRule s add d = .ok () d' → d.Adds s p (fun _ _ => True) d') (c : Cell) :
    Maintains (fun d => d.states.lookup s c = none ∧ d.alphabet.accepts c = false) (addRule s add) := by
  rintro d ⟨hnone, hforeign⟩
  cases h : addRule s add d with
  | error err d' =>
    rw [after, h]
    obtain rfl := eq_of_addRule_error h
    exact ⟨(StateTables.lookup_ensure d.states s s c).trans hnone, hforeign⟩
  | ok _ d' =>
    rw [after, h]
    have hadds := hadds d d' h
    rw [hadds.alphabet]
    refine ⟨hadds.missing c ?_ hnone, hforeign⟩
    intro hmatch
    rw [hadds.accepted hp c hmatch] at hforeign
    cases hforeign

theorem addRules_barred (c : Cell) :
    Maintains (fun d => d.states.lookup s c = none ∧ d.alphabet.accepts c = false)
      (addRules s cells grouped shared each source) := by
  unfold addRules
  cases grouped with
  | true =>
    rw [if_pos rfl]
    split
    . rintro d ⟨hnone, hforeign⟩
      exact ⟨(StateTables.lookup_ensure d.states s s c).trans hnone, hforeign⟩
    . exact addRule_barred (Pattern.oneOf_ne_any cells) (fun _ _ => .of_addGroup fun _ _ => trivial) c
  | false =>
    rw [if_neg nofun]
    apply Maintains.forM
    intro x _
    exact addRule_barred (Pattern.cell_ne_any x) (fun _ _ => .of_addExact trivial) c

end

/-- Rules for all that is read, with one outcome for all symbols or one for each of them. -/
def assign (s : String) (read : Pattern) (grouped : Bool) (shared : Outcome) (each : Cell → Outcome) :
    Build Unit :=
  match read with
  | .cell c => addRule s (RuleTable.addExact c (each c))
  | .oneOf cells => addRules s cells grouped shared each none
  | .any => do
    if ← enabled .wildcard then
      addRule s fun _ => RuleTable.addWildcard shared
    else
      addRules s ((← get).uncovered s) grouped shared each none

theorem assign_any (s : String) (grouped : Bool) (shared : Outcome) (each : Cell → Outcome) (d : Draft) :
    assign s .any grouped shared each d =
      if d.features.enabled .wildcard then addRule s (fun _ => RuleTable.addWildcard shared) d
      else addRules s (d.uncovered s) grouped shared each none d := by
  unfold assign
  dsimp only
  rw [bind_of_ok (enabled_apply .wildcard d)]
  split <;> rfl

theorem direct_eq_assign (s : String) (read : Pattern) (w : Writing) (m : Move) (next : String) (d : Draft) :
    direct s read w m next d = assign s read (d.features.groups (w == .keep)) (.single (w.action m) next)
      (fun c => .single (.write (w.onto c) m) next) d := by
  cases read with
  | cell c => rfl
  | oneOf cells => rfl
  | any =>
    rw [assign_any, direct, bind_of_ok (enabled_apply .wildcard d)]
    split <;> rfl

theorem addAction_eq_assign (s : String) (read : Pattern) (a : Action) (next : String) (d : Draft) :
    addAction s read a next d = assign s read (d.features.enabled .multiMatch) (.single a next)
      (fun _ => .single a next) d := by
  unfold addAction
  rw [bind_of_ok (enabled_apply .multiMatch d)]
  cases read <;> rfl

section

variable {read : Pattern} {grouped : Bool} {shared shared' : Outcome} {each each' : Cell → Outcome}

theorem assign_maintains {I : Draft → Prop} (hI : ∀ d states, I d → I { d with states := states }) :
    Maintains I (assign s read grouped shared each) := by
  cases read with
  | cell c => exact addRule_maintains hI s _
  | oneOf cells => exact addRules_maintains hI s cells grouped shared each none
  | any =>
    apply Maintains.enabled_bind
    intro d _
    split
    . exact addRule_maintains hI s _
    . exact Maintains.get_bind fun e _ => addRules_maintains hI s _ grouped shared each none

theorem assign_rest (h : assign s read grouped shared each d = .error err d') :
    d' = { d with states := d'.states } := by
  have hmaintains : Maintains (fun e => e = { d with states := e.states })
      (assign s read grouped shared each) := by
    apply assign_maintains
    intro e states he
    rw [he]
  exact hmaintains.of_error rfl h

theorem assign_blames (h : assign s read grouped shared each d = .error err d') : err.Blames s := by
  cases read with
  | cell c => exact addRule_blames h
  | oneOf cells => exact addRules_blames h
  | any =>
    rw [assign_any] at h
    split at h
    . exact addRule_blames h
    . exact addRules_blames h

theorem assign_again (hnodup : d.alphabet.symbols.Nodup)
    (h : assign s read grouped shared each d = .error err d') :
    (assign s read grouped shared' each').succeeds d' = false := by
  cases read with
  | cell c =>
    apply addRule_again _ h
    intro a t cause hadd
    unfold RuleTable.addExact at hadd ⊢
    cases hcheck : t.checkCell a c with
    | error cause' => simpa [hcheck] using hadd
    | ok _ => simp [hcheck, Bind.bind, Except.bind, Pure.pure, Except.pure] at hadd
  | oneOf cells => exact addRules_again h
  | any =>
    have hrest := assign_rest h
    rw [assign_any] at h
    rw [succeeds, assign_any, congrArg Draft.features hrest]
    split at h
    . next hwildcard =>
      rw [if_pos hwildcard]
      apply addRule_again _ h
      intro a t cause hadd
      unfold RuleTable.addWildcard at hadd ⊢
      split at hadd
      . next hhas => rwa [if_pos hhas]
      . cases hadd
    . next hwildcard =>
      rw [if_neg hwildcard]
      -- One of the symbols is not accepted, and it has no rule afterwards either.
      obtain ⟨c, hc, hforeign⟩ : ∃ c ∈ d.uncovered s, d.alphabet.accepts c = false := by
        by_contra hall
        push Not at hall
        obtain ⟨d₁, hok⟩ := exists_addRules (Draft.nodup_uncovered hnodup) (fun c hc =>
          ⟨(Draft.mem_uncovered.mp hc).2, Bool.not_eq_false _ ▸ hall c hc⟩) grouped shared each none
        cases h.symm.trans hok
      rw [Draft.mem_uncovered] at hc
      have hbarred := @addRules_barred s (d.uncovered s) grouped shared each none c d ⟨hc.2, hforeign⟩
      rw [after, h] at hbarred
      apply addRules_fails (c := c) _ (.inr hbarred.2)
      rw [Draft.mem_uncovered, congrArg Draft.alphabet hrest]
      exact ⟨hc.1, hbarred.1⟩

end

section

variable {read : Pattern} {w : Writing} {m : Move} {next : String}

theorem direct_blames (h : direct s read w m next d = .error err d') : err.Blames s := by
  rw [direct_eq_assign] at h
  exact assign_blames h

theorem direct_again (hnodup : d.alphabet.symbols.Nodup) (h : direct s read w m next d = .error err d')
    (m' : Move) (next' : String) : (direct s read w m' next').succeeds d' = false := by
  rw [direct_eq_assign] at h
  rw [succeeds, direct_eq_assign, congrArg Draft.features (assign_rest h)]
  exact assign_again hnodup h

theorem addAction_blames {a : Action} (h : addAction s read a next d = .error err d') : err.Blames s := by
  rw [addAction_eq_assign] at h
  exact assign_blames h

theorem addAction_again {a : Action} (hnodup : d.alphabet.symbols.Nodup)
    (h : addAction s read a next d = .error err d') : (addAction s read a next).succeeds d' = false := by
  rw [addAction_eq_assign] at h
  rw [succeeds, addAction_eq_assign, congrArg Draft.features (assign_rest h)]
  exact assign_again hnodup h

end

section

variable {n : Nat} {r : Relay}

theorem provide_of_mem (h : r.key ∈ d.keys) : ∃ name, r.provide n d = .ok name d := by
  rcases chain_ok r.key d with ⟨name, hchain, _⟩ | ⟨_, hfresh⟩
  . exact ⟨name, by rw [Relay.provide, bind_of_ok hchain]; rfl⟩
  . obtain ⟨e, he, heq⟩ := List.mem_map.mp h
    exact absurd heq (hfresh e he)

theorem provide_of_not_mem (h : r.key ∉ d.keys) :
    r.provide n d = (transition.go n (r.name d.guard) .any r.writing r.move r.next >>=
      fun _ => pure (r.name d.guard)) (d.withChain r.key) := by
  rcases chain_ok r.key d with ⟨name, _, hmem⟩ | ⟨hchain, _⟩
  . exact absurd (List.mem_map.mpr ⟨_, hmem, rfl⟩) h
  . rw [Relay.provide, bind_of_ok hchain]
    rfl

theorem provide_amends {S : String → Prop} {d₀ : Draft} (hS : ∀ s, d₀.guard.Generates s → S s) :
    Maintains (d₀.Amends S) (r.provide n) := by
  have hwrap (part : String) (parts : List String) : S (d₀.guard.wrap (part :: parts)) :=
    hS _ ⟨_, _, .inl rfl⟩
  apply chain_bind_maintains (fun _ hd => hd.guard) (chain_amends _ _)
  . exact fun _ => Maintains.pure _
  . refine .bind (transition_go_amends n ?_ (fun _ => hwrap _ _) _ _ _) fun _ => Maintains.pure _
    exact hS _ (r.generates d₀.guard)

theorem provide_other (n : Nat) (r : Relay) (hs : d.guard.Free s) (c : Cell) :
    ((r.provide n).after d).guard = d.guard
      ∧ ((r.provide n).after d).states.lookup s c = d.states.lookup s c := by
  have hamends : d.Amends d.guard.Generates ((r.provide n).after d) :=
    provide_amends (fun _ => id) d (.refl d)
  refine ⟨hamends.guard, ?_⟩
  rw [StateTables.lookup, hamends.other s fun hgenerates => hgenerates.not_free hs, ← StateTables.lookup]

theorem mem_keys_of_provide {name : String} (h : r.provide n d = .ok name d') : r.key ∈ d'.keys := by
  by_cases hmem : r.key ∈ d.keys
  . obtain ⟨_, hok⟩ := provide_of_mem (n := n) hmem
    rw [hok] at h
    cases h
    exact hmem
  . rw [provide_of_not_mem hmem] at h
    obtain ⟨_, d₁, hgo, hpure⟩ := bind_eq_ok.mp h
    cases hpure
    have hamends := (transition_go_amends (S := fun _ => True) n trivial (fun _ => trivial) .any r.writing
      r.move).of_ok (.refl _) hgo
    apply List.mem_map.mpr
    exact ⟨_, hamends.chains _ (Draft.mem_withChain.mpr (.inr rfl)), rfl⟩

theorem provide_eq_error (h : r.provide n d = .error err d') :
    transition.go n (r.name d.guard) .any r.writing r.move r.next (d.withChain r.key) = .error err d' := by
  by_cases hmem : r.key ∈ d.keys
  . obtain ⟨_, hok⟩ := provide_of_mem (n := n) hmem
    cases h.symm.trans hok
  . rw [provide_of_not_mem hmem] at h
    rcases bind_eq_error h with hgo | ⟨_, _, _, hpure⟩
    . exact hgo
    . cases hpure

end

section

variable {read : Pattern} {w : Writing} {m : Move} {next : String}

theorem transition_go_blames (n : Nat) (h : transition.go n s read w m next d = .error err d') :
    err.Blames s ∨ ∃ t, d.guard.Generates t ∧ err.Blames t := by
  induction n generalizing s read w m d with
  | zero => exact .inl (direct_blames h)
  | succ n ih =>
    rw [transition_go_succ] at h
    split at h
    . exact .inl (direct_blames h)
    . rcases bind_eq_error h with hprovide | ⟨_, _, _, hdirect⟩
      . right
        rcases ih (provide_eq_error hprovide) with hblames | ⟨t, ht, hblames⟩
        . exact ⟨_, Relay.generates _ _, hblames⟩
        . exact ⟨t, ht, hblames⟩
      . exact .inl (direct_blames hdirect)

theorem not_blames_generated {t : String} {g : Guard} (hs : g.Free s) (ht : g.Generates t)
    (hblames : err.Blames s) : ¬ err.Blames t := by
  rintro ⟨cause, rfl⟩
  obtain ⟨_, heq⟩ := hblames
  cases heq
  exact ht.not_free hs

theorem provide_not_blames {n : Nat} {r : Relay} (hs : d.guard.Free s) (hblames : err.Blames s) :
    r.provide n d ≠ .error err d' := by
  intro h
  rcases transition_go_blames n (provide_eq_error h) with hname | ⟨t, ht, hgenerated⟩
  . exact not_blames_generated hs (Relay.generates _ _) hblames hname
  . exact not_blames_generated hs ht hblames hgenerated

theorem rest_of_error {x : Directive} (h : directive x d = .error err d') :
    d' = { d with states := d'.states, chains := d'.chains } := by
  have hrest := directive_rest x d
  rw [after, h] at hrest
  exact hrest

theorem transition_again (hnodup : d.alphabet.symbols.Nodup) (hs : d.guard.Free s)
    (h : transition s read w m next d = .error err d') (hblames : err.Blames s) :
    (transition s read w m next).succeeds d' = false := by
  have hrest := rest_of_error (x := .transition s read w m next) h
  by_cases hsupports : d.features.supports m = true
  . rw [transition_of_supports hsupports] at h
    rw [succeeds, transition_of_supports (by rw [hrest]; exact hsupports)]
    exact direct_again hnodup h m next
  . obtain ⟨n, hn⟩ : ∃ n, max 1 m.distance = n + 1 := ⟨max 1 m.distance - 1, by omega⟩
    unfold transition at h ⊢
    rw [hn, transition_go_succ, if_neg hsupports] at h
    rcases bind_eq_error h with hprovide | ⟨name, d₁, hprovide, hdirect⟩
    . exact absurd hprovide (provide_not_blames hs hblames)
    . have hadds : d' = { d₁ with states := d'.states } := by
        rw [direct_eq_assign] at hdirect
        exact assign_rest hdirect
      have halphabet : d₁.alphabet = d.alphabet :=
        (congrArg (·.alphabet) hadds).symm.trans (congrArg (·.alphabet) hrest)
      have hkeys : d'.keys = d₁.keys := congrArg (·.keys) hadds
      have hmem : (Relay.continuation m.detour.2 next).key ∈ d'.keys :=
        hkeys ▸ mem_keys_of_provide hprovide
      obtain ⟨name', hagain⟩ := provide_of_mem (n := n) hmem
      rw [succeeds, hn, transition_go_succ, if_neg (by rw [hrest]; exact hsupports), bind_of_ok hagain]
      exact direct_again (halphabet ▸ hnodup) hdirect _ _

end

section

variable {read : Pattern} {m : Move} {next : String} {c : Cell}

theorem carry_rest (x : Cell) :
    Maintains (fun e => e = { d with states := e.states, chains := e.chains }) (carry s m next x) := by
  have h := rest_preserves d
  rw [carry, Relay.provide_bind]
  apply chain_bind_maintains h.guard (h.chain (.paste x m next) (by simp))
  . exact fun _ => h.transition s trivial _ _ _ _
  . exact .bind (h.transition _ trivial _ _ _ _) fun _ => h.transition s trivial _ _ _ _

theorem carry_fails (h : d.Blocks s c) : (carry s m next c).succeeds d = false := by
  cases hcarry : carry s m next c d with
  | error err d' => exact succeeds_of_error hcarry
  | ok _ d' =>
    have hrest := (carry_rest c).of_ok rfl hcarry
    rw [carry, bind_eq_ok] at hcarry
    obtain ⟨paste, d₁, hprovide, hdirect⟩ := hcarry
    rw [transition_of_distance rfl] at hdirect
    have hadds := direct_adds hdirect
    have hamends := (provide_amends (S := fun _ => True) fun _ _ => trivial).of_ok (.refl d) hprovide
    rcases h with hsome | hforeign
    . obtain ⟨o, ho⟩ := Option.ne_none_iff_exists'.mp hsome
      have hfree := hadds.free (by simp) c rfl
      rw [hamends.lookup _ _ _ ho] at hfree
      cases hfree
    . have haccepted := hadds.accepted (by simp) c rfl
      rw [← hadds.alphabet, congrArg (·.alphabet) hrest, hforeign] at haccepted
      cases haccepted

theorem carry_blocks (x : Cell) : Maintains (·.Blocks s c) (carry s m next x) := by
  rintro d (hsome | hforeign)
  . left
    obtain ⟨o, ho⟩ := Option.ne_none_iff_exists'.mp hsome
    rw [(carry_amends x d (.refl d)).lookup _ _ _ ho]
    nofun
  . right
    rw [carry_rest x d rfl]
    exact hforeign

theorem shiftChain_fails (hc : c ∈ read.cells (d.uncovered s)) (h : d.Blocks s c) :
    (shiftChain s read m next).succeeds d = false := by
  rw [succeeds, shiftChain_apply]
  exact forM_fails hc (fun x _ => carry_blocks x) (fun _ => carry_fails) h

theorem carry_error (hs : d.guard.Free s) (h : carry s m next c d = .error err d') (hblames : err.Blames s) :
    d'.Blocks s c ∧ d'.states.lookup s c = d.states.lookup s c := by
  rcases bind_eq_error h with hprovide | ⟨paste, d₁, hprovide, hdirect⟩
  . exact absurd hprovide (provide_not_blames hs hblames)
  . rw [transition_of_distance rfl] at hdirect
    refine ⟨addExact_blocks hdirect, ?_⟩
    have hother := provide_other (max 1 m.distance) (.paste c m next) hs c
    rw [after, hprovide] at hother
    rw [eq_of_addRule_error hdirect, StateTables.lookup_ensure, hother.2]

theorem carry_other {x : Cell} (hx : c ≠ x) :
    Maintains (fun e => e.guard.Free s ∧ e.states.lookup s c = none) (carry s m next x) := by
  apply Maintains.bind
  . rintro d ⟨hs, hnone⟩
    obtain ⟨hguard, hlookup⟩ := provide_other (max 1 m.distance) (.paste x m next) hs c
    rw [hguard, hlookup]
    exact ⟨hs, hnone⟩
  . rintro paste d ⟨hs, hnone⟩
    rw [after, transition_of_distance rfl]
    rcases direct_cell_cases s x (.put .blank) .right paste d with
      ⟨e, hok, hadds⟩ | ⟨⟨err, e, herror, hadds⟩, _⟩
    . rw [hok]
      exact ⟨hadds.guard ▸ hs, hadds.missing c hx hnone⟩
    . rw [herror]
      exact ⟨hadds.guard ▸ hs, hadds.missing c List.not_mem_nil hnone⟩

theorem shiftChain_again (hnodup : d.alphabet.symbols.Nodup) (hs : d.guard.Free s)
    (h : shiftChain s read m next d = .error err d') (hblames : err.Blames s) :
    (shiftChain s read m next).succeeds d' = false := by
  rw [shiftChain_apply] at h
  obtain ⟨done, c, rest, d₁, hcells, hdone, hcarry⟩ := forM_eq_error h
  have hmem : c ∈ read.cells (d.uncovered s) := hcells ▸ List.mem_append_right _ List.mem_cons_self
  have hrest (cells : List Cell) : Maintains (fun e => e = { d with states := e.states, chains := e.chains })
      (cells.forM (carry s m next)) := Maintains.forM fun x _ => carry_rest x
  have hguard : d₁.guard = d.guard := congrArg (·.guard) ((hrest done).of_ok rfl hdone)
  obtain ⟨hblocks, hlookup⟩ := carry_error (hguard ▸ hs) hcarry hblames
  apply shiftChain_fails (c := c) _ hblocks
  cases read with
  | cell x => exact hmem
  | oneOf cells => exact hmem
  | any =>
    change c ∈ d.uncovered s at hmem
    change c ∈ d'.uncovered s
    have halphabet : d'.alphabet = d.alphabet := congrArg (·.alphabet) ((hrest _).of_error rfl h)
    have hnew : c ∉ done := by
      have hnodup' : (done ++ c :: rest).Nodup := hcells ▸ Draft.nodup_uncovered hnodup
      exact fun hc => (List.nodup_append.mp hnodup').2.2 c hc c List.mem_cons_self rfl
    rw [Draft.mem_uncovered] at hmem ⊢
    rw [halphabet, hlookup]
    refine ⟨hmem.1, ?_⟩
    have hother : Maintains (fun e => e.guard.Free s ∧ e.states.lookup s c = none)
        (done.forM (carry s m next)) := by
      apply Maintains.forM
      intro x hx
      exact carry_other fun heq => hnew (heq ▸ hx)
    exact (hother.of_ok ⟨hs, hmem.2⟩ hdone).2

theorem shiftChain_blames {b : Draft} {C : Cell → Prop} (hb : b.Grounds C)
    (horigin : ∀ r : Relay, r.Within C → s ≠ r.name b.guard) (hd : d.Stocked b C fun _ => False)
    (hread : ∀ c ∈ read.cells (d.uncovered s), C c) (h : shiftChain s read m next d = .error err d') :
    err.Blames s := by
  rw [shiftChain_apply] at h
  obtain ⟨done, c, rest, d₁, hcells, hdone, hcarry⟩ := forM_eq_error h
  have hd₁ : d₁.Stocked b C fun _ => False := by
    refine forM_induction (I := fun _ e => e.Stocked b C fun _ => False) ?_ hd hdone
    intro done' x rest' e e' hsplit he hx
    refine (carry_eq_ok hb horigin he (hread x ?_) hx).1
    rw [hcells, hsplit]
    simp
  obtain ⟨e, hprovide, _⟩ := hd₁.exists_provide hb (s := .paste c m next)
    (hread c (hcells ▸ List.mem_append_right _ List.mem_cons_self)) (Relay.weight_le m)
  rw [carry, bind_of_ok hprovide, transition_of_distance rfl] at hcarry
  exact direct_blames hcarry

end

section

theorem keys_preserves (g : Guard) (k : ChainKey) :
    Preserves (fun e => e.guard = g ∧ k ∈ e.keys) g fun _ => True := by
  have hamends {β : Type} {x : Build β} (hx : ∀ d : Draft, Maintains (d.Amends fun _ => True) x) :
      Maintains (fun e => e.guard = g ∧ k ∈ e.keys) x := by
    rintro d ⟨rfl, hk⟩
    have h := hx d d (.refl d)
    obtain ⟨e, he, rfl⟩ := List.mem_map.mp hk
    exact ⟨h.guard, List.mem_map.mpr ⟨e, h.chains e he, rfl⟩⟩
  exact
    { guard := fun _ h => h.1
      transition := fun s _ read w m next =>
        hamends fun _ => transition_amends trivial (fun _ => trivial) read w m
      action := fun s _ read a next => hamends fun _ => addAction_amends trivial read a next
      chain := fun k _ => hamends fun _ => chain_amends k k.nameParts
      paste := fun _ _ => trivial }

/-- A chain that is made once is taken to be there, whatever became of it. -/
theorem chain_once {k : ChainKey} {f : String × Bool → Build Unit}
    (hold : ∀ name d, f (name, false) d = .ok () d)
    (hnew : ∀ name, Maintains (fun e => e.guard = d.guard ∧ k ∈ e.keys) (f (name, true)))
    (h : (chain k k.nameParts >>= f) d = .error err d') :
    (chain k k.nameParts >>= f) d' = .ok () d' := by
  have hmem : k ∈ d'.keys := by
    rcases chain_ok k d with ⟨name, hchain, _⟩ | ⟨hchain, _⟩
    . rw [bind_of_ok hchain, hold] at h
      cases h
    . rw [bind_of_ok hchain] at h
      refine ((hnew _).of_error (d := d.withChain k) ⟨rfl, ?_⟩ h).2
      rw [Draft.keys_withChain]
      exact List.mem_append_right _ (List.mem_singleton_self k)
  rcases chain_ok k d' with ⟨name, hchain, _⟩ | ⟨_, hfresh⟩
  . rw [bind_of_ok hchain, hold]
  . obtain ⟨e, he, heq⟩ := List.mem_map.mp hmem
    exact absurd heq (hfresh e he)

theorem markFirstChain_once {read : Pattern} {marker : Cell} {next : String}
    (h : markFirstChain s read marker next d = .error err d') :
    markFirstChain s read marker next d' = .ok () d' := by
  have hkeys := keys_preserves d.guard (.markFirst s read marker next)
  refine chain_once (k := .markFirst s read marker next) (fun _ _ => rfl) ?_ h
  intro base
  refine .bind (hkeys.transition s trivial _ _ _ _) fun _ => ?_
  refine .bind (hkeys.seekEnd trivial _) fun _ => ?_
  exact .bind (hkeys.transition _ trivial _ _ _ _) fun _ => hkeys.shift trivial _ _ _

theorem insertAfterChain_once {read : Pattern} {marker insert : Cell} {next : String}
    (h : insertAfterChain s read marker insert next d = .error err d') :
    insertAfterChain s read marker insert next d' = .ok () d' := by
  have hkeys := keys_preserves d.guard (.insertAfter s read marker insert next)
  refine chain_once (k := .insertAfter s read marker insert next) (fun _ _ => rfl) ?_ h
  intro base
  refine .bind (hkeys.transition s trivial _ _ _ _) fun _ => ?_
  refine .bind (hkeys.seekEnd trivial _) fun _ => ?_
  refine .bind (hkeys.transition _ trivial _ _ _ _) fun _ => ?_
  exact .bind (hkeys.shift trivial _ _ _) fun _ => hkeys.transition _ trivial _ _ _ _

end

section

variable {origin next : String} {read : Pattern} {x : Gadget}

theorem gadget_of_enabled (h : d.features.enabled x.kind.feature = true) :
    gadget origin read x next d = addAction origin read x.action next d := by
  unfold gadget
  rw [bind_of_ok (enabled_apply _ d), if_pos h]

theorem gadget_of_disabled (h : d.features.enabled x.kind.feature = false) :
    gadget origin read x next d = (match x with
      | .shift m => shiftChain origin read m next
      | .markFirst marker => markFirstChain origin read marker next
      | .insertAfter marker insert => insertAfterChain origin read marker insert next) d := by
  unfold gadget
  rw [bind_of_ok (enabled_apply _ d)]
  refine (congrFun (if_neg ?_) d).trans ?_
  . rw [h]
    nofun
  . cases x <;> rfl

end

/-- What was refused because of its state is refused again, if it is not made once for all. -/
theorem directive_again {x : Directive} (hnodup : d.alphabet.symbols.Nodup)
    (hx : x.madeOnce d.features = false) (horigin : d.guard.Free x.origin)
    (h : directive x d = .error err d') (hblames : err.Blames x.origin) :
    (directive x).succeeds d' = false := by
  cases x with
  | transition s read w m next => exact transition_again hnodup horigin h hblames
  | gadget s read x next =>
    have hfeatures : d'.features = d.features := congrArg (·.features) (rest_of_error h)
    change gadget s read x next d = _ at h
    change (gadget s read x next).succeeds d' = false
    rw [succeeds]
    cases henabled : d.features.enabled x.kind.feature with
    | true =>
      rw [gadget_of_enabled henabled] at h
      rw [gadget_of_enabled (hfeatures ▸ henabled)]
      exact addAction_again hnodup h
    | false =>
      rw [gadget_of_disabled henabled] at h
      rw [gadget_of_disabled (hfeatures ▸ henabled)]
      cases x with
      | shift m => exact shiftChain_again hnodup horigin h hblames
      | markFirst marker => cases hx.symm.trans (congrArg Bool.not henabled)
      | insertAfter marker insert => cases hx.symm.trans (congrArg Bool.not henabled)

/-- What is made once for all is accepted at the second time, and nothing is added. -/
theorem directive_once {x : Directive} (hx : x.madeOnce d.features = true)
    (h : directive x d = .error err d') : directive x d' = .ok () d' := by
  have hfeatures : d'.features = d.features := congrArg (·.features) (rest_of_error h)
  unfold Directive.madeOnce at hx
  split at hx
  . next origin read marker next =>
    have hoff : d.features.enabled (Gadget.markFirst marker).kind.feature = false := Bool.not_eq_true' _ ▸ hx
    change gadget origin read (.markFirst marker) next d = _ at h
    change gadget origin read (.markFirst marker) next d' = _
    rw [gadget_of_disabled hoff] at h
    rw [gadget_of_disabled (hfeatures ▸ hoff)]
    exact markFirstChain_once h
  . next origin read marker insert next =>
    have hoff : d.features.enabled (Gadget.insertAfter marker insert).kind.feature = false :=
      Bool.not_eq_true' _ ▸ hx
    change gadget origin read (.insertAfter marker insert) next d = _ at h
    change gadget origin read (.insertAfter marker insert) next d' = _
    rw [gadget_of_disabled hoff] at h
    rw [gadget_of_disabled (hfeatures ▸ hoff)]
    exact insertAfterChain_once h
  . cases hx

end Build

namespace Draft

variable {d d' : Draft} {err : RequestError} {x : Directive}

/-- The states that are generated for a directive can be given all their rules. -/
def Furnishes (d : Draft) (rs : List Request) : Directive → Prop
  | .transition _ _ _ m _ => d.features.supports m = true ∨ d.Regular
  | .gadget origin read x next =>
    d.features.enabled x.kind.feature = true
      ∨ x.kind = .shift ∧ (∀ c ∈ d.alphabet.symbols, ∃ mark tag, c = .atom mark tag)
        ∧ ∀ c, d.Carried (rs ++ [.directive (.gadget origin read x next)]) c →
          Guard.Clean c.display ∨ c.IsLetter

theorem readied_eq_self (htapes : d.tapes = .single) {a b : String} (ha : d.guard.Free a)
    (hb : d.guard.Free b) : d.readied a b = d := by
  rw [readied, avoidBoth, avoid_of_free ha, avoid_of_free hb, ← htapes]

/-- At the second time, all names are avoided already. -/
theorem submit_again (htapes : ∀ n, d.tapes ≠ .multi n)
    (h : Build.submit (.directive x) d = .error err d') :
    Build.submit (.directive x) d' = Build.directive x d' := by
  rw [submit_eq htapes] at h
  have hrest := Build.rest_of_error h
  have hguard : d'.guard = (d.ready x).guard := congrArg (·.guard) hrest
  obtain ⟨horigin, hnext⟩ := d.free_ready x
  rw [← hguard] at horigin hnext
  have hsingle : d'.tapes = .single := by
    rw [hrest]
    cases x with
    | transition origin read w m next => rfl
    | gadget origin read x next => rfl
  rw [submit_eq (by rw [hsingle]; nofun)]
  cases x with
  | transition origin read w m next => exact congrArg _ (readied_eq_self hsingle hnext horigin)
  | gadget origin read x next => exact congrArg _ (readied_eq_self hsingle horigin hnext)

theorem features_ready (d : Draft) (x : Directive) : (d.ready x).features = d.features := by
  cases x with
  | transition origin read w m next => exact d.features_avoidBoth next origin
  | gadget origin read x next => exact d.features_avoidBoth origin next

theorem blames_of_furnishes {start : String} {rs : List Request} (hd : d = (new start).receive rs)
    (htapes : ∀ n, d.tapes ≠ .multi n) (hfurnishes : d.Furnishes rs x)
    (h : Build.submit (.directive x) d = .error err d') : err.Blames x.origin := by
  rw [submit_eq htapes] at h
  have hfeatures := d.features_ready x
  cases x with
  | transition origin read w m next =>
    change Build.transition origin read w m next _ = _ at h
    rcases hfurnishes with hsupports | hregular
    . rw [← hfeatures] at hsupports
      rw [Build.transition_of_supports hsupports] at h
      exact Build.direct_blames h
    . have hcontinuing : d.Continuing := hd ▸ continuing_receive start (hd ▸ htapes)
      obtain ⟨b, hb, hcontinues⟩ := (hcontinuing.ready _).continues (hregular.ready _)
      obtain ⟨d₁, _, _, _, heq⟩ := Build.exists_transition_eq hb hcontinues origin read w m next
      rw [heq] at h
      exact Build.direct_blames h
  | gadget origin read x next =>
    change Build.gadget origin read x next _ = _ at h
    cases henabled : d.features.enabled x.kind.feature with
    | true =>
      rw [← hfeatures] at henabled
      rw [Build.gadget_of_enabled henabled] at h
      exact Build.addAction_blames h
    | false =>
      obtain ⟨hkind, hatoms, hnamed⟩ := hfurnishes.resolve_left (by rw [henabled]; nofun)
      rw [← hfeatures] at henabled
      rw [Build.gadget_of_disabled henabled] at h
      cases x with
      | shift m =>
        have hC (c : Cell) (hc : d.Carried (rs ++ [.directive (.gadget origin read (.shift m) next)]) c) :
            c.Lasting := (hnamed c hc).elim .of_clean Cell.IsLetter.lasting
        have hsupplies := supplies_carried hd (List.subset_append_left rs _) hC htapes hatoms
        have hready := hsupplies.readied hC origin next
        apply Build.shiftChain_blames (hready.grounds hC)
          (fun r _ => Guard.Belongs.self.ne_relay (d.free_readied origin next) r) hready.stocked
          (hready.of_mem_cells _ origin) h
        intro c hc
        exact .inr ⟨_, List.mem_append_right _ (List.mem_singleton_self _), hc⟩
      | markFirst marker => cases hkind
      | insertAfter marker insert => cases hkind

end Draft

/--
A request that was refused is refused again if that was because of its own state, which it is if the states
that are generated for it can be given their rules. A gadget that is made once for all is accepted the second
time, and nothing is added.
-/
theorem refused_again_unless_made_once {start : String} {rs : List Request} {x : Directive} {d d' : Draft}
    {err : RequestError} (hd : d = (Draft.new start).receive rs)
    (herror : Build.submit (.directive x) d = .error err d') :
    ((∃ n, d.tapes = .multi n) → Build.submit (.directive x) d' = .error err d')
      ∧ ((∀ n, d.tapes ≠ .multi n) → x.madeOnce d.features = true →
        Build.submit (.directive x) d' = .ok () d')
      ∧ ((∀ n, d.tapes ≠ .multi n) → x.madeOnce d.features = false →
        err.Blames x.origin ∨ d.Furnishes rs x → (Build.submit (.directive x)).succeeds d' = false) := by
  refine ⟨?_, ?_, ?_⟩
  . rintro ⟨n, hn⟩
    obtain ⟨call, hmulti⟩ := Draft.submit_of_multi hn x
    rw [hmulti] at herror
    cases herror
    exact hmulti
  . intro htapes hx
    rw [Draft.submit_again htapes herror]
    rw [Draft.submit_eq htapes] at herror
    exact Build.directive_once (by rwa [d.features_ready]) herror
  . intro htapes hx hreason
    have hblames : err.Blames x.origin :=
      hreason.elim id fun hfurnishes => Draft.blames_of_furnishes hd htapes hfurnishes herror
    have hcontinuing : d.Continuing := hd ▸ Draft.continuing_receive start (hd ▸ htapes)
    rw [Build.succeeds, Draft.submit_again htapes herror]
    rw [Draft.submit_eq htapes] at herror
    exact Build.directive_again (hcontinuing.ready x).nodup (by rwa [d.features_ready]) (d.free_ready x).1
      herror hblames

/-- A shift is refused for its second symbol, and then for its first one, which has a rule by then. -/
theorem refused_shift_again :
    let rs : List Request :=
      [ .alphabets [.literal "a", .literal "b"] [.literal "Ω"], .state "rΩ",
        .directive (.transition "q" (.cell (.literal "b")) .keep .right "r") ]
    let x : Directive := .gadget "q" (.oneOf [.literal "a", .literal "b"]) (.shift (.leftBy 2)) "q"
    let d := (Draft.new "qstart").receive rs
    let d' := (Build.submit (.directive x)).after d
    ((Build.submit (.directive x)).succeeds d = false
      ∧ d.states.lookup "q" (.literal "a") = none ∧ d'.states.lookup "q" (.literal "a") ≠ none)
    ∧ (Build.submit (.directive x)).succeeds d' = false := by
  intro rs x d d'
  have hrefused : (Build.submit (.directive x)).succeeds d = false
      ∧ d.states.lookup "q" (.literal "a") = none ∧ d'.states.lookup "q" (.literal "a") ≠ none := by
    decide +kernel
  have hfacts : d.alphabet.symbols = [.literal "a", .literal "b", .literal "Ω", .blank]
      ∧ d.tapes = .single ∧ x.madeOnce d.features = false := by decide +kernel
  obtain ⟨hsymbols, hsingle, hmade⟩ := hfacts
  have hletters : ∀ c ∈ d.alphabet.symbols, c.IsLetter := by
    rw [hsymbols]
    simp only [List.forall_mem_cons]
    exact ⟨.inl ⟨'a', rfl⟩, .inl ⟨'b', rfl⟩, .inl ⟨'Ω', rfl⟩, .inr rfl, fun _ h => absurd h List.not_mem_nil⟩
  have hcarried : ∀ r ∈ rs ++ [.directive x], ∀ c ∈ r.carried, c ∈ d.alphabet.symbols := by
    rw [hsymbols]
    decide
  obtain ⟨err, herror⟩ := Build.exists_error hrefused.1
  refine ⟨hrefused, (refused_again_unless_made_once rfl herror).2.2 (by rw [hsingle]; nofun) hmade
    (.inr (.inr ⟨rfl, ?_, ?_⟩))⟩
  . intro c hc
    rcases hletters c hc with ⟨_, rfl⟩ | rfl
    . exact ⟨_, _, rfl⟩
    . exact ⟨_, _, rfl⟩
  . rintro c (hc | ⟨r, hr, hc⟩)
    . exact .inr (hletters c hc)
    . exact .inr (hletters c (hcarried r hr c hc))

/-- The first time, the symbol read is foreign; the second time, the gadget is accepted but not there. -/
theorem made_once_accepted :
    let rs : List Request := [.alphabets [.literal "a"] []]
    let x : Directive := .gadget "qstart" (.cell (.literal "z")) (.markFirst (.literal "a")) "ACCEPT"
    let d := (Draft.new "qstart").receive rs
    d.answers [.directive x, .directive x] = [false, true] := by
  decide +kernel

end TuringLowering
