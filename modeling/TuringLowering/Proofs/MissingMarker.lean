import TuringLowering.Proofs.Insertion

/-!
This module contains what becomes of a cell that is to be inserted after a marker which is not there. The
gadget stops at the first cell. The states that spell it out do not see the first cell: they lose what it
held and go on forever, or reject if the marker is the empty cell.
-/

namespace TuringLowering

namespace View

/-- What is left of the cells once the first two are lost. -/
def drained (cells : Nat → Cell) : Nat → Cell := fun i => if i ≤ 1 then .blank else cells i

theorem drained_drained (cells : Nat → Cell) : drained (drained cells) = drained cells := by
  funext i
  unfold drained
  grind

theorem carryBack_of_blank {cells : Nat → Cell} (h : cells 0 = .blank) :
    carryBack ⟨0, cells⟩ = ⟨0, drained cells⟩ := by
  ext i
  . simp
  . simp only [cells_carryBack, cells_carryRight, focus, drained, h]
    grind

theorem write_one_of_blank {cells : Nat → Cell} (h : cells 0 = .blank) :
    (write ⟨1, cells⟩ .blank).move .right = ⟨2, drained cells⟩ := by
  ext i
  . rfl
  . change (write ⟨1, cells⟩ .blank).cells i = _
    rw [cells_write]
    unfold drained
    grind

end View

namespace Draft

section

variable {d : Draft} {P : String → Bool} {s : String} {v : View}

theorem exists_iterate_of_loop {x : String × Tape} (hloop : (d.only P).Reaches s v s v)
    (hx : ∃ t : Tape, t.view = v ∧ Relation.TransGen (d.only P).Step x (s, t)) (k : Nat) :
    ∃ y : String × Tape, d.compile.next^[k] ⟨x.1, [x.2]⟩ = ⟨y.1, [y.2]⟩
      ∧ ∃ t : Tape, t.view = v ∧ Relation.TransGen (d.only P).Step y (s, t) := by
  induction k with
  | zero => exact ⟨x, rfl, hx⟩
  | succ k ih =>
    obtain ⟨y, hy, t, ht, hsteps⟩ := ih
    rcases Relation.TransGen.head'_iff.mp hsteps with ⟨z, hstep, hrest⟩
    refine ⟨z, ?_, ?_⟩
    . rw [Function.iterate_succ_apply', hy, next_of_step ((only_below P d).step hstep)]
    . rcases Relation.reflTransGen_iff_eq_or_transGen.mp hrest with heq | hrest
      . rw [← heq]
        exact hloop t ht
      . exact ⟨t, ht, hrest⟩

/-- A run into a loop never leaves the states of the loop, and what is seen there is seen ever again. -/
theorem forever_of_loop {s₀ : String} {v₀ : View} (hstart : (d.only P).Reaches s₀ v₀ s v)
    (hloop : (d.only P).Reaches s v s v) {t₀ : Tape} (ht₀ : t₀.view = v₀) (n : Nat) :
    P (d.compile.next^[n] ⟨s₀, [t₀]⟩).state = true
      ∧ isTerminal (d.compile.next^[n] ⟨s₀, [t₀]⟩).state = false
      ∧ ∃ k t, n ≤ k ∧ d.compile.next^[k] ⟨s₀, [t₀]⟩ = ⟨s, [t]⟩ ∧ t.view = v := by
  obtain ⟨y, hy, t, ht, hsteps⟩ := exists_iterate_of_loop hloop (hstart t₀ ht₀) n
  refine ⟨?_, ?_, ?_⟩
  . obtain ⟨z, hstep, _⟩ := Relation.TransGen.head'_iff.mp hsteps
    rw [hy]
    cases hstep with
    | rule running accepts lookup => exact (of_lookup_only lookup).1
  . obtain ⟨z, hstep, _⟩ := Relation.TransGen.head'_iff.mp hsteps
    rw [hy]
    cases hstep with
    | rule running accepts lookup => exact running
  . obtain ⟨k, hk, _⟩ := iterate_next_of_only hsteps
    refine ⟨k + n, t, Nat.le_add_left n k, ?_, ht⟩
    rw [Function.iterate_add_apply, hy, hk]

end

/-- A draft on a single tape the states of which that insert a cell have rules for the empty cell only. -/
structure InsertsOnBlank (d : Draft) : Prop where
  tapes : ∀ n, d.tapes ≠ .multi n
  lookup : ∀ s, d.guard.Inserts s → ∀ c, c ≠ .blank → d.states.lookup s c = none

namespace InsertsOnBlank

variable {d e : Draft}

theorem of_same (h : d.InsertsOnBlank) (htapes : ∀ n, e.tapes ≠ .multi n) (hguard : e.guard = d.guard)
    (hlookup : ∀ s, d.guard.Inserts s → ∀ c, c ≠ .blank → e.states.lookup s c = d.states.lookup s c) :
    e.InsertsOnBlank := by
  refine ⟨htapes, fun s hs c hc => ?_⟩
  rw [hguard] at hs
  rw [hlookup s hs c hc]
  exact h.lookup s hs c hc

theorem amends (h : d.InsertsOnBlank) (he : d.Amends (fun s => ¬ d.guard.Inserts s) e) :
    e.InsertsOnBlank :=
  h.of_same (by rw [he.tapes]; exact h.tapes) he.guard fun _ hs c _ =>
    he.lookup_other (not_not.mpr hs) c

theorem withGuard {g : Guard} (h : d.InsertsOnBlank) (hle : d.guard.size ≤ g.size) :
    (d.withGuard g).InsertsOnBlank := by
  refine ⟨h.tapes, ?_⟩
  rintro _ ⟨part, parts, rfl⟩ c hc
  by_contra hlookup
  change (d.withGuard g).states.lookup (g.wrap (part :: parts) ++ "_doInsert") c ≠ none at hlookup
  have hname := part_eq_of_find?_withGuard hle (by decide)
    (StateTables.find?_ne_none_of_lookup hlookup)
  rw [hname] at hlookup
  rcases lookup_of_withGuard hle hlookup with hne | ⟨c₀, rfl, hne⟩
  . exact hne c (h.lookup _ ⟨_, _, rfl⟩ c hc)
  . refine hne (h.lookup _ ⟨_, _, rfl⟩ c₀ ?_)
    rintro rfl
    exact hc rfl

end InsertsOnBlank

end Draft

namespace Build

open Draft (Amends InsertsOnBlank)

section

variable {g : Guard}

theorem maintains_insertsOnBlank {α : Type} {x : Build α} (h : ∀ d₀ : Draft, d₀.guard = g →
      Maintains (d₀.Amends fun s => ¬ g.Inserts s) x) :
    Maintains (fun d => d.guard = g ∧ d.InsertsOnBlank) x := by
  rintro d ⟨rfl, hd⟩
  have hamends := h d rfl d (.refl d)
  exact ⟨hamends.guard, hd.amends hamends⟩

theorem not_inserts_wrap (part : String) (parts : List String) : ¬ g.Inserts (g.wrap (part :: parts)) := by
  rintro ⟨part', parts', heq⟩
  exact wrap_ne_part part parts "_doInsert" (by decide) heq

theorem not_inserts_part {base suffix : String} (hsuffix : suffix ∈ chainSuffixes)
    (hne : suffix ≠ "_doInsert") : ¬ g.Inserts (base ++ suffix) := by
  rintro ⟨part, parts, heq⟩
  exact hne (chainSuffixes_inj hsuffix (by decide) heq).2

theorem inserting_insertsOnBlank (s : String) (w : Writing) (next : String) :
    Maintains (fun d => d.guard = g ∧ d.InsertsOnBlank) (transition s (.cell .blank) w .right next) := by
  rintro d ⟨hguard, hd⟩
  -- Added or not, a rule for the empty cell is no rule for another one.
  have hadds : ∃ p, d.Adds s p (w.Gives .right next) ((transition s (.cell .blank) w .right next).after d)
      ∧ ∀ c, p.Matches c → c = .blank := by
    rw [after, transition_of_distance rfl]
    rcases direct_cell_cases s .blank w .right next d with ⟨e, hok, hadds⟩ | ⟨⟨err, e, herror, hadds⟩, _⟩
    . rw [hok]
      exact ⟨_, hadds, fun c hc => hc⟩
    . rw [herror]
      exact ⟨_, hadds, fun c hc => absurd hc List.not_mem_nil⟩
  obtain ⟨p, hadds, hp⟩ := hadds
  refine ⟨hadds.guard.trans hguard, hd.of_same ?_ hadds.guard fun s' _ c hc => ?_⟩
  . rw [hadds.rest]
    exact hd.tapes
  . by_cases heq : s' = s
    . subst heq
      exact hadds.lookup_of_not_matches fun hmatch => hc (hp c hmatch)
    . exact hadds.lookup_other heq c

theorem insertsOnBlank_preserves :
    Preserves (fun d => d.guard = g ∧ d.InsertsOnBlank) g (¬ g.Inserts ·) where
  guard _ hd := hd.1
  transition s hs read w m next := by
    apply maintains_insertsOnBlank
    rintro d₀ rfl
    exact transition_amends hs (fun _ => not_inserts_wrap _ _) read w m
  action s hs read a next := maintains_insertsOnBlank fun _ _ => addAction_amends hs read a next
  chain k _ := maintains_insertsOnBlank fun _ _ => chain_amends k _
  paste _ _ := not_inserts_wrap _ _

theorem directive_insertsOnBlank {x : Directive} (horigin : g.Free x.origin) :
    Maintains (fun d => d.guard = g ∧ d.InsertsOnBlank) (directive x) := by
  apply insertsOnBlank_preserves.directive
  . exact fun h => h.generates.not_free horigin
  . exact fun part parts => ⟨not_inserts_part (by decide) (by decide),
      not_inserts_part (by decide) (by decide)⟩
  . exact fun _ _ c next => inserting_insertsOnBlank _ (.put c) next

end

end Build

namespace Draft

theorem InsertsOnBlank.kept : Kept InsertsOnBlank fun _ => True := by
  apply Kept.of_same
  . exact fun d h => h.tapes
  . exact fun d e h htapes hguard hlookup => h.of_same htapes hguard fun s _ c _ => hlookup s c
  . exact fun d g h hle => h.withGuard hle
  . exact fun d x _ h _ horigin => (Build.directive_insertsOnBlank horigin d ⟨rfl, h⟩).2

theorem insertsOnBlank_receive (start : String) {rs : List Request}
    (htapes : ∀ n, ((new start).receive rs).tapes ≠ .multi n) :
    ((new start).receive rs).InsertsOnBlank := by
  have hnew : (new start).InsertsOnBlank := ⟨fun _ => nofun, fun _ _ _ _ => rfl⟩
  rcases InsertsOnBlank.kept.receive hnew rs fun _ _ => trivial with ⟨n, hn⟩ | hd
  . exact absurd hn (htapes n)
  . exact hd

section

variable {e : Draft} {B : List Cell} {origin next : String} {marker insert : Cell} {t : Tape}
  (h : e.Spells B origin t.focus next (.insertAfter marker insert))
  (haccepts : ∀ c ∈ B, e.alphabet.accepts c = true) (hblank : .blank ∈ B) (hmarker : marker ∈ B)
  (hrunning : isTerminal origin = false) (ht : t.view.Within B) (hmissing : ¬ t.Finds marker)
include h haccepts hblank hrunning ht hmissing

theorem Spells.exists_carriedAll :
    ∃ (findEnd doShifts doInsert : String) (t₁ : Tape) (cells : Nat → Cell),
      e.compile.next ⟨origin, [t]⟩ = ⟨findEnd, [t₁]⟩
        ∧ e.Carrying B findEnd doShifts marker marker doInsert ∧ e.guard.Inserts doInsert
        ∧ (∀ s v, e.generated.Reaches doShifts ⟨0, cells⟩ s v → e.generated.Reaches findEnd t₁.view s v)
        ∧ ((Action.insertAfter marker insert).apply t).view = ⟨0, cells⟩
        ∧ cells 0 = .blank ∧ (∀ i, cells i ∈ B) ∧ cells 1 ≠ marker := by
  obtain ⟨last, hlast⟩ := t.exists_isLast
  have hne (i : Nat) (hi : i ≤ last) : t.cellAt i ≠ marker :=
    fun heq => hmissing ⟨last, hlast, i, hi, heq⟩
  have hfocus : t.focus ∈ B := by
    rw [← Tape.focus_view]
    exact ht _
  cases h with
  | @insertAfter _ _ findEnd doShifts doInsert start carrying inserter inserting =>
    obtain ⟨o, ho, hlookup⟩ := start t.focus (List.mem_singleton_self _)
    obtain ⟨a, rfl, hview⟩ := ho.view_apply
    have hright : (a.apply t).view = t.view.move .right := by
      rw [hview t rfl, ← Tape.focus_view]
      exact congrArg (View.move · Move.right) t.view.write_focus
    have hchain := carrying.carryChain haccepts hblank
    refine ⟨findEnd, doShifts, doInsert, a.apply t, View.carriedAll t.cellAt last,
      next_of_step (.rule hrunning (haccepts _ hfocus) hlookup), carrying, inserter, ?_,
      Action.view_insertAfter_missing hlast hne, if_pos rfl, ?_, ?_⟩
    . intro s v hexit
      rw [hright]
      apply (Build.IsLast.seek hchain hlast fun i _ _ => ht i).trans
      exact hchain.carryAll hlast.blank (fun i hi => ⟨hne i hi, ht i⟩) hexit
    . exact ht.carriedAll hblank 0 last
    . exact hne 0 (Nat.zero_le _)

/-- Without the marker, the states carry what is no longer there, over and over. -/
theorem Spells.forever (hne : marker ≠ .blank) (n : Nat) :
    e.guard.occursIn (e.compile.next^[n + 1] ⟨origin, [t]⟩).state = true
      ∧ isTerminal (e.compile.next^[n + 1] ⟨origin, [t]⟩).state = false
      ∧ ∃ k t', n < k ∧ (e.compile.next^[k] ⟨origin, [t]⟩).tapes = [t'] ∧ t'.position = 0
        ∧ t'.cellAt = View.drained ((Action.insertAfter marker insert).apply t).cellAt := by
  obtain ⟨findEnd, doShifts, _, t₁, cells, hfirst, carrying, _, honward, happly, hzero, hB, _⟩ :=
    h.exists_carriedAll haccepts hblank hrunning ht hmissing
  have hcells : ((Action.insertAfter marker insert).apply t).cellAt = cells := by
    rw [← Tape.cells_view, happly]
  -- At the first cell, the head goes back to where it is.
  have hcarry (cells : Nat → Cell) (hzero : cells 0 = .blank) (hB : ∀ i, cells i ∈ B) :
      e.generated.Reaches doShifts ⟨0, cells⟩ doShifts ⟨0, View.drained cells⟩ := by
    have hfocus : (⟨0, cells⟩ : View).focus ≠ marker := fun heq => hne (heq.symm.trans hzero)
    have hwithin : (⟨0, cells⟩ : View).Within B := hB
    rw [← View.carryBack_of_blank hzero]
    exact (carrying.carry _ (hB 0) hfocus).reaches carrying.carrier haccepts
      ⟨hB 0, hB 1, View.clear_of_forall (hwithin.carryRight hblank) _, rfl⟩
  have hdrained : ∀ i, View.drained cells i ∈ B := by
    intro i
    unfold View.drained
    split
    . exact hblank
    . exact hB i
  have hloop := hcarry (View.drained cells) rfl hdrained
  rw [View.drained_drained] at hloop
  obtain ⟨hoccurs, hruns, k, t', hk, hnext, ht'⟩ :=
    forever_of_loop (honward _ _ (hcarry cells hzero hB)) hloop rfl n
  simp only [Function.iterate_succ_apply, hfirst]
  refine ⟨hoccurs, hruns, k + 1, t', Nat.lt_succ_of_le hk, ?_, congrArg View.position ht', ?_⟩
  . rw [Function.iterate_succ_apply, hfirst, hnext]
  . rw [hcells]
    exact congrArg View.cells ht'

/-- If the empty cell is the marker, the cell behind it is not found empty. -/
theorem Spells.rejects (hempty : marker = .blank) (hphysical : e.compile.physicalTapes = 1)
    (hinserts : e.InsertsOnBlank) :
    ∃ k t', e.compile.next^[k + 1] ⟨origin, [t]⟩ = ⟨Verdict.reject.state, [t']⟩
      ∧ (∀ j, 0 < j → j ≤ k → e.guard.occursIn (e.compile.next^[j] ⟨origin, [t]⟩).state = true)
      ∧ t'.position = 2
      ∧ t'.cellAt = View.drained ((Action.insertAfter marker insert).apply t).cellAt := by
  obtain ⟨findEnd, doShifts, doInsert, t₁, cells, hfirst, carrying, hinserter, honward, happly, hzero, hB,
    hone⟩ := h.exists_carriedAll haccepts hblank hrunning ht hmissing
  have hcells : ((Action.insertAfter marker insert).apply t).cellAt = cells := by
    rw [← Tape.cells_view, happly]
  subst hempty
  have hexit := carrying.exits haccepts hblank (v := ⟨0, cells⟩) hzero
  obtain ⟨t₂, ht₂, hsteps⟩ := honward _ _ hexit t₁ rfl
  obtain ⟨k, hk, hinner⟩ := iterate_next_of_only hsteps
  have hview : t₂.view = ⟨1, cells⟩ := by
    rw [ht₂, ← hzero]
    exact congrArg (View.move · Move.right) (View.write_focus ⟨0, cells⟩)
  have hfocus : t₂.focus ≠ .blank := by
    rw [← Tape.focus_view, hview]
    exact hone
  obtain ⟨t', hnext, ht'⟩ := next_of_lookup_eq_none hphysical hinserter.generates.running
    (hinserts.lookup _ hinserter _ hfocus)
  rw [hview, View.write_one_of_blank hzero] at ht'
  refine ⟨k + 1, t', ?_, ?_, congrArg View.position ht', ?_⟩
  . rw [Function.iterate_succ_apply, hfirst, Function.iterate_succ_apply', hk, hnext]
  . intro j hpos hj
    obtain ⟨i, rfl⟩ : ∃ i, j = i + 1 := ⟨j - 1, by omega⟩
    rw [Function.iterate_succ_apply, hfirst]
    rcases Nat.lt_or_eq_of_le (Nat.le_of_succ_le_succ hj) with hi | rfl
    . exact (hinner i hi).2
    . rw [hk]
      exact hinserter.generates.occursIn
  . rw [hcells]
    exact congrArg View.cells ht'

end

section

variable {d d' e : Draft} {origin next : String} {read : Pattern} {x : Gadget} {t : Tape}

theorem mem_symbols_avoid {c : Cell} (hc : c.Lasting) (hmem : c ∈ d.alphabet.symbols) (name : String) :
    c ∈ (d.avoid name).alphabet.symbols := by
  unfold avoid
  split
  . exact List.mem_map.mpr ⟨c, hmem, hc.kept _ _⟩
  . exact hmem

theorem next_of_gadget (htapes : ∀ n, d.tapes ≠ .multi n)
    (hon : d.features.enabled x.kind.feature = true) (hx : x.action.Over Cell.IsLetter)
    (hok : Build.submit (.directive (.gadget origin read x next)) d = .ok () d') (he : d'.Later e)
    (hrunning : isTerminal origin = false) (hletter : t.focus.IsLetter)
    (hfocus : t.focus ∈ d.alphabet.symbols)
    (hnone : (d.avoidBoth origin next).states.lookup origin t.focus = none)
    (hsome : d'.states.lookup origin t.focus ≠ none) :
    e.compile.next ⟨origin, [t]⟩ = ⟨next, [x.action.apply t]⟩ := by
  obtain ⟨horigin, hnext⟩ := free_of_gadget htapes hok
  have hamends := submit_gadget_amends htapes hok
  have hmem : t.focus ∈ (d.readied origin next).alphabet.symbols :=
    mem_symbols_avoid hletter.lasting (mem_symbols_avoid hletter.lasting hfocus _) _
  have haccepts : (d.readied origin next).alphabet.accepts t.focus = true := by
    obtain ⟨char, hchar⟩ | hblank := hletter
    . rw [hchar] at hmem ⊢
      exact Alphabet.accepts_of_mem_symbols hmem
    . rw [hblank] at hmem ⊢
      exact Alphabet.accepts_of_mem_symbols hmem
  have haccepts' := he.accepts _ (hamends.below.accepts _ haccepts)
  rw [hletter.lasting.kept] at haccepts'
  rw [submit_gadget htapes] at hok
  unfold Build.gadget at hok
  rw [Build.bind_of_ok (Build.enabled_apply _ _), if_pos (by
    change (d.avoidBoth origin next).features.enabled _ = true
    rwa [features_avoidBoth])] at hok
  have hadds := Build.addAction_adds hok
  have hmatch : read.Matches t.focus := by
    by_contra hmatch
    exact hsome (hadds.missing _ hmatch hnone)
  obtain ⟨o, rfl, hlookup⟩ := hadds.new _ hmatch (fun _ => hmem) hnone
  have hlater := he.lookup _ _ _ hlookup
  rw [hletter.lasting.kept, Guard.rename_of_free horigin, Outcome.mapNames_single,
    Guard.rename_of_free hnext, Action.mapNames_of_over (hx.mono fun _ hc => hc.lasting.kept _ _)]
    at hlater
  exact next_of_step (.rule hrunning haccepts' hlater)

end

end Draft

/--
Without the marker, the gadget goes to the first cell and ends there. The states that spell it out never
come to the end that was asked for: from the second step on they are in generated states, and they have lost
what was carried to the second cell, or they reject if the empty cell is the marker.
-/
theorem missing_marker_never_ends {start origin next : String} {read : Pattern} {marker insert : Cell}
    {rs rs' rs₁ rs₁' : List Request} {d d₁ : Draft} (hd : d = (Draft.new start).receive rs)
    (hd₁ : d₁ = (Draft.new start).receive rs₁) {r : Request}
    (hr : r = .directive (.gadget origin read (.insertAfter marker insert) next))
    (hsymbols : d₁.alphabet.symbols = d.alphabet.symbols)
    (hletters : ∀ c ∈ d.alphabet.symbols, c.IsLetter)
    (hcarried : ∀ r ∈ rs, ∀ c ∈ r.carried, c ∈ d.alphabet.symbols ∨ Guard.Clean c.display)
    (hoff : d.features.enabled .gadgetInsertAfterMarker = false)
    (hon : d₁.features.enabled .gadgetInsertAfterMarker = true)
    (hok : (Build.submit r).succeeds d = true) (hok₁ : (Build.submit r).succeeds d₁ = true)
    (hrunning : isTerminal origin = false) (hmarker : marker ∈ d.alphabet.symbols)
    (hinsert : insert ∈ d.alphabet.symbols)
    {t : Tape} (ht : ∀ c ∈ t.cells, c ∈ d.alphabet.symbols)
    -- It is this request by which the cell under the head gets its rule.
    (hnone : (d.avoidBoth origin next).states.lookup origin t.focus = none)
    (hsome : ((Build.submit r).after d).states.lookup origin t.focus ≠ none)
    (hnone₁ : (d₁.avoidBoth origin next).states.lookup origin t.focus = none)
    (hsome₁ : ((Build.submit r).after d₁).states.lookup origin t.focus ≠ none)
    (hmissing : ¬ t.Finds marker) :
    let e := (Draft.new start).receive (rs ++ r :: rs')
    let e₁ := (Draft.new start).receive (rs₁ ++ r :: rs₁')
    ∃ t₁, e₁.compile.next ⟨origin, [t]⟩ = ⟨next, [t₁]⟩ ∧ t₁.position = 0
      ∧ e.guard.occursIn next = false
      ∧ (marker ≠ .blank → ∀ n,
        e.guard.occursIn (e.compile.next^[n + 1] ⟨origin, [t]⟩).state = true
          ∧ isTerminal (e.compile.next^[n + 1] ⟨origin, [t]⟩).state = false
          ∧ ∃ k t', n < k ∧ (e.compile.next^[k] ⟨origin, [t]⟩).tapes = [t'] ∧ t'.position = 0
            ∧ t'.cellAt = View.drained t₁.cellAt)
      ∧ (marker = .blank → ∃ k t',
        e.compile.next^[k + 1] ⟨origin, [t]⟩ = ⟨Verdict.reject.state, [t']⟩
          ∧ (∀ j, 0 < j → j ≤ k → e.guard.occursIn (e.compile.next^[j] ⟨origin, [t]⟩).state = true)
          ∧ t'.position = 2 ∧ t'.cellAt = View.drained t₁.cellAt) := by
  intro e e₁
  have hlater : ((Build.submit r).after d).Later e := Draft.later_of_gadget hd hr hok rs'
  have hlater₁ : ((Build.submit r).after d₁).Later e₁ := Draft.later_of_gadget hd₁ hr hok₁ rs₁'
  have hfocus := ht _ (List.mem_append_right _ List.mem_cons_self : t.focus ∈ t.cells)
  obtain ⟨hspells, haccepts, hblank⟩ : e.Spells _ _ _ _ _ ∧ _ :=
    Draft.spells_receive hd hr (by simp [Gadget.kind]) hletters hcarried hoff hok ⟨hmarker, hinsert⟩ hfocus
      hnone hsome
  have hwithin : t.view.Within d.alphabet.symbols := Tape.cellAt_mem hblank ht
  have htapes := Draft.not_multi_of_gadget (hr ▸ hok)
  have hsubmit := Build.eq_ok_of_succeeds hok
  have hsingle : e.tapes = .single := by
    subst hr
    rw [hlater.tapes, (Draft.submit_gadget_amends htapes hsubmit).tapes]
    rfl
  have hinserts : e.InsertsOnBlank :=
    Draft.insertsOnBlank_receive start fun n => by
      change e.tapes ≠ _
      rw [hsingle]
      nofun
  have hphysical : e.compile.physicalTapes = 1 := by
    change (if e.features.enabled .multiTape then e.tapes.count else 1) = 1
    rw [hsingle]
    split <;> rfl
  subst hr
  have hfirst := Draft.next_of_gadget (x := .insertAfter marker insert)
    (Draft.not_multi_of_gadget hok₁) hon ⟨hletters _ hmarker, hletters _ hinsert⟩
    (Build.eq_ok_of_succeeds hok₁) hlater₁ hrunning (hletters _ hfocus) (hsymbols ▸ hfocus) hnone₁ hsome₁
  refine ⟨_, hfirst, ?_, ?_, ?_, ?_⟩
  . obtain ⟨_, _, _, _, _, _, _, _, _, happly, _⟩ :=
      hspells.exists_carriedAll haccepts hblank hrunning hwithin hmissing
    exact congrArg View.position happly
  . have hfree := (Draft.free_of_gadget htapes hsubmit).2
    exact Guard.free_iff_not_occursIn.mp (hfree.mono hlater.size_le)
  . exact hspells.forever haccepts hblank hrunning hwithin hmissing
  . exact fun hempty =>
      hspells.rejects haccepts hblank hrunning hwithin hmissing hempty hphysical hinserts

/-- The guard is the marker that is missing, and it is widened before and after. -/
theorem missing_guard_never_ends :
    let rs (features : List Feature) : List Request :=
      [.alphabets [.literal "a", .literal "Ω"] [.literal "x"], .features features, .state "rΩ"]
    let r : Request :=
      .directive (.gadget "qstart" .any (.insertAfter (.literal "Ω") (.literal "x")) "ACCEPT")
    let t : Tape := ⟨[.literal "a"], .literal "x", [.literal "a", .literal "a"]⟩
    let d := (Draft.new "qstart").receive (rs [.moveMulti])
    let d₁ := (Draft.new "qstart").receive (rs [.gadgetInsertAfterMarker])
    let e := (Draft.new "qstart").receive (rs [.moveMulti] ++ r :: [.state "ΩΩ"])
    let e₁ := (Draft.new "qstart").receive (rs [.gadgetInsertAfterMarker] ++ r :: [])
    ((d.avoidBoth "qstart" "ACCEPT").states.lookup "qstart" t.focus = none
      ∧ ((Build.submit r).after d).states.lookup "qstart" t.focus ≠ none
      ∧ (d₁.avoidBoth "qstart" "ACCEPT").states.lookup "qstart" t.focus = none
      ∧ ((Build.submit r).after d₁).states.lookup "qstart" t.focus ≠ none)
    ∧ ∃ t₁, e₁.compile.next ⟨"qstart", [t]⟩ = ⟨"ACCEPT", [t₁]⟩ ∧ t₁.position = 0
      ∧ e.guard.occursIn "ACCEPT" = false
      ∧ ∀ n, e.guard.occursIn (e.compile.next^[n + 1] ⟨"qstart", [t]⟩).state = true
        ∧ isTerminal (e.compile.next^[n + 1] ⟨"qstart", [t]⟩).state = false
        ∧ ∃ k t', n < k ∧ (e.compile.next^[k] ⟨"qstart", [t]⟩).tapes = [t'] ∧ t'.position = 0
          ∧ t'.cellAt = View.drained t₁.cellAt := by
  intro rs r t d d₁ e e₁
  have hsymbols : d.alphabet.symbols = [.literal "a", .literal "Ω", .literal "x", .blank]
      ∧ d₁.alphabet.symbols = [.literal "a", .literal "Ω", .literal "x", .blank] := by
    decide +kernel
  have hrules : (d.avoidBoth "qstart" "ACCEPT").states.lookup "qstart" t.focus = none
      ∧ ((Build.submit r).after d).states.lookup "qstart" t.focus ≠ none
      ∧ (d₁.avoidBoth "qstart" "ACCEPT").states.lookup "qstart" t.focus = none
      ∧ ((Build.submit r).after d₁).states.lookup "qstart" t.focus ≠ none := by decide +kernel
  have hmissing : ¬ t.Finds (.literal "Ω") := by
    rintro ⟨last, _, i, _, hcell⟩
    have hmem : t.cellAt i ∈ [.literal "a", .literal "x", .blank] :=
      Tape.cellAt_mem (by decide) (by decide) i
    rw [hcell] at hmem
    exact absurd hmem (by decide)
  have hletters : ∀ c ∈ d.alphabet.symbols, c.IsLetter := by
    rw [hsymbols.1]
    simp only [List.forall_mem_cons]
    exact ⟨.inl ⟨'a', rfl⟩, .inl ⟨'Ω', rfl⟩, .inl ⟨'x', rfl⟩, .inr rfl, fun _ h => absurd h List.not_mem_nil⟩
  have hcells : (Cell.literal "Ω" ∈ d.alphabet.symbols ∧ Cell.literal "x" ∈ d.alphabet.symbols)
      ∧ ∀ c ∈ t.cells, c ∈ d.alphabet.symbols := by
    rw [hsymbols.1]
    decide
  have hcarried : ∀ r ∈ rs [.moveMulti], ∀ c ∈ r.carried, c ∈ d.alphabet.symbols ∨ Guard.Clean c.display := by
    have hnothing : ∀ r ∈ rs [.moveMulti], r.carried = [] := by decide
    intro r hr c hc
    rw [hnothing r hr] at hc
    exact absurd hc List.not_mem_nil
  obtain ⟨t₁, hnext, hposition, hguard, hforever, _⟩ :=
    @missing_marker_never_ends "qstart" "qstart" "ACCEPT" .any (.literal "Ω") (.literal "x")
      (rs [.moveMulti]) [.state "ΩΩ"] (rs [.gadgetInsertAfterMarker]) [] d d₁ rfl rfl r rfl
      (hsymbols.2.trans hsymbols.1.symm) hletters hcarried (by decide +kernel) (by decide +kernel)
      (by decide +kernel) (by decide +kernel) (by decide) hcells.1.1 hcells.1.2 t hcells.2
      hrules.1 hrules.2.1 hrules.2.2.1 hrules.2.2.2 hmissing
  exact ⟨hrules, t₁, hnext, hposition, hguard, hforever (by decide)⟩

theorem Machine.forall_state_of_round {m : Machine} {c : Config} {P : String → Prop} {k p : Nat}
    (hp : 0 < p) (hstate : (m.next^[p + k] c).state = (m.next^[k] c).state)
    (htapes : (m.next^[p + k] c).tapes = (m.next^[k] c).tapes)
    (h : ∀ n < p + k, P (m.next^[n] c).state) (n : Nat) : P (m.next^[n] c).state := by
  have hround : m.next^[p + k] c = m.next^[k] c := congrArg₂ Config.mk hstate htapes
  induction n using Nat.strongRecOn with
  | ind n ih =>
    by_cases hn : n < p + k
    . exact h n hn
    . have hback : m.next^[n] c = m.next^[n - p] c := by
        obtain ⟨i, rfl⟩ : ∃ i, n = i + (p + k) := ⟨n - (p + k), by omega⟩
        rw [Function.iterate_add_apply, hround, ← Function.iterate_add_apply]
        congr 1
        omega
      rw [hback]
      exact ih (n - p) (by omega)

/-- With the gadget, the machine accepts at once; with states in its place, it never does. -/
theorem missing_marker_diverges :
    let draft (features : List Feature) : Draft := (Draft.new "qstart").receive
      [ .alphabets [.literal "a"] [.literal "#"], .features features,
        .directive (.gadget "qstart" (.cell (.literal "a"))
          (.insertAfter (.literal "#") (.literal "a")) "ACCEPT") ]
    let c : Config := ⟨"qstart", [.ofInput [.literal "a"]]⟩
    ((draft [.gadgetInsertAfterMarker]).compile.next c).state = "ACCEPT"
      ∧ ((draft [.gadgetInsertAfterMarker]).compile.next c).tapes
        = [⟨[], .blank, [.literal "a", .blank]⟩]
      ∧ ∀ n, ((draft []).compile.next^[n] c).state ≠ "ACCEPT" := by
  intro draft c
  have haccepts : ((draft [.gadgetInsertAfterMarker]).compile.next c).state = "ACCEPT"
      ∧ ((draft [.gadgetInsertAfterMarker]).compile.next c).tapes
        = [⟨[], .blank, [.literal "a", .blank]⟩] := by decide +kernel
  -- From the seventh step on, the machine goes through the same three configurations.
  have hround : ((draft []).compile.next^[3 + 7] c).state = ((draft []).compile.next^[7] c).state
      ∧ ((draft []).compile.next^[3 + 7] c).tapes = ((draft []).compile.next^[7] c).tapes
      ∧ ∀ n < 3 + 7, ((draft []).compile.next^[n] c).state ≠ "ACCEPT" := by decide +kernel
  clear_value draft c
  exact ⟨haccepts.1, haccepts.2,
    Machine.forall_state_of_round (P := (· ≠ "ACCEPT")) (by decide) hround.1 hround.2.1 hround.2.2⟩

end TuringLowering
