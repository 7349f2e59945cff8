import TuringLowering.Proofs.Realization

/-!
This module contains the proof that the features with which a machine on one tape is drafted do not
change what it computes. The machine and the directives go through the same configurations, and the
states that are generated for lack of a feature lie between them.
-/

namespace TuringLowering

namespace View

def Within (B : List Cell) (v : View) : Prop := ∀ i, v.cells i ∈ B

namespace Within

variable {B : List Cell} {v : View}

theorem move (h : v.Within B) (m : Move) : (v.move m).Within B := h

theorem write (h : v.Within B) {c : Cell} (hc : c ∈ B) : (v.write c).Within B := by
  intro i
  rw [cells_write]
  split
  . exact hc
  . exact h i

theorem carryRight (h : v.Within B) (hblank : .blank ∈ B) : v.carryRight.Within B :=
  ((h.write hblank).move .right).write (h v.position)

theorem carried (h : v.Within B) (hblank : .blank ∈ B) (p e m : Nat) :
    (⟨p, View.carried v.cells e m⟩ : View).Within B := by
  intro i
  dsimp only
  unfold View.carried
  split
  . exact h _
  . split
    . exact hblank
    . split <;> exact h _

theorem carriedAll (h : v.Within B) (hblank : .blank ∈ B) (p e : Nat) :
    (⟨p, View.carriedAll v.cells e⟩ : View).Within B := by
  intro i
  dsimp only
  unfold View.carriedAll
  split
  . exact hblank
  . split <;> exact h _

end Within

end View

/-- Whether a cell is found at or before the last cell before the next empty one right of the head. -/
def Tape.Finds (t : Tape) (c : Cell) : Prop := ∃ e, t.view.IsLast e ∧ ∃ i ≤ e, t.cellAt i = c

theorem Gadget.exists_works {B : List Cell} {x : Gadget} {t : Tape} (hx : x.action.Over (· ∈ B))
    (hblank : .blank ∈ B) (ht : t.view.Within B)
    (hmarker : ∀ marker insert, x = .insertAfter marker insert → t.Finds marker) :
    ∃ v, x.Works B t.view v ∧ v.Within B := by
  cases x with
  | shift m =>
    have hcarry := ht.carryRight hblank
    exact ⟨_, ⟨ht _, ht _, View.clear_of_forall hcarry m, rfl⟩, hcarry.move m⟩
  | markFirst marker =>
    obtain ⟨e, he⟩ := t.exists_isLast
    by_cases hfound : ∃ i ≤ e, t.cellAt i = .blank
    . obtain ⟨i, hi, hcell⟩ := hfound
      obtain ⟨m, hm⟩ := View.exists_isNearest hi hcell
      exact ⟨_, ⟨e, he, fun _ _ _ => ht _, .inl ⟨m, hm, fun _ _ _ => ht _, rfl⟩⟩,
        (ht.carried hblank m e m).write hx⟩
    . have hwritten : ∀ i ≤ e, t.cellAt i ≠ .blank ∧ t.cellAt i ∈ B := by
        intro i hi
        exact ⟨fun hcell => hfound ⟨i, hi, hcell⟩, ht i⟩
      exact ⟨_, ⟨e, he, fun _ _ _ => ht _, .inr ⟨hwritten, rfl⟩⟩,
        (ht.carriedAll hblank 0 e).write hx⟩
  | insertAfter marker insert =>
    obtain ⟨e, he, i, hi, hcell⟩ := hmarker marker insert rfl
    obtain ⟨m, hm⟩ := View.exists_isNearest hi hcell
    exact ⟨_, ⟨e, m, he, hm, fun _ _ _ => ht _, fun _ _ _ => ht _, rfl⟩,
      ((ht.carried hblank m e m).move .right).write hx.2⟩

theorem Directive.exists_works {B : List Cell} {x : Directive} {t : Tape} (hx : x.Over (· ∈ B))
    (hblank : .blank ∈ B) (ht : t.view.Within B)
    (hmarker : ∀ origin read marker insert next,
      x = .gadget origin read (.insertAfter marker insert) next → t.Finds marker) :
    ∃ v, x.Works B t.view v ∧ v.Within B := by
  cases x with
  | transition origin read w m next =>
    have hwrite := ht.write (hx.2.onto (ht t.view.position))
    exact ⟨_, ⟨View.clear_of_forall hwrite m, rfl⟩, hwrite.move m⟩
  | gadget origin read x next =>
    apply Gadget.exists_works hx.2 hblank ht
    rintro marker insert rfl
    exact hmarker origin read marker insert next rfl

/--
What directives lead to in a state: the first one about the cell that is read is followed, and where
there is none, the cell is erased and the machine rejects.
-/
inductive Directive.Leads (xs : List Directive) (B : List Cell) (q : String) (v : View) :
    String → View → Prop where
  | served {x : Directive} {v' : View} (serving : serving xs q v.focus = some x)
    (works : x.Works B v v') : Leads xs B q v x.next v'
  | unserved (serving : serving xs q v.focus = none) :
    Leads xs B q v Verdict.reject.state ((v.write .blank).move .right)

theorem Directive.exists_leads {B : List Cell} {xs : List Directive} {q : String} {t : Tape}
    (hxs : ∀ x ∈ xs, x.Over (· ∈ B)) (hblank : .blank ∈ B) (ht : t.view.Within B)
    (hmarker : ∀ origin read marker insert next,
      serving xs q t.focus = some (.gadget origin read (.insertAfter marker insert) next) →
        t.Finds marker) :
    ∃ q' v, Leads xs B q t.view q' v ∧ v.Within B := by
  rw [← Tape.focus_view] at hmarker
  cases hserving : serving xs q t.view.focus with
  | none => exact ⟨_, _, .unserved hserving, (ht.write hblank).move .right⟩
  | some x =>
    rw [hserving] at hmarker
    obtain ⟨v, hworks, hv⟩ := exists_works (hxs x (List.mem_of_find?_eq_some hserving)) hblank ht
      fun origin read marker insert next heq =>
        hmarker origin read marker insert next (congrArg some heq)
    exact ⟨x.next, v, .served hserving hworks, hv⟩

namespace Draft.Realizes

variable {A : Alphabet} {xs : List Directive} {d : Draft}

theorem logicalTapes (h : d.Realizes A xs) : d.compile.logicalTapes = 1 := by
  change d.tapes.count = 1
  cases htapes : d.tapes with
  | undecided => rfl
  | single => rfl
  | multi n => exact absurd htapes (h.tapes n)

theorem physicalTapes (h : d.Realizes A xs) : d.compile.physicalTapes = 1 := by
  change (if _ then d.compile.logicalTapes else 1) = 1
  rw [h.logicalTapes, ite_self]

theorem free_of_leads (h : d.Realizes A xs) {B : List Cell} {q q' : String} {v v' : View}
    (hleads : Directive.Leads xs B q v q' v') : d.guard.Free q' := by
  cases hleads with
  | served serving _ => exact (h.names _ (List.mem_of_find?_eq_some serving)).2
  | unserved _ => exact Guard.Clean.free (by decide) _

theorem next_of_leads (h : d.Realizes A xs) {q q' : String} {t : Tape} {v : View}
    (hrunning : isTerminal q = false) (hfree : d.guard.Free q) (hfocus : t.focus ∈ A.declared)
    (hleads : Directive.Leads xs A.declared q t.view q' v) :
    ∃ k t', 0 < k ∧ t'.view = v ∧ d.compile.next^[k] ⟨q, [t]⟩ = ⟨q', [t']⟩ := by
  rw [← Tape.focus_view] at hfocus
  cases hleads with
  | served serving works =>
    obtain ⟨t', ht', hsteps⟩ := h.obeys.served q _ v _ serving (fun _ => hfocus) hrunning works t rfl
    obtain ⟨k, hk, hnext⟩ := iterate_next_of_steps hsteps
    exact ⟨k, t', hk, ht', hnext⟩
  | unserved serving =>
    have hlookup := h.obeys.unserved q _ hfree serving
    have hrule : d.compile.rule? q t.focus = none := by
      rw [← Tape.focus_view]
      unfold Machine.rule?
      split
      . exact hlookup
      . rfl
    refine ⟨1, (t.write .blank).move .right, Nat.one_pos, ?_, ?_⟩
    . rw [Tape.view_move, Tape.view_write]
    . rw [Function.iterate_one, Machine.next, if_neg (by simp [hrunning])]
      simp only [Session.key, Machine.lookup, hrule, Option.getD_none, Machine.fallback,
        h.physicalTapes]
      rfl

end Draft.Realizes

namespace Machine

/-- The machine halts on an input, and leaves its head and its tape as given. -/
def HaltsWith (m : Machine) (word : List Cell) (v : Verdict) (position : Nat)
    (content : Nat → Cell) : Prop :=
  ∃ n s t, ((Session.new m ()).load word).run n = (.halted v, s) ∧ s.tapes = [t]
    ∧ t.position = position ∧ t.cellAt = content

/--
Whenever the machine comes to a directive that inserts a cell after a marker, in its run on an input,
the marker is there.
-/
def FindsMarkers (m : Machine) (xs : List Directive) (word : List Cell) : Prop :=
  ∀ n t origin read marker insert next, isTerminal (((Session.new m ()).load word).run n).2.state = false →
    (((Session.new m ()).load word).run n).2.tapes = [t] →
    Directive.serving xs (((Session.new m ()).load word).run n).2.state t.focus
      = some (.gadget origin read (.insertAfter marker insert) next) →
    t.Finds marker

theorem config_load {m : Machine} (hm : m.physicalTapes = 1) (word : List Cell) :
    ((Session.new m ()).load word).config = ⟨m.start, [.ofInput word]⟩ := by
  change Config.mk m.start (Session.inputTapes m.physicalTapes word) = _
  rw [hm]
  rfl

theorem FindsMarkers.finds {m : Machine} {xs : List Directive} {word : List Cell}
    (h : m.FindsMarkers xs word) (hm : m.physicalTapes = 1) {n : Nat} {q : String} {t : Tape}
    (hn : m.next^[n] ⟨m.start, [.ofInput word]⟩ = ⟨q, [t]⟩) (hrunning : isTerminal q = false)
    {origin next : String} {read : Pattern} {marker insert : Cell}
    (hserving : Directive.serving xs q t.focus
      = some (.gadget origin read (.insertAfter marker insert) next)) : t.Finds marker := by
  have hconfig := (Session.run_eq n ((Session.new m ()).load word)).1
  rw [config_load hm] at hconfig
  have hstate := congrArg Config.state (hconfig.trans hn)
  have htapes := congrArg Config.tapes (hconfig.trans hn)
  apply h n t origin read marker insert next _ htapes
  . exact (congrArg (Directive.serving xs · t.focus) hstate).trans hserving
  . exact (congrArg isTerminal hstate).trans hrunning

theorem haltsWith_of_run {m : Machine} {word : List Cell} {v : Verdict} (n : Nat) {t u : Tape}
    (hrun : (((Session.new m ()).load word).run n).1 = .halted v)
    (htapes : (((Session.new m ()).load word).run n).2.tapes = [t]) (hcells : t.cells = u.cells) :
    m.HaltsWith word v t.position u.cellAt := by
  refine ⟨n, _, t, Prod.ext hrun rfl, htapes, rfl, ?_⟩
  funext i
  rw [Tape.cellAt, hcells, Tape.cellAt]

theorem haltsWith_iff {m : Machine} (hm : m.physicalTapes = 1) {word : List Cell} {v : Verdict}
    {position : Nat} {content : Nat → Cell} :
    m.HaltsWith word v position content
      ↔ ∃ n t, m.next^[n] ⟨m.start, [.ofInput word]⟩ = ⟨v.state, [t]⟩
        ∧ t.position = position ∧ t.cellAt = content := by
  have hmachine : ((Session.new m ()).load word).machine = m := rfl
  have hiff (t : Tape) := @Session.exists_run_halted_iff Unit _ ((Session.new m ()).load word) v [t]
  simp only [config_load hm, hmachine] at hiff
  constructor
  . rintro ⟨n, s, t, hrun, htapes, hposition, hcontent⟩
    obtain ⟨n', hn'⟩ := (hiff t).mp ⟨n, s, hrun, htapes⟩
    exact ⟨n', t, hn', hposition, hcontent⟩
  . rintro ⟨n, t, hn, hposition, hcontent⟩
    obtain ⟨n', s, hrun, htapes⟩ := (hiff t).mpr ⟨n, hn⟩
    exact ⟨n', s, t, hrun, htapes, hposition, hcontent⟩

/-- Two machines that see the same again and again halt alike. -/
theorem halts_alike {m m' : Machine} {R : String → Tape → Tape → Prop}
    (hview : ∀ q t t', R q t t' → t'.view = t.view)
    (hstep : ∀ q t t', R q t t' → isTerminal q = false →
      ∃ k k' q₁ t₁ t₁', 0 < k ∧ m.next^[k] ⟨q, [t]⟩ = ⟨q₁, [t₁]⟩
        ∧ m'.next^[k'] ⟨q, [t']⟩ = ⟨q₁, [t₁']⟩ ∧ R q₁ t₁ t₁')
    {q : String} {t t' : Tape} (h : R q t t') {n : Nat} {v : Verdict} {u : Tape}
    (hn : m.next^[n] ⟨q, [t]⟩ = ⟨v.state, [u]⟩) :
    ∃ n' u', m'.next^[n'] ⟨q, [t']⟩ = ⟨v.state, [u']⟩ ∧ u'.position = u.position
      ∧ u'.cellAt = u.cellAt := by
  have hrelated : ∃ q₀ t₀ t₀', (⟨q, [t]⟩ : Config) = ⟨q₀, [t₀]⟩
      ∧ (⟨q, [t']⟩ : Config) = ⟨q₀, [t₀']⟩ ∧ R q₀ t₀ t₀' := ⟨q, t, t', rfl, rfl, h⟩
  obtain ⟨n', u', hsame, hn'⟩ := @halts_of_simulation m m'
    (fun c c' => ∃ q t t', c = ⟨q, [t]⟩ ∧ c' = ⟨q, [t']⟩ ∧ R q t t')
    (fun c c' => ∃ u', c.tapes.map Tape.view = [u'.view] ∧ c' = ⟨c.state, [u']⟩) (by
      rintro _ _ ⟨q, t, t', rfl, rfl, h⟩ hrunning
      obtain ⟨k, k', q₁, t₁, t₁', hk, hnext, hnext', h₁⟩ := hstep q t t' h hrunning
      exact ⟨k, k', hk, q₁, t₁, t₁', hnext, hnext', h₁⟩) (by
      rintro _ _ ⟨q, t, t', rfl, rfl, h⟩ _
      exact ⟨0, t', by rw [hview q t t' h]; rfl, rfl⟩) _ _ hrelated _ _ _ hn
  have hview' := List.head_eq_of_cons_eq hsame
  exact ⟨n', u', hn', congrArg View.position hview'.symm, congrArg View.cells hview'.symm⟩

end Machine

namespace Draft

variable {A : Alphabet} {xs : List Directive} {d e : Draft} {word : List Cell}

/-- What two drafts have in common each time they follow a directive; the first one is on its run. -/
structure Agree (B : List Cell) (word : List Cell) (d e : Draft) (q : String) (t t' : Tape) :
    Prop where
  view : t'.view = t.view
  within : t.view.Within B
  free : d.guard.Free q ∧ e.guard.Free q
  reached : ∃ n, d.compile.next^[n] ⟨d.start, [.ofInput word]⟩ = ⟨q, [t]⟩

theorem Agree.step {q : String} {t t' : Tape} (h : Agree A.declared word d e q t t')
    (hA : A.IsLettered) (hxs : ∀ x ∈ xs, x.Over (· ∈ A.declared)) (hd : d.Realizes A xs)
    (he : e.Realizes A xs) (hmarkers : d.compile.FindsMarkers xs word)
    (hrunning : isTerminal q = false) :
    ∃ k k' q₁ t₁ t₁', 0 < k ∧ 0 < k' ∧ d.compile.next^[k] ⟨q, [t]⟩ = ⟨q₁, [t₁]⟩
      ∧ e.compile.next^[k'] ⟨q, [t']⟩ = ⟨q₁, [t₁']⟩ ∧ Agree A.declared word d e q₁ t₁ t₁' := by
  obtain ⟨n, hn⟩ := h.reached
  obtain ⟨q₁, v, hleads, hv⟩ := Directive.exists_leads hxs hA.blank h.within
    fun origin read marker insert next hserving =>
      hmarkers.finds hd.physicalTapes hn hrunning hserving
  have hfocus : t.focus ∈ A.declared := by
    rw [← Tape.focus_view]
    exact h.within _
  have hfocus' : t'.focus ∈ A.declared := by
    rw [← Tape.focus_view, h.view]
    exact h.within _
  have hleads' := hleads
  rw [← h.view] at hleads'
  obtain ⟨k, t₁, hk, ht₁, hnext⟩ := hd.next_of_leads hrunning h.free.1 hfocus hleads
  obtain ⟨k', t₁', hk', ht₁', hnext'⟩ := he.next_of_leads hrunning h.free.2 hfocus' hleads'
  refine ⟨k, k', q₁, t₁, t₁', hk, hk', hnext, hnext', ?_, ?_, ?_, k + n, ?_⟩
  . rw [ht₁, ht₁']
  . rwa [ht₁]
  . exact ⟨hd.free_of_leads hleads, he.free_of_leads hleads⟩
  . rw [Function.iterate_add_apply, hn, hnext]

theorem within_ofInput {B : List Cell} (hblank : .blank ∈ B) (hword : ∀ c ∈ word, c ∈ B) :
    (Tape.ofInput word).view.Within B := by
  intro i
  have hcells : ∀ c ∈ (Tape.ofInput word).cells, c ∈ B := by
    cases word with
    | nil =>
      intro c hc
      rw [List.mem_singleton.mp hc]
      exact hblank
    | cons w ws =>
      intro c hc
      change c ∈ w :: (ws ++ [.blank]) at hc
      rw [← List.cons_append, List.mem_append] at hc
      rcases hc with hc | hc
      . exact hword c hc
      . rw [List.mem_singleton.mp hc]
        exact hblank
  change (Tape.ofInput word).cells.getD i .blank ∈ B
  rw [List.getD_eq_getElem?_getD]
  cases hget : (Tape.ofInput word).cells[i]? with
  | none => exact hblank
  | some c => exact hcells c (List.mem_of_getElem? hget)

theorem agree_ofInput (hA : A.IsLettered) (hd : d.Realizes A xs)
    (hword : ∀ c ∈ word, c ∈ A.declared) :
    Agree A.declared word d e defaultStart (.ofInput word) (.ofInput word) := by
  refine ⟨rfl, within_ofInput hA.blank hword, ⟨?_, ?_⟩, 0, ?_⟩
  . exact Guard.Clean.free (by decide) _
  . exact Guard.Clean.free (by decide) _
  . rw [Function.iterate_zero, id, hd.start]

end Draft

/--
Features do not change what a machine on one tape computes. Its alphabet consists of single characters,
no other symbols are mentioned, and each cell to be inserted finds its marker.
-/
theorem halts_independent_of_features {input extra : List Char} {F G : List Feature}
    {xs : List Directive} {d e : Draft} {word : List Cell}
    (hd : Build.submitAll (Request.all input extra F xs) (.new Draft.defaultStart) = .ok () d)
    (he : Build.submitAll (Request.all input extra G xs) (.new Draft.defaultStart) = .ok () e)
    (hxs : ∀ x ∈ xs, x.Over (· ∈ (Alphabet.ofChars input extra).declared))
    (hword : ∀ c ∈ word, c ∈ (Alphabet.ofChars input extra).declared)
    (hmarkers : d.compile.FindsMarkers xs word) (v : Verdict) (position : Nat)
    (content : Nat → Cell) :
    d.compile.HaltsWith word v position content ↔ e.compile.HaltsWith word v position content := by
  have hA := Alphabet.isLettered_ofChars input extra
  have hd' := Draft.realizes_of_submitAll hxs hd
  have he' := Draft.realizes_of_submitAll hxs he
  have hagree := @Draft.agree_ofInput _ _ d e word hA hd' hword
  have hstart : d.compile.start = Draft.defaultStart := hd'.start
  have hstart' : e.compile.start = Draft.defaultStart := he'.start
  rw [Machine.haltsWith_iff hd'.physicalTapes, Machine.haltsWith_iff he'.physicalTapes, hstart,
    hstart']
  constructor
  . rintro ⟨n, t, hn, rfl, rfl⟩
    apply @Machine.halts_alike _ _ (Draft.Agree _ word d e) _ _ _ _ _ hagree _ _ _ hn
    . exact fun _ _ _ h => h.view
    . intro q t t' h hrunning
      obtain ⟨k, k', q₁, t₁, t₁', hk, _, hnext⟩ := h.step hA hxs hd' he' hmarkers hrunning
      exact ⟨k, k', q₁, t₁, t₁', hk, hnext⟩
  . rintro ⟨n, t, hn, rfl, rfl⟩
    apply @Machine.halts_alike _ _ (fun q t' t => Draft.Agree _ word d e q t t') _ _ _ _ _ hagree
      _ _ _ hn
    . exact fun _ _ _ h => h.view.symm
    . intro q t' t h hrunning
      obtain ⟨k, k', q₁, t₁, t₁', _, hk', hnext, hnext', h₁⟩ :=
        h.step hA hxs hd' he' hmarkers hrunning
      exact ⟨k', k, q₁, t₁', t₁, hk', hnext', hnext, h₁⟩

theorem halts_independent_of_features_inserted :
    let xs := [.gadget "qstart" .any (.insertAfter (.ofChar '#') (.ofChar 'b')) "ACCEPT"]
    let word := Cell.ofText "a#a"
    let draft (F : List Feature) :=
      (Build.submitAll (Request.all ['a', '#'] ['b'] F xs)).after (.new Draft.defaultStart)
    (draft [.gadgetInsertAfterMarker]).compile.FindsMarkers xs word
      ∧ (draft []).compile.HaltsWith word .accept 3 (Tape.ofInput (Cell.ofText "a#ba")).cellAt := by
  intro xs word draft
  have hmarkers : (draft [.gadgetInsertAfterMarker]).compile.FindsMarkers xs word := by
    intro n t origin read marker insert next hrunning htapes hserving
    cases n with
    | zero =>
      rw [Session.run_zero] at htapes hserving
      obtain rfl : Tape.ofInput word = t := List.head_eq_of_cons_eq htapes
      cases hserving
      have hwritten : ∀ i < 3, 0 < i → (Tape.ofInput word).cellAt i ≠ .blank := by decide +kernel
      refine ⟨2, ⟨by decide, by decide, ?_⟩, 1, by decide, by decide⟩
      intro i hi hle
      exact hwritten i (Nat.lt_succ_of_le hle) hi
    | succ n =>
      -- The gadget is a single rule, after which the machine has halted.
      rw [Session.run_of_step_halted (show _ = Progress.halted .accept by decide +kernel)]
        at hrunning
      exact absurd hrunning (by decide +kernel)
  refine ⟨hmarkers, ?_⟩
  apply (halts_independent_of_features (Build.eq_ok_of_succeeds (by decide +kernel))
    (Build.eq_ok_of_succeeds (by decide +kernel)) (by decide +kernel) (by decide +kernel) hmarkers
    _ _ _).mp
  exact @Machine.haltsWith_of_run _ _ _ 1
    ⟨[.ofChar 'b', .ofChar '#', .ofChar 'a'], .ofChar 'a', [.blank]⟩ _ (by decide +kernel)
    (by decide +kernel) (by decide +kernel)

/--
Targets outside the alphabet that are written alike are taken for the same: a combination of cells and
two cells are listed as one text, so that without the feature the second gadget is never spelled out.
-/
theorem halts_dependent_on_features_written_alike :
    let xs := [.gadget "qstart" (.oneOf [.joint [.ofChar ',']]) (.markFirst (.ofChar '#')) "ACCEPT",
      .gadget "qstart" (.oneOf [.ofChar '<', .ofChar '>']) (.markFirst (.ofChar '#')) "ACCEPT"]
    let build (F : List Feature) := Build.submitAll (Request.all ['<', '>', ','] ['#'] F xs)
    let draft (F : List Feature) := (build F).after (.new Draft.defaultStart)
    let word := Cell.ofText "<"
    let content := (Tape.ofInput (Cell.ofText "#<")).cellAt
    (build [.gadgetFirstCellMarker]).succeeds (.new Draft.defaultStart) = true
      ∧ (build []).succeeds (.new Draft.defaultStart) = true
      ∧ (draft [.gadgetFirstCellMarker]).compile.HaltsWith word .accept 1 content
      ∧ ¬ (draft []).compile.HaltsWith word .accept 1 content := by
  refine ⟨by decide +kernel, by decide +kernel, ?_, ?_⟩
  . exact @Machine.haltsWith_of_run _ _ _ 1 ⟨[.ofChar '#'], .ofChar '<', [.blank]⟩ _
      (by decide +kernel) (by decide +kernel) (by decide +kernel)
  . rintro ⟨n, s, t, hrun, _⟩
    have hreject := @Session.verdict_unique Unit _ _ n 1 .accept .reject (congrArg Prod.fst hrun)
      (by decide +kernel)
    cases hreject

end TuringLowering
