import TuringLowering.Proofs.Opening
import TuringLowering.Proofs.Supply

/-!
This module contains the proof that several tapes can be simulated by every draft for which no transition
was requested, and that its machine turns each input into the segments that stand for these tapes.
-/

namespace TuringLowering

/-- The segments of several tapes, the first of which holds an input. -/
def Segment.initial (n : Nat) (word : List Cell) : List Cell :=
  encode ⟨word ++ [.blank], 0⟩ ++ (List.replicate (n - 1) (encode ⟨[.blank], 0⟩)).flatten

theorem Segment.initial_eq (n : Nat) (word : List Cell) :
    (Tape.ofInput word :: List.replicate (n - 1) .blank).flatMap Tape.segment = initial n word := by
  have hfirst : (Tape.ofInput word).snapshot = ⟨word ++ [.blank], 0⟩ := by
    cases word with
    | nil => rfl
    | cons c cs => rfl
  have hother : Tape.blank.snapshot = ⟨[.blank], 0⟩ := rfl
  rw [initial, ← hfirst, ← hother, encode_snapshot, encode_snapshot, List.flatMap_cons, List.flatMap_def,
    List.map_replicate]

theorem Segment.over_common {P : Cell → Prop} {g : Guard} {first : String} {n : Nat} {A : Alphabet}
    (hA : A.HasHeads) (hcells : ∀ c ∈ cells A, P c) (hfirst : P (.state first))
    (hverdict : ∀ v : Verdict, P (.state v.state)) :
    ∀ x ∈ layout g Draft.defaultStart first n A.declared ++ growth g A, x.Over P := by
  simp only [cells, hA.heads, List.forall_mem_append, List.forall_mem_cons, List.forall_mem_map] at hcells
  obtain ⟨⟨hdeclared, htagged⟩, hmarks⟩ := hcells
  have hblank := hdeclared _ hA.blank
  have hhead := htagged _ hA.blank
  simp only [layout, growth, hA.heads, List.forall_mem_append, List.forall_mem_cons, List.forall_mem_map,
    Directive.Over, Pattern.Over, Writing.Over, Gadget.action, Action.Over]
  simp +contextual [hmarks, hdeclared, htagged, hblank, hhead, hfirst, hverdict]

namespace Draft

variable {d : Draft}

structure Untouched (d : Draft) : Prop where
  start : d.start = defaultStart
  tapes : d.tapes = .undecided
  unbegun : d.Unbegun
  simulating : d.alphabet.simulating = false
  blank : .blank ∈ d.alphabet.declared
  nodup : d.alphabet.declared.Nodup
  symbols : (∀ c ∈ d.alphabet.declared, c.IsLetter) → d.alphabet.symbols = d.alphabet.declared

namespace Untouched

theorem isLettered (h : d.Untouched) (hletters : ∀ c ∈ d.alphabet.declared, c.IsLetter) :
    d.alphabet.IsLettered := ⟨h.symbols hletters, h.blank, hletters⟩

theorem withGuard (h : d.Untouched) {g : Guard} (hle : d.guard.size ≤ g.size) :
    (d.withGuard g).Untouched := by
  refine ⟨?_, h.tapes, h.unbegun.withGuard hle, h.simulating, h.blank, h.nodup, ?_⟩
  . change d.guard.rename g d.start = _
    rw [h.start]
    exact Guard.rename_of_clean (by decide) _ _
  . intro hletters
    change d.alphabet.symbols.map _ = d.alphabet.declared
    rw [h.symbols hletters]
    exact List.map_congr_left (fun c hc => (hletters c hc).nameless _) |>.trans (List.map_id _)

theorem avoid (h : d.Untouched) (name : String) : (d.avoid name).Untouched :=
  avoid_induction name h fun _ hlt => h.withGuard (Nat.le_of_lt hlt)

theorem addState (h : d.Untouched) {name : String} (hname : d.guard.Free name) :
    ((Build.addState name).after d).Untouched :=
  ⟨h.start, h.tapes, h.unbegun.addState hname, h.simulating, h.blank, h.nodup, h.symbols⟩

theorem declare (h : d.Untouched) (input extra : List Cell) :
    ({ d with alphabet := .declare input extra } : Draft).Untouched := by
  refine ⟨h.start, h.tapes, ⟨h.unbegun.states, h.unbegun.chains⟩, rfl, ?_, ?_, fun _ => rfl⟩
  . exact Build.mem_foldl_addNew.mpr (.inl (List.mem_append_right _ (List.mem_singleton_self _)))
  . exact Alphabet.nodup_foldl_addNew List.nodup_nil _

theorem withFeatures (h : d.Untouched) (F : FeatureSet) :
    ({ d with features := F } : Draft).Untouched :=
  ⟨h.start, h.tapes, ⟨h.unbegun.states, h.unbegun.chains⟩, h.simulating, h.blank, h.nodup, h.symbols⟩

theorem kept : Kept (fun d => d.Untouched ∨ d.tapes = .single) fun _ => True :=
  .of_undecided (fun _ => tapes) (fun _ input extra h => h.declare input extra)
    (fun _ F h => h.withFeatures F) (fun _ name h => h.avoid name) fun _ _ h => h.addState

end Untouched

theorem untouched_receive {rs : List Request}
    (htapes : ((new defaultStart).receive rs).tapes = .undecided) :
    ((new defaultStart).receive rs).Untouched := by
  have hnew : (new defaultStart).Untouched :=
    ⟨rfl, rfl, .of_empty rfl rfl, rfl, List.mem_singleton_self _, List.pairwise_singleton _ _, fun _ => rfl⟩
  rcases Untouched.kept.receive (.inl hnew) rs fun _ _ => trivial with ⟨n, hn⟩ | h | hsingle
  . rw [htapes] at hn
    cases hn
  . exact h
  . rw [htapes] at hsingle
    cases hsingle

/-- A draft on which several tapes were just opened, with the symbols of a shared tape. -/
structure Opened (first : String) (n : Nat) (A : Alphabet) (d : Draft) : Prop where
  start : d.start = defaultStart
  features : d.features.enabled .multiTape = false
  tapes : d.tapes = .multi n
  alphabet : d.alphabet = A
  heads : A.HasHeads
  orderly : A.IsOrderly
  free : d.guard.Free first
  executed : ∃ names : List String, d.Executed d.guard (Segment.cells A) (Segment.ReadsNames d.guard)
    (names.map .idle ++ Segment.common d.guard first n A)
  mentions : ∀ P : Cell → Prop, (∀ c ∈ Segment.cells A, P c) → P (.state first) →
    (∀ v : Verdict, P (.state v.state)) → d.Over P

theorem Opened.prepared {n : Nat} {first : String} {A : Alphabet} (h : d.Opened first n A) :
    d.Prepared d.guard A first n := by
  obtain ⟨names, hexecuted⟩ := h.executed
  apply hexecuted.prepared (fun x hx => List.mem_append_right _ hx)
  intro x _ _ y hy _
  rcases List.mem_append.mp hy with hy | hy
  . right
    obtain ⟨s, _, rfl⟩ := List.mem_map.mp hy
    exact fun c hmatch => by cases hmatch
  . exact .inl hy

theorem over_simulateTapes {P : Cell → Prop} {n : Nat} {first : String} {e : Draft}
    (hA : d.alphabet.IsLettered) (hsimulating : d.alphabet.simulating = false) (hd : d.Unbegun)
    (hstart : d.start = defaultStart) (hcells : ∀ c ∈ Segment.cells (d.alphabet.shared first), P c)
    (hfirst : P (.state first)) (hverdict : ∀ v : Verdict, P (.state v.state))
    (hok : Build.simulateTapes n first d = .ok () e) : e.Over P := by
  have hheads := Alphabet.hasHeads_shared first hA hsimulating
  have hblank : P .blank := hcells _ (Alphabet.mem_cells_of_declared hheads.blank)
  have hcommon := Segment.over_common (g := d.guard) (n := n) hheads hcells hfirst hverdict
  have hdirectives {xs : List Directive} (hxs : ∀ x ∈ xs, x.Over P) :
      Build.Maintains (Draft.Over P) (Build.directives xs) :=
    Build.Maintains.forM fun x hx => Build.directive_over (hxs x hx) hblank
  have hshared : (d.withShared first).Over P := by
    refine ⟨?_, ?_⟩
    . intro c hc
      rcases (Alphabet.mem_symbols_shared first hA hsimulating).mp hc with hc | ⟨q, hq, rfl⟩
      . exact hcells c hc
      . simp only [List.mem_cons, List.not_mem_nil, or_false] at hq
        rcases hq with rfl | rfl | rfl
        . exact hfirst
        . exact hverdict .accept
        . exact hverdict .reject
    . intro s c o _ ho
      have hnone := StateTables.lookup_of_empty (fun e he => (hd.states e he).2) s c
      cases hnone.symm.trans ho
  rw [simulateTapes_apply, hstart] at hok
  refine Build.Maintains.of_ok ?_ hshared hok
  refine .bind (hdirectives fun x hx => hcommon x (List.mem_append_left _ hx)) fun _ => ?_
  refine .bind (Build.addState_over _) fun _ => ?_
  exact hdirectives fun x hx => hcommon x (List.mem_append_right _ hx)

namespace Untouched

variable {n : Nat} (hd : d.Untouched) (hmulti : d.features.enabled .multiTape = false) (hn : 2 ≤ n)
  (first : String)
include hd hmulti hn

theorem submit_tapes : Build.submit (.tapes n first) d
    = Build.simulateTapes n first { d.avoid first with tapes := .multi n } := by
  have hfeatures : (d.avoid first).features = d.features := by
    unfold Draft.avoid
    split <;> rfl
  rw [Build.submit, Build.setTapes_apply hn first hd.tapes, Build.openTapes_apply, hfeatures, hmulti,
    if_neg Bool.false_ne_true]

theorem exists_opened (hletters : ∀ c ∈ d.alphabet.declared, c.IsLetter) :
    ∃ e A, Build.submit (.tapes n first) d = .ok () e ∧ e.Opened first n A
      ∧ A.declared = d.alphabet.declared := by
  have hdeclared : (d.avoid first).alphabet.declared = d.alphabet.declared := by
    unfold Draft.avoid
    split <;> rfl
  have hfeatures : (d.avoid first).features = d.features := by
    unfold Draft.avoid
    split <;> rfl
  rw [hd.submit_tapes hmulti hn first]
  rw [← hdeclared] at hletters
  rw [← hfeatures] at hmulti
  have havoid := hd.avoid first
  have hfree := d.free_avoid first
  have hA := havoid.isLettered hletters
  have hunbegun : ({ d.avoid first with tapes := .multi n } : Draft).Unbegun :=
    ⟨havoid.unbegun.states, havoid.unbegun.chains⟩
  obtain ⟨e, hok, _⟩ := exists_simulateTapes (d := { d.avoid first with tapes := .multi n }) (n := n) hA
    havoid.nodup havoid.simulating hfree hunbegun havoid.start
  obtain ⟨hexecuted, _, hrest⟩ := executed_simulateTapes (d := { d.avoid first with tapes := .multi n }) hA
    havoid.simulating hfree hunbegun havoid.start hok
  have hguard := hexecuted.guard
  refine ⟨e, (d.avoid first).alphabet.shared first, hok,
    ⟨?_, ?_, ?_, ?_, ?_, ?_, ?_, ⟨_, hguard ▸ hexecuted⟩, ?_⟩,
    (Alphabet.declared_shared first).trans hdeclared⟩
  . rw [hrest]
    exact havoid.start
  . rw [hrest]
    exact hmulti
  . rw [hrest]
    rfl
  . rw [hrest]
    rfl
  . exact Alphabet.hasHeads_shared first hA havoid.simulating
  . exact Alphabet.isOrderly_shared hA havoid.nodup havoid.simulating first
  . rw [hguard]
    exact hfree
  . intro P hcells hfirst hverdict
    exact over_simulateTapes (d := { d.avoid first with tapes := .multi n }) hA havoid.simulating hunbegun
      havoid.start hcells hfirst hverdict hok

end Untouched

end Draft

theorem Segment.cells_of_shared {q : String} {ts : List Tape} {t : Tape} (ht : t.view = shared q ts) :
    t.position = 1 ∧ ∃ blanks, t.cells
      = [.start, .state q] ++ ts.flatMap Tape.segment ++ [.afterLast] ++ List.replicate blanks .blank := by
  refine ⟨congrArg View.position ht, ?_⟩
  obtain ⟨blanks, hcells⟩ :=
    Tape.cells_eq_of_view (l := [.start]) (r := .state q :: ts.flatMap Tape.segment) ht (by decide)
  exact ⟨blanks, hcells⟩

/--
On a draft for which no transition was requested, several tapes can be simulated with every set of
features. As long as the skip over their segments is a movement to the right, each input is laid out as the
segments of these tapes.
-/
theorem input_laid_out {rs : List Request} {d : Draft} (hd : d = (Draft.new Draft.defaultStart).receive rs)
    (hundecided : d.tapes = .undecided) (hmulti : d.features.enabled .multiTape = false)
    (hletters : ∀ c ∈ d.alphabet.declared, c.IsLetter) {n : Nat} (hn : 2 ≤ n) (first : String)
    {word : List Cell} (hword : ∀ c ∈ word, c ∈ d.alphabet.declared ∧ c ≠ .blank) :
    ∃ e, Build.submit (.tapes n first) d = .ok () e
      ∧ ((n - 1) * 3 + 1 < 2 ^ 63 → ∃ (k : Nat) (t : Tape) (blanks : Nat),
        (e.compile.ran word k).2.config = ⟨Segment.stepState e.guard, [t]⟩
        ∧ t.position = 1
        ∧ t.cells = [.start, .state first] ++ Segment.initial n word ++ [.afterLast]
          ++ List.replicate blanks .blank) := by
  have huntouched : d.Untouched := by
    subst hd
    exact Draft.untouched_receive hundecided
  obtain ⟨e, A, hok, hopened, hdeclared⟩ := huntouched.exists_opened hmulti hn first hletters
  refine ⟨e, hok, ?_⟩
  intro hbound
  rw [← hdeclared] at hword
  obtain ⟨k, t, _, hk, ht⟩ :=
    (hopened.prepared.layout_reaches hopened.heads hbound hword).iterate (Tape.view_ofInput word)
  obtain ⟨hposition, blanks, hcells⟩ := Segment.cells_of_shared ht
  refine ⟨k, t, blanks, ?_, hposition, by rw [hcells, Segment.initial_eq]⟩
  have hphysical : e.compile.physicalTapes = 1 := by
    change (if e.features.enabled .multiTape then _ else 1) = 1
    rw [hopened.features]
    rfl
  have hinitial : e.compile.initial word = ⟨Draft.defaultStart, [.ofInput word]⟩ := by
    rw [Machine.initial, hphysical]
    exact congrArg (Config.mk · _) hopened.start
  rw [Machine.config_ran, hinitial, hk]

/-- The guard is a symbol, occurs in the name of the first state, and is widened before. -/
theorem input_laid_out_three_tapes :
    let rs : List Request :=
      [ .alphabets [.literal "a", .literal "Ω"] [.literal "x"], .features [.moveNone], .tapes 1 "p",
        .state "rΩ" ]
    let word : List Cell := [.literal "Ω", .literal "a"]
    let d := (Draft.new Draft.defaultStart).receive rs
    ((Draft.new Draft.defaultStart).answers rs = [true, true, false, true]
      ∧ d.tapes = .undecided ∧ d.features.enabled .multiTape = false ∧ (3 - 1) * 3 + 1 < 2 ^ 63)
    ∧ ∃ e, Build.submit (.tapes 3 "ΩΩp") d = .ok () e
      ∧ ∃ (k : Nat) (t : Tape) (blanks : Nat),
        (e.compile.ran word k).2.config = ⟨Segment.stepState e.guard, [t]⟩
        ∧ t.position = 1
        ∧ t.cells = [.start, .state "ΩΩp"] ++ Segment.initial 3 word ++ [.afterLast]
          ++ List.replicate blanks .blank := by
  intro rs word d
  have hdeclared : d.alphabet.declared = [.literal "a", .literal "Ω", .literal "x", .blank] := by
    decide +kernel
  have htapes : d.tapes = .undecided ∧ d.features.enabled .multiTape = false := by decide +kernel
  refine ⟨⟨by decide +kernel, htapes.1, htapes.2, by decide⟩, ?_⟩
  have hletters : ∀ c ∈ d.alphabet.declared, c.IsLetter := by
    rw [hdeclared]
    simp only [List.forall_mem_cons]
    exact ⟨.inl ⟨'a', rfl⟩, .inl ⟨'Ω', rfl⟩, .inl ⟨'x', rfl⟩, .inr rfl, List.forall_mem_nil _⟩
  have hword : ∀ c ∈ word, c ∈ d.alphabet.declared ∧ c ≠ .blank := by
    rw [hdeclared]
    decide
  obtain ⟨e, hok, hlaid⟩ :=
    input_laid_out (n := 3) rfl htapes.1 htapes.2 hletters (by decide) "ΩΩp" hword
  exact ⟨e, hok, hlaid (by decide)⟩

/--
The width of the skip is read as a signed word. With more than about three quintillions of tapes, it becomes
a movement to the left, and the machine rejects before the input is laid out.
-/
theorem input_not_laid_out :
    let rs : List Request :=
      [.alphabets [.literal "a"] [], .features (Feature.all.erase .multiTape)]
    let d := (Draft.new Draft.defaultStart).receive rs
    let r : Request := .tapes 4611686018427387905 "q"
    let e := (Build.submit r).after d
    (Build.submit r).succeeds d = true
      ∧ (e.compile.ran [.literal "a"] 8).2.state = "REJECT"
      ∧ ∀ k, (e.compile.ran [.literal "a"] k).2.state ≠ Segment.stepState e.guard := by
  intro rs d r e
  have hreject : (e.compile.ran [.literal "a"] 8).2.state = "REJECT" := by decide +kernel
  have hbefore : ∀ k < 8, (e.compile.ran [.literal "a"] k).2.state ≠ Segment.stepState e.guard := by
    decide +kernel
  refine ⟨by decide +kernel, hreject, ?_⟩
  intro k
  rcases Nat.lt_or_ge k 8 with hk | hk
  . exact hbefore k hk
  . -- The machine stays in the state in which it has rejected.
    have hstate (k : Nat) : (e.compile.ran [.literal "a"] k).2.state
        = (e.compile.next^[k] (e.compile.initial [.literal "a"])).state :=
      congrArg Config.state (Machine.config_ran _ _ k)
    rw [hstate] at hreject
    have hterminal : isTerminal (e.compile.next^[8] (e.compile.initial [.literal "a"])).state = true := by
      rw [hreject]
      decide
    obtain ⟨j, rfl⟩ : ∃ j, k = j + 8 := ⟨k - 8, by omega⟩
    rw [hstate, Function.iterate_add_apply, e.compile.iterate_next_of_terminal hterminal]
    intro heq
    rw [heq, Segment.stepState, Guard.isTerminal_text_append] at hterminal
    cases hterminal

end TuringLowering
