import TuringLowering.Proofs.Mirror
import TuringLowering.Proofs.Runs

/-!
This module contains the proof that it makes no difference for an author whether the tapes of a machine
are its own or simulated: the verdicts are the same, and so are the tapes as long as the steps are made
by transitions.
-/

namespace TuringLowering

open JointTransition

theorem Alphabet.simulating_ofChars (input extra : List Char) :
    (ofChars input extra).simulating = false := rfl

theorem JointTransition.Over.mem_of_mentioned {B : List Cell} {t : JointTransition}
    (h : t.Over (· ∈ B)) : ∀ c ∈ (Request.joint t).mentioned, c ∈ B := by
  intro c hc
  rw [Request.mentioned, List.mem_append, List.mem_flatMap, List.mem_flatMap] at hc
  rcases hc with ⟨p, hp, hc⟩ | ⟨w, hw, hc⟩
  . exact (h.1 p hp).of_mem_cells hc
  . have hover := h.2 w hw
    cases w with
    | keep => cases hc
    | put c' =>
      rw [List.mem_singleton.mp hc]
      exact hover

theorem Machine.logicalTapes_of_several {m : Machine} {word : List Cell} {n k : Nat} (hn : 1 < n)
    (hlength : (m.ran word k).2.tapes.length = n) :
    (m.ran word k).2.logicalTapes = (m.ran word k).2.tapes.map Tape.snapshot := by
  unfold Session.logicalTapes
  split
  . next heq =>
    rw [heq, List.length_singleton] at hlength
    omega
  . rfl

namespace Draft

section

variable {input extra : List Char} {n : Nat} {first : String} {ts : List JointTransition}
  (hinput : ∀ c ∈ input ++ extra, c ≠ Guard.mark)
  (hts : ∀ t ∈ ts, t.Over (· ∈ (Alphabet.ofChars input extra).declared))
include hinput hts

theorem clean_of_over : ∀ t ∈ ts, ∀ c ∈ (Request.joint t).mentioned, Guard.Clean c.display :=
  fun t ht c hc => Build.clean_ofChars hinput c ((hts t ht).mem_of_mentioned c hc)

theorem owns_or_mirrors {features : List Feature} {d : Draft}
    (h : Build.submitAll (Request.onTapes input extra features n first ts) (.new defaultStart)
      = .ok () d) :
    (d.features.enabled .multiTape = true ∧ (∀ t ∈ ts, t.Fits n)
        ∧ d.Owns d.guard (.ofChars input extra) d.features n first
          (program d.guard d.features ts).1 (program d.guard d.features ts).2)
      ∨ d.features.enabled .multiTape = false
        ∧ d.Mirrors d.guard ((Alphabet.ofChars input extra).shared first) n first
          (unrollAll d.guard ts).1 (unrollAll d.guard ts).2 := by
  have hA := Alphabet.isLettered_ofChars input extra
  have hclean := Build.clean_ofChars hinput
  have hsimulating := Alphabet.simulating_ofChars input extra
  obtain ⟨hfirst, hnames, hfixed⟩ := Build.onTapes_withGuard hinput (clean_of_over hinput hts) h
  obtain ⟨hn, F, d₁, hopen, hjoints⟩ := Build.onTapes_eq_ok hfixed
  have hpos := Nat.zero_lt_of_lt hn
  cases hF : F.enabled .multiTape with
  | true =>
    have howns : d₁.Owns d.guard (.ofChars input extra) F n first (program d.guard F []).1
        (program d.guard F []).2 := by
      have hnil : program d.guard F [] = ([], []) := by
        unfold program
        split <;> rfl
      rw [hnil]
      exact .openTapes hF hfirst hopen
    obtain ⟨howns, hfits⟩ := howns.submitAll hA hF hpos hts hnames hjoints
    rw [List.nil_append] at howns
    obtain rfl := howns.features
    exact .inl ⟨hF, hfits, howns⟩
  | false =>
    have hmirrors : d₁.Mirrors d.guard ((Alphabet.ofChars input extra).shared first) n first
        (unrollAll d.guard []).1 (unrollAll d.guard []).2 :=
      mirrors_of_openTapes hA hsimulating hF hfirst hopen
    have hS := Alphabet.isSegmented_shared first hA hsimulating hclean
    have hall := hmirrors.submitAll hS hpos (by rwa [Alphabet.declared_shared]) hnames hjoints
    obtain ⟨_, R, _, hshares, _⟩ := hall.routes
    exact .inr ⟨hshares.features, hall⟩

end

namespace Owns

variable {g : Guard} {A : Alphabet} {F : FeatureSet} {n : Nat} {first : String}
  {made : List ChainKey} {P : List JointTransition} {d : Draft} {word : List Cell}

theorem initial (h : d.Owns g A F n first made P) (hF : F.enabled .multiTape = true) :
    d.compile.initial word = ⟨first, Session.inputTapes n word⟩ := by
  rw [Machine.initial, h.physicalTapes hF]
  exact congrArg (Config.mk · _) h.start

end Owns

namespace Mirrors

open Segment

variable {g : Guard} {A : Alphabet} {n : Nat} {first : String} {made : List ChainKey}
  {P : List JointTransition} {e : Draft} {word : List Cell} (h : e.Mirrors g A n first made P)
include h

theorem initial : e.compile.initial word = ⟨e.start, [.ofInput word]⟩ := by
  obtain ⟨_, R, _, hshares, _⟩ := h.routes
  rw [Machine.initial, hshares.physicalTapes]
  rfl

variable (hn : 1 < n)
include hn

theorem logicalTapes {m : Nat} {t : Tape} (ht : (e.compile.ran word m).2.tapes = [t]) :
    (e.compile.ran word m).2.logicalTapes = decode t.cells n := by
  obtain ⟨_, R, _, hshares, _⟩ := h.routes
  have hcount : e.compile.logicalTapes = n := by
    rw [compile, hshares.tapes]
    rfl
  have hshared : (e.compile.ran word m).2.machine.sharesTape = true := by
    rw [Machine.machine_ran, Machine.sharesTape, hshares.physicalTapes, hcount]
    exact decide_eq_true hn
  rw [Session.logicalTapes, ht]
  dsimp only
  rw [if_pos hshared, Machine.machine_ran, hcount]

theorem logicalTapes_of_reflects (hA : A.IsSegmented) {a : String × List View} {m : Nat}
    (hm : Reflects g A n a (e.compile.next^[m] (e.compile.initial word))) :
    ∃ us : List Tape, us.map Tape.view = a.2
      ∧ (e.compile.ran word m).2.logicalTapes = us.map Tape.snapshot
      ∧ (isTerminal a.1 = true → (e.compile.ran word m).2.state = a.1)
      ∧ isTerminal (e.compile.ran word m).2.state = isTerminal a.1 := by
  rw [← Machine.config_ran] at hm
  obtain ⟨us, hholds, hlength, hwithin, hviews⟩ := hm
  obtain ⟨t, htapes, ht⟩ := hholds.tape
  refine ⟨us, hviews, ?_, hholds.halted, hholds.isTerminal_state⟩
  have hletters : ∀ u ∈ us, ∀ c ∈ u.cells, c.IsLetter := by
    intro u hu c hc
    exact hA.letters c (Tape.mem_of_within (hwithin u hu) hc)
  rw [h.logicalTapes hn htapes, ← hlength]
  exact decode_shared hletters ht

end Mirrors

/-- A machine with tapes of its own and one with simulated tapes, made of the same transitions. -/
structure Twins (g : Guard) (A : Alphabet) (n : Nat) (first : String) (ts : List JointTransition)
    (d e : Draft) : Prop where
  lettered : A.IsLettered
  segmented : (A.shared first).IsSegmented
  several : 1 < n
  named : g.Free first
  fits : ∀ t ∈ ts, t.Fits n
  names : ∀ t ∈ ts, g.Free t.origin ∧ g.Free t.next
  effective : d.features.enabled .multiTape = true
  owns : d.Owns g A d.features n first (program g d.features ts).1 (program g d.features ts).2
  mirrors : e.Mirrors g (A.shared first) n first (unrollAll g ts).1 (unrollAll g ts).2

theorem twins_of_onTapes {input extra : List Char} {F G : List Feature} {n : Nat} {first : String}
    {ts : List JointTransition} {d e : Draft} (hinput : ∀ c ∈ input ++ extra, c ≠ Guard.mark)
    (hts : ∀ t ∈ ts, t.Over (· ∈ (Alphabet.ofChars input extra).declared))
    (hd : Build.submitAll (Request.onTapes input extra F n first ts) (.new defaultStart) = .ok () d)
    (he : Build.submitAll (Request.onTapes input extra G n first ts) (.new defaultStart) = .ok () e)
    (hown : d.features.enabled .multiTape = true) (hshared : e.features.enabled .multiTape = false) :
    d.Twins d.guard (.ofChars input extra) n first ts e := by
  have hclean := clean_of_over hinput hts
  obtain ⟨hfirst, hnames, hfixed⟩ := Build.onTapes_withGuard hinput hclean hd
  obtain ⟨hn, _⟩ := Build.onTapes_eq_ok hfixed
  have hguard : e.guard = d.guard := by
    rw [Build.guard_onTapes hinput hclean hd, Build.guard_onTapes hinput hclean he]
  have hA := Alphabet.isLettered_ofChars input extra
  have hS := Alphabet.isSegmented_shared first hA (Alphabet.simulating_ofChars input extra)
    (Build.clean_ofChars hinput)
  obtain ⟨_, hfits, howns⟩ | ⟨hnot, _⟩ := owns_or_mirrors hinput hts hd
  . obtain ⟨hnot, _⟩ | ⟨_, hmirrors⟩ := owns_or_mirrors hinput hts he
    . rw [hshared] at hnot
      cases hnot
    . rw [hguard] at hmirrors
      exact ⟨hA, hS, hn, hfirst, hfits, hnames, hown, howns, hmirrors⟩
  . rw [hown] at hnot
    cases hnot

namespace Twins

open Segment

variable {g : Guard} {A : Alphabet} {n : Nat} {first : String} {ts : List JointTransition}
  {d e : Draft} {word : List Cell} (h : d.Twins g A n first ts e)
include h

theorem plan : Plan g n ts (unrollAll g ts).1 (unrollAll g ts).2 :=
  plan_unrollAll h.fits fun t ht => (h.names t ht).1

theorem run_of_leads {a b : String × List View}
    (hab : Leads (program g d.features ts).2 a b)
    (hfree : d.features.enabled .moveMulti = true → g.Free a.1) :
    Relation.ReflTransGen (Leads (unrollAll g ts).2) a b
      ∧ (d.features.enabled .moveMulti = true → g.Free b.1) := by
  cases hmoves : d.features.enabled .moveMulti with
  | false =>
    rw [program, hmoves, if_neg Bool.false_ne_true] at hab
    exact ⟨.single hab, fun h => absurd h Bool.false_ne_true⟩
  | true =>
    rw [program, hmoves, if_pos rfl] at hab
    refine ⟨(h.plan.leads h.fits (hfree hmoves) hab).to_reflTransGen, fun _ => ?_⟩
    obtain ⟨_, hserving⟩ := hab
    exact (h.names _ (mem_of_serving hserving).1).2

theorem run_of_followsRules (hword : ∀ c ∈ word, c ∈ A.declared) {k : Nat}
    (hk : d.compile.FollowsRules word k) :
    (d.compile.next^[k] (d.compile.initial word)).On n A.declared
      ∧ (d.features.enabled .moveMulti = true →
        g.Free (d.compile.next^[k] (d.compile.initial word)).state)
      ∧ Relation.ReflTransGen (Leads (unrollAll g ts).2)
        (first, (Session.inputTapes n word).map Tape.view)
        ((d.compile.next^[k] (d.compile.initial word)).state,
          (d.compile.next^[k] (d.compile.initial word)).tapes.map Tape.view) := by
  induction k with
  | zero =>
    rw [Function.iterate_zero, id, h.owns.initial h.effective]
    exact ⟨.input h.lettered.blank hword, fun _ => h.named, .refl⟩
  | succ k ih =>
    obtain ⟨hk, hrunning, hrule⟩ := Machine.followsRules_succ hk
    obtain ⟨hon, hfree, hrun⟩ := ih hk
    obtain ⟨hon', hleads⟩ := h.owns.leads_of_rule h.lettered h.several hon hrunning hrule
    obtain ⟨hstep, hfree'⟩ := h.run_of_leads hleads hfree
    rw [Function.iterate_succ_apply']
    exact ⟨hon', hfree', hrun.trans hstep⟩

section

variable (hn : (n - 1) * 3 + 1 < 2 ^ 63) (hfirst : isTerminal first = false)
  (hword : ∀ c ∈ word, c ∈ A.declared ∧ c ≠ .blank)
include hn hfirst hword

theorem reflects_input :
    ∃ k, Reflects g (A.shared first) n (first, (Session.inputTapes n word).map Tape.view)
      (e.compile.next^[k] (e.compile.initial word)) := by
  rw [h.mirrors.initial]
  apply h.mirrors.reflects_input h.segmented (Nat.zero_lt_of_lt h.several) hn hfirst
  rwa [Alphabet.declared_shared]

theorem halts_iff (v : Verdict) : d.compile.Halts word v ↔ e.compile.Halts word v := by
  obtain ⟨k, hk⟩ := h.reflects_input hn hfirst hword
  have hinput : (d.compile.initial word).On n A.declared := by
    rw [h.owns.initial h.effective]
    exact .input h.lettered.blank fun c hc => (hword c hc).1
  rw [Machine.halts_iff, Machine.halts_iff, h.owns.verdict_iff h.lettered h.several hinput,
    ← e.compile.halts_iff_later (e.compile.initial word) k v,
    ← h.mirrors.verdict_iff h.segmented (Nat.zero_lt_of_lt h.several) hk, h.owns.initial h.effective, program]
  split
  . exact h.plan.verdict_iff h.fits (fun t ht => (h.names t ht).2) h.named _ v
  . rfl

theorem exists_reflects {k : Nat} (hk : d.compile.FollowsRules word k) :
    (d.compile.ran word k).2.config.On n A.declared
      ∧ (d.features.enabled .moveMulti = true → g.Free (d.compile.ran word k).2.state)
      ∧ ∃ m, Reflects g (A.shared first) n ((d.compile.ran word k).2.state,
        (d.compile.ran word k).2.tapes.map Tape.view) (e.compile.next^[m] (e.compile.initial word)) := by
  obtain ⟨hon, hfree, hrun⟩ := h.run_of_followsRules (fun c hc => (hword c hc).1) hk
  obtain ⟨j, hj⟩ := h.reflects_input hn hfirst hword
  obtain ⟨m, hm⟩ := h.mirrors.reflects_of_run h.segmented (Nat.zero_lt_of_lt h.several) hj hrun
  rw [← Function.iterate_add_apply] at hm
  rw [← Machine.config_ran] at hon hfree hm
  exact ⟨hon, hfree, m + j, hm⟩

theorem exists_alike {k : Nat} (hk : d.compile.FollowsRules word k) :
    ∃ m, (e.compile.ran word m).2.progress = (d.compile.ran word k).2.progress
      ∧ List.Forall₂ Snapshot.Alike (e.compile.ran word m).2.logicalTapes
        (d.compile.ran word k).2.logicalTapes := by
  obtain ⟨hon, _, m, hm⟩ := h.exists_reflects hn hfirst hword hk
  obtain ⟨us, hviews, hlogical, hhalted, hterminal⟩ :=
    h.mirrors.logicalTapes_of_reflects h.several h.segmented hm
  refine ⟨m, ?_, ?_⟩
  . cases hstate : isTerminal (d.compile.ran word k).2.state with
    | true => exact congrArg Progress.ofState (hhalted hstate)
    | false =>
      rw [Session.progress_eq_running_iff.mpr hstate, Session.progress_eq_running_iff]
      exact hterminal.trans hstate
  . rw [hlogical, Machine.logicalTapes_of_several h.several hon.length]
    exact Tape.alike_of_view hviews

omit hn hfirst hword in
theorem serving_eq_none {c : Config} (hc : c.On n A.declared) (hrunning : isTerminal c.state = false)
    (hfree : d.features.enabled .moveMulti = true → g.Free c.state)
    (hrule : d.compile.rule? c.state (Session.key c.tapes) = none) :
    serving (unrollAll g ts).2 c.state (c.tapes.map Tape.focus) = none := by
  have hnone : serving (program g d.features ts).2 c.state (c.tapes.map Tape.focus) = none := by
    cases hserving : serving (program g d.features ts).2 c.state (c.tapes.map Tape.focus) with
    | none => rfl
    | some t =>
      have hsome := (h.owns.next_of_serving h.lettered h.several hc hrunning hserving).1
      rw [hrule] at hsome
      cases hsome
  cases hmoves : d.features.enabled .moveMulti with
  | false => rwa [program, hmoves, if_neg Bool.false_ne_true] at hnone
  | true =>
    rw [program, hmoves, if_pos rfl] at hnone
    rw [h.plan.free c.state (hfree hmoves), hnone, Option.map_none]

theorem exists_spared {k : Nat} (hrunning : (d.compile.ran word k).2.progress = .running)
    (hrule : ¬ d.compile.FollowsRules word (k + 1)) :
    (d.compile.ran word (k + 1)).2.progress = .halted .reject
      ∧ List.Forall₂ Snapshot.Spares (d.compile.ran word k).2.logicalTapes
        (d.compile.ran word (k + 1)).2.logicalTapes
      ∧ ∃ m, (e.compile.ran word m).2.progress = .halted .reject
        ∧ List.Forall₂ Snapshot.Spares (d.compile.ran word k).2.logicalTapes
          (e.compile.ran word m).2.logicalTapes := by
  have hk := Machine.followsRules_of_running hrunning
  obtain ⟨hon, hfree, m, ts', hholds, hlength, hwithin, hviews⟩ :=
    h.exists_reflects hn hfirst hword hk
  have hstate := Session.progress_eq_running_iff.mp hrunning
  have hnone : d.compile.rule? (d.compile.ran word k).2.config.state
      (Session.key (d.compile.ran word k).2.config.tapes) = none := by
    by_contra hsome
    refine hrule (Machine.followsRules_succ_of_rule hk hrunning ?_)
    exact Option.isSome_iff_ne_none.mpr hsome
  have hunserved := h.serving_eq_none hon hstate hfree hnone
  have hfoci : ts'.map Tape.focus = (d.compile.ran word k).2.config.tapes.map Tape.focus := by
    rw [← Tape.map_focus_view, hviews, Tape.map_focus_view]
    rfl
  have hconfig : d.compile.next (d.compile.ran word k).2.config
      = (d.compile.ran word (k + 1)).2.config := by
    rw [Machine.config_ran, Machine.config_ran, Function.iterate_succ_apply']
  obtain ⟨hreject, hspares⟩ := Machine.spares_of_fallback hstate hnone
  rw [hconfig] at hreject hspares
  have hlength' : (d.compile.ran word (k + 1)).2.tapes.length = n := by
    have := hspares.length_eq
    rw [List.length_map, List.length_map, hon.length] at this
    exact this.symm
  rw [Machine.logicalTapes_of_several h.several hon.length, Machine.logicalTapes_of_several h.several hlength']
  refine ⟨congrArg Progress.ofState hreject, hspares, ?_⟩
  obtain ⟨j, t, _, hiterate, hspared⟩ := h.mirrors.iterate_of_unserved h.segmented
    (Nat.zero_lt_of_lt h.several) hholds hlength hwithin hstate (hfoci ▸ hunserved)
  rw [← Function.iterate_add_apply, ← Machine.config_ran] at hiterate
  have htapes : (e.compile.ran word (j + m)).2.tapes = [t] := congrArg Config.tapes hiterate
  refine ⟨j + m, congrArg Progress.ofState (congrArg Config.state hiterate), ?_⟩
  rw [h.mirrors.logicalTapes h.several htapes]
  exact Snapshot.spares_of_alike (Tape.alike_of_view hviews) hspared

end

end Twins

end Draft

theorem Alphabet.mem_of_word {input extra word : List Char} (hword : ∀ c ∈ word, c ∈ input ++ extra) :
    ∀ c ∈ word.map Cell.ofChar, c ∈ (ofChars input extra).declared ∧ c ≠ .blank := by
  intro c hc
  obtain ⟨char, hchar, rfl⟩ := List.mem_map.mp hc
  exact ⟨mem_ofChars.mpr (.inl ⟨char, hword char hchar, rfl⟩), nofun⟩

section

open Build (submitAll)

variable {input extra word : List Char} {F G : List Feature} {n : Nat} {first : String}
  {ts : List JointTransition} {d e : Draft}

/--
A machine computes the same whether its tapes are its own or share one. The movement over the segments of
`n` tapes has to be a signed 64-bit number. It is one for as many tapes as fit into memory, where a machine
with tapes of its own keeps an action for each of them.
-/
theorem shared_tape_simulates (hinput : ∀ c ∈ input ++ extra, c ≠ Guard.mark)
    (hn : (n - 1) * 3 + 1 < 2 ^ 63) (hfirst : isTerminal first = false)
    (hts : ∀ t ∈ ts, t.Over (· ∈ (Alphabet.ofChars input extra).declared))
    (hd : submitAll (Request.onTapes input extra F n first ts) (.new Draft.defaultStart) = .ok () d)
    (he : submitAll (Request.onTapes input extra G n first ts) (.new Draft.defaultStart) = .ok () e)
    (hown : d.features.enabled .multiTape = true) (hshared : e.features.enabled .multiTape = false)
    (hword : ∀ c ∈ word, c ∈ input ++ extra) :
    (∀ v, d.compile.Halts (word.map .ofChar) v ↔ e.compile.Halts (word.map .ofChar) v)
      ∧ ∀ k, d.compile.FollowsRules (word.map .ofChar) k →
        ∃ m, (e.compile.ran (word.map .ofChar) m).2.progress
            = (d.compile.ran (word.map .ofChar) k).2.progress
          ∧ List.Forall₂ Snapshot.Alike (e.compile.ran (word.map .ofChar) m).2.logicalTapes
            (d.compile.ran (word.map .ofChar) k).2.logicalTapes := by
  have htwins := Draft.twins_of_onTapes hinput hts hd he hown hshared
  have hcells := Alphabet.mem_of_word hword
  exact ⟨htwins.halts_iff hn hfirst hcells, fun k hk => htwins.exists_alike hn hfirst hcells hk⟩

/-- A copy of the input that leaves an empty cell after each letter. -/
theorem shared_tape_simulates_copy :
    let ts := [⟨"q", .tapes [.cell (.ofChar 'a'), .any], [.keep, .put (.ofChar 'a')],
        [.right, .rightBy 2], "q"⟩,
      ⟨"q", .any, [.keep, .keep], [.left, .stay], "ACCEPT"⟩]
    let draft (F : List Feature) :=
      (submitAll (Request.onTapes ['a'] [] F 2 "q" ts)).after (.new Draft.defaultStart)
    let own := draft [.moveNone, .multiTape]
    let shared := draft (Feature.all.erase .multiTape)
    let word := ['a', 'a'].map .ofChar
    shared.compile.Halts word .accept
      ∧ ∃ m, (shared.compile.ran word m).2.progress = .halted .accept
        ∧ List.Forall₂ Snapshot.Alike (shared.compile.ran word m).2.logicalTapes
          (own.compile.ran word 5).2.logicalTapes := by
  intro ts draft own shared word
  have hshared : (submitAll (Request.onTapes ['a'] [] (Feature.all.erase .multiTape) 2 "q" ts)).succeeds
      (.new Draft.defaultStart) = true ∧ shared.features.enabled .multiTape = false := by
    decide +kernel
  have haccept : (own.compile.ran word 5).1 = .halted .accept := by decide +kernel
  obtain ⟨hhalts, halike⟩ := @shared_tape_simulates ['a'] [] ['a', 'a'] [.moveNone, .multiTape]
    (Feature.all.erase .multiTape) 2 "q" ts own shared
    (forall_mem_of_all (by decide)) (by decide) (by decide) (by decide)
    (Build.eq_ok_of_succeeds (by decide +kernel)) (Build.eq_ok_of_succeeds hshared.1)
    (by decide +kernel) hshared.2 (forall_mem_of_all (by decide))
  refine ⟨(hhalts .accept).mp ⟨5, haccept⟩, ?_⟩
  obtain ⟨m, hprogress, hm⟩ := halike 5 (by decide +kernel)
  exact ⟨m, hprogress.trans (by decide +kernel), hm⟩

/--
Both machines end with the same verdict, if they end. If the last step was made by a rule, they end with
the same tapes as well; if there was none, they have lost cells under heads only. The verdicts can differ if
the first state halts, or if the guard character is a letter and the guard grows.
-/
theorem shared_tape_ends_alike (hinput : ∀ c ∈ input ++ extra, c ≠ Guard.mark)
    (hn : (n - 1) * 3 + 1 < 2 ^ 63) (hfirst : isTerminal first = false)
    (hts : ∀ t ∈ ts, t.Over (· ∈ (Alphabet.ofChars input extra).declared))
    (hd : submitAll (Request.onTapes input extra F n first ts) (.new Draft.defaultStart) = .ok () d)
    (he : submitAll (Request.onTapes input extra G n first ts) (.new Draft.defaultStart) = .ok () e)
    (hown : d.features.enabled .multiTape = true) (hshared : e.features.enabled .multiTape = false)
    (hword : ∀ c ∈ word, c ∈ input ++ extra) :
    let own := d.compile.ran (word.map .ofChar)
    let shared := e.compile.ran (word.map .ofChar)
    (∀ v, e.compile.Halts (word.map .ofChar) v → d.compile.Halts (word.map .ofChar) v)
      ∧ ∀ k v, (own k).2.progress = .running → (own (k + 1)).2.progress = .halted v →
        ∃ m, (shared m).2.progress = .halted v
          ∧ (d.compile.FollowsRules (word.map .ofChar) (k + 1) →
            List.Forall₂ Snapshot.Alike (shared m).2.logicalTapes (own (k + 1)).2.logicalTapes)
          ∧ (¬ d.compile.FollowsRules (word.map .ofChar) (k + 1) →
            List.Forall₂ Snapshot.Spares (own k).2.logicalTapes (own (k + 1)).2.logicalTapes
              ∧ List.Forall₂ Snapshot.Spares (own k).2.logicalTapes (shared m).2.logicalTapes) := by
  have htwins := Draft.twins_of_onTapes hinput hts hd he hown hshared
  have hcells := Alphabet.mem_of_word hword
  refine ⟨fun v => (htwins.halts_iff hn hfirst hcells v).mpr, ?_⟩
  intro k v hrunning hhalted
  by_cases hrule : d.compile.FollowsRules (word.map .ofChar) (k + 1)
  . obtain ⟨m, hprogress, halike⟩ := htwins.exists_alike hn hfirst hcells hrule
    exact ⟨m, hprogress.trans hhalted, fun _ => halike, fun hnot => absurd hrule hnot⟩
  . obtain ⟨hreject, hspares, m, hprogress, hspared⟩ :=
      htwins.exists_spared hn hfirst hcells hrunning hrule
    refine ⟨m, ?_, fun hrules => absurd hrules hrule, fun _ => ⟨hspares, hspared⟩⟩
    rw [hprogress, ← hreject, hhalted]

/-- The heads have moved when the machine comes to a cell for which it has no rule. -/
theorem shared_tape_ends_alike_unmatched :
    let ts := [⟨"q", .tapes [.cell (.ofChar 'a'), .any], [.keep, .put (.ofChar 'a')],
      [.right, .right], "q"⟩]
    let draft (F : List Feature) :=
      (submitAll (Request.onTapes ['a'] [] F 2 "q" ts)).after (.new Draft.defaultStart)
    let own := draft [.moveNone, .multiTape]
    let shared := draft (Feature.all.erase .multiTape)
    let word := ['a'].map .ofChar
    ∃ m, (shared.compile.ran word m).2.progress = .halted .reject
      ∧ List.Forall₂ Snapshot.Spares (own.compile.ran word 1).2.logicalTapes
        (shared.compile.ran word m).2.logicalTapes := by
  intro ts draft own shared word
  have hshared : (submitAll (Request.onTapes ['a'] [] (Feature.all.erase .multiTape) 2 "q" ts)).succeeds
      (.new Draft.defaultStart) = true ∧ shared.features.enabled .multiTape = false := by
    decide +kernel
  obtain ⟨_, hends⟩ := @shared_tape_ends_alike ['a'] [] ['a'] [.moveNone, .multiTape]
    (Feature.all.erase .multiTape) 2 "q" ts own shared
    (forall_mem_of_all (by decide)) (by decide) (by decide) (by decide)
    (Build.eq_ok_of_succeeds (by decide +kernel)) (Build.eq_ok_of_succeeds hshared.1)
    (by decide +kernel) hshared.2 (forall_mem_of_all (by decide))
  obtain ⟨m, hprogress, _, hspares⟩ := hends 1 .reject (by decide +kernel) (by decide +kernel)
  exact ⟨m, hprogress, (hspares (by decide +kernel)).2⟩

/--
Where no rule is left, the machine with tapes of its own erases a letter that the other one has not come
to when it rejects.
-/
theorem shared_tape_keeps_letter :
    let draft (F : List Feature) :=
      (submitAll (Request.onTapes ['a'] [] F 2 "q" [])).after (.new Draft.defaultStart)
    let own := (draft [.moveNone, .multiTape]).compile.ran [.ofChar 'a'] 100
    let shared := (draft (Feature.all.erase .multiTape)).compile.ran [.ofChar 'a'] 100
    own.1 = .halted .reject ∧ own.2.logicalTapes.map Snapshot.text = ["", ""]
      ∧ shared.1 = .halted .reject ∧ shared.2.logicalTapes.map Snapshot.text = ["a", ""] := by
  decide +kernel

-- The name of a state that halts is on the shared tape from the beginning, where no step looks for it.
example :
    let build (F : List Feature) := submitAll (Request.onTapes ['a'] [] F 2 Verdict.accept.state [])
    let verdict (F : List Feature) :=
      (((build F).after (.new Draft.defaultStart)).compile.ran [.ofChar 'a'] 100).1
    (∀ F ∈ [[.moveNone, .multiTape], Feature.all.erase .multiTape],
        (build F).succeeds (.new Draft.defaultStart) = true)
      ∧ verdict [.moveNone, .multiTape] = .halted .accept
      ∧ verdict (Feature.all.erase .multiTape) = .halted .reject := by
  decide +kernel

end

end TuringLowering
