import TuringLowering.Catalogue.Entries
import TuringLowering.Proofs.Admission
import TuringLowering.Proofs.FeatureIndependence
import TuringLowering.Proofs.Runs
import TuringLowering.Proofs.UserNames
import TuringLowering.Proofs.Zipper

/-!
This module contains what the stored programs for one tape compute. A program goes through with every
set of features, and what it leaves on the tape is read off its directives, by induction on the input.
-/

namespace TuringLowering

namespace Request

/-- The directives among requests; to name a state is to say nothing about it. -/
def said : List Request → List Directive
  | [] => []
  | .state s :: rs => .idle s :: said rs
  | .directive x :: rs => x :: said rs
  | _ :: rs => said rs

/-- Requests on one tape, about cells of `B`, each of which joins those before it. -/
def Coherent (B : List Cell) : List Directive → List Request → Prop
  | _, [] => True
  | xs, .state s :: rs => Coherent B (xs ++ [.idle s]) rs
  | xs, .directive x :: rs => x.Over (· ∈ B) ∧ x.Joins B xs ∧ Coherent B (xs ++ [x]) rs
  | _, _ :: _ => False

instance decidableCoherent (B : List Cell) :
    (xs : List Directive) → (rs : List Request) → Decidable (Coherent B xs rs)
  | _, [] => inferInstanceAs (Decidable True)
  | xs, .state s :: rs => decidableCoherent B (xs ++ [.idle s]) rs
  | xs, .directive x :: rs =>
    have := decidableCoherent B (xs ++ [x]) rs
    inferInstanceAs (Decidable (_ ∧ _ ∧ _))
  | _, .alphabets _ _ :: _ => inferInstanceAs (Decidable False)
  | _, .features _ :: _ => inferInstanceAs (Decidable False)
  | _, .tapes _ _ :: _ => inferInstanceAs (Decidable False)
  | _, .joint _ :: _ => inferInstanceAs (Decidable False)

end Request

namespace Draft.Realizes

variable {A : Alphabet} {xs : List Directive} {d d' : Draft} {x : Directive}

theorem addState (h : d.Realizes A xs) {s : String} (hs : d.guard.Free s)
    (hok : Build.addState s d = .ok () d') : d'.Realizes A (xs ++ [.idle s]) := by
  have hadds : d.Adds s (.oneOf []) (fun _ _ => False) d' := .of_addState hok
  have hlow := @Adds.lowers A.declared _ _ (fun _ => False) d d' s s _ _
    ((Directive.idle s).Works A.declared) hadds h.obeys.sound (.inl hs) fun _ _ => False.elim
  have hobeys := Obeys.of_lowers (x := .idle s) h.obeys hs hlow
  cases hok
  refine ⟨h.alphabet, h.start, h.tapes, ⟨h.cells.symbols, ?_⟩, hobeys, ?_, ?_, ?_⟩
  . intro q c o hc ho
    rw [StateTables.lookup_eq, StateTables.table_ensure, ← StateTables.lookup_eq] at ho
    exact h.cells.rules q c o hc ho
  . intro z hz
    rcases List.mem_append.mp hz with hz | hz
    . exact h.names z hz
    . rw [List.mem_singleton.mp hz]
      exact ⟨hs, hs⟩
  . intro z hz
    rcases List.mem_append.mp hz with hz | hz
    . exact h.reads z hz
    . rw [List.mem_singleton.mp hz]
      exact fun _ hc => nomatch hc
  . intro e he hstep
    obtain ⟨z, hz, hstems⟩ := h.requested e he hstep
    exact ⟨z, List.mem_append_left _ hz, hstems⟩

theorem exists_userState (hA : A.IsLettered) (h : d.Realizes A xs) (s : String) :
    ∃ d', Build.userState s d = .ok () d' ∧ d'.Realizes A (xs ++ [.idle s]) := by
  obtain ⟨d', hok⟩ : ∃ d', Build.addState s (d.avoid s) = .ok () d' := ⟨_, rfl⟩
  exact ⟨d', hok, (h.avoid hA s).addState (d.free_avoid s) hok⟩

theorem exists_userDirective (hA : A.IsLettered) (hnodup : A.declared.Nodup) (h : d.Realizes A xs)
    (hx : x.Over (· ∈ A.declared)) (hjoins : x.Joins A.declared xs) :
    ∃ d', Build.userDirective x d = .ok () d' := by
  cases x with
  | transition origin read w m next =>
    rw [Build.userDirective, Build.bind_of_ok (Build.claimSingleTape_apply _ h.tapes)]
    have havoid := (h.withTapes.avoid hA next).avoid hA origin
    exact havoid.exists_directive hA hnodup hx (Draft.free_avoid _ origin) hjoins
  | gadget origin read g next =>
    rw [Build.userDirective, Build.bind_of_ok (Build.claimSingleTape_apply _ h.tapes)]
    have havoid := (h.withTapes.avoid hA origin).avoid hA next
    refine havoid.exists_directive hA hnodup hx ?_ hjoins
    exact (Draft.free_avoid _ origin).mono (Draft.size_le_avoid _ next)

theorem exists_submitAll (hA : A.IsLettered) (hnodup : A.declared.Nodup) {rs : List Request}
    (h : d.Realizes A xs) (hcoherent : Request.Coherent A.declared xs rs) :
    ∃ d', Build.submitAll rs d = .ok () d' ∧ d'.Realizes A (xs ++ Request.said rs) := by
  fun_induction Request.Coherent A.declared xs rs generalizing d with
  | case1 xs => exact ⟨d, rfl, by rwa [Request.said, List.append_nil]⟩
  | case2 xs s rs ih =>
    obtain ⟨d₁, hstate, h₁⟩ := h.exists_userState hA s
    obtain ⟨d', hrest, h'⟩ := ih h₁ hcoherent
    refine ⟨d', Build.forM_cons_eq_ok.mpr ⟨d₁, hstate, hrest⟩, ?_⟩
    rwa [List.append_assoc] at h'
  | case3 xs x rs ih =>
    obtain ⟨hx, hjoins, hcoherent⟩ := hcoherent
    obtain ⟨d₁, hdirective⟩ := h.exists_userDirective hA hnodup hx hjoins
    obtain ⟨d', hrest, h'⟩ := ih (h.userDirective hA hx hdirective) hcoherent
    refine ⟨d', Build.forM_cons_eq_ok.mpr ⟨d₁, hdirective, hrest⟩, ?_⟩
    rwa [List.append_assoc] at h'
  | case4 => exact hcoherent.elim

end Draft.Realizes

/-- A program on one tape can be drafted with every set of features. -/
theorem Program.exists_realizes {p : Program} {A : Alphabet}
    (hA : A = .ofChars p.inputAlphabet.toList p.extraAlphabet.toList) (hnodup : A.declared.Nodup)
    (hcoherent : Request.Coherent A.declared [] p.definition) (s : FeatureSet) :
    ∃ d, p.draft s = .ok d ∧ d.Realizes A (Request.said p.definition) := by
  have hlettered : A.IsLettered := hA ▸ Alphabet.isLettered_ofChars _ _
  obtain ⟨F, hF, _⟩ := @Build.exists_enableFeatures
    { start := Draft.defaultStart, alphabet := A } s.toList rfl s.nodup_toList fun _ _ => rfl
  obtain ⟨d, hok, hd⟩ := (@Draft.Realizes.nil A hlettered F).exists_submitAll hlettered hnodup
    hcoherent
  have hall : Build.submitAll (p.requests s) (.new Draft.defaultStart) = .ok () d := by
    refine Build.forM_cons_eq_ok.mpr ⟨{ start := Draft.defaultStart, alphabet := A }, ?_, ?_⟩
    . rw [hA]
      rfl
    . exact Build.forM_cons_eq_ok.mpr ⟨_, hF, hok⟩
  refine ⟨d, ?_, hd⟩
  unfold draft
  simp only [EStateM.run, hall]

theorem View.within_of {B l r : List Cell} (hblank : .blank ∈ B) (h : ∀ c ∈ l ++ r, c ∈ B) :
    (of l r).Within B := by
  intro i
  rw [cells_of]
  rcases Nat.lt_or_ge i (l ++ r).length with hlt | hge
  . rw [List.getD_eq_getElem _ _ hlt]
    exact h _ (List.getElem_mem hlt)
  . rwa [List.getD_eq_default _ _ hge]

namespace Directive

structure Follows (xs : List Directive) (B : List Cell) (a b : String × View) : Prop where
  running : isTerminal a.1 = false
  focus : a.2.focus ∈ B
  leads : Leads xs B a.1 a.2 b.1 b.2

abbrev Runs (xs : List Directive) (B : List Cell) : String × View → String × View → Prop :=
  Relation.ReflTransGen (Follows xs B)

/-- What is written for a cell and the state that follows, where the head moves one cell to the right. -/
def rightward? (xs : List Directive) (q : String) (c : Cell) : Option (Cell × String) :=
  match serving xs q c with
  | some (.transition _ _ w m next) => if m = .right then some (w.onto c, next) else none
  | _ => none

variable {xs : List Directive} {B : List Cell} {q next : String} {c c' : Cell}

theorem Follows.right (hq : isTerminal q = false) (hc : c ∈ B)
    (h : rightward? xs q c = some (c', next)) (l r : List Cell) :
    Follows xs B (q, .of l (c :: r)) (next, .of (l ++ [c']) r) := by
  have hfocus := View.focus_of_cons l c r
  refine ⟨hq, by rwa [hfocus], ?_⟩
  unfold rightward? at h
  split at h
  . next origin read w m next' hserving =>
    split at h
    . next hm =>
      subst hm
      cases h
      apply @Leads.served xs B q _ (.transition origin read w .right next)
      . rw [hfocus, hserving]
      . refine ⟨View.clear_of_distance rfl, ?_⟩
        rw [hfocus, View.write_of, View.move_right_of]
    . cases h
  . cases h

theorem Follows.right_end (hq : isTerminal q = false) (hB : .blank ∈ B)
    (h : rightward? xs q .blank = some (c', next)) (l : List Cell) :
    Follows xs B (q, .of l []) (next, .of (l ++ [c']) []) := by
  rw [← View.of_append_blank l []]
  exact Follows.right hq hB h l []

theorem Follows.left (hq : isTerminal q = false) (hc : c ∈ B) {read : Pattern} {w : Writing}
    (h : serving xs q c = some (.transition q read w .left next)) (l r : List Cell) :
    Follows xs B (q, .of l (c :: r)) (next, (View.of l (w.onto c :: r)).move .left) := by
  have hfocus := View.focus_of_cons l c r
  refine ⟨hq, by rwa [hfocus], ?_⟩
  apply @Leads.served xs B q _ (.transition q read w .left next)
  . rw [hfocus, h]
  . refine ⟨View.clear_of_distance rfl, ?_⟩
    rw [hfocus, View.write_of]

theorem Follows.stay (hq : isTerminal q = false) {l r : List Cell} (hv : (View.of l (c :: r)).Within B)
    (h : serving xs q c = some (.transition q (.cell c) (.put c) .stay next)) :
    Follows xs B (q, .of l (c :: r)) (next, .of l (c :: r)) := by
  have hfocus := View.focus_of_cons l c r
  refine ⟨hq, hv _, ?_⟩
  apply @Leads.served xs B q _ (.transition q (.cell c) (.put c) .stay next)
  . rw [hfocus, h]
  . refine ⟨?_, ?_⟩
    . rw [hfocus, Writing.onto, View.write_of]
      exact View.clear_of_forall hv _
    . rw [hfocus, Writing.onto, View.write_of, View.move_stay]

theorem Follows.gadget (hq : isTerminal q = false) {read : Pattern} {x : Gadget} {l r : List Cell}
    {v : View} (hc : c ∈ B) (h : serving xs q c = some (.gadget q read x next))
    (hworks : x.Works B (.of l (c :: r)) v) : Follows xs B (q, .of l (c :: r)) (next, v) := by
  have hfocus := View.focus_of_cons l c r
  refine ⟨hq, by rwa [hfocus], ?_⟩
  apply @Leads.served xs B q _ (.gadget q read x next)
  . rw [hfocus, h]
  . exact hworks

theorem Runs.sweep (hq : isTerminal q = false) {f : Char → Char} {w : List Char}
    (h : ∀ c ∈ w, .ofChar c ∈ B ∧ rightward? xs q (.ofChar c) = some (.ofChar (f c), q))
    (l r : List Cell) :
    Runs xs B (q, .of l (w.map .ofChar ++ r)) (q, .of (l ++ (w.map f).map .ofChar) r) := by
  induction w generalizing l with
  | nil =>
    rw [List.map_nil, List.map_nil, List.map_nil, List.append_nil]
    exact .refl
  | cons c w ih =>
    rw [List.forall_mem_cons] at h
    have hstep := Follows.right hq h.1.1 h.1.2 l (w.map .ofChar ++ r)
    have hrest := ih h.2 (l ++ [.ofChar (f c)])
    rw [List.append_assoc] at hrest
    exact .head hstep hrest

theorem Runs.sweep_all (hq : isTerminal q = false) {f : Char → Char} {w : List Char}
    (h : ∀ c ∈ w, .ofChar c ∈ B ∧ rightward? xs q (.ofChar c) = some (.ofChar (f c), q))
    (hB : .blank ∈ B) (hend : rightward? xs q .blank = some (.blank, next)) (l : List Cell) :
    Runs xs B (q, .of l (w.map .ofChar))
      (next, Snapshot.view ⟨l ++ (w.map f).map .ofChar, l.length + w.length + 1⟩) := by
  have hsweep := Runs.sweep hq h l []
  have hblank := Follows.right_end hq hB hend (l ++ (w.map f).map .ofChar)
  have hview : Snapshot.view ⟨l ++ (w.map f).map .ofChar, l.length + w.length + 1⟩
      = .of (l ++ (w.map f).map .ofChar ++ [.blank]) [] := by
    ext i
    . simp [Snapshot.view, Nat.add_assoc]
    . rw [View.cells_of, List.append_nil, Tape.getD_append_blank]
      rfl
  rw [List.append_nil] at hsweep
  rw [hview]
  exact hsweep.tail hblank

end Directive

namespace Draft.Realizes

variable {A : Alphabet} {xs : List Directive} {d : Draft}

theorem iterate_of_runs (h : d.Realizes A xs) {a b : String × View} (hfree : d.guard.Free a.1)
    (hrun : Directive.Runs xs A.declared a b) {t : Tape} (ht : t.view = a.2) :
    ∃ k t', t'.view = b.2 ∧ d.compile.next^[k] ⟨a.1, [t]⟩ = ⟨b.1, [t']⟩ := by
  induction hrun using Relation.ReflTransGen.head_induction_on generalizing t with
  | refl => exact ⟨0, t, ht, rfl⟩
  | head hstep _ ih =>
    obtain ⟨hrunning, hfocus, hleads⟩ := hstep
    rw [← ht] at hleads hfocus
    rw [Tape.focus_view] at hfocus
    obtain ⟨k, t₁, _, ht₁, hk⟩ := h.next_of_leads hrunning hfree hfocus hleads
    have hfree₁ := h.free_of_leads hleads
    obtain ⟨k', t', ht', hk'⟩ := ih hfree₁ ht₁
    exact ⟨k' + k, t', ht', by rw [Function.iterate_add_apply, hk, hk']⟩

theorem leaves_of_runs (h : d.Realizes A xs) {word : List Cell} {v : Verdict} {tape : Snapshot}
    (hrun : Directive.Runs xs A.declared (defaultStart, .of [] word) (v.state, tape.view)) :
    d.compile.Leaves word v [tape] := by
  have hfree : d.guard.Free defaultStart := Guard.Clean.free (by decide) _
  obtain ⟨k, t, ht, hk⟩ := h.iterate_of_runs hfree hrun (Tape.view_ofInput word)
  have hinitial : d.compile.initial word = ⟨defaultStart, [.ofInput word]⟩ := by
    rw [Machine.initial, h.physicalTapes]
    exact congrArg (Config.mk · _) h.start
  rw [← hinitial] at hk
  obtain ⟨n, hverdict, htapes⟩ := Machine.ran_of_iterate hk
  apply Machine.leaves_of_alike hverdict
  rw [Session.logicalTapes, htapes]
  dsimp only
  rw [Machine.machine_ran, Machine.sharesTape, h.physicalTapes, h.logicalTapes]
  exact .cons ⟨congrArg View.position ht, congrFun (congrArg View.cells ht)⟩ .nil

end Draft.Realizes

/--
With every set of features, the machine of a program halts on every input, with the verdict and the tape
that `f` gives.
-/
def Program.Computes (p : Program) (f : List Char → Verdict × Snapshot) : Prop :=
  ∀ (s : FeatureSet) (word : List Char), (∀ c ∈ word, c ∈ p.inputAlphabet.toList) →
    ∃ m, p.compile s = .ok m ∧ m.Leaves (word.map .ofChar) (f word).1 [(f word).2]

/-- The symbols of a program. -/
def Program.symbols (p : Program) : List Cell :=
  (Alphabet.ofChars p.inputAlphabet.toList p.extraAlphabet.toList).declared

theorem Program.blank_mem_symbols (p : Program) : .blank ∈ p.symbols :=
  (Alphabet.isLettered_ofChars _ _).blank

theorem Program.ofChar_mem_symbols {p : Program} {c : Char} (h : c ∈ p.inputAlphabet.toList) :
    .ofChar c ∈ p.symbols := by
  apply Build.mem_foldl_addNew.mpr
  exact .inl (List.mem_append_left _ (List.mem_append_left _ (List.mem_map_of_mem h)))

abbrev Program.Runs (p : Program) : String × View → String × View → Prop :=
  Directive.Runs (Request.said p.definition) p.symbols

theorem Program.computes_of_runs {p : Program} {f : List Char → Verdict × Snapshot}
    (hp : p.symbols.Nodup ∧ Request.Coherent p.symbols [] p.definition)
    (hrun : ∀ word : List Char, (∀ c ∈ word, c ∈ p.inputAlphabet.toList) →
      p.Runs (Draft.defaultStart, .of [] (word.map .ofChar)) ((f word).1.state, (f word).2.view)) :
    p.Computes f := by
  intro s word hword
  obtain ⟨d, hdraft, hd⟩ := Program.exists_realizes rfl hp.1 hp.2 s
  refine ⟨d.compile, ?_, hd.leaves_of_runs (hrun word hword)⟩
  rw [compile, hdraft]
  rfl

namespace Catalogue

open Directive

theorem takeWhile_first {a : Char} {u v : List Char} (hu : a ∉ u) :
    (u ++ a :: v).takeWhile (· ≠ a) = u := by
  rw [List.takeWhile_append_of_pos]
  . simp
  . intro c hc
    exact decide_eq_true fun heq => hu (heq ▸ hc)

theorem dropWhile_first {a : Char} {u v : List Char} (hu : a ∉ u) :
    (u ++ a :: v).dropWhile (· ≠ a) = a :: v := by
  rw [List.dropWhile_append_of_pos]
  . simp
  . intro c hc
    exact decide_eq_true fun heq => hu (heq ▸ hc)

/--
What the programs for one tape say about the cells that their heads come to. The programs are evaluated for
this only; their loops are followed by what is said here.
-/
structure Answers : Prop where
  coherent : ∀ p ∈ [replaceOdd, replaceLetters, findZero, shiftRight, markFirstCell, insertAfterMarker],
    p.symbols.Nodup ∧ Request.Coherent p.symbols [] p.definition
  odd_digit : ∀ c ∈ replaceOdd.inputAlphabet.toList,
    rightward? (Request.said replaceOdd.definition) "qstart" (.ofChar c)
      = some (.ofChar (if c ∈ "13579".toList then '1' else c), "qstart")
  odd_end : rightward? (Request.said replaceOdd.definition) "qstart" .blank = some (.blank, "ACCEPT")
  letters_before : ∀ c ∈ replaceLetters.inputAlphabet.toList, c ≠ '.' →
    rightward? (Request.said replaceLetters.definition) "qstart" (.ofChar c) = some (.ofChar c, "qstart")
  letters_period : rightward? (Request.said replaceLetters.definition) "qstart" (.ofChar '.')
    = some (.ofChar '.', "qreplacing")
  letters_after : ∀ c ∈ replaceLetters.inputAlphabet.toList,
    rightward? (Request.said replaceLetters.definition) "qreplacing" (.ofChar c)
      = some (.ofChar '.', "qreplacing")
  letters_end : rightward? (Request.said replaceLetters.definition) "qreplacing" .blank
    = some (.blank, "ACCEPT")
  letters_missing : rightward? (Request.said replaceLetters.definition) "qstart" .blank
    = some (.blank, "REJECT")
  zero_before : ∀ c ∈ findZero.inputAlphabet.toList, c ≠ '0' →
    rightward? (Request.said findZero.definition) "qstart" (.ofChar c) = some (.ofChar c, "qstart")
  zero_found : serving (Request.said findZero.definition) "qstart" (.ofChar '0')
    = some (.transition "qstart" (char '0') (put '0') .stay "ACCEPT")
  zero_missing : rightward? (Request.said findZero.definition) "qstart" .blank = some (.blank, "REJECT")
  shift_before : ∀ c ∈ shiftRight.inputAlphabet.toList,
    rightward? (Request.said shiftRight.definition) "qstart" (.ofChar c) = some (.ofChar c, "qstart")
  shift_turn : serving (Request.said shiftRight.definition) "qstart" .blank
    = some (.transition "qstart" blank erase .left "qshift")
  shift_carry : ∀ c ∈ shiftRight.inputAlphabet.toList,
    serving (Request.said shiftRight.definition) "qshift" (.ofChar c)
      = some (.gadget "qshift" (.ofText "abc") (.shift (.leftBy 2)) "qshift")
  shift_end : rightward? (Request.said shiftRight.definition) "qshift" .blank = some (.blank, "ACCEPT")
  mark_content : ∀ c ∈ markFirstCell.inputAlphabet.toList,
    serving (Request.said markFirstCell.definition) "qstart" (.ofChar c)
      = some (.gadget "qstart" (.ofText "abc") (.markFirst (.ofChar '#')) "ACCEPT")
  mark_empty : rightward? (Request.said markFirstCell.definition) "qstart" .blank
    = some (.ofChar '#', "ACCEPT")
  insert_before : ∀ c ∈ insertAfterMarker.inputAlphabet.toList, c ≠ '#' →
    rightward? (Request.said insertAfterMarker.definition) "qstart" (.ofChar c)
      = some (.ofChar c, "qstart")
  insert_marker : rightward? (Request.said insertAfterMarker.definition) "qstart" (.ofChar '#')
    = some (.ofChar '#', "qinsert")
  insert_content : ∀ c ∈ insertAfterMarker.inputAlphabet.toList,
    serving (Request.said insertAfterMarker.definition) "qinsert" (.ofChar c)
      = some (.gadget "qinsert" (.ofText "ab#") (.insertAfter (.ofChar '#') (.ofChar '+')) "ACCEPT")
  insert_end : rightward? (Request.said insertAfterMarker.definition) "qinsert" .blank
    = some (.ofChar '+', "ACCEPT")
  insert_missing : rightward? (Request.said insertAfterMarker.definition) "qstart" .blank
    = some (.blank, "REJECT")

theorem answers : Answers where
  coherent := forall_mem_of_all (by decide +kernel)
  odd_digit := forall_mem_of_all (by decide +kernel)
  odd_end := by decide +kernel
  letters_before := forall_mem_of_all (by decide +kernel)
  letters_period := by decide +kernel
  letters_after := forall_mem_of_all (by decide +kernel)
  letters_end := by decide +kernel
  letters_missing := by decide +kernel
  zero_before := forall_mem_of_all (by decide +kernel)
  zero_found := by decide +kernel
  zero_missing := by decide +kernel
  shift_before := forall_mem_of_all (by decide +kernel)
  shift_turn := by decide +kernel
  shift_carry := forall_mem_of_all (by decide +kernel)
  shift_end := by decide +kernel
  mark_content := forall_mem_of_all (by decide +kernel)
  mark_empty := by decide +kernel
  insert_before := forall_mem_of_all (by decide +kernel)
  insert_marker := by decide +kernel
  insert_content := forall_mem_of_all (by decide +kernel)
  insert_end := by decide +kernel
  insert_missing := by decide +kernel

/-- Each odd digit is replaced by a one. -/
def oddReplaced (w : List Char) : Verdict × Snapshot :=
  (.accept, ⟨(w.map fun c => if c ∈ "13579".toList then '1' else c).map .ofChar, w.length + 1⟩)

theorem replaceOdd_computes : replaceOdd.Computes oddReplaced := by
  apply Program.computes_of_runs (answers.coherent replaceOdd (by simp))
  intro word hword
  have hrun := Runs.sweep_all (by decide)
    (fun c hc => ⟨Program.ofChar_mem_symbols (hword c hc), answers.odd_digit c (hword c hc)⟩)
    replaceOdd.blank_mem_symbols answers.odd_end []
  rwa [List.nil_append, List.length_nil, Nat.zero_add] at hrun

/-- From the first period on, there are periods only; without one, the input is rejected. -/
def lettersReplaced (w : List Char) : Verdict × Snapshot :=
  if '.' ∈ w then
    (.accept, ⟨(w.takeWhile (· ≠ '.') ++ (w.dropWhile (· ≠ '.')).map fun _ => '.').map .ofChar,
      w.length + 1⟩)
  else (.reject, ⟨w.map .ofChar, w.length + 1⟩)

theorem replaceLetters_computes : replaceLetters.Computes lettersReplaced := by
  have hletters (c : Char) (hc : c ∈ replaceLetters.inputAlphabet.toList) (hne : c ≠ '.') :=
    And.intro (Program.ofChar_mem_symbols hc) (answers.letters_before c hc hne)
  have hreplaced (c : Char) (hc : c ∈ replaceLetters.inputAlphabet.toList) :=
    And.intro (Program.ofChar_mem_symbols hc) (answers.letters_after c hc)
  apply Program.computes_of_runs (answers.coherent replaceLetters (by simp))
  intro word hword
  unfold lettersReplaced
  split
  . next hperiod =>
    obtain ⟨u, v, rfl, hu⟩ := List.eq_append_cons_of_mem hperiod
    rw [takeWhile_first hu, dropWhile_first hu, List.map_append]
    rw [List.forall_mem_append, List.forall_mem_cons] at hword
    have hkept : replaceLetters.Runs ("qstart", .of [] (u.map .ofChar ++ ('.' :: v).map .ofChar))
        ("qstart", .of (u.map .ofChar) (.ofChar '.' :: v.map .ofChar)) := by
      have := Runs.sweep (f := id) (by decide)
        (fun c hc => hletters c (hword.1 c hc) fun heq => hu (heq ▸ hc)) [] (('.' :: v).map .ofChar)
      rwa [List.map_id, List.nil_append] at this
    have hfirst : replaceLetters.Runs ("qstart", .of (u.map .ofChar) (.ofChar '.' :: v.map .ofChar))
        ("qreplacing", .of (u.map .ofChar ++ [.ofChar '.']) (v.map .ofChar)) :=
      .single (.right (by decide) (Program.ofChar_mem_symbols hword.2.1) answers.letters_period _ _)
    have hrest := Runs.sweep_all (f := fun _ => '.') (by decide)
      (fun c hc => hreplaced c (hword.2.2 c hc)) replaceLetters.blank_mem_symbols answers.letters_end
      (u.map .ofChar ++ [.ofChar '.'])
    have htape : u.map Cell.ofChar ++ [.ofChar '.'] ++ (v.map fun _ => '.').map .ofChar
        = (u ++ ('.' :: v).map fun _ => '.').map .ofChar := by simp
    have hhead : (u.map Cell.ofChar ++ [Cell.ofChar '.']).length + v.length + 1
        = (u ++ '.' :: v).length + 1 := by
      simp only [List.length_append, List.length_map, List.length_cons, List.length_nil]
      omega
    rw [htape, hhead] at hrest
    exact (hkept.trans hfirst).trans hrest
  . next hperiod =>
    have hrun := Runs.sweep_all (f := id) (by decide)
      (fun c hc => hletters c (hword c hc) fun heq => hperiod (heq ▸ hc))
      replaceLetters.blank_mem_symbols answers.letters_missing []
    rwa [List.map_id, List.nil_append, List.length_nil, Nat.zero_add] at hrun

/-- The head ends on the first zero; without one, the input is rejected. -/
def zeroFound (w : List Char) : Verdict × Snapshot :=
  if '0' ∈ w then (.accept, ⟨w.map .ofChar, w.idxOf '0'⟩)
  else (.reject, ⟨w.map .ofChar, w.length + 1⟩)

theorem findZero_computes : findZero.Computes zeroFound := by
  have hletters (c : Char) (hc : c ∈ findZero.inputAlphabet.toList) (hne : c ≠ '0') :=
    And.intro (Program.ofChar_mem_symbols hc) (answers.zero_before c hc hne)
  apply Program.computes_of_runs (answers.coherent findZero (by simp))
  intro word hword
  unfold zeroFound
  split
  . next hzero =>
    obtain ⟨u, v, rfl, hu⟩ := List.eq_append_cons_of_mem hzero
    rw [List.map_append]
    have hscan : findZero.Runs ("qstart", .of [] (u.map .ofChar ++ ('0' :: v).map .ofChar))
        ("qstart", .of (u.map .ofChar) (.ofChar '0' :: v.map .ofChar)) := by
      have := Runs.sweep (f := id) (by decide)
        (fun c hc => hletters c (hword c (List.mem_append_left _ hc)) fun heq => hu (heq ▸ hc)) []
        (('0' :: v).map .ofChar)
      rwa [List.map_id, List.nil_append] at this
    have hview : Snapshot.view ⟨u.map Cell.ofChar ++ ('0' :: v).map Cell.ofChar,
        (u ++ '0' :: v).idxOf '0'⟩ = .of (u.map .ofChar) (.ofChar '0' :: v.map .ofChar) := by
      have hhead : (u ++ '0' :: v).idxOf '0' = (u.map Cell.ofChar).length := by
        rw [List.idxOf_append_of_notMem hu, List.idxOf_cons_self, List.length_map, Nat.add_zero]
      rw [hhead]
      rfl
    rw [hview]
    have hwithin : (View.of (u.map Cell.ofChar) (.ofChar '0' :: v.map .ofChar)).Within
        findZero.symbols := by
      apply View.within_of findZero.blank_mem_symbols
      intro c hc
      rw [← List.map_cons, ← List.map_append, List.mem_map] at hc
      obtain ⟨char, hchar, rfl⟩ := hc
      exact Program.ofChar_mem_symbols (hword char hchar)
    exact hscan.tail (.stay (by decide) hwithin answers.zero_found)
  . next hzero =>
    have hrun := Runs.sweep_all (f := id) (by decide)
      (fun c hc => hletters c (hword c hc) fun heq => hzero (heq ▸ hc))
      findZero.blank_mem_symbols answers.zero_missing []
    rwa [List.map_id, List.nil_append, List.length_nil, Nat.zero_add] at hrun

theorem shiftRight_carries {u : List Char} {a : Char}
    (h : ∀ c ∈ u ++ [a], c ∈ shiftRight.inputAlphabet.toList) (r : List Cell) :
    shiftRight.Runs ("qshift", .of (u.map .ofChar) (.ofChar a :: .blank :: r))
      ("qshift", .of [] (.blank :: ((u ++ [a]).map .ofChar ++ r))) := by
  have hstep {a : Char} (ha : a ∈ shiftRight.inputAlphabet.toList) (l r : List Cell) :
      Follows (Request.said shiftRight.definition) shiftRight.symbols
        ("qshift", .of l (.ofChar a :: .blank :: r))
        ("qshift", (View.of l (.ofChar a :: .blank :: r)).carryBack) := by
    have hmem : .ofChar a ∈ shiftRight.symbols := Program.ofChar_mem_symbols ha
    apply Follows.gadget (by decide) hmem (answers.shift_carry a ha)
    apply Build.carries_carryBack shiftRight.blank_mem_symbols
    . rwa [View.focus_of_cons]
    . exact View.cells_of_behind l _ 1
  induction u using List.reverseRecOn generalizing a r with
  | nil =>
    have hlast := hstep (h a (List.mem_singleton_self a)) [] r
    rw [View.carryBack_of_nil] at hlast
    exact .single hlast
  | append_singleton u b ih =>
    rw [List.forall_mem_append] at h
    have hcarry := hstep (h.2 a (List.mem_singleton_self a)) ((u ++ [b]).map .ofChar) r
    rw [List.map_append, List.map_singleton, View.carryBack_of] at hcarry
    have hrest := ih h.1 (.ofChar a :: r)
    rw [List.map_append, List.map_append, List.append_assoc, List.map_singleton, List.map_singleton]
    exact .head hcarry hrest

/-- Each character stands one cell further to the right. -/
def shiftedRight (w : List Char) : Verdict × Snapshot := (.accept, ⟨.blank :: w.map .ofChar, 1⟩)

theorem shiftRight_computes : shiftRight.Computes shiftedRight := by
  have hletters (c : Char) (hc : c ∈ shiftRight.inputAlphabet.toList) :=
    And.intro (Program.ofChar_mem_symbols hc) (answers.shift_before c hc)
  have hblank : .blank ∈ shiftRight.symbols := shiftRight.blank_mem_symbols
  apply Program.computes_of_runs (answers.coherent shiftRight (by simp))
  intro word hword
  have hscan : shiftRight.Runs ("qstart", .of [] (word.map .ofChar))
      ("qstart", .of (word.map .ofChar) [.blank]) := by
    have := Runs.sweep (f := id) (by decide) (fun c hc => hletters c (hword c hc)) [] []
    rw [List.map_id, List.append_nil, List.nil_append] at this
    rwa [← View.of_append_blank (word.map .ofChar) []] at this
  have hleft := Follows.left (by decide) hblank answers.shift_turn (word.map .ofChar) []
  have hend : shiftRight.Runs ("qshift", .of [] (.blank :: word.map .ofChar))
      ("ACCEPT", .of [.blank] (word.map .ofChar)) :=
    .single (.right (by decide) hblank answers.shift_end [] _)
  refine (hscan.tail hleft).trans (.trans ?_ hend)
  induction word using List.reverseRecOn with
  | nil =>
    rw [List.map_nil, View.move_left_of_nil]
    exact .refl
  | append_singleton u a _ =>
    rw [List.map_append, List.map_singleton, View.move_left_of]
    have hcarry := shiftRight_carries hword []
    rwa [List.append_nil, List.map_append, List.map_singleton] at hcarry

/-- A marker stands in front of the input. -/
def firstMarked (w : List Char) : Verdict × Snapshot := (.accept, ⟨('#' :: w).map .ofChar, 1⟩)

theorem markFirstCell_computes : markFirstCell.Computes firstMarked := by
  apply Program.computes_of_runs (answers.coherent markFirstCell (by simp))
  intro word hword
  cases word with
  | nil => exact .single (.right_end (by decide) markFirstCell.blank_mem_symbols answers.mark_empty [])
  | cons c word =>
    have hc := hword c List.mem_cons_self
    refine .single (.gadget (by decide) (Program.ofChar_mem_symbols hc) (answers.mark_content c hc) ?_)
    apply Build.marksFirst_of
    intro x hx
    rw [← List.map_cons, List.mem_map] at hx
    obtain ⟨char, hchar, rfl⟩ := hx
    exact ⟨Program.ofChar_mem_symbols (hword char hchar), nofun⟩

theorem rdropWhile_last {a : Char} {u v : List Char} (hv : a ∉ v) :
    (u ++ a :: v).rdropWhile (· ≠ a) = u ++ [a] := by
  have happend : (u ++ a :: v).reverse = v.reverse ++ a :: u.reverse := by simp
  rw [List.rdropWhile, happend, dropWhile_first fun hmem => hv (List.mem_reverse.mp hmem)]
  simp

theorem rtakeWhile_last {a : Char} {u v : List Char} (hv : a ∉ v) :
    (u ++ a :: v).rtakeWhile (· ≠ a) = v := by
  have happend : (u ++ a :: v).reverse = v.reverse ++ a :: u.reverse := by simp
  rw [List.rtakeWhile, happend, takeWhile_first fun hmem => hv (List.mem_reverse.mp hmem),
    List.reverse_reverse]

theorem exists_last_of_mem {a : Char} {w : List Char} (h : a ∈ w) :
    ∃ u v, w = u ++ a :: v ∧ a ∉ v := by
  obtain ⟨v, u, heq, hv⟩ := List.eq_append_cons_of_mem (List.mem_reverse.mpr h)
  refine ⟨u.reverse, v.reverse, ?_, fun hmem => hv (List.mem_reverse.mp hmem)⟩
  rw [← w.reverse_reverse, heq]
  simp

/-- A plus is inserted after the last marker; without one, the input is rejected. -/
def plusInserted (w : List Char) : Verdict × Snapshot :=
  if '#' ∈ w then
    (.accept, ⟨(w.rdropWhile (· ≠ '#') ++ '+' :: w.rtakeWhile (· ≠ '#')).map .ofChar,
      (w.rdropWhile (· ≠ '#')).length + 1⟩)
  else (.reject, ⟨w.map .ofChar, w.length + 1⟩)

theorem insertAfterMarker_computes : insertAfterMarker.Computes plusInserted := by
  have hletters (c : Char) (hc : c ∈ insertAfterMarker.inputAlphabet.toList) (hne : c ≠ '#') :=
    And.intro (Program.ofChar_mem_symbols hc) (answers.insert_before c hc hne)
  apply Program.computes_of_runs (answers.coherent insertAfterMarker (by simp))
  intro word hword
  unfold plusInserted
  split
  . next hmarker =>
    obtain ⟨u, v, rfl, hu⟩ := List.eq_append_cons_of_mem hmarker
    have hscan : insertAfterMarker.Runs ("qstart", .of [] ((u ++ '#' :: v).map .ofChar))
        ("qstart", .of (u.map .ofChar) (.ofChar '#' :: v.map .ofChar)) := by
      have := Runs.sweep (f := id) (by decide)
        (fun c hc => hletters c (hword c (List.mem_append_left _ hc)) fun heq => hu (heq ▸ hc)) []
        (('#' :: v).map .ofChar)
      rwa [List.map_id, List.nil_append, ← List.map_append] at this
    have hfirst : insertAfterMarker.Runs
        ("qstart", .of (u.map .ofChar) (.ofChar '#' :: v.map .ofChar))
        ("qinsert", .of (u.map .ofChar ++ [.ofChar '#']) (v.map .ofChar)) :=
      .single (.right (by decide) (Program.ofChar_mem_symbols (hword '#' hmarker)) answers.insert_marker _ _)
    refine (hscan.trans hfirst).trans ?_
    cases v with
    | nil =>
      rw [rdropWhile_last List.not_mem_nil, rtakeWhile_last List.not_mem_nil]
      have hview : Snapshot.view ⟨(u ++ ['#'] ++ ['+']).map .ofChar, (u ++ ['#']).length + 1⟩
          = .of (u.map .ofChar ++ [.ofChar '#'] ++ [.ofChar '+']) [] := by
        ext i
        . simp [Snapshot.view]
        . simp [Snapshot.view]
      rw [hview]
      exact .single (.right_end (by decide) insertAfterMarker.blank_mem_symbols answers.insert_end _)
    | cons c v =>
      obtain ⟨l, xs, hlast, hxs⟩ := exists_last_of_mem hmarker
      have hmem (char : Char) (hchar : char ∈ l ++ '#' :: xs) :
          .ofChar char ∈ insertAfterMarker.symbols := Program.ofChar_mem_symbols (hword char (hlast ▸ hchar))
      rw [hlast, rdropWhile_last hxs, rtakeWhile_last hxs]
      have hview : Snapshot.view ⟨(l ++ ['#'] ++ '+' :: xs).map .ofChar, (l ++ ['#']).length + 1⟩
          = .of (l.map .ofChar ++ [.ofChar '#', .ofChar '+']) (xs.map .ofChar) := by
        ext i
        . simp [Snapshot.view]
        . simp [Snapshot.view]
      rw [hview]
      have hc := hword c (by simp)
      refine .single (.gadget (by decide) (Program.ofChar_mem_symbols hc) (answers.insert_content c hc) ?_)
      apply Build.insertsAfter_of_append
      . have := congrArg (List.map Cell.ofChar) hlast
        simpa using this
      . intro x hx
        obtain ⟨char, hchar, rfl⟩ := List.mem_map.mp hx
        refine ⟨hmem char (by simp [hchar]), fun heq => hxs ?_⟩
        rwa [← Cell.ofChar_injective heq]
      . intro y hy
        obtain ⟨char, hchar, rfl⟩ := List.mem_map.mp hy
        exact ⟨Program.ofChar_mem_symbols (hword char (by simp [hchar])), nofun⟩
  . next hmarker =>
    have hrun := Runs.sweep_all (f := id) (by decide)
      (fun c hc => hletters c (hword c hc) fun heq => hmarker (heq ▸ hc))
      insertAfterMarker.blank_mem_symbols answers.insert_missing []
    rwa [List.map_id, List.nil_append, List.length_nil, Nat.zero_add] at hrun

/-- The programs for one tape compute their functions, whatever the features are. -/
theorem single_tape_programs_compute :
    replaceOdd.Computes oddReplaced ∧ replaceLetters.Computes lettersReplaced
      ∧ findZero.Computes zeroFound ∧ shiftRight.Computes shiftedRight
      ∧ markFirstCell.Computes firstMarked ∧ insertAfterMarker.Computes plusInserted :=
  ⟨replaceOdd_computes, replaceLetters_computes, findZero_computes, shiftRight_computes,
    markFirstCell_computes, insertAfterMarker_computes⟩

end Catalogue

end TuringLowering
