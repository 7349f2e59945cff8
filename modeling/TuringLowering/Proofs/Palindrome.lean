import TuringLowering.Proofs.TapePrograms

/-!
This module contains the stored program for palindromes. The input is copied behind a mark on the second
tape, then the copy is read forwards while the input is read backwards. What is on the tapes at each
phase of this does not depend on how the tapes are made.
-/

namespace TuringLowering

namespace JointTransition

def answer? (ts : List JointTransition) (q : String) (cells : List Cell) :
    Option (List Writing × List Move × String) :=
  (serving ts q cells).map fun t => (t.writes, t.moves, t.next)

abbrev Runs (ts : List JointTransition) : String × List View → String × List View → Prop :=
  Relation.ReflTransGen (Leads ts)

variable {ts : List JointTransition} {q next : String} {c c' : Cell} {v v' : View} {m m' : Move}

theorem Leads.pair (hq : isTerminal q = false) (hv : v.focus = c) (hv' : v'.focus = c')
    (h : answer? ts q [c, c'] = some ([.keep, .keep], [m, m'], next)) :
    Leads ts (q, [v, v']) (next, [v.move m, v'.move m']) := by
  subst hv hv'
  obtain ⟨⟨origin, read, writes, moves, next⟩, hserving, heq⟩ := Option.map_eq_some_iff.mp h
  cases heq
  have hact : act ⟨origin, read, [.keep, .keep], [m, m'], next⟩ [v, v'] = [v.move m, v'.move m'] := by
    simp [act, Writing.onto, View.write_focus]
  rw [← hact]
  exact .step hq hserving

theorem Leads.pair_append (hq : isTerminal q = false) (hv : v.focus = c) (l : List Cell)
    (h : answer? ts q [c, .blank] = some ([.keep, .put c'], [m, .right], next)) :
    Leads ts (q, [v, .of l []]) (next, [v.move m, .of (l ++ [c']) []]) := by
  subst hv
  obtain ⟨⟨origin, read, writes, moves, next⟩, hserving, heq⟩ := Option.map_eq_some_iff.mp h
  cases heq
  have hact : act ⟨origin, read, [.keep, .put c'], [m, .right], next⟩ [v, .of l []]
      = [v.move m, .of (l ++ [c']) []] := by
    rw [← View.of_append_blank l []]
    simp [act, Writing.onto, View.write_focus, View.move_right_of]
  rw [← hact]
  apply Leads.step hq
  rwa [List.map_cons, List.map_singleton, View.focus_of_nil]

end JointTransition

namespace Catalogue

open JointTransition

namespace Palindrome

def letters : List Cell := [.ofChar 'a', .ofChar 'b']

def mark : Cell := .ofChar '$'

def transitions : List JointTransition := Request.joints palindrome.definition

/-- What transitions say about the cells under both heads, phase by phase. The runs rest on nothing else. -/
structure Answers (ts : List JointTransition) : Prop where
  marks : ∀ c ∈ letters ++ [.blank], answer? ts "qmark" [c, .blank]
    = some ([.keep, .put mark], [.stay, .right], "qcopy")
  copies : ∀ c ∈ letters, answer? ts "qcopy" [c, .blank]
    = some ([.keep, .put c], [.right, .right], "qcopy")
  turns : answer? ts "qcopy" [.blank, .blank] = some ([.keep, .keep], [.left, .left], "qrewind")
  rewinds : ∀ c ∈ letters ++ [.blank], ∀ c' ∈ letters, answer? ts "qrewind" [c, c']
    = some ([.keep, .keep], [.stay, .left], "qrewind")
  rewound : ∀ c ∈ letters ++ [.blank], answer? ts "qrewind" [c, mark]
    = some ([.keep, .keep], [.stay, .right], "qcompare")
  equal : ∀ c ∈ letters, answer? ts "qcompare" [c, c]
    = some ([.keep, .keep], [.left, .right], "qcompare")
  different : ∀ c ∈ letters, ∀ c' ∈ letters, c ≠ c' → answer? ts "qcompare" [c, c']
    = some ([.keep, .keep], [.stay, .stay], Verdict.reject.state)
  ends : ∀ c ∈ letters ++ [.blank], answer? ts "qcompare" [c, .blank]
    = some ([.keep, .keep], [.stay, .stay], Verdict.accept.state)

theorem answers : Answers transitions where
  marks := by decide +kernel
  copies := by decide +kernel
  turns := by decide +kernel
  rewinds := by decide +kernel
  rewound := by decide +kernel
  equal := by decide +kernel
  different := by decide +kernel
  ends := by decide +kernel

theorem focus_of_mem {l r : List Cell} (hr : ∀ c ∈ r, c ∈ letters) :
    (View.of l r).focus ∈ letters ++ [.blank] := by
  cases r with
  | nil =>
    rw [View.focus_of_nil]
    decide
  | cons c r =>
    rw [View.focus_of_cons]
    exact List.mem_append_left _ (hr c List.mem_cons_self)

theorem run_mark {word : List Cell} (hword : ∀ c ∈ word, c ∈ letters) :
    Runs transitions ("qmark", [.of [] word, .of [] []]) ("qcopy", [.of [] word, .of [mark] []]) := by
  have hstep := Leads.pair_append (by decide) rfl [] (answers.marks _ (@focus_of_mem [] word hword))
  rw [View.move_stay] at hstep
  exact .single hstep

theorem run_copy {rest : List Cell} (hrest : ∀ c ∈ rest, c ∈ letters) (done : List Cell) :
    Runs transitions ("qcopy", [.of done rest, .of (mark :: done) []])
      ("qcopy", [.of (done ++ rest) [], .of (mark :: (done ++ rest)) []]) := by
  induction rest generalizing done with
  | nil => rw [List.append_nil]
  | cons c rest ih =>
    rw [List.forall_mem_cons] at hrest
    have hstep := Leads.pair_append (by decide) (View.focus_of_cons done c rest) (mark :: done)
      (answers.copies c hrest.1)
    rw [View.move_right_of] at hstep
    have hlater := ih hrest.2 (done ++ [c])
    rw [List.append_assoc] at hlater
    exact .head hstep hlater

theorem run_rewind {v : View} (hv : v.focus ∈ letters ++ [.blank]) {word : List Cell}
    (hword : ∀ c ∈ word, c ∈ letters) (rest : List Cell) :
    Runs transitions ("qrewind", [v, (View.of (mark :: word) rest).move .left])
      ("qcompare", [v, .of [mark] (word ++ rest)]) := by
  induction word using List.reverseRecOn generalizing rest with
  | nil =>
    have hleft : (View.of [mark] rest).move .left = .of [] (mark :: rest) :=
      View.move_left_of [] mark rest
    have hstep := Leads.pair (by decide) rfl (View.focus_of_cons [] mark rest) (answers.rewound _ hv)
    rw [View.move_stay, View.move_right_of] at hstep
    rw [hleft]
    exact .single hstep
  | append_singleton word c ih =>
    rw [List.forall_mem_append, List.forall_mem_singleton] at hword
    have hleft : (View.of (mark :: (word ++ [c])) rest).move .left
        = .of (mark :: word) (c :: rest) := View.move_left_of (mark :: word) c rest
    have hstep := Leads.pair (by decide) rfl (View.focus_of_cons (mark :: word) c rest)
      (answers.rewinds _ hv c hword.2)
    have hlater := ih hword.1 (c :: rest)
    rw [View.move_stay] at hstep
    rw [hleft, List.append_assoc]
    exact .head hstep hlater

/--
What is left of the input is read backwards while the rest of the copy is read forwards; at the left end
of the input, its head goes no further. What was read before is equal.
-/
theorem run_compare {left rest done : List Cell} (hleft : ∀ c ∈ left, c ∈ letters)
    (hrest : ∀ c ∈ rest, c ∈ letters) (hdone : ∀ c ∈ done, c ∈ letters)
    (hlength : left.length = rest.length) :
    ∃ i j, Runs transitions
      ("qcompare", [(View.of left done.reverse).move .left, .of (mark :: done) rest])
      ((if left = rest.reverse then Verdict.accept else Verdict.reject).state,
        [Snapshot.view ⟨left ++ done.reverse, i⟩, Snapshot.view ⟨mark :: (done ++ rest), j⟩]) := by
  induction rest generalizing left done with
  | nil =>
    obtain rfl := List.eq_nil_of_length_eq_zero hlength
    have hfocus : (View.of [] done.reverse).focus ∈ letters ++ [.blank] :=
      focus_of_mem (by simpa using hdone)
    have hstep := Leads.pair (by decide) rfl (View.focus_of_nil (mark :: done))
      (answers.ends _ hfocus)
    rw [View.move_stay, View.move_stay] at hstep
    rw [View.move_left_of_nil, if_pos List.reverse_nil.symm]
    exact ⟨_, _, .single hstep⟩
  | cons c rest ih =>
    rw [List.forall_mem_cons] at hrest
    obtain ⟨left, last, rfl⟩ : ∃ before last, left = before ++ [last] :=
      (List.eq_nil_or_concat' left).resolve_left (by rintro rfl; cases hlength)
    rw [List.forall_mem_append, List.forall_mem_singleton] at hleft
    have hverdict : (left ++ [last] = (c :: rest).reverse) ↔ left = rest.reverse ∧ last = c := by
      rw [List.reverse_cons, List.append_singleton_inj]
    rw [View.move_left_of, List.append_assoc]
    by_cases hlast : last = c
    . -- The cells are equal, and the heads move apart.
      subst hlast
      have hdone' : ∀ c ∈ done ++ [last], c ∈ letters := by
        rw [List.forall_mem_append, List.forall_mem_singleton]
        exact ⟨hdone, hleft.2⟩
      obtain ⟨i, j, hrun⟩ := ih hleft.1 hrest.2 hdone' (by simpa using hlength)
      rw [List.reverse_concat, List.append_assoc] at hrun
      have hstep := Leads.pair (by decide) (View.focus_of_cons left last done.reverse)
        (View.focus_of_cons (mark :: done) last rest) (answers.equal last hleft.2)
      rw [View.move_right_of] at hstep
      simp only [hverdict, and_true]
      exact ⟨i, j, .head hstep hrun⟩
    . have hstep := Leads.pair (by decide) (View.focus_of_cons left last done.reverse)
        (View.focus_of_cons (mark :: done) c rest) (answers.different last hleft.2 c hrest.1 hlast)
      rw [View.move_stay, View.move_stay] at hstep
      rw [if_neg (fun heq => hlast (hverdict.mp heq).2)]
      exact ⟨_, _, .single hstep⟩

/-- The whole run, from an input to the verdict on it. -/
theorem run_decide {word : List Cell} (hword : ∀ c ∈ word, c ∈ letters) :
    ∃ i j, Runs transitions ("qmark", [.of [] word, .of [] []])
      ((if word = word.reverse then Verdict.accept else Verdict.reject).state,
        [Snapshot.view ⟨word, i⟩, Snapshot.view ⟨mark :: word, j⟩]) := by
  have hfocus : ((View.of word []).move .left).focus ∈ letters ++ [.blank] := by
    rcases List.eq_nil_or_concat' word with rfl | ⟨before, last, rfl⟩
    . rw [View.move_left_of_nil]
      exact focus_of_mem hword
    . rw [View.move_left_of]
      apply focus_of_mem
      rw [List.forall_mem_singleton]
      exact hword last (by simp)
  obtain ⟨i, j, hcompare⟩ := @run_compare word word [] hword hword nofun rfl
  have hcopy := run_copy hword []
  have hturn := Leads.pair (by decide) (View.focus_of_nil word) (View.focus_of_nil (mark :: word))
    answers.turns
  have hrewind := run_rewind hfocus hword []
  rw [List.append_nil] at hrewind
  rw [List.reverse_nil, List.append_nil] at hcompare
  exact ⟨i, j, (run_mark hword).trans (hcopy.trans (.head hturn (hrewind.trans hcompare)))⟩

theorem onTapes : palindrome.OnTapes 2 "qmark" palindrome.definition.tail where
  definition := rfl
  nodup := by decide +kernel
  clean := by decide +kernel
  several := by decide
  bounded := by decide
  named := by decide
  running := by decide
  coherent := by decide +kernel

end Palindrome

open Palindrome in
/--
With every set of features, the machine for palindromes halts on every input. It accepts palindromes and
rejects all other inputs, and it leaves the input on the first tape and a marked copy on the second.
-/
theorem palindrome_decides (s : FeatureSet) (word : List Char) (hword : ∀ c ∈ word, c ∈ ['a', 'b']) :
    ∃ m, palindrome.compile s = .ok m
      ∧ ∃ i j, m.Leaves (word.map .ofChar) (if word = word.reverse then .accept else .reject)
        [⟨word.map .ofChar, i⟩, ⟨('$' :: word).map .ofChar, j⟩] := by
  have hletters : ∀ c ∈ word.map Cell.ofChar, c ∈ letters := by
    rw [List.forall_mem_map]
    intro c hc
    exact List.mem_map_of_mem (hword c hc)
  have hsymbols : ∀ c ∈ letters, c ∈ palindrome.symbols ∧ c ≠ .blank := by
    decide +kernel
  have hreverse : word.map Cell.ofChar = (word.map Cell.ofChar).reverse ↔ word = word.reverse := by
    rw [← List.map_reverse, (List.map_injective_iff.mpr Cell.ofChar_injective).eq_iff]
  obtain ⟨i, j, hrun⟩ := run_decide hletters
  simp only [hreverse] at hrun
  have hviews : (Session.inputTapes 2 (word.map .ofChar)).map Tape.view
      = [.of [] (word.map .ofChar), .of [] []] := by
    rw [← Tape.view_ofInput, ← Tape.view_ofInput]
    rfl
  rw [← hviews] at hrun
  obtain ⟨m, hm, hleaves⟩ := @Program.OnTapes.leaves_of_run _ _ _ _ onTapes _
    (fun c hc => hsymbols c (hletters c hc)) _ [⟨_, i⟩, ⟨_, j⟩] hrun s
  exact ⟨m, hm, i, j, hleaves⟩

theorem palindrome_decides_words :
    (∀ c ∈ ['a', 'b', 'b', 'a'], c ∈ ['a', 'b'])
      ∧ (∃ m, palindrome.compile .none = .ok m
        ∧ ∃ i j, m.Leaves (['a', 'b', 'b', 'a'].map .ofChar) .accept
          [⟨['a', 'b', 'b', 'a'].map .ofChar, i⟩, ⟨['$', 'a', 'b', 'b', 'a'].map .ofChar, j⟩])
      ∧ (∀ c ∈ ['a', 'b'], c ∈ ['a', 'b'])
      ∧ ∃ m, palindrome.compile .all = .ok m
        ∧ ∃ i j, m.Leaves (['a', 'b'].map .ofChar) .reject
          [⟨['a', 'b'].map .ofChar, i⟩, ⟨['$', 'a', 'b'].map .ofChar, j⟩] :=
  ⟨forall_mem_of_all (by decide),
    palindrome_decides .none ['a', 'b', 'b', 'a'] (forall_mem_of_all (by decide)),
    forall_mem_of_all (by decide), palindrome_decides .all ['a', 'b'] (forall_mem_of_all (by decide))⟩

end Catalogue

end TuringLowering
