import TuringLowering.Proofs.Names

/-!
This module contains the proof that widening a guard run by run is to replace it, from left to right, wherever
it occurs, and that the runs measured tell whether it occurs at all.
-/

namespace TuringLowering

/-- Replaces the occurrences of one text by another from left to right, none of which overlap. -/
def replaceAll (old new : List Char) : List Char → List Char
  | [] => []
  | c :: cs =>
    if old ≠ [] ∧ old.isPrefixOf (c :: cs) then new ++ replaceAll old new ((c :: cs).drop old.length)
    else c :: replaceAll old new cs
termination_by cs => cs.length
decreasing_by
  . next h =>
    have : 0 < old.length := List.length_pos_iff.mpr h.1
    rw [List.length_drop, List.length_cons]
    omega
  . simp

namespace Guard

theorem run_prefix_run {m n : Nat} (h : m ≤ n) : run m <+: run n :=
  ⟨run (n - m), by rw [run_append, Nat.add_sub_cancel' h]⟩

theorem le_longestRun_go_append (n current : Nat) (xs ys : List Char) :
    n ≤ longestRun.go current (xs ++ (run n ++ ys)) := by
  induction xs generalizing current with
  | nil =>
    rw [List.nil_append, longestRun_go_run]
    exact Nat.le_trans (Nat.le_add_left n current) (le_longestRun_go _ ys)
  | cons x xs ih =>
    rw [List.cons_append, longestRun.go]
    split
    . exact ih _
    . exact Nat.le_trans (ih 0) (Nat.le_max_right _ _)

theorem run_longestRun_go_occurs (current : Nat) (cs : List Char) :
    run (longestRun.go current cs) <:+: run current ++ cs := by
  induction cs generalizing current with
  | nil => exact (List.prefix_append _ _).isInfix
  | cons c cs ih =>
    rw [longestRun.go]
    split
    . next hc =>
      have hrun : run current ++ c :: cs = run (current + 1) ++ cs := by
        rw [← run_append, List.append_assoc, hc]
        rfl
      rw [hrun]
      exact ih _
    . rcases Nat.le_total current (longestRun.go 0 cs) with hle | hle
      . rw [Nat.max_eq_right hle]
        exact (ih 0).trans ((List.suffix_cons c cs).isInfix.trans (List.suffix_append _ _).isInfix)
      . rw [Nat.max_eq_left hle]
        exact (List.prefix_append _ _).isInfix

theorem run_infix_iff {n : Nat} {cs : List Char} : run n <:+: cs ↔ n ≤ longestRun cs := by
  constructor
  . rintro ⟨xs, ys, rfl⟩
    rw [List.append_assoc]
    exact le_longestRun_go_append n 0 xs ys
  . intro h
    exact (run_prefix_run h).isInfix.trans (run_longestRun_go_occurs 0 cs)

theorem free_iff_not_occurs {g : Guard} {text : String} :
    g.Free text ↔ ¬ g.text.toList <:+: text.toList := by
  rw [Guard.text, String.toList_ofList, run_infix_iff, Nat.not_le]
  rfl

section

variable {a : Nat} (b : Nat)

theorem stretch_go_add (ha : 0 < a) (current : Nat) (cs : List Char) :
    stretch.go a b (current + a) cs = run b ++ stretch.go a b current cs := by
  induction cs generalizing current with
  | nil => rw [stretch.go, stretch.go, widened_add ha, run_append, Nat.add_comm]
  | cons c cs ih =>
    rw [stretch.go, stretch.go]
    split
    . rw [Nat.add_right_comm, ih]
    . rw [widened_add ha, Nat.add_comm, ← run_append, List.append_assoc]

theorem stretch_run_append (ha : 0 < a) (cs : List Char) :
    stretch a b (run a ++ cs) = run b ++ stretch a b cs := by
  rw [stretch, stretch_go_run, stretch_go_add b ha]
  rfl

theorem stretch_go_of_not_full {current : Nat} {cs : List Char} (h : ¬ run a <+: run current ++ cs) :
    stretch.go a b current cs = run current ++ stretch a b cs := by
  have hlt {n : Nat} {cs : List Char} (h : ¬ run a <+: run n ++ cs) : n < a :=
    Nat.lt_of_not_le fun hle => h ((run_prefix_run hle).trans (List.prefix_append _ _))
  induction cs generalizing current with
  | nil => simp [stretch, stretch.go, widened_of_lt b (hlt h), widened_zero, run]
  | cons c cs ih =>
    by_cases hc : c = mark
    . subst hc
      have hrun : run current ++ mark :: cs = run (current + 1) ++ cs := by
        rw [← run_append, List.append_assoc]
        rfl
      -- A full guard that began with this character would be there with those counted before it, too.
      have hone : ¬ run a <+: run 1 ++ cs := by
        intro hprefix
        apply h
        have hlong : run a <+: run current ++ run a := by
          rw [run_append]
          exact run_prefix_run (Nat.le_add_left a current)
        exact hlong.trans ((List.prefix_append_right_inj _).mpr hprefix)
      rw [hrun] at h
      rw [stretch.go, if_pos rfl, stretch, stretch.go, if_pos rfl, ih h, ih hone, ← List.append_assoc,
        run_append]
    . rw [stretch, stretch.go, stretch.go, if_neg hc, if_neg hc, widened_of_lt b (hlt h), widened_zero]
      rfl

theorem replaceAll_run (ha : 0 < a) (cs : List Char) : replaceAll (run a) (run b) cs = stretch a b cs := by
  have hne : run a ≠ [] := by
    unfold run
    simp [Nat.ne_of_gt ha]
  fun_induction replaceAll (run a) (run b) cs with
  | case1 => simp [stretch, stretch.go, widened_zero, run]
  | case2 c cs h ih =>
    obtain ⟨rest, hrest⟩ := List.isPrefixOf_iff_prefix.mp h.2
    rw [ih, ← hrest, List.drop_left, stretch_run_append b ha]
  | case3 c cs h ih =>
    have hprefix : ¬ run a <+: c :: cs := fun hprefix => h ⟨hne, List.isPrefixOf_iff_prefix.mpr hprefix⟩
    by_cases hc : c = mark
    . subst hc
      have hgo : stretch a b (mark :: cs) = stretch.go a b 1 cs := by rw [stretch, stretch.go, if_pos rfl]
      rw [ih, hgo]
      exact (@stretch_go_of_not_full a b 1 cs hprefix).symm
    . have hstretch := stretch_append_cons a b [] hc cs
      rw [List.nil_append] at hstretch
      rw [ih, hstretch]
      simp [stretch, stretch.go, widened_zero, run]

end

/-- To rename is to replace the text of the one guard by that of the other. -/
theorem rename_eq_replaceAll (g g' : Guard) (text : String) :
    g.rename g' text = String.ofList (replaceAll g.text.toList g'.text.toList text.toList) := by
  rw [Guard.text, Guard.text, String.toList_ofList, String.toList_ofList, replaceAll_run _ g.size_pos]
  rfl

end Guard

end TuringLowering
