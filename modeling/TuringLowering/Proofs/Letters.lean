import TuringLowering.Alphabet
import TuringLowering.Proofs.Names
import TuringLowering.Proofs.Regrowth

/-!
This module contains the lemmas about alphabets whose symbols are single characters: no two patterns
over such an alphabet are written alike, and their written forms contain no guard but the shortest.
-/

namespace TuringLowering

theorem forall_mem_of_all {α : Type} {l : List α} {p : α → Prop} [DecidablePred p]
    (h : (l.all fun a => decide (p a)) = true) : ∀ a ∈ l, p a :=
  fun a ha => of_decide_eq_true (List.all_eq_true.mp h a ha)

/-- A cell that holds a single character or nothing. -/
def Cell.IsLetter (c : Cell) : Prop := (∃ char, c = .ofChar char) ∨ c = .blank

namespace Cell

theorem toList_display_ofChar (char : Char) : (ofChar char).display.toList = [char] := by
  have hshort : Mark.looksReserved (String.singleton char) = false := by
    simp [Mark.looksReserved]
  simp [ofChar, Mark.display, hshort]

theorem ofChar_injective : Function.Injective ofChar := by
  intro char char' h
  have htext := congrArg (fun c : Cell => c.display.toList) h
  simpa only [toList_display_ofChar, List.cons.injEq, and_true] using htext

theorem toList_display_blank : blank.display.toList = ['\x7b', 'e', '\x7d'] := rfl

namespace IsLetter

theorem nameless {c : Cell} (h : c.IsLetter) : c.Nameless := by
  obtain ⟨char, rfl⟩ | rfl := h
  . exact fun _ => rfl
  . exact fun _ => rfl

theorem eq_of_append {c c' : Cell} (h : c.IsLetter) (h' : c'.IsLetter) {xs ys : List Char}
    (hxs : xs.head? ≠ some 'e') (hys : ys.head? ≠ some 'e')
    (heq : c.display.toList ++ xs = c'.display.toList ++ ys) : c = c' ∧ xs = ys := by
  obtain ⟨char, rfl⟩ | rfl := h <;> obtain ⟨char', rfl⟩ | rfl := h' <;>
    simp only [toList_display_ofChar, toList_display_blank, List.cons_append, List.nil_append,
      List.cons.injEq, true_and] at heq
  . rw [heq.1]
    exact ⟨rfl, heq.2⟩
  . rw [heq.2] at hxs
    exact absurd rfl hxs
  . rw [← heq.2] at hys
    exact absurd rfl hys
  . exact ⟨rfl, heq⟩

theorem eq_of_display {c c' : Cell} (h : c.IsLetter) (h' : c'.IsLetter)
    (heq : c.display = c'.display) : c = c' :=
  (h.eq_of_append h' (by simp) (by simp) (congrArg (fun s => s.toList ++ []) heq)).1

theorem longestRun_le {c : Cell} (h : c.IsLetter) :
    Guard.longestRun c.display.toList ≤ 1 := by
  obtain ⟨char, rfl⟩ | rfl := h
  . rw [toList_display_ofChar, Guard.longestRun, Guard.longestRun.go, Guard.longestRun.go,
      Guard.longestRun.go]
    split <;> simp
  . decide

theorem free {c : Cell} (h : c.IsLetter) {g : Guard} (hg : 1 < g.size) : g.Free c.display :=
  Nat.lt_of_le_of_lt h.longestRun_le hg

theorem apart {c : Cell} (h : c.IsLetter) (g : Guard) : g.Apart c.display := by
  obtain ⟨char, rfl⟩ | rfl := h
  . by_cases hchar : char = Guard.mark
    . right
      rw [toList_display_ofChar, hchar]
      decide
    . apply Guard.Apart.of_clean
      unfold Guard.Clean
      rw [toList_display_ofChar, List.mem_singleton]
      exact Ne.symm hchar
  . exact .of_clean (by decide) g

end IsLetter

def displayRest (cells : List Cell) : List Char :=
  if cells.isEmpty then [] else ',' :: (displayAll cells).toList

theorem toList_displayAll_cons (c : Cell) (cells : List Cell) :
    (displayAll (c :: cells)).toList = c.display.toList ++ displayRest cells := by
  cases cells with
  | nil => simp [displayAll, displayRest, joined]
  | cons c' cells => simp [displayAll, displayRest, joined]

theorem displayRest_head (cells : List Cell) : (displayRest cells).head? ≠ some 'e' := by
  unfold displayRest
  split <;> simp

theorem displayAll_injective {cells cells' : List Cell} (h : ∀ c ∈ cells, c.IsLetter)
    (h' : ∀ c ∈ cells', c.IsLetter) (heq : displayAll cells = displayAll cells') :
    cells = cells' := by
  have hempty {c : Cell} (hc : c.IsLetter) (cells : List Cell) :
      (displayAll (c :: cells)).toList ≠ [] := by
    rw [toList_displayAll_cons]
    obtain ⟨char, rfl⟩ | rfl := hc
    . rw [toList_display_ofChar]
      exact List.cons_ne_nil _ _
    . rw [toList_display_blank]
      exact List.cons_ne_nil _ _
  induction cells generalizing cells' with
  | nil =>
    cases cells' with
    | nil => rfl
    | cons c' cells' =>
      rw [List.forall_mem_cons] at h'
      exact absurd (congrArg String.toList heq).symm (hempty h'.1 cells')
  | cons c cells ih =>
    rw [List.forall_mem_cons] at h
    cases cells' with
    | nil => exact absurd (congrArg String.toList heq) (hempty h.1 cells)
    | cons c' cells' =>
      rw [List.forall_mem_cons] at h'
      have hlist := congrArg String.toList heq
      rw [toList_displayAll_cons, toList_displayAll_cons] at hlist
      obtain ⟨rfl, hrest⟩ := h.1.eq_of_append h'.1 (displayRest_head _) (displayRest_head _) hlist
      cases cells with
      | nil =>
        cases cells' with
        | nil => rfl
        | cons _ _ => simp [displayRest] at hrest
      | cons c₁ cells =>
        cases cells' with
        | nil => simp [displayRest] at hrest
        | cons c₂ cells' =>
          simp only [displayRest, List.isEmpty_cons, Bool.false_eq_true, ↓reduceIte,
            List.cons.injEq, true_and] at hrest
          rw [ih h.2 h'.2 (String.toList_injective hrest)]

theorem longestRun_displayAll {cells : List Cell} (h : ∀ c ∈ cells, c.IsLetter) :
    Guard.longestRun (displayAll cells).toList ≤ 1 := by
  induction cells with
  | nil => decide
  | cons c cells ih =>
    rw [List.forall_mem_cons] at h
    rw [toList_displayAll_cons, displayRest]
    split
    . rw [List.append_nil]
      exact h.1.longestRun_le
    . rw [Guard.longestRun_append_cons _ (by decide)]
      exact Nat.max_le.mpr ⟨h.1.longestRun_le, ih h.2⟩

end Cell

namespace Pattern

theorem toList_display_oneOf (cells : List Cell) :
    (oneOf cells).display.toList = '[' :: ((Cell.displayAll cells).toList ++ [']']) := by
  simp [display]

theorem display_oneOf_ne {c : Cell} (h : c.IsLetter) (cells : List Cell) :
    c.display ≠ (oneOf cells).display := by
  intro heq
  have := congrArg String.toList heq
  rw [toList_display_oneOf] at this
  obtain ⟨char, rfl⟩ | rfl := h
  . simp [Cell.toList_display_ofChar] at this
  . rw [Cell.toList_display_blank, List.cons.injEq] at this
    exact absurd this.1 (by decide)

theorem display_any_ne {c : Cell} (h : c.IsLetter) : c.display ≠ any.display := by
  intro heq
  have hany : any.display.toList = ['\x7b', '*', '\x7d'] := rfl
  have := congrArg String.toList heq
  rw [hany] at this
  obtain ⟨char, rfl⟩ | rfl := h
  . simp [Cell.toList_display_ofChar] at this
  . exact absurd this (by decide)

theorem display_any_ne_oneOf (cells : List Cell) : any.display ≠ (oneOf cells).display := by
  intro heq
  have hany : any.display.toList = ['\x7b', '*', '\x7d'] := rfl
  have := congrArg String.toList heq
  rw [hany, toList_display_oneOf, List.cons.injEq] at this
  exact absurd this.1 (by decide)

theorem eq_of_display {p p' : Pattern} (h : p.Over Cell.IsLetter) (h' : p'.Over Cell.IsLetter)
    (heq : p.display = p'.display) : p = p' := by
  cases p with
  | cell c =>
    cases p' with
    | cell c' => rw [Cell.IsLetter.eq_of_display h h' heq]
    | oneOf cells => exact absurd heq (display_oneOf_ne h cells)
    | any => exact absurd heq (display_any_ne h)
  | oneOf cells =>
    cases p' with
    | cell c => exact absurd heq.symm (display_oneOf_ne h' cells)
    | oneOf cells' =>
      have hlist := congrArg String.toList heq
      rw [toList_display_oneOf, toList_display_oneOf, List.cons.injEq] at hlist
      have hcells := String.toList_injective (List.append_cancel_right hlist.2)
      rw [Cell.displayAll_injective h h' hcells]
    | any => exact absurd heq.symm (display_any_ne_oneOf cells)
  | any =>
    cases p' with
    | cell c => exact absurd heq.symm (display_any_ne h')
    | oneOf cells => exact absurd heq (display_any_ne_oneOf cells)
    | any => rfl

theorem free_display {p : Pattern} (h : p.Over Cell.IsLetter) {g : Guard} (hg : 1 < g.size) :
    g.Free p.display := by
  cases p with
  | cell c => exact Cell.IsLetter.free h hg
  | oneOf cells =>
    unfold Guard.Free
    have hshort := Cell.longestRun_displayAll h
    have hend : Guard.longestRun [] = 0 := rfl
    have hopen := Guard.longestRun_append_cons [] (show '[' ≠ Guard.mark by decide)
      ((Cell.displayAll cells).toList ++ [']'])
    rw [List.nil_append, Guard.longestRun_append_cons _ (by decide), hend] at hopen
    rw [toList_display_oneOf, hopen]
    omega
  | any => exact Guard.Clean.free (by decide) g

end Pattern

end TuringLowering
