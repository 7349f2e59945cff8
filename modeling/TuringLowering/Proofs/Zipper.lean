import TuringLowering.Proofs.Carrying

/-!
This module contains views that are given by the cells before the head and those from the head on.
Movements and gadgets shift cells from one of the two lists to the other.
-/

namespace TuringLowering

namespace View

def of (l r : List Cell) : View := ⟨l.length, fun i => (l ++ r).getD i .blank⟩

@[simp]
theorem position_of (l r : List Cell) : (of l r).position = l.length := rfl

@[simp]
theorem cells_of (l r : List Cell) (i : Nat) : (of l r).cells i = (l ++ r).getD i .blank := rfl

theorem cells_of_before {l : List Cell} (r : List Cell) {i : Nat} (h : i < l.length) :
    (of l r).cells i = l[i] := by
  simp [List.getD_eq_getElem?_getD, List.getElem?_append_left h, h]

theorem cells_of_behind (l r : List Cell) (i : Nat) :
    (of l r).cells (l.length + i) = r.getD i .blank := by
  rw [cells_of, List.getD_eq_getElem?_getD, List.getElem?_append_right (Nat.le_add_right _ _),
    Nat.add_sub_cancel_left, List.getD_eq_getElem?_getD]

@[simp]
theorem focus_of_cons (l : List Cell) (c : Cell) (r : List Cell) : (of l (c :: r)).focus = c := by
  simp [focus]

@[simp]
theorem focus_of_nil (l : List Cell) : (of l []).focus = .blank := by
  simp [focus]

theorem of_append_blank (l r : List Cell) : of l (r ++ [.blank]) = of l r := by
  ext i
  . rfl
  . rw [cells_of, cells_of, ← List.append_assoc, Tape.getD_append_blank]

theorem of_append_blanks (l r : List Cell) (n : Nat) :
    of l (r ++ List.replicate n .blank) = of l r := by
  induction n with
  | zero => rw [List.replicate_zero, List.append_nil]
  | succ n ih => rw [List.replicate_succ', ← List.append_assoc, of_append_blank, ih]

@[simp]
theorem write_of (l : List Cell) (c c' : Cell) (r : List Cell) :
    (of l (c :: r)).write c' = of l (c' :: r) := by
  ext i
  . rfl
  . rw [cells_write, position_of]
    rcases Nat.lt_trichotomy i l.length with h | h | h
    . rw [if_neg (Nat.ne_of_lt h), cells_of_before _ h, cells_of_before _ h]
    . rw [if_pos h, h]
      simp
    . obtain ⟨k, rfl⟩ := Nat.exists_eq_add_of_lt h
      rw [if_neg (Nat.ne_of_gt h), Nat.add_assoc, cells_of_behind, cells_of_behind]
      rfl

theorem move_of_right (l : List Cell) {xs : List Cell} {m : Move} (h : m.offset = xs.length)
    (r : List Cell) : (of l (xs ++ r)).move m = of (l ++ xs) r := by
  ext i
  . simp only [position_move, position_of, h, List.length_append]
    omega
  . rw [cells_move, cells_of, cells_of, List.append_assoc]

theorem move_of_left (l : List Cell) {xs : List Cell} {m : Move} (h : m.offset = -xs.length)
    (r : List Cell) : (of (l ++ xs) r).move m = of l (xs ++ r) := by
  ext i
  . simp only [position_move, position_of, h, List.length_append]
    omega
  . rw [cells_move, cells_of, cells_of, List.append_assoc]

theorem move_right_of (l : List Cell) (c : Cell) (r : List Cell) :
    (of l (c :: r)).move .right = of (l ++ [c]) r :=
  @move_of_right l [c] .right rfl r

theorem move_left_of (l : List Cell) (c : Cell) (r : List Cell) :
    (of (l ++ [c]) r).move .left = of l (c :: r) :=
  @move_of_left l [c] .left rfl r

theorem move_left_of_nil (r : List Cell) : (of [] r).move .left = of [] r := by
  ext i
  . rfl
  . rfl

theorem carryRight_of (l : List Cell) (c c' : Cell) (r : List Cell) :
    (of l (c :: c' :: r)).carryRight = of (l ++ [.blank]) (c :: r) := by
  rw [carryRight, write_of, move_right_of, write_of, focus_of_cons]

theorem carryBack_of (l : List Cell) (b c c' : Cell) (r : List Cell) :
    (of (l ++ [b]) (c :: c' :: r)).carryBack = of l (b :: .blank :: c :: r) := by
  rw [carryBack, carryRight_of, List.append_assoc]
  exact move_of_left l rfl (c :: r)

theorem carryBack_of_nil (c c' : Cell) (r : List Cell) :
    (of [] (c :: c' :: r)).carryBack = of [] (.blank :: c :: r) := by
  rw [carryBack, carryRight_of]
  rfl

section

variable {B : List Cell} {m : Move}

theorem clear_of_stay (l : List Cell) (c : Cell) {d : Cell} (hd : d ∈ B) (r : List Cell) :
    (of l (c :: d :: r)).Clear B .stay := by
  constructor
  . intro _
    simpa [List.getD_eq_getElem?_getD, List.getElem?_append] using hd
  . intro k hk hk'
    exact absurd hk' (by simp [Move.distance])

theorem clear_of_right (l : List Cell) (c : Cell) {xs : List Cell} (h : m.offset = xs.length + 1)
    (hxs : ∀ x ∈ xs, x ∈ B) (r : List Cell) : (of l (c :: xs ++ r)).Clear B m := by
  constructor
  . rintro rfl
    dsimp only at h
    omega
  . intro k hk hk'
    obtain ⟨k, rfl⟩ := Nat.exists_eq_succ_of_ne_zero (Nat.pos_iff_ne_zero.mp hk)
    have hlt : k < xs.length := by
      unfold Move.distance at hk'
      omega
    have hsign : m.offset.sign = 1 := Int.sign_eq_one_of_pos (by omega)
    have hposition : ((of l (c :: xs ++ r)).position + m.offset.sign * (k.succ : Nat)).toNat
        = l.length + (k + 1) := by
      rw [hsign, position_of]
      omega
    have hcell : (c :: xs ++ r).getD (k + 1) .blank = xs[k] := by
      simp [List.getD_eq_getElem?_getD, List.getElem?_append_left, hlt]
    rw [hposition, cells_of_behind, hcell]
    exact hxs _ (List.getElem_mem hlt)

theorem clear_of_left (l : List Cell) (c : Cell) {xs : List Cell} (h : m.offset = -(xs.length + 1))
    (hxs : ∀ x ∈ xs, x ∈ B) (r : List Cell) : (of (l ++ c :: xs) r).Clear B m := by
  constructor
  . rintro rfl
    dsimp only at h
    omega
  . intro k hk hk'
    have hle : k ≤ xs.length := by
      unfold Move.distance at hk'
      omega
    have hsign : m.offset.sign = -1 := Int.sign_eq_neg_one_of_neg (by omega)
    have hposition : ((of (l ++ c :: xs) r).position + m.offset.sign * k).toNat
        = l.length + (xs.length - k + 1) := by
      rw [hsign, position_of, List.length_append, List.length_cons]
      omega
    have hlt : xs.length - k < xs.length := by omega
    have hcell : (of (l ++ c :: xs) r).cells (l.length + (xs.length - k + 1))
        = xs[xs.length - k] := by
      rw [cells_of_before _ (by simp; omega), List.getElem_append_right (by omega)]
      simp
    rw [hposition, hcell]
    exact hxs _ (List.getElem_mem hlt)

end

theorem isLast_of (l : List Cell) (c : Cell) {xs : List Cell} (hxs : ∀ x ∈ xs, x ≠ .blank) :
    (of l (c :: xs)).IsLast (l.length + xs.length) := by
  refine ⟨Nat.le_add_right _ _, ?_, ?_⟩
  . rw [Nat.add_assoc, cells_of_behind]
    simp
  . intro i hi hle
    obtain ⟨k, rfl⟩ := Nat.exists_eq_add_of_lt hi
    rw [position_of] at hle ⊢
    have hlt : k < xs.length := by omega
    have hcell : (c :: xs).getD (k + 1) .blank = xs[k] := by
      simp [List.getD_eq_getElem?_getD, hlt]
    rw [Nat.add_assoc, cells_of_behind, hcell]
    exact hxs _ (List.getElem_mem hlt)

theorem exists_of_behind {l xs : List Cell} {m : Cell} {i : Nat} (hi : l.length < i)
    (hle : i ≤ l.length + xs.length) (l' r : List Cell) (h : l' ++ r = l ++ m :: xs) :
    ∃ x ∈ xs, (of l' r).cells i = x := by
  obtain ⟨k, rfl⟩ := Nat.exists_eq_add_of_lt hi
  have hlt : k < xs.length := by omega
  refine ⟨xs[k], List.getElem_mem hlt, ?_⟩
  rw [cells_of, h, Nat.add_assoc, ← cells_of, cells_of_behind]
  simp [List.getD_eq_getElem?_getD, hlt]

theorem isNearest_of (l : List Cell) {stop : Cell} {xs : List Cell} (hxs : ∀ x ∈ xs, x ≠ stop)
    (l' r : List Cell) (h : l' ++ r = l ++ stop :: xs) :
    IsNearest (of l' r).cells stop (l.length + xs.length) l.length := by
  refine ⟨Nat.le_add_right _ _, ?_, ?_⟩
  . rw [cells_of, h]
    simp
  . intro i hi hle
    obtain ⟨x, hx, heq⟩ := exists_of_behind hi hle l' r h
    rw [heq]
    exact hxs x hx

theorem write_carried_of (l : List Cell) (m c : Cell) (xs l' r : List Cell)
    (h : l' ++ r = l ++ m :: xs) :
    (⟨l.length + 1, carried (of l' r).cells (l.length + xs.length) l.length⟩ : View).write c
      =
    of (l ++ [m]) (c :: xs) := by
  have hcells (i : Nat) : (of l' r).cells i = (l ++ m :: xs).getD i .blank := by
    rw [cells_of, h]
  ext i
  . simp
  . rw [cells_write, cells_of]
    unfold carried
    simp only [hcells]
    rcases Nat.lt_or_ge i (l.length + 1) with hi | hi
    . rw [if_neg (Nat.ne_of_lt hi), if_pos (Nat.le_of_lt_succ hi)]
      have hleft (r : List Cell) : (l ++ m :: r)[i]? = (l ++ [m])[i]? := by
        rw [List.append_cons]
        exact List.getElem?_append_left (by simpa using hi)
      rw [List.append_assoc, List.singleton_append, List.getD_eq_getElem?_getD,
        List.getD_eq_getElem?_getD, hleft xs, hleft (c :: xs)]
    . obtain ⟨k, rfl⟩ := Nat.exists_eq_add_of_le hi
      have hnew : (l ++ [m] ++ c :: xs).getD (l.length + 1 + k) .blank
          = (c :: xs).getD k .blank := by
        have := cells_of_behind (l ++ [m]) (c :: xs) k
        simpa using this
      have hold : (l ++ m :: xs).getD (l.length + k) .blank = (m :: xs).getD k .blank :=
        cells_of_behind l (m :: xs) k
      rw [hnew]
      cases k with
      | zero => simp
      | succ k =>
        rw [if_neg (by omega), if_neg (by omega), if_neg (by omega)]
        split
        . have hindex : l.length + 1 + (k + 1) - 1 = l.length + (k + 1) := by omega
          rw [hindex, hold]
          rfl
        . next hlt =>
          have hlen : xs.length ≤ k := by omega
          simp only [List.getD_eq_getElem?_getD]
          rw [List.getElem?_eq_none (by simp; omega), List.getElem?_eq_none (by simpa using hlen)]

end View

theorem Tape.view_ofInput (word : List Cell) : (ofInput word).view = .of [] word := by
  ext i
  . cases word <;> rfl
  . cases word with
    | nil => exact getD_append_blank [] i
    | cons c cs => exact getD_append_blank (c :: cs) i

namespace Build

variable {B : List Cell}

theorem insertsAfter_of_append {l l' : List Cell} {marker : Cell} (insert : Cell) {c : Cell}
    {xs ys : List Cell} (happend : l' ++ c :: ys = l ++ marker :: xs)
    (hxs : ∀ x ∈ xs, x ∈ B ∧ x ≠ marker) (hys : ∀ y ∈ ys, y ∈ B ∧ y ≠ .blank) :
    InsertsAfter B marker insert (.of l' (c :: ys)) (.of (l ++ [marker, insert]) xs) := by
  have hlen : l'.length + ys.length = l.length + xs.length := by
    have := congrArg List.length happend
    simp only [List.length_append, List.length_cons] at this
    omega
  have hlast := View.isLast_of l' c fun y hy => (hys y hy).2
  rw [hlen] at hlast
  refine ⟨_, _, hlast, View.isNearest_of l (fun x hx => (hxs x hx).2) _ _ happend, ?_, ?_, ?_⟩
  . intro i hi hle
    rw [← hlen] at hle
    obtain ⟨y, hy, heq⟩ := View.exists_of_behind hi hle _ _ rfl
    rw [heq]
    exact (hys y hy).1
  . intro i hi hle
    obtain ⟨x, hx, heq⟩ := View.exists_of_behind hi hle _ _ happend
    rw [heq]
    exact (hxs x hx).1
  . have hmove : ((⟨l.length, View.carried (View.of l' (c :: ys)).cells
        (l.length + xs.length) l.length⟩ : View).move .right)
        = ⟨l.length + 1, View.carried (View.of l' (c :: ys)).cells
          (l.length + xs.length) l.length⟩ := rfl
    rw [hmove, View.write_carried_of l marker insert _ _ _ happend, View.move_right_of,
      List.append_assoc]
    rfl

theorem insertsAfter_of (l : List Cell) {marker : Cell} (insert : Cell) {xs : List Cell} (c : Cell)
    {ys : List Cell} (hxs : ∀ x ∈ xs ++ c :: ys, x ∈ B ∧ x ≠ marker) (hys : ∀ y ∈ ys, y ≠ .blank) :
    InsertsAfter B marker insert (.of (l ++ marker :: xs) (c :: ys))
      (.of (l ++ [marker, insert]) (xs ++ c :: ys)) := by
  apply insertsAfter_of_append insert (by simp) hxs
  intro y hy
  exact ⟨(hxs y (List.mem_append_right _ (List.mem_cons_of_mem c hy))).1, hys y hy⟩

theorem marksFirst_of {marker : Cell} {word : List Cell} (h : ∀ c ∈ word, c ∈ B ∧ c ≠ .blank) :
    MarksFirst B marker (.of [] word) (.of [marker] word) := by
  cases word with
  | nil =>
    have hblank : ∀ i, (View.of [] []).cells i = .blank := fun i => by simp
    refine ⟨0, ⟨Nat.le_refl 0, hblank _, ?_⟩, ?_, .inl ⟨0, ⟨Nat.le_refl 0, hblank _, ?_⟩, ?_, ?_⟩⟩
    . intro i hi hle
      exact absurd hle (Nat.not_le_of_lt hi)
    . intro i hi hle
      exact absurd hle (Nat.not_le_of_lt hi)
    . intro i hi hle
      exact absurd hle (Nat.not_le_of_lt hi)
    . intro i hi hle
      exact absurd hle (Nat.not_le_of_lt hi)
    . rw [View.carried_self (hblank _)]
      have hview : (⟨0, (View.of [] []).cells⟩ : View) = .of [] [.blank] :=
        (View.of_append_blank [] []).symm
      rw [hview, View.write_of, View.move_right_of]
      rfl
  | cons c cs =>
    rw [List.forall_mem_cons] at h
    have hlast := View.isLast_of [] c fun x hx => (h.2 x hx).2
    have hmem : ∀ i ≤ cs.length, (View.of [] (c :: cs)).cells i ∈ c :: cs := by
      intro i hi
      have hlt : i < (c :: cs).length := Nat.lt_succ_of_le hi
      have hcell : (View.of [] (c :: cs)).cells i = (c :: cs)[i] := by
        rw [View.cells_of, List.nil_append, List.getD_eq_getElem?_getD,
          List.getElem?_eq_getElem hlt, Option.getD_some]
      rw [hcell]
      exact List.getElem_mem hlt
    have hcells : ∀ i ≤ cs.length, (View.of [] (c :: cs)).cells i ≠ .blank
        ∧ (View.of [] (c :: cs)).cells i ∈ B := by
      intro i hi
      rcases List.mem_cons.mp (hmem i hi) with heq | htail
      . rw [heq]
        exact ⟨h.1.2, h.1.1⟩
      . exact ⟨(h.2 _ htail).2, (h.2 _ htail).1⟩
    rw [List.length_nil, Nat.zero_add] at hlast
    refine ⟨cs.length, hlast, fun i _ hi => (hcells i hi).2, .inr ⟨hcells, ?_⟩⟩
    have hnew : (⟨0, View.carriedAll (View.of [] (c :: cs)).cells cs.length⟩ : View)
        = .of [] (.blank :: c :: cs) := by
      ext i
      . rfl
      . rw [View.cells_of]
        unfold View.carriedAll
        dsimp only
        cases i with
        | zero => simp
        | succ i =>
          rw [if_neg (Nat.succ_ne_zero i)]
          split
          . simp
          . next hlt =>
            simp only [View.cells_of, List.nil_append, List.getD_eq_getElem?_getD]
            rw [List.getElem?_eq_none (by simp; omega), List.getElem?_eq_none (by simp; omega)]
    rw [hnew, View.write_of, View.move_right_of]
    rfl

end Build

end TuringLowering
