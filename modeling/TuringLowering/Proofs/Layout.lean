import Mathlib.Algebra.Group.Nat.Defs
import TuringLowering.Proofs.Passes

/-!
This module contains the passes by which an input is turned into the segments of several tapes: the
first of them holds the input, and the others are empty.
-/

namespace TuringLowering

@[simp]
theorem Directive.origin_transition (origin : String) (read : Pattern) (w : Writing) (m : Move)
    (next : String) : (transition origin read w m next).origin = origin := rfl

@[simp]
theorem Directive.origin_gadget (origin : String) (read : Pattern) (x : Gadget) (next : String) :
    (gadget origin read x next).origin = origin := rfl

@[simp]
theorem Directive.read_transition (origin : String) (read : Pattern) (w : Writing) (m : Move)
    (next : String) : (transition origin read w m next).read = read := rfl

@[simp]
theorem Directive.read_gadget (origin : String) (read : Pattern) (x : Gadget) (next : String) :
    (gadget origin read x next).read = read := rfl

theorem Move.offset_rightBy {k : Nat} (h : k < 2 ^ 63) : (rightBy k).offset = k := by
  unfold rightBy
  dsimp only
  rw [Int.bmod_eq_of_le]
  . omega
  . omega

namespace Segment

theorem ne_text_append (g : Guard) {s : String} (hs : Guard.Clean s) (x : String) :
    s ≠ g.text ++ x := by
  rintro rfl
  apply hs
  rw [String.toList_append, Guard.text, String.toList_ofList]
  apply List.mem_append_left
  exact List.mem_replicate.mpr ⟨Nat.pos_iff_ne_zero.mp g.size_pos, rfl⟩

theorem defaultStart_ne (g : Guard) (x : String) : Draft.defaultStart ≠ g.text ++ x :=
  ne_text_append g (by decide) x

/-- The directives that serve all routes. -/
def common (g : Guard) (first : String) (count : Nat) (A : Alphabet) : List Directive :=
  layout g Draft.defaultStart first count A.declared ++ .idle (stepState g) :: growth g A

variable {g : Guard} {first : String} {n : Nat} {A : Alphabet} {x : Directive}

theorem mem_common_of_layout (h : x ∈ layout g Draft.defaultStart first n A.declared) :
    x ∈ common g first n A := List.mem_append_left _ h

theorem mem_common_of_growth (h : x ∈ growth g A) : x ∈ common g first n A :=
  List.mem_append_right _ (.tail _ h)

theorem eq_of_origin_gadget {origin next : String} {gadget : Gadget}
    (hgadget : .gadget origin .any gadget next ∈ common g first n A) (hx : x ∈ common g first n A)
    (horigin : x.origin = origin) : x = .gadget origin .any gadget next := by
  have hfilter : x ∈ (common g first n A).filter (·.origin = origin) := by simp [hx, horigin]
  simp [common, layout, growth, Directive.idle] at hgadget
  rcases hgadget with ⟨rfl, rfl, rfl⟩ | ⟨rfl, rfl, rfl⟩ | ⟨rfl, rfl, rfl⟩ | ⟨rfl, rfl, rfl⟩
  all_goals
    simpa [common, layout, growth, Directive.idle, layoutPart, growPart, growState, stepState,
      String.append_assoc, List.filter_map, Function.comp_def, defaultStart_ne,
      (defaultStart_ne g _).symm] using hfilter

theorem read_of_origin_pass {s next : String} {m : Move}
    (hpass : .pass s .any m next ∈ common g first n A) (hx : x ∈ common g first n A)
    (horigin : x.origin = s) :
    x = .pass s .any m next ∨ (m = .right ∧ x.read = .cell .blank)
      ∨ (m = .left ∧ x.read = .cell .start) := by
  have hfilter : x ∈ (common g first n A).filter (·.origin = s) := by simp [hx, horigin]
  simp [common, layout, growth, Directive.idle] at hpass
  rcases hpass with ⟨rfl, rfl, rfl⟩ | ⟨rfl, rfl, rfl⟩
  all_goals
    simp [common, layout, growth, Directive.idle, layoutPart, growPart, growState, stepState,
      String.append_assoc, List.filter_map, Function.comp_def, defaultStart_ne] at hfilter
    rcases hfilter with rfl | rfl
    . simp [Directive.read]
    . simp [layoutPart, String.append_assoc]

end Segment

structure Draft.Prepared (g : Guard) (A : Alphabet) (first : String) (n : Nat) (d : Draft) :
    Prop where
  heeds : ∀ x ∈ Segment.common g first n A, x.read ≠ .any → d.Heeds (Segment.cells A) x
  wild : ∀ x ∈ Segment.common g first n A, x.read = .any → ∀ v v', v.focus ∈ Segment.cells A →
    (∀ y ∈ Segment.common g first n A, y.origin = x.origin → y.read.Matches v.focus → y = x) →
    x.Works (Segment.cells A) v v' → d.Reaches x.origin v x.next v'

namespace Draft.Prepared

open Segment

variable {g : Guard} {A : Alphabet} {first : String} {n : Nat} {d : Draft}

theorem gadget (h : d.Prepared g A first n) {origin next : String} (x : Gadget)
    (hx : .gadget origin .any x next ∈ common g first n A) {v v' : View} (hfocus : v.focus ∈ cells A)
    (hworks : x.Works (cells A) v v') : d.Reaches origin v next v' :=
  h.wild _ hx rfl v v' hfocus (fun _ hy horigin _ => eq_of_origin_gadget hx hy horigin) hworks

theorem grow_reaches (hA : A.HasHeads) (h : d.Prepared g A first n) {q : String} {ts : List Tape}
    {segments : List (List Cell)} (hne : ts ≠ []) (hts : ∀ t ∈ ts, t.view.Within A.declared)
    (hshows : List.Forall₂ Shows ts segments) :
    d.Reaches (growState g) (.of [.start, .state q] (segments.flatten ++ [.afterLast]))
      (growPart g "done") (shared q ts) := by
  apply Segment.grow_reaches hA _ _ hne hts hshows
  . intro x hx hread
    exact h.heeds x (mem_common_of_growth hx) hread
  . intro v v' hfocus hworks
    exact h.gadget (.insertAfter Cell.boundRight.tagged .boundRight)
      (mem_common_of_growth (by simp [growth])) hfocus hworks

section

variable (hA : A.HasHeads) (h : d.Prepared g A first n)

include h

theorem pass_right {s : String} (hpass : .pass s .any .right s ∈ common g first n A) {v : View}
    (hfocus : v.focus ∈ cells A) (hne : v.focus ≠ .blank) : d.Reaches s v s (v.move .right) := by
  apply h.wild _ hpass rfl v _ hfocus
  . intro y hy horigin hmatch
    rcases read_of_origin_pass hpass hy horigin with heq | ⟨_, hread⟩ | ⟨hleft, _⟩
    . exact heq
    . rw [hread] at hmatch
      cases hne hmatch
    . cases hleft
  . constructor
    . exact View.clear_of_distance rfl
    . rw [Writing.onto, View.write_focus]

theorem pass_left {s : String} (hpass : .pass s .any .left s ∈ common g first n A) {v : View}
    (hfocus : v.focus ∈ cells A) (hne : v.focus ≠ .start) : d.Reaches s v s (v.move .left) := by
  apply h.wild _ hpass rfl v _ hfocus
  . intro y hy horigin hmatch
    rcases read_of_origin_pass hpass hy horigin with heq | ⟨hright, _⟩ | ⟨_, hread⟩
    . exact heq
    . cases hright
    . rw [hread] at hmatch
      cases hne hmatch
  . constructor
    . exact View.clear_of_distance rfl
    . rw [Writing.onto, View.write_focus]

theorem replace {s next : String} {c c' : Cell} {m : Move}
    (hx : .replace s c c' m next ∈ layout g defaultStart first n A.declared) :
    d.Heeds (cells A) (.replace s c c' m next) := h.heeds _ (mem_common_of_layout hx) nofun

theorem fill_reaches (k : Nat) (l r : List Cell) :
    d.Reaches (layoutPart g "atBoundR")
      ((View.of (l ++ [.boundRight] ++ List.replicate (k * 3) .blank) r).move .left)
      (layoutPart g "findStart")
      ((View.of l (.boundRight :: ((List.replicate k Tape.blank).flatMap Tape.segment ++ r))).move
        .left) := by
  have hfirst : d.Heeds (cells A) (.replace (layoutPart g "atBoundR") .boundRight .boundRight .left
    (layoutPart g "findStart")) := h.replace (by simp [layout])
  have hright : d.Heeds (cells A) (.replace (layoutPart g "atBoundR") .blank .boundRight .left
    (layoutPart g "atExtraHead")) := h.replace (by simp [layout])
  have hhead : d.Heeds (cells A) (.replace (layoutPart g "atExtraHead") .blank Cell.blank.tagged .left
    (layoutPart g "atBoundL")) := h.replace (by simp [layout])
  have hleft : d.Heeds (cells A) (.replace (layoutPart g "atBoundL") .blank .boundLeft .left
    (layoutPart g "atBoundR")) := h.replace (by simp [layout])
  induction k generalizing r with
  | zero =>
    rw [Nat.zero_mul, List.replicate_zero, List.append_nil, View.move_left_of]
    exact hfirst.replace_left l r
  | succ k ih =>
    have hblanks : List.replicate ((k + 1) * 3) Cell.blank
        = List.replicate (k * 3) .blank ++ [.blank] ++ [.blank] ++ [.blank] := by
      rw [Nat.succ_mul, List.replicate_add]
      simp [List.replicate]
    rw [hblanks, ← List.append_assoc, ← List.append_assoc, ← List.append_assoc, View.move_left_of]
    apply (hright.replace_left _ r).trans
    rw [View.move_left_of]
    apply (hhead.replace_left _ _).trans
    rw [View.move_left_of]
    apply (hleft.replace_left _ _).trans
    have hrest := ih (.boundLeft :: Cell.blank.tagged :: .boundRight :: r)
    rw [List.replicate_succ', List.flatMap_append, List.append_assoc (List.flatMap ..)]
    exact hrest

include hA

theorem open_reaches {word : List Cell} (hword : ∀ c ∈ word, c ∈ A.declared ∧ c ≠ .blank) :
    d.Reaches defaultStart (.of [] word) (layoutPart g "findEnd")
      (.of [.start, .blank] (.boundLeft :: word)) := by
  have hcells : ∀ c ∈ word, c ∈ cells A := fun c hc => Alphabet.mem_cells_of_declared (hword c hc).1
  have hstart : ∀ c ∈ A.declared, c ≠ .start := by
    rintro _ hc rfl
    rcases hA.letters _ hc with ⟨_, heq⟩ | heq
    . cases heq
    . cases heq
  -- An empty input has an empty cell under the head.
  obtain ⟨c, cs, hview, hc, hcs⟩ : ∃ c cs, (∀ l, View.of l word = .of l (c :: cs))
      ∧ c ∈ A.declared ∧ ∀ x ∈ cs, x ∈ A.declared ∧ x ≠ .blank := by
    cases word with
    | nil => exact ⟨.blank, [], fun l => (View.of_append_blank l []).symm, hA.blank, by simp⟩
    | cons c cs => exact ⟨c, cs, fun _ => rfl, (hword c (.head _)).1, fun x hx => hword x (.tail _ hx)⟩
  have hmem : ∀ x ∈ c :: cs, x ∈ cells A ∧ x ≠ .start := by
    intro x hx
    rcases List.mem_cons.mp hx with rfl | hx
    . exact ⟨Alphabet.mem_cells_of_declared hc, hstart _ hc⟩
    . exact ⟨Alphabet.mem_cells_of_declared (hcs x hx).1, hstart _ (hcs x hx).1⟩
  have hmark : d.Reaches defaultStart (.of [] word) (layoutPart g "insertLeftBound")
      (.of [.start] word) := by
    apply h.gadget (.markFirst .start) (mem_common_of_layout (by simp [layout]))
    . rw [hview, View.focus_of_cons]
      exact Alphabet.mem_cells_of_declared hc
    . exact Build.marksFirst_of fun x hx => ⟨hcells x hx, (hword x hx).2⟩
  have hbound : d.Reaches (layoutPart g "insertLeftBound") (.of [.start] (c :: cs))
      (layoutPart g "insertEmpty") (.of [.start, .boundLeft] (c :: cs)) := by
    apply h.gadget (.insertAfter .start .boundLeft) (mem_common_of_layout (by simp [layout]))
    . rw [View.focus_of_cons]
      exact Alphabet.mem_cells_of_declared hc
    . exact Build.insertsAfter_of [] .boundLeft c hmem fun x hx => (hcs x hx).2
  have hempty : d.Reaches (layoutPart g "insertEmpty") (.of [.start, .boundLeft] (c :: cs))
      (layoutPart g "findEnd") (.of [.start, .blank] (.boundLeft :: c :: cs)) := by
    apply h.gadget (.insertAfter .start .blank) (mem_common_of_layout (by simp [layout]))
    . rw [View.focus_of_cons]
      exact Alphabet.mem_cells_of_declared hc
    . apply Build.insertsAfter_of [] .blank c _ fun x hx => (hcs x hx).2
      intro x hx
      rcases List.mem_cons.mp hx with rfl | hx
      . exact ⟨by simp [cells], by simp⟩
      . exact hmem x hx
  have hend : View.of [.start, .blank] (.boundLeft :: word)
      = .of [.start, .blank] (.boundLeft :: c :: cs) := by
    rw [← View.move_left_of, ← View.move_left_of]
    exact congrArg (View.move · .left) (hview _)
  rw [hend]
  apply hmark.trans
  rw [hview]
  exact hbound.trans hempty

theorem mark_end_reaches (hn : (n - 1) * 3 + 1 < 2 ^ 63) (l : List Cell) :
    d.Reaches (layoutPart g "afterEnd") (.of l []) (layoutPart g "atBoundR")
      ((View.of (l ++ [.boundRight] ++ List.replicate ((n - 1) * 3) .blank) [.afterLast]).move
        .left) := by
  have hclose : d.Heeds (cells A) (.replace (layoutPart g "afterEnd") .blank .boundRight
    (.rightBy ((n - 1) * 3 + 1)) (layoutPart g "afterLast")) := h.replace (by simp [layout])
  have hlast : d.Heeds (cells A) (.replace (layoutPart g "afterLast") .blank .afterLast .left
    (layoutPart g "atBoundR")) := h.replace (by simp [layout])
  have hoffset := Move.offset_rightBy hn
  generalize (n - 1) * 3 = k at *
  have hblanks (l : List Cell) : View.of l [] = .of l (.blank :: List.replicate k .blank) :=
    (View.of_append_blanks l [] (k + 1)).symm
  have hclear : (View.of l (.boundRight :: List.replicate k .blank)).Clear (cells A)
      (.rightBy (k + 1)) := by
    rw [← List.append_nil (Cell.boundRight :: _)]
    apply View.clear_of_right
    . rw [hoffset, List.length_replicate]
      rfl
    . intro x hx
      rw [List.eq_of_mem_replicate hx]
      exact Alphabet.mem_cells_of_declared hA.blank
  have hmove : (View.of l (.boundRight :: List.replicate k .blank)).move (.rightBy (k + 1))
      = .of (l ++ [.boundRight] ++ List.replicate k .blank) [] := by
    rw [← List.append_nil (Cell.boundRight :: _), View.move_of_right, List.append_assoc]
    . rfl
    . rw [hoffset, List.length_cons, List.length_replicate]
  have hfar := hclose.put (c := .blank) rfl l hclear
  rw [← hblanks, hmove] at hfar
  apply hfar.trans
  rw [← View.of_append_blank _ []]
  exact hlast.replace_left _ []

omit hA in
theorem find_end_reaches {word : List Cell} (hword : ∀ c ∈ word, c ∈ A.declared ∧ c ≠ .blank) :
    d.Reaches (layoutPart g "findEnd") (.of [.start, .blank] (.boundLeft :: word))
      (layoutPart g "afterEnd") (.of ([.start, .blank, .boundLeft] ++ word ++ [.blank]) []) := by
  have hsweep := Attains.sweep_right (d := d) (s := layoutPart g "findEnd") (.boundLeft :: word)
    (by
      intro v hv
      apply h.pass_right (mem_common_of_layout (by simp [layout]))
      . rcases List.mem_cons.mp hv with hv | hv
        . simp [hv, cells]
        . exact Alphabet.mem_cells_of_declared (hword _ hv).1
      . rcases List.mem_cons.mp hv with hv | hv
        . simp [hv]
        . exact (hword _ hv).2)
    [.start, .blank] []
  have hend : d.Heeds (cells A) (.replace (layoutPart g "findEnd") .blank .blank .right
    (layoutPart g "afterEnd")) := h.replace (by simp [layout])
  rw [List.append_nil, ← View.of_append_blank _ []] at hsweep
  exact hsweep.trans_reaches (hend.replace_right _ [])

theorem front_reaches {word : List Cell} (hword : ∀ c ∈ word, c ∈ A.declared ∧ c ≠ .blank)
    (r : List Cell) :
    d.Reaches (layoutPart g "findStart")
      ((View.of ([.start, .blank, .boundLeft] ++ word ++ [.blank]) (.boundRight :: r)).move .left)
      (stepState g) (.of [.start] (.state first :: ((Tape.ofInput word).segment ++ r))) := by
  obtain ⟨c, cs, hcs, hc, hmem, hsegment⟩ : ∃ c cs, word ++ [.blank] = c :: cs ∧ c ∈ A.declared
      ∧ (∀ x ∈ cs, x ∈ A.declared)
      ∧ (Tape.ofInput word).segment = .boundLeft :: c.tagged :: (cs ++ [.boundRight]) := by
    cases word with
    | nil => exact ⟨.blank, [], rfl, hA.blank, by simp, rfl⟩
    | cons c cs =>
      refine ⟨c, cs ++ [.blank], rfl, (hword c (.head _)).1, ?_, rfl⟩
      intro x hx
      rcases List.mem_append.mp hx with hx | hx
      . exact (hword x (.tail _ hx)).1
      . rw [List.mem_singleton.mp hx]
        exact hA.blank
  have hletter : ∀ x ∈ A.declared, x ≠ .start := by
    rintro _ hx rfl
    rcases hA.letters _ hx with ⟨_, heq⟩ | heq
    . cases heq
    . cases heq
  have hboundLeft : Cell.boundLeft ∈ cells A := by simp [cells]
  have hsweep := Attains.sweep_left (d := d) (s := layoutPart g "findStart")
    (.blank :: .boundLeft :: c :: cs)
    (by
      intro v hv
      have hcases : v.focus ∈ A.declared ∨ v.focus = .boundLeft := by
        simp only [List.mem_cons] at hv
        rcases hv with hv | hv | hv | hv
        . exact .inl (hv ▸ hA.blank)
        . exact .inr hv
        . exact .inl (hv ▸ hc)
        . exact .inl (hmem _ hv)
      apply h.pass_left (mem_common_of_layout (by simp [layout]))
      . rcases hcases with hv | hv
        . exact Alphabet.mem_cells_of_declared hv
        . rw [hv]
          exact hboundLeft
      . rcases hcases with hv | hv
        . exact hletter _ hv
        . simp [hv])
    [.start] (.boundRight :: r)
  have hstart : d.Heeds (cells A) (.replace (layoutPart g "findStart") .start .start .right
    (layoutPart g "atStart")) := h.replace (by simp [layout])
  have hname : d.Heeds (cells A) (.replace (layoutPart g "atStart") .blank (.state first) (.rightBy 2)
    (layoutPart g "markFirstHead")) := h.replace (by simp [layout])
  have htag : d.Heeds (cells A) (.replace (layoutPart g "markFirstHead") c c.tagged (.leftBy 2)
    (stepState g)) := h.replace (by simp [layout, hc])
  have hwrite : d.Reaches (layoutPart g "atStart")
      (.of [.start] (.blank :: .boundLeft :: c :: (cs ++ .boundRight :: r)))
      (layoutPart g "markFirstHead")
      (.of [.start, .state first, .boundLeft] (c :: (cs ++ .boundRight :: r))) := by
    have hmove : (View.of [.start] ([.state first, .boundLeft] ++ c :: (cs ++ .boundRight :: r))).move
        (.rightBy 2) = .of [.start, .state first, .boundLeft] (c :: (cs ++ .boundRight :: r)) :=
      View.move_of_right [.start] rfl _
    rw [← hmove]
    apply hname.put rfl
    exact View.clear_of_right [.start] (.state first) rfl (List.forall_mem_singleton.mpr hboundLeft) _
  have hmark : d.Reaches (layoutPart g "markFirstHead")
      (.of [.start, .state first, .boundLeft] (c :: (cs ++ .boundRight :: r))) (stepState g)
      (.of [.start] (.state first :: .boundLeft :: c.tagged :: (cs ++ .boundRight :: r))) := by
    have hmove : (View.of ([.start] ++ [.state first, .boundLeft])
        (c.tagged :: (cs ++ .boundRight :: r))).move (.leftBy 2)
        = .of [.start] (.state first :: .boundLeft :: c.tagged :: (cs ++ .boundRight :: r)) :=
      View.move_of_left [.start] rfl _
    rw [← hmove]
    apply htag.put rfl
    exact View.clear_of_left [.start] (.state first) rfl (List.forall_mem_singleton.mpr hboundLeft) _
  have hcells : [.start, .blank, .boundLeft] ++ word ++ [.blank]
      = [.start] ++ Cell.blank :: .boundLeft :: c :: cs := by
    rw [List.append_assoc, hcs]
    rfl
  have hshared : (Tape.ofInput word).segment ++ r
      = .boundLeft :: c.tagged :: (cs ++ .boundRight :: r) := by
    rw [hsegment]
    simp
  rw [hcells, hshared]
  apply hsweep.trans_reaches
  exact (hstart.replace_right [] _).trans (hwrite.trans hmark)

/-- An input is turned into segments, before the first step. -/
theorem layout_reaches (hn : (n - 1) * 3 + 1 < 2 ^ 63) {word : List Cell}
    (hword : ∀ c ∈ word, c ∈ A.declared ∧ c ≠ .blank) :
    d.Reaches defaultStart (.of [] word) (stepState g)
      (shared first (.ofInput word :: List.replicate (n - 1) .blank)) := by
  apply (h.open_reaches hA hword).trans
  apply (h.find_end_reaches hword).trans
  apply (h.mark_end_reaches hA hn _).trans
  apply (h.fill_reaches (n - 1) _ _).trans
  have hfront := h.front_reaches hA hword
    ((List.replicate (n - 1) Tape.blank).flatMap Tape.segment ++ [.afterLast])
  rw [← List.append_assoc, ← List.flatMap_cons] at hfront
  exact hfront

end

end Draft.Prepared

end TuringLowering
