import Mathlib.Data.List.GetD
import TuringLowering.Proofs.Decoding
import TuringLowering.Proofs.FeatureIndependence
import TuringLowering.Proofs.Routing
import TuringLowering.Proofs.Zipper

/-!
This module contains tapes in the form in which several of them share one. A head that has just left
its tape to the right stands on the boundary, until a cell is added for it.
-/

namespace TuringLowering

theorem Move.cases_of_not_isLong {m : Move} (h : m.isLong = false) :
    m = .left ∨ m = .stay ∨ m = .right := by
  obtain ⟨offset⟩ := m
  have hle : ¬ 1 < offset.natAbs := of_decide_eq_false h
  simp only [mk.injEq]
  omega

theorem Cell.IsLetter.isContent {c : Cell} (h : c.IsLetter) : c.IsContent := by
  obtain ⟨char, rfl⟩ | rfl := h
  . exact ⟨rfl, nofun, nofun⟩
  . decide

namespace Tape

/-- Moves the head; a cell is added only if the head would stand on none. -/
def glide (t : Tape) (m : Move) : Tape :=
  if m.offset < 0 then goLeft m.distance t else goRight m.distance t

theorem view_glide (t : Tape) (m : Move) : (t.glide m).view = t.view.move m := by
  rw [← view_move]
  unfold glide move
  split
  all_goals
    apply View.ext
    . simp
    . simp

def act (t : Tape) (w : Cell) (m : Move) : Tape := (t.write w).glide m

theorem view_act (t : Tape) (w : Cell) (m : Move) : (t.act w m).view = (t.view.write w).move m := by
  rw [act, view_glide, view_write]

theorem act_stay (t : Tape) (w : Cell) : t.act w .stay = t.write w := rfl

theorem act_left_cons (b : Cell) (before : List Cell) (c : Cell) (after : List Cell) (w : Cell) :
    (⟨b :: before, c, after⟩ : Tape).act w .left = ⟨before, b, w :: after⟩ := rfl

theorem act_right_cons (before : List Cell) (c b : Cell) (after : List Cell) (w : Cell) :
    (⟨before, c, b :: after⟩ : Tape).act w .right = ⟨w :: before, b, after⟩ := rfl

theorem act_right_nil (before : List Cell) (c : Cell) (w : Cell) :
    (⟨before, c, []⟩ : Tape).act w .right = ⟨w :: before, .blank, []⟩ := rfl

def lead (t : Tape) : List Cell := .boundLeft :: t.before.reverse

def trail (t : Tape) : List Cell := t.after ++ [.boundRight]

theorem exists_trail (t : Tape) : ∃ c cs, t.trail = c :: cs := by
  unfold trail
  cases t.after with
  | nil => exact ⟨_, _, rfl⟩
  | cons c cs => exact ⟨_, _, rfl⟩

def segment (t : Tape) : List Cell := t.lead ++ t.focus.tagged :: t.trail

theorem mem_of_within {t : Tape} {B : List Cell} (h : t.view.Within B) {c : Cell}
    (hc : c ∈ t.cells) : c ∈ B := by
  obtain ⟨i, hi, rfl⟩ := List.getElem_of_mem hc
  have hcell := h i
  rwa [cells_view, cellAt, List.getD_eq_getElem _ _ hi] at hcell

section

variable {t : Tape} {B : List Cell} (h : t.view.Within B)

include h

theorem mem_before {c : Cell} (hc : c ∈ t.before) : c ∈ B :=
  mem_of_within h (by simp [cells, hc])

theorem focus_mem : t.focus ∈ B := mem_of_within h (by simp [cells])

theorem mem_after {c : Cell} (hc : c ∈ t.after) : c ∈ B :=
  mem_of_within h (by simp [cells, hc])

end

end Tape

/--
A record of a tape after a cell was written and the head was moved: the head does not leave the first cell
to the left, and it may come to stand behind the last one.
-/
def Snapshot.act (s : Snapshot) (w : Cell) (m : Move) : Snapshot :=
  ⟨s.cells.set s.head w, (s.head + m.offset).toNat⟩

theorem Tape.snapshot_act {t : Tape} {m : Move} (hm : m.isLong = false)
    (hlast : ¬ (m = .right ∧ t.after = [])) (w : Cell) : t.snapshot.act w m = (t.act w m).snapshot := by
  obtain ⟨before, c, after⟩ := t
  have hset : (before.reverse ++ c :: after).set before.length w = before.reverse ++ w :: after := by
    rw [← before.length_reverse, List.set_append_right _ _ (Nat.le_refl _), Nat.sub_self, List.set_cons_zero]
  rcases Move.cases_of_not_isLong hm with rfl | rfl | rfl
  . cases before with
    | nil => rfl
    | cons b before =>
      have hhead : ((before.length + 1 : Nat) + (-1 : Int)).toNat = before.length := by omega
      rw [act_left_cons, Snapshot.act, snapshot, cells, position, hset, List.length_cons, hhead]
      simp [snapshot, cells, position]
  . simp [Snapshot.act, snapshot, cells, position, act_stay, write, hset]
  . cases after with
    | nil => exact absurd ⟨rfl, rfl⟩ hlast
    | cons b after => simp [Snapshot.act, snapshot, cells, position, act_right_cons, hset]

namespace Segment

inductive Shows (t : Tape) : List Cell → Prop where
  | settled : Shows t t.segment
  | overrun (focus : t.focus = .blank) (after : t.after = []) :
    Shows t (t.lead ++ [Cell.boundRight.tagged])

theorem encode_snapshot (t : Tape) : encode t.snapshot = t.segment := by
  have hencode := encode_append t.before.reverse t.focus t.after
  rw [List.length_reverse] at hencode
  rw [Tape.snapshot, Tape.cells, Tape.position, hencode]
  simp [Tape.segment, Tape.lead, Tape.trail]

theorem encode_act_right {t : Tape} (h : t.after = []) (w : Cell) :
    encode (t.snapshot.act w .right) = .boundLeft :: (t.before.reverse ++ [w]) ++ [Cell.boundRight.tagged] := by
  obtain ⟨before, c, after⟩ := t
  obtain rfl : after = [] := h
  have hrecord : (⟨before, c, []⟩ : Tape).snapshot.act w .right
      = ⟨before.reverse ++ [w], (before.reverse ++ [w]).length⟩ := by
    simp only [Snapshot.act, Tape.snapshot, Tape.cells, Tape.position, Snapshot.mk.injEq]
    refine ⟨?_, by simp⟩
    rw [← before.length_reverse, List.set_append_right _ _ (Nat.le_refl _), Nat.sub_self, List.set_cons_zero]
  rw [hrecord, encode_end]

theorem shows_act {t : Tape} {m : Move} (hm : m.isLong = false) (w : Cell) :
    Shows (t.act w m) (encode (t.snapshot.act w m)) := by
  by_cases hlast : m = .right ∧ t.after = []
  . obtain ⟨before, c, after⟩ := t
    obtain ⟨rfl, rfl⟩ := hlast
    have hshows := Shows.overrun (t := (⟨before, c, []⟩ : Tape).act w .right) rfl rfl
    rw [encode_act_right rfl]
    simpa [Tape.act_right_nil, Tape.lead] using hshows
  . rw [Tape.snapshot_act hm hlast, encode_snapshot]
    exact .settled

/-- The shared tape between two steps: the name of the state, and one segment for each tape. -/
def shared (q : String) (ts : List Tape) : View :=
  .of [.start] (.state q :: ts.flatMap Tape.segment ++ [.afterLast])

theorem scan_erased {t : Tape} (h : ∀ c ∈ t.cells, c.IsLetter) (rest : List Cell) :
    scan none (t.lead ++ .blank :: t.trail ++ rest) = ⟨(t.write .blank).cells, 0⟩ :: scan none rest := by
  have hbefore : ∀ c ∈ t.before.reverse, c.IsContent := fun c hc =>
    (h c (by simp [Tape.cells] at hc ⊢; simp [hc])).isContent
  have hafter : ∀ c ∈ .blank :: t.after, c.IsContent :=
    List.forall_mem_cons.mpr ⟨by decide, fun c hc => (h c (by simp [Tape.cells, hc])).isContent⟩
  have hopen : scan none (t.lead ++ .blank :: t.trail ++ rest)
      = scan (some .empty) (t.before.reverse ++ ((.blank :: t.after) ++ .boundRight :: rest)) := by
    simp [Tape.lead, Tape.trail, scan]
  rw [hopen, scan_content hbefore, scan_content hafter, scan]
  simp [Reading.finish, Reading.empty, Tape.cells, Tape.write]

theorem scan_segments {ts : List Tape} (h : ∀ t ∈ ts, ∀ c ∈ t.cells, c.IsLetter)
    (rest : List Cell) :
    scan none (ts.flatMap Tape.segment ++ rest) = ts.map Tape.snapshot ++ scan none rest := by
  have hsegments : ts.flatMap Tape.segment = (ts.map Tape.snapshot).flatMap encode := by
    simp only [List.flatMap_map, encode_snapshot]
  rw [hsegments, scan_flatMap_encode]
  . simp
  . exact List.forall_mem_map.mpr fun t ht c hc => (h t ht c hc).isContent
  . exact List.forall_mem_map.mpr fun t _ => Nat.le_of_lt t.position_lt_length_cells

end Segment

theorem Tape.cells_eq_of_view {t : Tape} {l r : List Cell} {c : Cell}
    (h : t.view = .of l (r ++ [c])) (hc : c ≠ .blank) :
    ∃ n, t.cells = l ++ r ++ [c] ++ List.replicate n .blank := by
  have hcells : ∀ i, t.cells.getD i .blank = (l ++ r ++ [c]).getD i .blank := by
    intro i
    have := congrArg (fun v => View.cells v i) h
    simpa [cellAt, List.append_assoc] using this
  have hlen : (l ++ r ++ [c]).length ≤ t.cells.length := by
    by_contra hlt
    have hlast := hcells (l ++ r).length
    rw [List.getD_append_right _ _ _ _ (Nat.le_refl _), Nat.sub_self,
      List.getD_eq_default _ _ (by simp at hlt ⊢; omega)] at hlast
    exact hc hlast.symm
  refine ⟨t.cells.length - (l ++ r ++ [c]).length, List.ext_getElem ?_ ?_⟩
  . simp at hlen ⊢
    omega
  . intro i hi hi'
    have hcell := hcells i
    rw [List.getD_eq_getElem _ _ hi] at hcell
    rw [hcell]
    rcases Nat.lt_or_ge i (l ++ r ++ [c]).length with hlt | hge
    . rw [List.getElem_append_left hlt, List.getD_eq_getElem _ _ hlt]
    . rw [List.getElem_append_right hge, List.getD_eq_default _ _ hge, List.getElem_replicate]

namespace Segment

theorem decode_of_scan {t : Tape} {l r : List Cell} {tapes : List Snapshot}
    (ht : t.view = .of l (r ++ [.afterLast]))
    (hscan : ∀ rest, scan none (l ++ r ++ rest) = tapes ++ scan none rest) :
    decode t.cells tapes.length = tapes := by
  obtain ⟨n, hcells⟩ := Tape.cells_eq_of_view ht (by decide)
  have hend : scan none (.afterLast :: List.replicate n .blank) = [] := by
    have houtside := @scan_outside (.afterLast :: List.replicate n .blank)
      (by simp [Cell.bare, Cell.withHead]) []
    rwa [List.append_nil] at houtside
  have hall : scan none t.cells = tapes := by
    rw [hcells, List.append_assoc, hscan, List.singleton_append, hend, List.append_nil]
  rw [decode, hall, List.take_length, Nat.sub_self, List.replicate_zero, List.append_nil]

section

variable {ts : List Tape} (h : ∀ t ∈ ts, ∀ c ∈ t.cells, c.IsLetter)
include h

/-- Between two steps, the tapes can be read off the shared one. -/
theorem decode_shared {q : String} {t : Tape} (ht : t.view = shared q ts) :
    decode t.cells ts.length = ts.map Tape.snapshot := by
  rw [← ts.length_map Tape.snapshot]
  exact decode_of_scan ht fun rest => scan_segments h rest

theorem decode_nameless {t : Tape}
    (ht : t.view = .of [.start, .blank] (ts.flatMap Tape.segment ++ [.afterLast])) :
    decode t.cells ts.length = ts.map Tape.snapshot := by
  rw [← ts.length_map Tape.snapshot]
  exact decode_of_scan ht fun rest => scan_segments h rest

end

theorem decode_erased {before behind : List Tape} {u t : Tape}
    (h : ∀ t ∈ before ++ u :: behind, ∀ c ∈ t.cells, c.IsLetter)
    (ht : t.view = .of ([.start, .blank] ++ before.flatMap Tape.segment ++ u.lead ++ [.blank])
      (u.trail ++ (behind.flatMap Tape.segment ++ [.afterLast]))) :
    decode t.cells (before ++ u :: behind).length
      = before.map Tape.snapshot ++ ⟨(u.write .blank).cells, 0⟩ :: behind.map Tape.snapshot := by
  have hlength : (before ++ u :: behind).length = (before.map Tape.snapshot
      ++ ⟨(u.write .blank).cells, 0⟩ :: behind.map Tape.snapshot).length := by
    simp
  rw [← List.append_assoc] at ht
  rw [hlength]
  apply decode_of_scan ht
  intro rest
  have hsegments : [.start, .blank] ++ before.flatMap Tape.segment ++ u.lead ++ [.blank]
      ++ (u.trail ++ behind.flatMap Tape.segment) ++ rest
      = .start :: .blank :: (before.flatMap Tape.segment
        ++ (u.lead ++ .blank :: u.trail ++ (behind.flatMap Tape.segment ++ rest))) := by
    simp
  have hbefore := fun t ht => h t (List.mem_append_left _ ht)
  have hu := h u (by simp)
  have hbehind := fun t ht => h t (List.mem_append_right _ (.tail _ ht))
  rw [hsegments]
  change scan none (before.flatMap Tape.segment ++ _) = _
  rw [scan_segments hbefore, scan_erased hu, scan_segments hbehind]
  simp

end Segment

end TuringLowering
