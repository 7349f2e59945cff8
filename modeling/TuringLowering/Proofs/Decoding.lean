import TuringLowering.Segment.Basic

/-!
This module contains the proofs that the tapes that share one can be read off their segments, whatever stands
before and behind these, and that what is read off any cells at all are tapes.
-/

namespace TuringLowering

namespace Cell

/-- A cell that can stand between the boundaries of a segment, with no head on it. -/
structure IsContent (c : Cell) : Prop where
  head : c.head = false
  ne_boundLeft : c ≠ .boundLeft
  ne_boundRight : c ≠ .boundRight

instance (c : Cell) : Decidable c.IsContent :=
  decidable_of_iff (c.head = false ∧ c ≠ .boundLeft ∧ c ≠ .boundRight)
    ⟨fun ⟨hhead, hleft, hright⟩ => ⟨hhead, hleft, hright⟩, fun h => ⟨h.head, h.ne_boundLeft, h.ne_boundRight⟩⟩

theorem bare_of_head {c : Cell} (h : c.head = false) : c.bare = c := by
  cases c with
  | atom mark tag =>
    obtain rfl : tag = false := h
    rfl
  | tuple parts tag =>
    obtain rfl : tag = false := h
    rfl

theorem bare_eq_plain_iff {c : Cell} {mark : Mark} : c.bare = .plain mark ↔ ∃ tag, c = .atom mark tag := by
  cases c with
  | atom mark' tag => simp [bare, withHead]
  | tuple parts tag => simp [bare, withHead]

theorem isContent_bare {c : Cell} (hleft : c.bare ≠ .boundLeft) (hright : c.bare ≠ .boundRight) :
    c.bare.IsContent where
  head := by cases c <;> rfl
  ne_boundLeft := hleft
  ne_boundRight := hright

end Cell

/-- A record with a cell under the head: behind the last cell, an empty one is added for it. -/
def Snapshot.filled (s : Snapshot) : Snapshot :=
  if s.head = s.cells.length then { s with cells := s.cells ++ [.blank] } else s

@[simp]
theorem Tape.filled_snapshot (t : Tape) : t.snapshot.filled = t.snapshot :=
  if_neg (Nat.ne_of_lt t.position_lt_length_cells)

namespace Segment

theorem tagAt_of_length_le {cells : List Cell} {head : Nat} (h : cells.length ≤ head) :
    tagAt cells head = cells := by
  have hcells : ∀ x ∈ cells.zipIdx, (if x.2 = head then x.1.tagged else x.1) = x.1 := by
    intro x hx
    have hlt : x.2 < cells.length := by simpa using List.snd_lt_of_mem_zipIdx hx
    rw [if_neg (Nat.ne_of_lt (Nat.lt_of_lt_of_le hlt h))]
  rw [tagAt, List.map_congr_left hcells, List.zipIdx_map_fst]

theorem tagAt_append (l : List Cell) (c : Cell) (r : List Cell) :
    tagAt (l ++ c :: r) l.length = l ++ c.tagged :: r := by
  have hbehind : ∀ x ∈ r.zipIdx (l.length + 1), (if x.2 = l.length then x.1.tagged else x.1) = x.1 := by
    intro x hx
    rw [if_neg (Nat.ne_of_gt (List.le_snd_of_mem_zipIdx hx))]
  have hbefore := @tagAt_of_length_le l l.length (Nat.le_refl _)
  rw [tagAt] at hbefore
  rw [tagAt, List.zipIdx_append, List.map_append, hbefore, Nat.zero_add, List.zipIdx_cons, List.map_cons,
    List.map_congr_left hbehind, List.zipIdx_map_fst]
  dsimp only
  rw [if_pos rfl]

theorem encode_end (l : List Cell) : encode ⟨l, l.length⟩ = .boundLeft :: l ++ [Cell.boundRight.tagged] := by
  rw [encode, tagAt_of_length_le (Nat.le_refl _), beq_self_eq_true]
  rfl

theorem encode_append (l : List Cell) (c : Cell) (r : List Cell) :
    encode ⟨l ++ c :: r, l.length⟩ = .boundLeft :: (l ++ c.tagged :: r) ++ [.boundRight] := by
  have hlast : (l.length == (l ++ c :: r).length) = false := by simp
  rw [encode, tagAt_append, hlast]

theorem scan_push {c : Cell} (hleft : c.bare ≠ .boundLeft) (hright : c.bare ≠ .boundRight) (r : Reading)
    (rest : List Cell) : scan (some r) (c :: rest) = scan (some (r.push c)) rest := by
  cases c with
  | tuple parts tag => rfl
  | atom mark tag =>
    cases mark with
    | boundLeft => exact absurd rfl hleft
    | boundRight => exact absurd rfl hright
    | _ => rfl

theorem scan_content {cs : List Cell} (h : ∀ c ∈ cs, c.IsContent) (r : Reading) (rest : List Cell) :
    scan (some r) (cs ++ rest) = scan (some ⟨cs.reverse ++ r.cells, r.head⟩) rest := by
  induction cs generalizing r with
  | nil => rfl
  | cons c cs ih =>
    rw [List.forall_mem_cons] at h
    obtain ⟨hhead, hleft, hright⟩ := h.1
    have hbare := Cell.bare_of_head hhead
    rw [List.cons_append, scan_push (by rwa [hbare]) (by rwa [hbare]), ih h.2, Reading.push, hbare, hhead]
    simp

theorem scan_tagged {c : Cell} (h : c.IsContent) (r : Reading) (rest : List Cell) :
    scan (some r) (c.tagged :: rest) = scan (some ⟨c :: r.cells, r.cells.length⟩) rest := by
  have hbare : c.tagged.bare = c := by rw [Cell.bare_tagged, Cell.bare_of_head h.head]
  rw [scan_push (by rw [hbare]; exact h.ne_boundLeft) (by rw [hbare]; exact h.ne_boundRight),
    Reading.push, hbare, Cell.head_tagged, if_pos rfl]

theorem scan_outside {cs : List Cell} (h : ∀ c ∈ cs, c.bare ≠ .boundLeft) (rest : List Cell) :
    scan none (cs ++ rest) = scan none rest := by
  induction cs with
  | nil => rfl
  | cons c cs ih =>
    rw [List.forall_mem_cons] at h
    have hpass : scan none (c :: (cs ++ rest)) = scan none (cs ++ rest) := by
      cases c with
      | tuple parts tag => rfl
      | atom mark tag =>
        cases mark with
        | boundLeft => exact absurd rfl h.1
        | _ => rfl
    rw [List.cons_append, hpass, ih h.2]

theorem scan_encode {s : Snapshot} (hcells : ∀ c ∈ s.cells, c.IsContent) (hhead : s.head ≤ s.cells.length)
    (rest : List Cell) : scan none (encode s ++ rest) = s.filled :: scan none rest := by
  obtain ⟨cells, head⟩ := s
  dsimp only at hcells hhead
  rcases Nat.lt_or_eq_of_le hhead with hlt | rfl
  . -- The cell under the head is tagged, and no other one.
    obtain ⟨l, c, r, rfl, rfl⟩ : ∃ l c r, cells = l ++ c :: r ∧ l.length = head :=
      ⟨cells.take head, cells[head], cells.drop (head + 1), by simp, by simp [Nat.le_of_lt hlt]⟩
    simp only [List.forall_mem_append, List.forall_mem_cons] at hcells
    obtain ⟨hl, hc, hr⟩ := hcells
    have hopen : scan none (encode ⟨l ++ c :: r, l.length⟩ ++ rest)
        = scan (some .empty) (l ++ (c.tagged :: (r ++ .boundRight :: rest))) := by
      rw [encode_append]
      simp [scan]
    rw [hopen, scan_content hl, scan_tagged hc, scan_content hr, scan]
    simp [Reading.finish, Reading.empty, Snapshot.filled]
  . have hopen : scan none (encode ⟨cells, cells.length⟩ ++ rest)
        = scan (some .empty) (cells ++ (.atom .boundRight true :: rest)) := by
      rw [encode_end]
      simp [scan, Cell.tagged, Cell.withHead]
    rw [hopen, scan_content hcells, scan]
    simp [Reading.finish, Reading.empty, Snapshot.filled]

theorem scan_flatMap_encode {tapes : List Snapshot} (hcells : ∀ s ∈ tapes, ∀ c ∈ s.cells, c.IsContent)
    (hhead : ∀ s ∈ tapes, s.head ≤ s.cells.length) (rest : List Cell) :
    scan none (tapes.flatMap encode ++ rest) = tapes.map Snapshot.filled ++ scan none rest := by
  induction tapes with
  | nil => rfl
  | cons s tapes ih =>
    rw [List.forall_mem_cons] at hcells hhead
    rw [List.flatMap_cons, List.append_assoc, scan_encode hcells.1 hhead.1, ih hcells.2 hhead.2]
    rfl

/--
Tapes are read off their segments in order, whatever cells stand before and behind these as long as none of
them opens a segment. A head behind the last cell of its tape gets an empty cell. Of fewer tapes than there
are, the first ones are read; of more, the others are blank.
-/
theorem segments_decode_to_tapes {tapes : List Snapshot} {lead trail : List Cell}
    (hcells : ∀ s ∈ tapes, ∀ c ∈ s.cells, c.IsContent)
    (hhead : ∀ s ∈ tapes, s.head ≤ s.cells.length)
    (hlead : ∀ c ∈ lead, c.bare ≠ .boundLeft) (htrail : ∀ c ∈ trail, c.bare ≠ .boundLeft) :
    let cells := lead ++ tapes.flatMap encode ++ trail
    decode cells tapes.length = tapes.map Snapshot.filled
      ∧ (∀ count ≤ tapes.length, decode cells count = (tapes.map Snapshot.filled).take count)
      ∧ ∀ count ≥ tapes.length, decode cells count
        = tapes.map Snapshot.filled ++ List.replicate (count - tapes.length) ⟨[.blank], 0⟩ := by
  intro cells
  have hscan : scan none cells = tapes.map Snapshot.filled := by
    have hend := scan_outside htrail []
    rw [List.append_nil] at hend
    unfold cells
    rw [List.append_assoc, scan_outside hlead, scan_flatMap_encode hcells hhead, hend, scan, List.append_nil]
  have hfew (count : Nat) (hcount : count ≤ tapes.length) :
      decode cells count = (tapes.map Snapshot.filled).take count := by
    rw [decode, hscan, List.length_take, List.length_map, Nat.min_eq_left hcount, Nat.sub_self,
      List.replicate_zero, List.append_nil]
  refine ⟨?_, hfew, fun count hcount => ?_⟩
  . rw [hfew _ (Nat.le_refl _), List.take_of_length_le (Nat.le_of_eq (List.length_map _))]
  . rw [decode, hscan, List.take_of_length_le (by rwa [List.length_map]), List.length_map]
    rfl

/-- One of two tapes has no cell at all, and three are asked for. -/
theorem segments_decode_to_tapes_overrun :
    let tapes : List Snapshot := [⟨Cell.ofText "ab", 1⟩, ⟨[], 0⟩]
    let lead : List Cell := [.start, .state "q", .boundRight]
    let trail : List Cell := [.afterLast, .blank]
    ((∀ s ∈ tapes, ∀ c ∈ s.cells, c.IsContent) ∧ (∀ s ∈ tapes, s.head ≤ s.cells.length)
      ∧ (∀ c ∈ lead, c.bare ≠ .boundLeft) ∧ ∀ c ∈ trail, c.bare ≠ .boundLeft)
      ∧ decode (lead ++ tapes.flatMap encode ++ trail) 3
        = [⟨Cell.ofText "ab", 1⟩, ⟨[.blank], 0⟩, ⟨[.blank], 0⟩] := by
  intro tapes lead trail
  have hcells : ∀ s ∈ tapes, ∀ c ∈ s.cells, c.IsContent := by decide +kernel
  have hhead : ∀ s ∈ tapes, s.head ≤ s.cells.length := by decide
  have hlead : ∀ c ∈ lead, c.bare ≠ .boundLeft := by decide +kernel
  have htrail : ∀ c ∈ trail, c.bare ≠ .boundLeft := by decide +kernel
  refine ⟨⟨hcells, hhead, hlead, htrail⟩, ?_⟩
  rw [(segments_decode_to_tapes hcells hhead hlead htrail).2.2 3 (by decide)]
  decide +kernel

def Unbroken (body : List Cell) : Prop := ∀ c ∈ body, c.bare ≠ .boundLeft ∧ c.bare ≠ .boundRight

/-- The cells of `body` stand in a row between two boundaries, of which the right one may be tagged. -/
def Encloses (cells body : List Cell) (tag : Bool) : Prop :=
  Unbroken body ∧ ∃ lead leftTag trail,
    cells = lead ++ .atom .boundLeft leftTag :: (body ++ .atom .boundRight tag :: trail)

namespace Reading

theorem cells_foldl_push (body : List Cell) (r : Reading) :
    (body.foldl push r).cells = (body.map Cell.bare).reverse ++ r.cells := by
  induction body generalizing r with
  | nil => rfl
  | cons c body ih =>
    rw [List.foldl_cons, ih, push, List.map_cons, List.reverse_cons, List.append_assoc]
    rfl

theorem head_foldl_push {body : List Cell} {r : Reading} (h : r.head ≤ r.cells.length - 1) :
    (body.foldl push r).head ≤ (body.foldl push r).cells.length - 1 := by
  induction body generalizing r with
  | nil => exact h
  | cons c body ih =>
    apply ih
    simp only [push, List.length_cons]
    split <;> omega

theorem cells_finish (r : Reading) (tag : Bool) :
    (r.finish tag).cells = r.cells.reverse ++ if tag || r.cells.isEmpty then [.blank] else [] := by
  unfold finish
  split <;> simp

theorem head_finish_lt {r : Reading} (h : r.head ≤ r.cells.length - 1) (tag : Bool) :
    (r.finish tag).head < (r.finish tag).cells.length := by
  unfold finish
  split
  . simp
  . next hcells =>
    have hpos : 0 < r.cells.length := by
      rw [List.length_pos_iff]
      intro hnil
      simp [hnil] at hcells
    dsimp only
    rw [List.length_reverse]
    omega

end Reading

def ReadOff (cells : List Cell) (s : Snapshot) : Prop :=
  ∃ body tag, Encloses cells body tag ∧ s = (body.foldl Reading.push .empty).finish tag

namespace ReadOff

variable {cells : List Cell} {s : Snapshot} (h : ReadOff cells s)

include h

theorem cons (c : Cell) : ReadOff (c :: cells) s := by
  obtain ⟨body, tag, ⟨hbody, lead, leftTag, trail, rfl⟩, hs⟩ := h
  exact ⟨body, tag, ⟨hbody, c :: lead, leftTag, trail, rfl⟩, hs⟩

theorem cells_eq : ∃ body tag, Encloses cells body tag
    ∧ s.cells = body.map Cell.bare ++ if tag || body.isEmpty then [.blank] else [] := by
  obtain ⟨body, tag, hbody, rfl⟩ := h
  refine ⟨body, tag, hbody, ?_⟩
  rw [Reading.cells_finish, Reading.cells_foldl_push]
  simp [Reading.empty]

theorem head_lt : s.head < s.cells.length := by
  obtain ⟨body, tag, _, rfl⟩ := h
  exact Reading.head_finish_lt (Reading.head_foldl_push (Nat.le_refl 0)) tag

theorem isContent : ∀ c ∈ s.cells, c.IsContent := by
  obtain ⟨body, tag, ⟨hbody, _⟩, hcells⟩ := h.cells_eq
  have hblank : Cell.blank.IsContent := by decide
  intro c hc
  rw [hcells, List.mem_append, List.mem_map] at hc
  rcases hc with ⟨b, hb, rfl⟩ | hc
  . exact Cell.isContent_bare (hbody b hb).1 (hbody b hb).2
  . split at hc
    . rwa [List.mem_singleton.mp hc]
    . cases hc

end ReadOff

theorem readOff_of_mem_scan {current : Option Reading} {cells : List Cell} {s : Snapshot}
    (h : s ∈ scan current cells) :
    (∃ r ∈ current, ∃ body tag trail, cells = body ++ .atom .boundRight tag :: trail ∧ Unbroken body
        ∧ s = (body.foldl Reading.push r).finish tag) ∨ ReadOff cells s := by
  fun_induction scan current cells with
  | case1 => cases h
  | case2 current leftTag cs ih =>
    -- A left boundary starts a segment, whether or not one is open.
    rcases ih h with ⟨r, hr, body, tag, trail, rfl, hbody, hs⟩ | hlater
    . cases hr
      exact .inr ⟨body, tag, ⟨hbody, [], leftTag, trail, rfl⟩, hs⟩
    . exact .inr (hlater.cons _)
  | case3 r tag cs ih =>
    rcases List.mem_cons.mp h with rfl | h
    . exact .inl ⟨r, rfl, [], tag, cs, rfl, List.forall_mem_nil _, rfl⟩
    . rcases ih h with ⟨_, hnone, _⟩ | hlater
      . cases hnone
      . exact .inr (hlater.cons _)
  | case4 r c cs hleft hright ih =>
    rcases ih h with ⟨_, hr, body, tag, trail, rfl, hbody, hs⟩ | hlater
    . cases hr
      have hc : c.bare ≠ .boundLeft ∧ c.bare ≠ .boundRight := by
        rw [Ne, Ne, Cell.bare_eq_plain_iff, Cell.bare_eq_plain_iff]
        exact ⟨fun ⟨tag, h⟩ => hleft tag h, fun ⟨tag, h⟩ => hright tag h⟩
      exact .inl ⟨r, rfl, c :: body, tag, trail, rfl, List.forall_mem_cons.mpr ⟨hc, hbody⟩, hs⟩
    . exact .inr (hlater.cons c)
  | case5 c cs _ ih =>
    rcases ih h with ⟨_, hnone, _⟩ | hlater
    . cases hnone
    . exact .inr (hlater.cons c)

theorem length_decode (cells : List Cell) (count : Nat) : (decode cells count).length = count := by
  rw [decode, List.length_append, List.length_replicate, List.length_take]
  omega

theorem mem_decode {cells : List Cell} {count : Nat} {s : Snapshot} (h : s ∈ decode cells count) :
    s = Tape.blank.snapshot ∨ ReadOff cells s := by
  rw [decode, List.mem_append] at h
  rcases h with h | h
  . rcases readOff_of_mem_scan (List.mem_of_mem_take h) with ⟨_, hnone, _⟩ | hread
    . cases hnone
    . exact .inr hread
  . exact .inl (List.eq_of_mem_replicate h)

/--
Whatever the cells are, as many tapes are read off them as are asked for. Each has a cell under its head, and
neither a tag nor a boundary is left among its cells. It is blank or holds what stands between two boundaries.
-/
theorem decoded_tapes_wellFormed (cells : List Cell) (count : Nat) :
    (decode cells count).length = count
      ∧ ∀ s ∈ decode cells count, s.cells ≠ [] ∧ s.head < s.cells.length ∧ (∀ c ∈ s.cells, c.IsContent)
        ∧ (s = Tape.blank.snapshot ∨ ∃ body tag, Encloses cells body tag
          ∧ s.cells = body.map Cell.bare ++ if tag || body.isEmpty then [.blank] else []) := by
  refine ⟨length_decode cells count, fun s hs => ?_⟩
  have hwhole : s.head < s.cells.length ∧ ∀ c ∈ s.cells, c.IsContent := by
    rcases mem_decode hs with rfl | hread
    . exact ⟨Tape.blank.position_lt_length_cells, by decide⟩
    . exact ⟨hread.head_lt, hread.isContent⟩
  refine ⟨List.ne_nil_of_length_pos (Nat.zero_lt_of_lt hwhole.1), hwhole.1, hwhole.2, ?_⟩
  exact (mem_decode hs).imp_right ReadOff.cells_eq

/-- A segment is opened twice, with two tags in it and one on its boundary; another one is never closed. -/
theorem decoded_tapes_wellFormed_unbalanced :
    let cells : List Cell := [.boundRight, Cell.boundLeft.tagged, .literal "a", .boundLeft,
      (Cell.literal "b").tagged, (Cell.state "q").tagged, Cell.boundRight.tagged, .boundRight, .boundLeft,
      Cell.blank.tagged]
    let s : Snapshot := ⟨[.literal "b", .state "q", .blank], 2⟩
    s ∈ decode cells 2 ∧ (decode cells 2).length = 2
      ∧ s.cells ≠ [] ∧ s.head < s.cells.length ∧ ∀ c ∈ s.cells, c.IsContent := by
  intro cells s
  have hs : s ∈ decode cells 2 := by decide +kernel
  obtain ⟨hlength, hwhole⟩ := decoded_tapes_wellFormed cells 2
  obtain ⟨hne, hhead, hcontent, _⟩ := hwhole s hs
  exact ⟨hs, hlength, hne, hhead, hcontent⟩

end Segment

end TuringLowering
