import Mathlib.Data.String.Basic

/-!
This module contains the proof that texts in ascending order are in ascending order by the bytes that encode
them, too. A character is encoded by its digits to the base 64, where the first byte tells how many there are.
-/

namespace TuringLowering

def bytes (text : String) : List UInt8 := text.toUTF8.data.toList

namespace Utf8

/-- The last `n` digits of a number to the base 64, behind a byte for the rest that counts from `first`. -/
def digits (first : Nat) : Nat → Nat → List UInt8
  | 0, v => [UInt8.ofNat (first + v)]
  | n + 1, v => digits first n (v / 64) ++ [UInt8.ofNat (0x80 + v % 64)]

/-- Where the first byte counts from and how many digits follow it. -/
def layout (v : Nat) : Nat × Nat :=
  if v ≤ 0x7f then (0, 0)
  else if v ≤ 0x7ff then (0xc0, 1)
  else if v ≤ 0xffff then (0xe0, 2)
  else (0xf0, 3)

theorem toNat_lt (c : Char) : c.val.toNat < 0x110000 := by
  rcases c.valid with h | h
  . exact Nat.lt_trans h (by decide)
  . exact h.2

theorem encode_eq_digits (c : Char) :
    String.utf8EncodeChar c = digits (layout c.val.toNat).1 (layout c.val.toNat).2 c.val.toNat := by
  have hmax := toNat_lt c
  unfold String.utf8EncodeChar layout
  dsimp only
  generalize c.val.toNat = v at hmax
  -- The number fits its digits, so that nothing is cut off from the first byte.
  split
  . simp only [digits, Nat.zero_add]
  . split
    . rw [Nat.mod_eq_of_lt (show v / 64 < 0x20 by omega)]
      simp [digits, Nat.add_comm]
    . split
      . rw [Nat.mod_eq_of_lt (show v / 4096 < 0x10 by omega)]
        simp [digits, Nat.add_comm, Nat.div_div_eq_div_mul]
      . rw [Nat.mod_eq_of_lt (show v / 262144 < 0x08 by omega)]
        simp [digits, Nat.add_comm, Nat.div_div_eq_div_mul]

theorem digits_eq_cons (first n v : Nat) :
    ∃ rest, digits first n v = UInt8.ofNat (first + v / 64 ^ n) :: rest := by
  induction n generalizing v with
  | zero => exact ⟨[], by simp [digits]⟩
  | succ n ih =>
    obtain ⟨rest, hrest⟩ := ih (v / 64)
    rw [Nat.div_div_eq_div_mul, ← Nat.pow_succ'] at hrest
    exact ⟨rest ++ [UInt8.ofNat (0x80 + v % 64)], by rw [digits, hrest, List.cons_append]⟩

theorem encode_eq_cons (c : Char) : ∃ first rest, String.utf8EncodeChar c = first :: rest := by
  rw [encode_eq_digits]
  exact ⟨_, digits_eq_cons _ _ _⟩

theorem ofNat_lt_ofNat {a b : Nat} (h : a < b) (hb : b < 256) : UInt8.ofNat a < UInt8.ofNat b := by
  rw [UInt8.lt_iff_toNat_lt, UInt8.toNat_ofNat', UInt8.toNat_ofNat']
  omega

theorem digits_lt_of_first {first first' n n' v v' : Nat} (h : first + v / 64 ^ n < first' + v' / 64 ^ n')
    (hfits : first' + v' / 64 ^ n' < 256) (xs ys : List UInt8) :
    digits first n v ++ xs < digits first' n' v' ++ ys := by
  obtain ⟨rest, hrest⟩ := digits_eq_cons first n v
  obtain ⟨rest', hrest'⟩ := digits_eq_cons first' n' v'
  rw [hrest, hrest', List.cons_append, List.cons_append, List.cons_lt_cons_iff]
  exact .inl (ofNat_lt_ofNat h hfits)

theorem digits_lt {first n v v' : Nat} (h : v < v') (hfits : first + v' / 64 ^ n < 256) (xs ys : List UInt8) :
    digits first n v ++ xs < digits first n v' ++ ys := by
  induction n generalizing v v' xs ys with
  | zero =>
    apply digits_lt_of_first
    . simpa using h
    . exact hfits
  | succ n ih =>
    rw [Nat.pow_succ', ← Nat.div_div_eq_div_mul] at hfits
    rw [digits, digits, List.append_assoc, List.append_assoc]
    rcases Nat.lt_or_eq_of_le (Nat.div_le_div_right (Nat.le_of_lt h) : v / 64 ≤ v' / 64) with hlt | heq
    . exact ih hlt hfits _ _
    . have hlast : UInt8.ofNat (0x80 + v % 64) < UInt8.ofNat (0x80 + v' % 64) :=
        ofNat_lt_ofNat (by omega) (by omega)
      rw [heq]
      exact List.append_left_lt (List.cons_lt_cons_iff.mpr (.inl hlast))

theorem layout_fits {v : Nat} (h : v < 0x110000) : (layout v).1 + v / 64 ^ (layout v).2 < 256 := by
  unfold layout
  split_ifs <;> dsimp only <;> omega

/-- A greater number is laid out the same way, or else has more digits and so a greater first byte. -/
theorem layout_eq_or_lt {v w : Nat} (h : v < w) (hmax : w < 0x110000) :
    layout v = layout w ∨ (layout v).1 + v / 64 ^ (layout v).2 < (layout w).1 + w / 64 ^ (layout w).2 := by
  unfold layout
  split_ifs <;> first | exact .inl rfl | (right; dsimp only; omega)

theorem encode_lt {c d : Char} (h : c < d) (xs ys : List UInt8) :
    String.utf8EncodeChar c ++ xs < String.utf8EncodeChar d ++ ys := by
  have hval : c.val.toNat < d.val.toNat := h
  have hfits := layout_fits (toNat_lt d)
  rw [encode_eq_digits, encode_eq_digits]
  rcases layout_eq_or_lt hval (toNat_lt d) with heq | hlt
  . rw [heq]
    exact digits_lt hval hfits xs ys
  . exact digits_lt_of_first hlt hfits xs ys

end Utf8

theorem bytes_eq_flatMap (text : String) : bytes text = text.toList.flatMap String.utf8EncodeChar := by
  obtain ⟨cs, rfl⟩ := text.exists_eq_ofList
  simp [bytes, List.utf8Encode]

theorem bytes_lt_bytes {a b : String} (h : a < b) : bytes a < bytes b := by
  rw [String.lt_iff_toList_lt] at h
  rw [bytes_eq_flatMap, bytes_eq_flatMap]
  generalize a.toList = cs at h
  generalize b.toList = ds at h
  induction h with
  | @nil d ds =>
    obtain ⟨first, rest, hrest⟩ := Utf8.encode_eq_cons d
    rw [List.flatMap_nil, List.flatMap_cons, hrest, List.cons_append]
    exact List.nil_lt_cons _ _
  | rel hlt => exact Utf8.encode_lt hlt _ _
  | cons _ ih => exact List.append_left_lt ih

end TuringLowering
