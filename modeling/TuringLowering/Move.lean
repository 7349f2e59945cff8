/-!
This module contains head movements: a signed number of cells, negative to the left.
-/

namespace TuringLowering

structure Move where
  offset : Int
deriving DecidableEq, Repr

namespace Move

abbrev left : Move := ⟨-1⟩

abbrev right : Move := ⟨1⟩

abbrev stay : Move := ⟨0⟩

/-- The number of cells is read as a signed word of 64 bits. -/
def rightBy (cells : Nat) : Move := ⟨(cells : Int).bmod 0x10000000000000000⟩

def leftBy (cells : Nat) : Move := ⟨-(rightBy cells).offset⟩

def distance (m : Move) : Nat := m.offset.natAbs

def isLong (m : Move) : Bool := 1 < m.distance

def step (m : Move) : Move := ⟨m.offset.sign⟩

def rest (m : Move) : Move := ⟨m.offset - m.offset.sign⟩

/--
A movement as a step and a rest, neither of which is to stay put: where a head cannot stay, it steps
to the right and comes back.
-/
def detour (m : Move) : Move × Move :=
  if m = stay then (right, left) else (m.step, m.rest)

theorem distance_rest (m : Move) : m.rest.distance = m.distance - 1 := by
  unfold rest distance
  rcases Int.lt_trichotomy m.offset 0 with h | h | h
  . simp only [Int.sign_eq_neg_one_of_neg h]
    omega
  . simp [h]
  . simp only [Int.sign_eq_one_of_pos h]
    omega

theorem isLong_step (m : Move) : m.step.isLong = false := by
  unfold step isLong distance
  rcases Int.lt_trichotomy m.offset 0 with h | h | h
  . rw [Int.sign_eq_neg_one_of_neg h]
    rfl
  . simp [h]
  . rw [Int.sign_eq_one_of_pos h]
    rfl

def display (m : Move) : String :=
  if m = stay then "N"
  else toString m.distance ++ if m.offset < 0 then "L" else "R"

end Move

end TuringLowering
