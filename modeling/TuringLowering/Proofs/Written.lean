import TuringLowering.Draft.Basic
import TuringLowering.Proofs.Guard
import TuringLowering.Proofs.Renaming

/-!
This module contains the lemmas about guard characters in the written forms of cells, movements and
patterns, and about these forms when the guard is widened.
-/

namespace TuringLowering

namespace Guard

@[simp]
theorem clean_append {x y : String} : Clean (x ++ y) ↔ Clean x ∧ Clean y := by
  simp [Clean, not_or]

@[simp]
theorem clean_braced {x : String} : Clean (braced x) ↔ Clean x := by
  have hleft : Clean "\x7b" := by decide
  have hright : Clean "\x7d" := by decide
  simp [braced, hleft, hright]

theorem clean_joined {sep : String} {texts : List String} (hsep : Clean sep) :
    Clean (joined sep texts) ↔ ∀ text ∈ texts, Clean text := by
  induction texts with
  | nil =>
    have : Clean "" := by decide
    simp [joined, this]
  | cons text texts ih =>
    cases texts with
    | nil => simp [joined]
    | cons text' texts =>
      simp only [joined, clean_append, List.forall_mem_cons] at ih ⊢
      rw [ih]
      simp [hsep]

theorem clean_repr (n : Nat) : Clean (toString n) := by
  unfold Clean
  intro h
  have htext : toString n = n.repr := rfl
  rw [htext, Nat.toList_repr] at h
  have := Nat.isDigit_of_mem_toDigits (by decide) (by decide) h
  revert this
  decide

theorem clean_move (m : Move) : Clean m.display := by
  unfold Move.display
  split
  . decide
  . rw [clean_append]
    refine ⟨clean_repr _, ?_⟩
    split <;> decide

end Guard

namespace Cell

@[simp]
theorem display_atom (m : Mark) (h : Bool) : (atom m h).display = m.display h := rfl

@[simp]
theorem display_tuple (parts : List Cell) (h : Bool) :
    (tuple parts h).display = displayJoint (parts.map display) := by
  unfold display
  rw [fold_tuple]

theorem clean_displayJoint {texts : List String} :
    Guard.Clean (displayJoint texts) ↔ ∀ text ∈ texts, Guard.Clean text := by
  have hleft : Guard.Clean "<" := by decide
  have hright : Guard.Clean ">" := by decide
  simp [displayJoint, hleft, hright, Guard.clean_joined (show Guard.Clean "," by decide)]

variable {g g' : Guard}

theorem mapNames_of_clean {c : Cell} (h : Guard.Clean c.display) :
    c.mapNames (g.rename g') = c := by
  induction c with
  | atom m head =>
    cases m with
    | state name =>
      have hq : Guard.Clean "Q:" := by decide
      simp only [display_atom, Mark.display, Guard.clean_append, Guard.clean_braced] at h
      simp [Mark.mapNames, Guard.rename_of_clean h.2]
    | _ => rfl
  | tuple parts head ih =>
    rw [display_tuple, clean_displayJoint] at h
    rw [mapNames_tuple]
    congr 1
    rw [List.map_congr_left, List.map_id]
    intro c hc
    exact ih c hc (h _ (List.mem_map_of_mem hc))

theorem map_mapNames_of_clean {cells : List Cell} (h : ∀ c ∈ cells, Guard.Clean c.display) :
    cells.map (mapNames (g.rename g')) = cells := by
  rw [List.map_congr_left (fun c hc => mapNames_of_clean (h c hc)), List.map_id']

theorem clean_tagged {c : Cell} : Guard.Clean c.tagged.display ↔ Guard.Clean c.display := by
  cases c with
  | atom m h =>
    have htag : ∀ b : Bool, Guard.Clean (if b then "-" ++ braced "HEAD" else "") := by decide
    have hreserved : ∀ b : Bool, Guard.Clean (if b then "S:" else "") := by decide
    have hdash : Guard.Clean "-" := by decide
    have hhead : Guard.Clean "HEAD" := by decide
    cases m <;> simp [tagged, withHead, Mark.display, htag, hreserved, hdash, hhead]
  | tuple parts h => simp [tagged, withHead]

theorem rename_display {c : Cell} (h : Guard.Clean c.display ∨ ∃ name, c = .state name) :
    g.rename g' c.display = (c.mapNames (g.rename g')).display := by
  rcases h with h | ⟨name, rfl⟩
  . rw [mapNames_of_clean h, Guard.rename_of_clean h]
  . simp only [display_atom, mapNames_atom, Mark.mapNames, Mark.display, braced]
    rw [Guard.rename_clean_append (by decide), Guard.rename_append_of_clean _ (by decide),
      Guard.rename_clean_append (by decide)]

end Cell

namespace Pattern

def mapNames (f : String → String) : Pattern → Pattern
  | .cell c => .cell (c.mapNames f)
  | .oneOf cells => .oneOf (cells.map (Cell.mapNames f))
  | .any => .any

section

variable (f : String → String)

@[simp]
theorem mapNames_cell (c : Cell) : (cell c).mapNames f = .cell (c.mapNames f) := rfl

@[simp]
theorem mapNames_oneOf (cells : List Cell) :
    (oneOf cells).mapNames f = .oneOf (cells.map (Cell.mapNames f)) := rfl

@[simp]
theorem mapNames_any : any.mapNames f = .any := rfl

end

variable {g g' : Guard}

theorem clean_display_oneOf {cells : List Cell} :
    Guard.Clean (oneOf cells).display ↔ ∀ c ∈ cells, Guard.Clean c.display := by
  have hleft : Guard.Clean "[" := by decide
  have hright : Guard.Clean "]" := by decide
  simp [display, Cell.displayAll, hleft, hright,
    Guard.clean_joined (show Guard.Clean "," by decide)]

theorem mapNames_of_clean {p : Pattern} (h : Guard.Clean p.display) :
    p.mapNames (g.rename g') = p := by
  cases p with
  | cell c => rw [mapNames, Cell.mapNames_of_clean h]
  | oneOf cells =>
    rw [clean_display_oneOf] at h
    rw [mapNames, Cell.map_mapNames_of_clean h]
  | any => rfl

theorem cells_map_mapNames {p : Pattern} (h : Guard.Clean p.display) (rest : List Cell) :
    p.cells (rest.map (Cell.mapNames (g.rename g')))
      =
    (p.cells rest).map (Cell.mapNames (g.rename g')) := by
  cases p with
  | cell c => simp [cells, Cell.mapNames_of_clean h]
  | oneOf cells =>
    rw [clean_display_oneOf] at h
    simp [Pattern.cells, Cell.map_mapNames_of_clean h]
  | any => rfl

end Pattern

end TuringLowering
