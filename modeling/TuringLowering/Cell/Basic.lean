/-!
This module contains the cells of a tape. A cell holds a mark, or the combination of the cells read
from several tapes at once, and carries a tag that tells whether a simulated head stands on it.
-/

namespace TuringLowering

/-- What a cell holds, combinations apart. -/
inductive Mark where
  /-- A symbol chosen by the author of a machine, mostly one character. -/
  | literal (text : String)
  | empty
  /-- Stands in front of the segments when several tapes share one. -/
  | tapeStart
  | boundLeft
  | boundRight
  /-- Stands behind the last segment. -/
  | afterLast
  /-- The name of a state, kept on the tape between two simulated steps. -/
  | state (name : String)
deriving DecidableEq, Ord, Repr

/-- A tape cell. Two cells are the same key of a rule only if their head tags agree too. -/
inductive Cell where
  | atom (mark : Mark) (head : Bool)
  | tuple (parts : List Cell) (head : Bool)
deriving Repr

namespace Cell

/-- Induction on cells, with a hypothesis for every part of a combination. -/
@[elab_as_elim, induction_eliminator]
theorem induction {motive : Cell → Prop}
    (atom : ∀ mark head, motive (.atom mark head))
    (tuple : ∀ parts head, (∀ c ∈ parts, motive c) → motive (.tuple parts head))
    (c : Cell) : motive c :=
  @Cell.rec motive (fun parts => ∀ c ∈ parts, motive c) atom tuple
    (fun _ h => absurd h List.not_mem_nil)
    (fun _ _ first rest _ h => (List.mem_cons.mp h).elim (· ▸ first) (rest _)) c

mutual

def decEq : (a b : Cell) → Decidable (a = b)
  | .atom m h, .atom n k =>
    if e : m = n ∧ h = k then
      isTrue (by rw [e.1, e.2])
    else
      isFalse fun c => by cases c; exact e ⟨rfl, rfl⟩
  | .atom _ _, .tuple _ _ => isFalse nofun
  | .tuple _ _, .atom _ _ => isFalse nofun
  | .tuple ps h, .tuple qs k =>
    if e : h = k then
      match decEqParts ps qs with
      | isTrue d => isTrue (by rw [d, e])
      | isFalse d => isFalse fun c => by cases c; exact d rfl
    else
      isFalse fun c => by cases c; exact e rfl

def decEqParts : (as bs : List Cell) → Decidable (as = bs)
  | [], [] => isTrue rfl
  | [], _ :: _ => isFalse nofun
  | _ :: _, [] => isFalse nofun
  | a :: as, b :: bs =>
    match decEq a b with
    | isFalse d => isFalse fun c => by cases c; exact d rfl
    | isTrue d =>
      match decEqParts as bs with
      | isTrue e => isTrue (by rw [d, e])
      | isFalse e => isFalse fun c => by cases c; exact e rfl

end

instance : DecidableEq Cell := decEq

instance : Inhabited Cell := ⟨.atom .empty false⟩

abbrev plain (mark : Mark) : Cell := .atom mark false

abbrev blank : Cell := plain .empty

abbrev start : Cell := plain .tapeStart

abbrev boundLeft : Cell := plain .boundLeft

abbrev boundRight : Cell := plain .boundRight

abbrev afterLast : Cell := plain .afterLast

abbrev literal (text : String) : Cell := plain (.literal text)

abbrev state (name : String) : Cell := plain (.state name)

abbrev joint (parts : List Cell) : Cell := .tuple parts false

def ofChar (c : Char) : Cell := literal (String.singleton c)

def ofText (text : String) : List Cell := text.toList.map ofChar

def head : Cell → Bool
  | .atom _ h => h
  | .tuple _ h => h

def withHead (tag : Bool) : Cell → Cell
  | .atom mark _ => .atom mark tag
  | .tuple parts _ => .tuple parts tag

def tagged (c : Cell) : Cell := c.withHead true

def bare (c : Cell) : Cell := c.withHead false

@[simp]
theorem head_tagged (c : Cell) : c.tagged.head = true := by
  cases c <;> rfl

@[simp]
theorem bare_tagged (c : Cell) : c.tagged.bare = c.bare := by
  cases c <;> rfl

/-- Whether the cell holds nothing; a head may still stand on it. -/
def isEmpty : Cell → Bool
  | .atom .empty _ => true
  | _ => false

/-- The cells of a combination, or the cell alone. -/
def components : Cell → List Cell
  | .tuple parts _ => parts
  | c => [c]

mutual

/-- Computes a value bottom up: `atom` says it for a mark, `tuple` combines the values of the parts. -/
def fold {β : Type} (atom : Mark → Bool → β) (tuple : List β → Bool → β) : Cell → β
  | .atom mark h => atom mark h
  | .tuple parts h => tuple (foldParts atom tuple parts) h

def foldParts {β : Type} (atom : Mark → Bool → β) (tuple : List β → Bool → β) :
    List Cell → List β
  | [] => []
  | c :: cs => fold atom tuple c :: foldParts atom tuple cs

end

section

variable {β : Type} (atom : Mark → Bool → β) (tuple : List β → Bool → β)

theorem foldParts_eq_map (parts : List Cell) :
    foldParts atom tuple parts = parts.map (fold atom tuple) := by
  induction parts with
  | nil => rfl
  | cons c cs ih => simp [foldParts, ih]

@[simp]
theorem fold_atom (mark : Mark) (h : Bool) : fold atom tuple (.atom mark h) = atom mark h := rfl

@[simp]
theorem fold_tuple (parts : List Cell) (h : Bool) :
    fold atom tuple (.tuple parts h) = tuple (parts.map (fold atom tuple)) h := by
  simp [fold, foldParts_eq_map]

end

end Cell

def Mark.mapNames (f : String → String) : Mark → Mark
  | .state name => .state (f name)
  | mark => mark

/-- Renames the states a cell mentions; literals are left alone. -/
def Cell.mapNames (f : String → String) : Cell → Cell :=
  Cell.fold (fun mark h => .atom (mark.mapNames f) h) .tuple

end TuringLowering
