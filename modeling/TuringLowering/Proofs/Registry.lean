import Mathlib.Data.Finset.Dedup
import Mathlib.Data.Finset.Insert
import TuringLowering.Proofs.Transparency

/-!
This module contains the alphabet of a draft from its declaration on. It is kept in several copies: the
declared symbols, all symbols in order, and a set of them in which cells are looked for. Whatever is added
and however the guard grows, the copies agree.
-/

namespace TuringLowering

namespace Cell

/-- The cells that a combination is made of in the end. -/
def leaves : Cell → List Cell := fold (fun mark h => [.atom mark h]) fun parts _ => parts.flatten

/-- Whether a cell holds a single mark, and not the name of a state. -/
def isInert : Cell → Bool
  | .atom (.state _) _ => false
  | .atom _ _ => true
  | .tuple _ _ => false

theorem mapNames_of_isInert {c : Cell} (h : c.isInert = true) (f : String → String) :
    c.mapNames f = c := by
  cases c with
  | atom mark tag =>
    cases mark with
    | state name => cases h
    | _ => rfl
  | tuple parts tag => cases h

theorem isInert_tagged {c : Cell} (h : c.isInert = true) : c.tagged.isInert = true := by
  cases c with
  | atom mark tag => cases mark <;> exact h
  | tuple parts tag => cases h

end Cell

namespace Alphabet

def additions (a : Alphabet) : List Cell :=
  a.declared.map Cell.tagged
    ++ [.start, .boundLeft, .boundRight, .afterLast, Cell.boundRight.tagged]

structure Consistent (a : Alphabet) : Prop where
  nodup : a.symbols.Nodup
  nodup_declared : a.declared.Nodup
  blank : .blank ∈ a.declared
  inert : ∀ c ∈ a.declared, c.isInert = true
  declared : ∀ c ∈ a.declared, c ∈ a.symbols
  additions : a.simulating = true → ∀ c ∈ a.additions, c ∈ a.symbols

theorem accepts_iff_leaves {a : Alphabet} {c : Cell} :
    a.accepts c = true ↔ ∀ leaf ∈ c.leaves, leaf ∈ a.symbols := by
  unfold accepts Cell.leaves
  induction c with
  | atom mark tag => simp
  | tuple parts tag ih =>
    rw [Cell.fold_tuple, Cell.fold_tuple, List.all_map, List.all_eq_true]
    simp only [List.mem_flatten, List.mem_map, exists_exists_and_eq_and]
    constructor
    . rintro h leaf ⟨c, hc, hleaf⟩
      exact (ih c hc).mp (h c hc) leaf hleaf
    . intro h c hc
      exact (ih c hc).mpr fun leaf hleaf => h leaf ⟨c, hc, hleaf⟩

theorem mem_declared_declare {input extra : List Cell} {c : Cell} :
    c ∈ (declare input extra).declared ↔ c ∈ input ++ extra ∨ c = .blank := by
  rw [declare, Build.mem_foldl_addNew, List.mem_append, List.mem_singleton]
  simp

theorem consistent_declare {input extra : List Cell} (h : ∀ c ∈ input ++ extra, c.isInert = true) :
    (declare input extra).Consistent where
  nodup := nodup_foldl_addNew List.nodup_nil _
  nodup_declared := nodup_foldl_addNew List.nodup_nil _
  blank := mem_declared_declare.mpr (.inr rfl)
  inert := by
    intro c hc
    rcases mem_declared_declare.mp hc with hc | rfl
    . exact h c hc
    . rfl
  declared := fun _ hc => hc
  additions := by
    intro hsimulating
    cases hsimulating

namespace Consistent

variable {a : Alphabet} (h : a.Consistent)

include h

theorem inert_additions : ∀ c ∈ a.additions, c.isInert = true := by
  have hmarkers : ∀ c ∈ [Cell.start, .boundLeft, .boundRight, .afterLast, Cell.boundRight.tagged],
      c.isInert = true := by decide
  intro c hc
  rcases List.mem_append.mp hc with hc | hc
  . obtain ⟨c', hc', rfl⟩ := List.mem_map.mp hc
    exact Cell.isInert_tagged (h.inert c' hc')
  . exact hmarkers c hc

theorem extend {symbols : List Cell} (hnodup : symbols.Nodup) (hle : ∀ c ∈ a.symbols, c ∈ symbols) :
    { a with symbols }.Consistent where
  nodup := hnodup
  nodup_declared := h.nodup_declared
  blank := h.blank
  inert := h.inert
  declared := fun c hc => hle c (h.declared c hc)
  additions := fun hsimulating c hc => hle c (h.additions hsimulating c hc)

theorem add (c : Cell) : (a.add c).Consistent :=
  h.extend (nodup_addNew h.nodup c) fun _ hc => mem_symbols_add.mpr (.inl hc)

theorem withSegments : a.withSegments.Consistent := by
  unfold Alphabet.withSegments
  split
  . exact h
  . have hextended := h.extend (nodup_foldl_addNew h.nodup a.additions) fun c hc =>
      Build.mem_foldl_addNew.mpr (.inr hc)
    exact { hextended with additions := fun _ c hc => Build.mem_foldl_addNew.mpr (.inl hc) }

theorem mapNames {f : String → String} (hf : Function.Injective f) : (a.mapNames f).Consistent := by
  have hkept {c : Cell} (hc : c ∈ a.symbols) (hinert : c.isInert = true) :
      c ∈ a.symbols.map (Cell.mapNames f) :=
    List.mem_map.mpr ⟨c, hc, Cell.mapNames_of_isInert hinert f⟩
  exact
    { nodup := h.nodup.map (Cell.mapNames_injective hf)
      nodup_declared := h.nodup_declared
      blank := h.blank
      inert := h.inert
      declared := fun c hc => hkept (h.declared c hc) (h.inert c hc)
      additions := fun hsimulating c hc =>
        hkept (h.additions hsimulating c hc) (h.inert_additions c hc) }

end Consistent

end Alphabet

/-- What is done to the alphabet of a draft after it was declared. -/
inductive Amendment where
  /-- Tapes are going to be simulated. -/
  | segments
  | stateName (name : String)
  | avoid (name : String)
deriving DecidableEq

namespace Draft

def amend (d : Draft) : Amendment → Draft
  | .segments => { d with alphabet := d.alphabet.withSegments }
  | .stateName name => { d with alphabet := d.alphabet.add (.state name) }
  | .avoid name => d.avoid name

theorem consistent_amend {d : Draft} (h : d.alphabet.Consistent) (x : Amendment) :
    (d.amend x).alphabet.Consistent := by
  cases x with
  | segments => exact h.withSegments
  | stateName name => exact h.add _
  | avoid name =>
    exact avoid_induction (P := fun e => e.alphabet.Consistent) name h fun g hlt =>
      h.mapNames fun _ _ => Guard.rename_injective (Nat.le_of_lt hlt)

theorem declared_amend (d : Draft) (x : Amendment) :
    (d.amend x).alphabet.declared = d.alphabet.declared := by
  cases x with
  | segments =>
    simp only [amend, Alphabet.withSegments]
    split <;> rfl
  | stateName name => rfl
  | avoid name =>
    exact avoid_induction (P := fun e => e.alphabet.declared = d.alphabet.declared) name rfl fun _ _ => rfl

theorem simulating_amend (d : Draft) (x : Amendment) :
    (d.amend x).alphabet.simulating = true ↔ d.alphabet.simulating = true ∨ x = .segments := by
  cases x with
  | segments =>
    simp only [amend, Alphabet.withSegments]
    split <;> simp [*]
  | stateName name => simp [amend, Alphabet.add]
  | avoid name =>
    have hsimulating : (d.avoid name).alphabet.simulating = d.alphabet.simulating :=
      avoid_induction (P := fun e => e.alphabet.simulating = d.alphabet.simulating) name rfl fun _ _ => rfl
    simp [amend, hsimulating]

/-- The draft after its alphabet was amended again and again. -/
def amendAll (d : Draft) (xs : List Amendment) : Draft := xs.foldl amend d

theorem amendAll_keeps {P : Draft → Prop} (hstep : ∀ d x, P d → P (d.amend x)) {d : Draft} (h : P d)
    (xs : List Amendment) : P (d.amendAll xs) := by
  induction xs generalizing d with
  | nil => exact h
  | cons x xs ih => exact ih (hstep d x h)

theorem consistent_amendAll {d : Draft} (h : d.alphabet.Consistent) (xs : List Amendment) :
    (d.amendAll xs).alphabet.Consistent :=
  amendAll_keeps (P := fun e => e.alphabet.Consistent) (fun _ x he => consistent_amend he x) h xs

theorem declared_amendAll (d : Draft) (xs : List Amendment) :
    (d.amendAll xs).alphabet.declared = d.alphabet.declared :=
  amendAll_keeps (P := fun e => e.alphabet.declared = d.alphabet.declared)
    (fun e x he => (e.declared_amend x).trans he) rfl xs

theorem simulating_amendAll (d : Draft) (xs : List Amendment) :
    (d.amendAll xs).alphabet.simulating = true ↔ d.alphabet.simulating = true ∨ .segments ∈ xs := by
  induction xs generalizing d with
  | nil => simp [amendAll]
  | cons x xs ih =>
    refine (ih (d.amend x)).trans ?_
    rw [simulating_amend, or_assoc, List.mem_cons, eq_comm (a := x)]

end Draft

/-- An alphabet and the set in which cells are looked for. -/
structure Registry extends Alphabet where
  members : Finset Cell

namespace Registry

/-- Adds a cell that is not in the set, and tells whether it did. -/
def enter (r : Registry) (c : Cell) : Bool × Registry :=
  if c ∈ r.members then (false, r)
  else (true, { r with symbols := r.symbols ++ [c], members := insert c r.members })

def enterAll (r : Registry) (cells : List Cell) : Registry :=
  cells.foldl (fun r c => (r.enter c).2) r

def declareCell (r : Registry) (c : Cell) : Registry :=
  let entered := r.enter c
  if entered.1 then { entered.2 with declared := entered.2.declared ++ [c] } else entered.2

def declare (input extra : List Cell) : Registry :=
  (input ++ extra ++ [Cell.blank]).foldl declareCell ⟨⟨[], [], [], false⟩, ∅⟩

def withSegments (r : Registry) : Registry :=
  if r.simulating then r
  else
    let heads := r.declared.map Cell.tagged
    let r := { r with heads, simulating := true }.enterAll heads
    let r := r.enterAll [.start, .boundLeft, .boundRight, .afterLast]
    (r.enter Cell.boundRight.tagged).2

/-- The symbols are renamed one by one, and the set is made of them anew. -/
def mapNames (f : String → String) (r : Registry) : Registry :=
  let symbols := r.symbols.map (Cell.mapNames f)
  { r with symbols, members := symbols.toFinset }

def accepts (r : Registry) : Cell → Bool :=
  Cell.fold (fun mark h => decide (Cell.atom mark h ∈ r.members)) fun parts _ => parts.all id

def amend (g : Guard) (r : Registry) : Amendment → Registry
  | .segments => r.withSegments
  | .stateName name => (r.enter (.state name)).2
  | .avoid name => if g.occursIn name then r.mapNames (g.rename (.avoiding name)) else r

/-- The registry after what is done to the alphabet of a draft, which has a guard at each time. -/
def amendAll (d : Draft) (r : Registry) : List Amendment → Registry
  | [] => r
  | x :: xs => amendAll (d.amend x) (r.amend d.guard x) xs

def of (a : Alphabet) : Registry := ⟨a, a.symbols.toFinset⟩

section

variable (a : Alphabet)

theorem enter_of (c : Cell) : (of a).enter c = (decide (c ∉ a.symbols), of (a.add c)) := by
  by_cases h : c ∈ a.symbols
  . have hmember : c ∈ (of a).members := List.mem_toFinset.mpr h
    have hadd : a.add c = a := by rw [Alphabet.add, Alphabet.addNew, if_pos h]
    rw [enter, if_pos hmember, hadd, decide_eq_false (not_not_intro h)]
  . have hmember : c ∉ (of a).members := fun hc => h (List.mem_toFinset.mp hc)
    have hadd : a.add c = { a with symbols := a.symbols ++ [c] } := by
      rw [Alphabet.add, Alphabet.addNew, if_neg h]
    have hmembers : insert c a.symbols.toFinset = (a.symbols ++ [c]).toFinset := by
      ext x
      simp only [Finset.mem_insert, List.mem_toFinset, List.mem_append, List.mem_singleton]
      exact or_comm
    rw [enter, if_neg hmember, hadd, decide_eq_true h, of, of, ← hmembers]

theorem enterAll_enterAll (r : Registry) (cells new : List Cell) :
    (r.enterAll cells).enterAll new = r.enterAll (cells ++ new) := List.foldl_append.symm

theorem enterAll_of (cells : List Cell) :
    (of a).enterAll cells = of { a with symbols := cells.foldl Alphabet.addNew a.symbols } := by
  induction cells generalizing a with
  | nil => rfl
  | cons c cells ih =>
    rw [enterAll, List.foldl_cons, enter_of, ← enterAll, ih]
    rfl

theorem declare_eq (input extra : List Cell) : declare input extra = of (.declare input extra) := by
  -- Until the alphabet is amended, all its symbols are declared.
  have hfold (cells known : List Cell) :
      cells.foldl declareCell (of ⟨known, known, [], false⟩)
        = of ⟨cells.foldl Alphabet.addNew known, cells.foldl Alphabet.addNew known, [], false⟩ := by
    induction cells generalizing known with
    | nil => rfl
    | cons c cells ih =>
      rw [List.foldl_cons, List.foldl_cons, ← ih, declareCell, enter_of]
      by_cases hc : c ∈ known
      . simp [Alphabet.add, Alphabet.addNew, hc]
      . simp [Alphabet.add, Alphabet.addNew, hc, of]
  exact hfold (input ++ extra ++ [Cell.blank]) []

theorem withSegments_of : (of a).withSegments = of a.withSegments := by
  cases h : a.simulating with
  | true =>
    have hof : (of a).simulating = true := h
    rw [withSegments, if_pos hof, Alphabet.withSegments, if_pos h]
  | false =>
    have hof : ¬ (of a).simulating = true := by simp [of, h]
    let marked : Alphabet := { a with heads := a.declared.map Cell.tagged, simulating := true }
    calc (of a).withSegments
      _ = (((of marked).enterAll (a.declared.map Cell.tagged)).enterAll
            [.start, .boundLeft, .boundRight, .afterLast]).enterAll [Cell.boundRight.tagged] := by
        rw [withSegments, if_neg hof]
        rfl
      _ = (of marked).enterAll a.additions := by
        rw [enterAll_enterAll, enterAll_enterAll]
        rfl
      _ = of { marked with symbols := a.additions.foldl Alphabet.addNew a.symbols } :=
        enterAll_of marked a.additions
      _ = of a.withSegments := by
        rw [Alphabet.withSegments, if_neg (by simp [h])]
        rfl

theorem accepts_of (c : Cell) : (of a).accepts c = a.accepts c := by
  have hmem (mark : Mark) (tag : Bool) :
      decide (Cell.atom mark tag ∈ (of a).members) = decide (Cell.atom mark tag ∈ a.symbols) := by
    simp [of]
  simp only [accepts, Alphabet.accepts, hmem]

end

theorem amend_of (d : Draft) (x : Amendment) :
    (of d.alphabet).amend d.guard x = of (d.amend x).alphabet := by
  cases x with
  | segments => exact withSegments_of d.alphabet
  | stateName name => rw [amend, enter_of]; rfl
  | avoid name =>
    simp only [amend, Draft.amend, Draft.avoid]
    split <;> rfl

theorem amendAll_of (d : Draft) (xs : List Amendment) :
    amendAll d (of d.alphabet) xs = of (d.amendAll xs).alphabet := by
  induction xs generalizing d with
  | nil => rfl
  | cons x xs ih =>
    rw [amendAll, amend_of, ih]
    rfl

end Registry

/--
An alphabet of symbols that name no states is declared, and then it is prepared for simulated tapes, names
of states are added to it, and the guard grows to avoid names, in any order. The set in which cells are looked
for keeps up with the symbols: a cell is valid if it is one of them, and a combination if all its leaves are.
No symbol is there twice, and the declared symbols are among them, the empty cell included. If tapes are
simulated, the tagged declared symbols, the markers and the tagged right boundary are symbols too.
-/
theorem alphabet_stays_consistent (d : Draft) {input extra : List Cell}
    (hinert : ∀ c ∈ input ++ extra, c.isInert = true) (xs : List Amendment) :
    let declared := { d with alphabet := .declare input extra }
    let a := (declared.amendAll xs).alphabet
    let r := Registry.amendAll declared (.declare input extra) xs
    r.toAlphabet = a
      ∧ a.symbols.Nodup
      ∧ (∀ mark tag, r.accepts (.atom mark tag) = true ↔ .atom mark tag ∈ a.symbols)
      ∧ (∀ parts tag, r.accepts (.tuple parts tag) = true
          ↔ ∀ leaf ∈ Cell.leaves (.tuple parts tag), leaf ∈ a.symbols)
      ∧ (∀ c, r.accepts c = a.accepts c)
      ∧ a.declared.Nodup
      ∧ (∀ c, c ∈ a.declared ↔ c ∈ input ++ extra ∨ c = .blank)
      ∧ (∀ c ∈ a.declared, c ∈ a.symbols)
      ∧ (a.simulating = true ↔ .segments ∈ xs)
      ∧ (.segments ∈ xs → (∀ c ∈ a.declared, c.tagged ∈ a.symbols)
          ∧ ∀ c ∈ [.start, .boundLeft, .boundRight, .afterLast, Cell.boundRight.tagged], c ∈ a.symbols) := by
  intro declared a r
  have ha : a.Consistent := Draft.consistent_amendAll (Alphabet.consistent_declare hinert) xs
  have hr : r = .of a := by
    rw [← Registry.amendAll_of, ← Registry.declare_eq]
  have hdeclared : a.declared = (Alphabet.declare input extra).declared := declared.declared_amendAll xs
  have hsimulating : a.simulating = true ↔ .segments ∈ xs := by
    rw [declared.simulating_amendAll xs]
    simp [declared, Alphabet.declare]
  have haccepts (c : Cell) : r.accepts c = a.accepts c := by rw [hr, Registry.accepts_of]
  refine ⟨by rw [hr]; rfl, ha.nodup, fun mark tag => ?_, fun parts tag => ?_, haccepts, ha.nodup_declared,
    fun c => ?_, ha.declared, hsimulating, fun hxs => ⟨fun c hc => ?_, fun c hc => ?_⟩⟩
  . rw [haccepts, Alphabet.accepts_iff_leaves]
    simp [Cell.leaves]
  . rw [haccepts, Alphabet.accepts_iff_leaves]
  . rw [hdeclared, Alphabet.mem_declared_declare]
  . exact ha.additions (hsimulating.mpr hxs) _ (List.mem_append_left _ (List.mem_map_of_mem hc))
  . exact ha.additions (hsimulating.mpr hxs) _ (List.mem_append_right _ hc)

/-- A state is named before and after the guard grows. -/
theorem alphabet_stays_consistent_renamed :
    let xs : List Amendment := [.stateName "Ω_q", .segments, .avoid "xΩ", .stateName "Ω_q"]
    let declared := { Draft.new "q" with alphabet := .declare [.literal "a"] [.boundRight] }
    let a := (declared.amendAll xs).alphabet
    let r := Registry.amendAll declared (.declare [.literal "a"] [.boundRight]) xs
    (∀ c ∈ [Cell.literal "a"] ++ [.boundRight], c.isInert = true)
      ∧ a.symbols.Nodup
      ∧ r.accepts (.joint [.state "ΩΩ_q", .joint [.state "Ω_q", Cell.blank.tagged]]) = true := by
  intro xs declared a r
  have hinert : ∀ c ∈ [Cell.literal "a"] ++ [.boundRight], c.isInert = true := by decide
  obtain ⟨_, hnodup, _, htuple, _⟩ := alphabet_stays_consistent (Draft.new "q") hinert xs
  refine ⟨hinert, hnodup, (htuple _ _).mpr ?_⟩
  decide +kernel

end TuringLowering
