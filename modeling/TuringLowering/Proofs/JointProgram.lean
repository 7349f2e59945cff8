import Mathlib.Data.List.Forall2
import Mathlib.Data.List.Induction
import Mathlib.Logic.Function.Iterate
import Mathlib.Logic.Relation
import TuringLowering.Proofs.FeatureIndependence
import TuringLowering.Proofs.Routing
import TuringLowering.Proofs.UserNames

/-!
This module contains what joint transitions say, apart from any machine: the first one about a state
and the cells under all heads is followed, and where there is none, the run ends with a rejection.
Movements of more than one cell can be unrolled to transitions with movements of at most one cell.
-/

namespace TuringLowering

section

variable {α β : Type} {f : α → α} {g : β → β} {state : α → String} {state' : β → String}
  {R : α → β → Prop}

/--
Two ways to go on end with the same verdict if one of them, step by step, does what the other one does
in one or more steps.
-/
theorem verdict_iff_of_simulation (hf : ∀ a, isTerminal (state a) = true → f a = a)
    (hg : ∀ b, isTerminal (state' b) = true → g b = b)
    (hend : ∀ a b, R a b → isTerminal (state a) = true → state' b = state a)
    (hstep : ∀ a b, R a b → isTerminal (state a) = false →
      isTerminal (state' b) = false ∧ ∃ k, 0 < k ∧ R (f a) (g^[k] b))
    {a : α} {b : β} (h : R a b) (v : Verdict) :
    (∃ n, state (f^[n] a) = v.state) ↔ ∃ n, state' (g^[n] b) = v.state := by
  constructor
  . rintro ⟨n, hn⟩
    induction n generalizing a b with
    | zero => exact ⟨0, (hend a b h (by rw [show state a = _ from hn, Machine.isTerminal_state])).trans hn⟩
    | succ n ih =>
      rw [Function.iterate_succ_apply] at hn
      cases hrunning : isTerminal (state a) with
      | true =>
        rw [hf a hrunning] at hn
        exact ih h hn
      | false =>
        obtain ⟨_, k, _, hR⟩ := hstep a b h hrunning
        obtain ⟨m, hm⟩ := ih hR hn
        exact ⟨m + k, by rw [Function.iterate_add_apply, hm]⟩
  . rintro ⟨n, hn⟩
    induction n using Nat.strongRecOn generalizing a b with
    | ind n ih =>
      cases hrunning : isTerminal (state a) with
      | true =>
        have hsame := hend a b h hrunning
        rw [← hsame] at hrunning
        rw [Function.iterate_fixed (hg b hrunning)] at hn
        exact ⟨0, hsame.symm.trans hn⟩
      | false =>
        obtain ⟨hb, k, hk, hR⟩ := hstep a b h hrunning
        have hpos : 0 < n := by
          rcases Nat.eq_zero_or_pos n with rfl | hpos
          . rw [show state' b = _ from hn, Machine.isTerminal_state] at hb
            cases hb
          . exact hpos
        have hlater : state' (g^[n - k] (g^[k] b)) = v.state := by
          rw [← Function.iterate_add_apply]
          rcases Nat.le_total k n with hle | hle
          . rw [Nat.sub_add_cancel hle, hn]
          . rw [Nat.sub_eq_zero_of_le hle, Nat.zero_add, ← Nat.sub_add_cancel hle,
              Function.iterate_add_apply, Function.iterate_fixed (hg _ _), hn]
            rw [hn, Machine.isTerminal_state]
        obtain ⟨m, hm⟩ := ih (n - k) (by omega) hR hlater
        exact ⟨m + 1, hm⟩

end

theorem joined_injective {texts texts' : List String} (hlength : texts.length = texts'.length)
    (h : ∀ text ∈ texts, ',' ∉ text.toList) (h' : ∀ text ∈ texts', ',' ∉ text.toList)
    (heq : joined "," texts = joined "," texts') : texts = texts' := by
  have hsplit {xs xs' ys ys' : List Char} (hxs : ',' ∉ xs) (hxs' : ',' ∉ xs')
      (heq : xs ++ ',' :: ys = xs' ++ ',' :: ys') : xs = xs' ∧ ys = ys' := by
    induction xs generalizing xs' with
    | nil => cases xs' <;> simp_all
    | cons x xs ih => cases xs' <;> grind
  induction texts generalizing texts' with
  | nil => exact (List.eq_nil_of_length_eq_zero hlength.symm).symm
  | cons text texts ih =>
    obtain ⟨text', texts', rfl⟩ := List.exists_cons_of_length_eq_add_one hlength.symm
    rw [List.forall_mem_cons] at h h'
    cases texts with
    | nil =>
      obtain rfl : texts' = [] := List.eq_nil_of_length_eq_zero (by simpa using hlength.symm)
      exact congrArg (fun s => [s]) heq
    | cons text₁ texts =>
      obtain ⟨text₁', texts', rfl⟩ :=
        List.exists_cons_of_length_eq_add_one (by simpa using hlength.symm)
      have hlist := congrArg String.toList heq
      simp only [joined, String.toList_append, List.append_assoc] at hlist
      obtain ⟨hfirst, hrest⟩ := hsplit h.1 h'.1 hlist
      rw [String.toList_injective hfirst, ih (by simpa using hlength) h.2 h'.2
        (String.toList_injective (by simpa [joined] using hrest))]

theorem Move.joined_injective {moves moves' : List Move} (hlength : moves.length = moves'.length)
    (h : joined "," (moves.map display) = joined "," (moves'.map display)) : moves = moves' := by
  have hcomma (moves : List Move) : ∀ text ∈ moves.map display, ',' ∉ text.toList := by
    intro text htext hmem
    obtain ⟨m, _, rfl⟩ := List.mem_map.mp htext
    rcases mem_display hmem with hdigit | hletter
    . exact absurd hdigit (by decide)
    . exact absurd hletter (by decide)
  apply List.map_injective_iff.mpr fun m m' => display_injective
  exact TuringLowering.joined_injective (by simp [hlength]) (hcomma moves) (hcomma moves') h

/-- Whether each pattern matches the cell that is read on its tape. -/
def JointPattern.Matches : JointPattern → List Cell → Prop
  | .any, _ => True
  | .tapes patterns, cells => List.Forall₂ Pattern.Matches patterns cells

instance (p : JointPattern) (cells : List Cell) : Decidable (p.Matches cells) :=
  match p with
  | .any => inferInstanceAs (Decidable True)
  | .tapes patterns => inferInstanceAs (Decidable (List.Forall₂ Pattern.Matches patterns cells))

namespace JointTransition

def serves (state : String) (cells : List Cell) (t : JointTransition) : Bool :=
  t.origin = state ∧ t.read.Matches cells

/-- The first transition about a state and some cells. -/
def serving (ts : List JointTransition) (state : String) (cells : List Cell) :
    Option JointTransition := ts.find? (serves state cells)

def act (t : JointTransition) (vs : List View) : List View :=
  List.zipWith (fun (p : Writing × Move) v => (v.write (p.1.onto v.focus)).move p.2)
    (t.writes.zip t.moves) vs

/-- One step by transitions; what is seen of the tapes after a rejection for lack of one is left open. -/
def advance (ts : List JointTransition) (c : String × List View) : String × List View :=
  if isTerminal c.1 then c
  else
    match serving ts c.1 (c.2.map View.focus) with
    | some t => (t.next, t.act c.2)
    | none => (Verdict.reject.state, c.2)

variable {ts : List JointTransition} {t : JointTransition}

theorem serving_concat (ts : List JointTransition) (t : JointTransition) (state : String)
    (cells : List Cell) :
    serving (ts ++ [t]) state cells
      =
    (serving ts state cells).or (if t.serves state cells then some t else none) := by
  unfold serving
  rw [List.find?_append, List.find?_singleton]

theorem mem_of_serving {state : String} {cells : List Cell} (h : serving ts state cells = some t) :
    t ∈ ts ∧ t.origin = state ∧ t.read.Matches cells := by
  refine ⟨List.mem_of_find?_eq_some h, ?_⟩
  simpa [serves] using List.find?_some h

inductive Leads (ts : List JointTransition) : String × List View → String × List View → Prop where
  | step {q : String} {vs : List View} {t : JointTransition} (running : isTerminal q = false)
    (serving : serving ts q (vs.map View.focus) = some t) : Leads ts (q, vs) (t.next, t.act vs)

theorem Leads.advance {a b : String × List View} (h : Leads ts a b) :
    JointTransition.advance ts a = b := by
  obtain ⟨hrunning, hserving⟩ := h
  simp [JointTransition.advance, hrunning, hserving]

theorem iterate_of_leads {a b : String × List View} (h : Relation.TransGen (Leads ts) a b) :
    ∃ k, 0 < k ∧ (advance ts)^[k] a = b := by
  induction h with
  | single h => exact ⟨1, Nat.one_pos, h.advance⟩
  | tail _ h ih =>
    obtain ⟨k, _, hk⟩ := ih
    refine ⟨k + 1, Nat.succ_pos k, ?_⟩
    rw [Function.iterate_succ_apply', hk, h.advance]

structure Fits (n : Nat) (t : JointTransition) : Prop where
  reads : ∀ patterns, t.read = .tapes patterns → patterns.length = n
  writes : t.writes.length = n
  moves : t.moves.length = n

/-- What is left to do after one step by a transition with movements of more than one cell. -/
def remainder (g : Guard) (t : JointTransition) : JointTransition :=
  ⟨g.pending (t.moves.map Move.rest) t.next, .any, t.writes.map fun _ => .keep,
    t.moves.map Move.rest, t.next⟩

/-- The key of the state in which the remainder is done. -/
def pendingKey (t : JointTransition) : ChainKey :=
  ⟨.jointMove, [joined "," ((t.moves.map Move.rest).map Move.display), t.next]⟩

/-- The first step by a transition. -/
def opening (g : Guard) (t : JointTransition) : JointTransition :=
  if t.moves.any Move.isLong then
    { t with moves := t.moves.map Move.step, next := (t.remainder g).origin }
  else t

/--
The transitions with movements of at most one cell that a transition amounts to, and the keys of the
states for remainders after those in `made`.
-/
def unroll (g : Guard) :
    Nat → List ChainKey → JointTransition → List ChainKey × List JointTransition
  | 0, made, t => (made, [t])
  | n + 1, made, t =>
    if t.moves.any Move.isLong then
      if t.pendingKey ∈ made then (made, [t.opening g])
      else
        let later := unroll g n (made ++ [t.pendingKey]) (t.remainder g)
        (later.1, later.2 ++ [t.opening g])
    else (made, [t])

def unrollAll (g : Guard) (ts : List JointTransition) : List ChainKey × List JointTransition :=
  ts.foldl (fun done t =>
    let later := unroll g ((t.moves.map Move.distance).foldl max 0) done.1 t
    (later.1, done.2 ++ later.2)) ([], [])

section

variable {g : Guard} {n : Nat} {t' : JointTransition}

@[simp]
theorem origin_opening (t : JointTransition) : (t.opening g).origin = t.origin := by
  unfold opening
  split <;> rfl

@[simp]
theorem serves_opening (t : JointTransition) (state : String) (cells : List Cell) :
    (t.opening g).serves state cells = t.serves state cells := by
  unfold opening
  split <;> rfl

theorem opening_of_short (h : t.moves.any Move.isLong = false) : t.opening g = t := by
  rw [opening, h, if_neg Bool.false_ne_true]

theorem next_opening (h : t.moves.any Move.isLong = true) :
    (t.opening g).next = (t.remainder g).origin := by
  rw [opening, if_pos h]

theorem not_free_remainder (t : JointTransition) : ¬ g.Free (t.remainder g).origin :=
  Guard.Generates.not_free ⟨_, _, .inl rfl⟩

theorem Fits.remainder (h : t.Fits n) : (t.remainder g).Fits n where
  reads := nofun
  writes := by rw [JointTransition.remainder, List.length_map, h.writes]
  moves := by rw [JointTransition.remainder, List.length_map, h.moves]

theorem pendingKey_of_origin (h : (t.remainder g).origin = (t'.remainder g).origin) :
    t.pendingKey = t'.pendingKey := by
  have hlist := congrArg String.toList h
  rw [remainder, remainder, Guard.pending, Guard.pending, Guard.toList_wrap, Guard.toList_wrap,
    List.append_cancel_left_eq] at hlist
  obtain ⟨hmoves, hnext⟩ := Guard.behind_inj_of_apart (.of_clean (Guard.clean_moves _) g)
    (.of_clean (Guard.clean_moves _) g) hlist
  rw [pendingKey, pendingKey, hmoves, Guard.behind_inj_last hnext]

theorem remainder_of_pendingKey (ht : t.Fits n) (ht' : t'.Fits n)
    (h : t.pendingKey = t'.pendingKey) : t.remainder g = t'.remainder g := by
  simp only [pendingKey, ChainKey.mk.injEq, List.cons.injEq, true_and, and_true] at h
  obtain ⟨htexts, hnext⟩ := h
  have hmoves : t.moves.map Move.rest = t'.moves.map Move.rest :=
    Move.joined_injective (by simp [ht.moves, ht'.moves]) htexts
  have hwrites : (t.writes.map fun _ => Writing.keep) = t'.writes.map fun _ => Writing.keep := by
    rw [List.map_const', List.map_const', ht.writes, ht'.writes]
  rw [remainder, remainder, hmoves, hnext, hwrites]

structure Unrolled (g : Guard) (n : Nat) (made made' : List ChainKey) (t : JointTransition)
    (later : List JointTransition) : Prop where
  kept : ∀ k ∈ made, k ∈ made'
  origins : ∀ p ∈ later, ∃ s : JointTransition, s.Fits n ∧ p.origin = (s.remainder g).origin
    ∧ s.pendingKey ∉ made ∧ s.pendingKey ∈ made'
  served : ∀ s : JointTransition, s.Fits n → s.pendingKey ∈ made' → s.pendingKey ∉ made →
    ∀ cells, serving later (s.remainder g).origin cells = some ((s.remainder g).opening g)
  linked : ∀ s : JointTransition, s.Fits n → s.pendingKey ∈ made' → s.pendingKey ∉ made →
    (s.remainder g).moves.any Move.isLong = true → (s.remainder g).pendingKey ∈ made'
  link : t.moves.any Move.isLong = true → t.pendingKey ∈ made'

theorem Unrolled.nil {made : List ChainKey}
    (h : t.moves.any Move.isLong = true → t.pendingKey ∈ made) : Unrolled g n made made t [] where
  kept _ hk := hk
  origins := nofun
  served _ _ hmade hnot := absurd hmade hnot
  linked _ _ hmade hnot := absurd hmade hnot
  link := h

theorem Unrolled.remainder {made made' : List ChainKey} {later : List JointTransition}
    (ht : t.Fits n) (hfresh : t.pendingKey ∉ made)
    (h : Unrolled g n (made ++ [t.pendingKey]) made' (t.remainder g) later) :
    Unrolled g n made made' t (later ++ [(t.remainder g).opening g]) := by
  have hkey : t.pendingKey ∈ made' := h.kept _ (List.mem_append_right _ (List.mem_singleton_self _))
  have hcases (s : JointTransition) (hs : s.Fits n) (hnot : s.pendingKey ∉ made) :
      s.remainder g = t.remainder g ∨ s.pendingKey ∉ made ++ [t.pendingKey] := by
    by_cases heq : s.pendingKey = t.pendingKey
    . exact .inl (remainder_of_pendingKey hs ht heq)
    . exact .inr (by simp [hnot, heq])
  constructor
  case kept =>
    intro k hk
    exact h.kept k (List.mem_append_left _ hk)
  case origins =>
    intro p hp
    rcases List.mem_append.mp hp with hp | hp
    . obtain ⟨s, hs, horigin, hnot, hmade⟩ := h.origins p hp
      exact ⟨s, hs, horigin, fun hmem => hnot (List.mem_append_left _ hmem), hmade⟩
    . rw [List.mem_singleton.mp hp, origin_opening]
      exact ⟨t, ht, rfl, hfresh, hkey⟩
  case served =>
    intro s hs hmade hnot cells
    rw [serving_concat]
    rcases hcases s hs hnot with heq | hnew
    . -- Nothing in between was made for this state, which was there before.
      have hnone : serving later (t.remainder g).origin cells = none := by
        apply List.find?_eq_none.mpr
        intro p hp hserves
        obtain ⟨s', hs', horigin, hnot', _⟩ := h.origins p hp
        have hsame : p.origin = (t.remainder g).origin := by
          simp only [serves, decide_eq_true_eq] at hserves
          exact hserves.1
        apply hnot'
        rw [pendingKey_of_origin (horigin.symm.trans hsame)]
        exact List.mem_append_right _ (List.mem_singleton_self _)
      rw [heq, hnone, serves_opening, Option.none_or, if_pos]
      simp [serves, JointTransition.remainder, JointPattern.Matches]
    . rw [h.served s hs hmade hnew cells, Option.some_or]
  case linked =>
    intro s hs hmade hnot
    rcases hcases s hs hnot with heq | hnew
    . rw [heq]
      exact h.link
    . exact h.linked s hs hmade hnew
  case link => exact fun _ => hkey

theorem distance_remainder {m : Nat} (h : ∀ x ∈ t.moves, x.distance ≤ m + 1) :
    ∀ x ∈ (t.remainder g).moves, x.distance ≤ m := by
  intro x hx
  obtain ⟨y, hy, rfl⟩ := List.mem_map.mp hx
  rw [Move.distance_rest]
  exact Nat.sub_le_of_le_add (h y hy)

theorem short_of_distance (h : ∀ x ∈ t.moves, x.distance ≤ 0) :
    t.moves.any Move.isLong = false := by
  rw [List.any_eq_false]
  intro x hx
  simp [Move.isLong, Nat.le_zero.mp (h x hx)]

theorem exists_unrolled {m : Nat} (made : List ChainKey) (ht : t.Fits n)
    (hm : ∀ x ∈ t.moves, x.distance ≤ m) :
    ∃ later, (unroll g m made t).2 = later ++ [t.opening g]
      ∧ Unrolled g n made (unroll g m made t).1 t later := by
  induction m generalizing made t with
  | zero =>
    have hshort := short_of_distance hm
    refine ⟨[], ?_, .nil (by simp [hshort])⟩
    rw [opening_of_short hshort]
    rfl
  | succ m ih =>
    rw [unroll]
    split
    . next hlong =>
      split
      . next hmade => exact ⟨[], rfl, .nil fun _ => hmade⟩
      . next hfresh =>
        obtain ⟨later, hlater, hunrolled⟩ :=
          ih (made ++ [t.pendingKey]) ht.remainder (distance_remainder hm)
        refine ⟨later ++ [(t.remainder g).opening g], ?_, hunrolled.remainder ht hfresh⟩
        dsimp only
        rw [hlater]
    . next hshort =>
      rw [Bool.not_eq_true] at hshort
      refine ⟨[], ?_, .nil (by simp [hshort])⟩
      rw [opening_of_short hshort]
      rfl

/-- The transitions of `P` are those of `ts` in steps of at most one cell. -/
structure Plan (g : Guard) (n : Nat) (ts : List JointTransition) (made : List ChainKey)
    (P : List JointTransition) : Prop where
  free : ∀ q, g.Free q → ∀ cells, serving P q cells = (serving ts q cells).map (opening g)
  origins : ∀ p ∈ P, g.Free p.origin ∨ ∃ s : JointTransition,
    s.Fits n ∧ p.origin = (s.remainder g).origin ∧ s.pendingKey ∈ made
  served : ∀ s : JointTransition, s.Fits n → s.pendingKey ∈ made →
    ∀ cells, serving P (s.remainder g).origin cells = some ((s.remainder g).opening g)
  linked : ∀ s : JointTransition, s.Fits n → s.pendingKey ∈ made →
    (s.remainder g).moves.any Move.isLong = true → (s.remainder g).pendingKey ∈ made
  link : ∀ t ∈ ts, t.moves.any Move.isLong = true → t.pendingKey ∈ made

theorem serving_append (ts ts' : List JointTransition) (state : String) (cells : List Cell) :
    serving (ts ++ ts') state cells = (serving ts state cells).or (serving ts' state cells) :=
  List.find?_append

theorem serving_eq_none {state : String} (h : ∀ t ∈ ts, t.origin ≠ state) (cells : List Cell) :
    serving ts state cells = none := by
  apply List.find?_eq_none.mpr
  intro t ht hserves
  simp only [serves, decide_eq_true_eq] at hserves
  exact h t ht hserves.1

theorem Plan.nil (g : Guard) (n : Nat) : Plan g n [] [] [] where
  free _ _ _ := rfl
  origins := nofun
  served := nofun
  linked := nofun
  link := nofun

theorem Plan.concat {made made' : List ChainKey} {P later : List JointTransition}
    (h : Plan g n ts made P) (horigin : g.Free t.origin) (ht : Unrolled g n made made' t later) :
    Plan g n (ts ++ [t]) made' (P ++ (later ++ [t.opening g])) := by
  have hpast (s : JointTransition) (hs : s.Fits n) (hnot : s.pendingKey ∉ made) (cells : List Cell) :
      serving P (s.remainder g).origin cells = none := by
    apply serving_eq_none
    intro p hp heq
    rcases h.origins p hp with hfree | ⟨s', hs', horigin', hmade⟩
    . exact not_free_remainder s (heq ▸ hfree)
    . exact hnot (pendingKey_of_origin (heq.symm.trans horigin') ▸ hmade)
  constructor
  case free =>
    intro q hq cells
    have hlater : serving later q cells = none := by
      apply serving_eq_none
      rintro p hp rfl
      obtain ⟨s, _, heq, _⟩ := ht.origins p hp
      exact not_free_remainder s (heq ▸ hq)
    rw [serving_append, serving_concat, serving_concat, hlater, h.free q hq, Option.none_or,
      serves_opening, Option.map_or]
    congr 1
    split <;> rfl
  case origins =>
    intro p hp
    rcases List.mem_append.mp hp with hp | hp
    . rcases h.origins p hp with hfree | ⟨s, hs, heq, hmade⟩
      . exact .inl hfree
      . exact .inr ⟨s, hs, heq, ht.kept _ hmade⟩
    . rcases List.mem_append.mp hp with hp | hp
      . obtain ⟨s, hs, heq, _, hmade⟩ := ht.origins p hp
        exact .inr ⟨s, hs, heq, hmade⟩
      . rw [List.mem_singleton.mp hp, origin_opening]
        exact .inl horigin
  case served =>
    intro s hs hmade' cells
    rw [serving_append, serving_append]
    by_cases hmade : s.pendingKey ∈ made
    . rw [h.served s hs hmade, Option.some_or]
    . rw [hpast s hs hmade, ht.served s hs hmade' hmade, Option.none_or, Option.some_or]
  case linked =>
    intro s hs hmade' hlong
    by_cases hmade : s.pendingKey ∈ made
    . exact ht.kept _ (h.linked s hs hmade hlong)
    . exact ht.linked s hs hmade' hmade hlong
  case link =>
    intro u hu hlong
    rcases List.mem_append.mp hu with hu | hu
    . exact ht.kept _ (h.link u hu hlong)
    . rw [List.mem_singleton.mp hu] at hlong ⊢
      exact ht.link hlong

theorem distance_le_foldl (ms : List Move) (a : Nat) :
    a ≤ (ms.map Move.distance).foldl max a
      ∧ ∀ m ∈ ms, m.distance ≤ (ms.map Move.distance).foldl max a := by
  induction ms generalizing a with
  | nil => simp
  | cons m ms ih =>
    obtain ⟨hle, hall⟩ := ih (max a m.distance)
    simp only [List.map_cons, List.foldl_cons, List.forall_mem_cons]
    exact ⟨by omega, by omega, hall⟩

theorem unrollAll_concat (g : Guard) (ts : List JointTransition) (t : JointTransition) :
    unrollAll g (ts ++ [t])
      =
    (let later := unroll g ((t.moves.map Move.distance).foldl max 0) (unrollAll g ts).1 t
    (later.1, (unrollAll g ts).2 ++ later.2)) := by
  rw [unrollAll, List.foldl_concat]
  rfl

theorem plan_unrollAll (hfits : ∀ t ∈ ts, t.Fits n) (hfree : ∀ t ∈ ts, g.Free t.origin) :
    Plan g n ts (unrollAll g ts).1 (unrollAll g ts).2 := by
  induction ts using List.reverseRecOn with
  | nil => exact .nil g n
  | append_singleton ts t ih =>
    rw [List.forall_mem_append, List.forall_mem_singleton] at hfits hfree
    obtain ⟨later, hlater, hunrolled⟩ := exists_unrolled (unrollAll g ts).1 hfits.2
      (distance_le_foldl t.moves 0).2
    rw [unrollAll_concat]
    dsimp only
    rw [hlater]
    exact (ih hfits.1 hfree.1).concat hfree.2 hunrolled

theorem length_act (ht : t.Fits n) {vs : List View} (hvs : vs.length = n) :
    (t.act vs).length = n := by
  simp [act, ht.writes, ht.moves, hvs]

theorem within_act {B : List Cell} (h : ∀ w ∈ t.writes, w.Over (· ∈ B)) {vs : List View}
    (hvs : ∀ v ∈ vs, v.Within B) : ∀ v ∈ t.act vs, v.Within B := by
  obtain ⟨origin, read, writes, moves, next⟩ := t
  dsimp only [act] at h ⊢
  induction writes generalizing moves vs with
  | nil => simp
  | cons w writes ih =>
    cases moves with
    | nil => simp
    | cons m moves =>
      cases vs with
      | nil => simp
      | cons v vs =>
        rw [List.forall_mem_cons] at h hvs
        rw [List.zip_cons_cons, List.zipWith_cons_cons, List.forall_mem_cons]
        exact ⟨(hvs.1.write (h.1.onto (hvs.1 _))).move m, ih hvs.2 moves h.2⟩

theorem move_step_rest (v : View) (m : Move) : (v.move m.step).move m.rest = v.move m := by
  ext i
  . simp only [View.position_move, Move.step, Move.rest]
    rcases Int.lt_trichotomy m.offset 0 with h | h | h
    . rw [Int.sign_eq_neg_one_of_neg h]
      omega
    . rw [h]
      simp
    . rw [Int.sign_eq_one_of_pos h]
      omega
  . rfl

theorem act_remainder (hlong : t.moves.any Move.isLong = true) (vs : List View) :
    (t.remainder g).act ((t.opening g).act vs) = t.act vs := by
  rw [opening, if_pos hlong]
  obtain ⟨origin, read, writes, moves, next⟩ := t
  clear hlong
  simp only [act, remainder]
  induction writes generalizing moves vs with
  | nil => rfl
  | cons w writes ih =>
    cases moves with
    | nil => rfl
    | cons m moves =>
      cases vs with
      | nil => rfl
      | cons v vs =>
        simp only [List.map_cons, List.zip_cons_cons, List.zipWith_cons_cons, ih]
        rw [Writing.onto, View.write_focus, move_step_rest]

theorem isTerminal_remainder (t : JointTransition) : isTerminal (t.remainder g).origin = false :=
  isTerminal_of_mem_mark (Guard.mark_mem_wrap g _)

namespace Plan

variable {made : List ChainKey} {P : List JointTransition} (h : Plan g n ts made P)
include h

theorem leads_remainder (ht : t.Fits n) (hmade : t.pendingKey ∈ made) (vs : List View) :
    Relation.TransGen (Leads P) ((t.remainder g).origin, vs) (t.next, (t.remainder g).act vs) := by
  obtain ⟨m, hm⟩ : ∃ m, ∀ x ∈ (t.remainder g).moves, x.distance ≤ m :=
    ⟨_, (distance_le_foldl _ 0).2⟩
  induction m generalizing t vs with
  | zero =>
    have hfirst := Leads.step (isTerminal_remainder t) (h.served t ht hmade (vs.map View.focus))
    rw [opening_of_short (short_of_distance hm)] at hfirst
    exact .single hfirst
  | succ m ih =>
    have hfirst := Leads.step (isTerminal_remainder t) (h.served t ht hmade (vs.map View.focus))
    cases hlong : (t.remainder g).moves.any Move.isLong with
    | false =>
      rw [opening_of_short hlong] at hfirst
      exact .single hfirst
    | true =>
      have hrest := ih ht.remainder (h.linked t ht hmade hlong)
        (((t.remainder g).opening g).act vs) (distance_remainder hm)
      rw [act_remainder hlong] at hrest
      rw [next_opening hlong] at hfirst
      exact .head hfirst hrest

theorem leads (hfits : ∀ t ∈ ts, t.Fits n) {a b : String × List View} (hfree : g.Free a.1)
    (hab : Leads ts a b) : Relation.TransGen (Leads P) a b := by
  obtain ⟨hq, ht⟩ := hab
  next q vs t =>
  obtain ⟨hmem, _⟩ := mem_of_serving ht
  have hfirst : Leads P (q, vs) ((t.opening g).next, (t.opening g).act vs) := by
    apply Leads.step hq
    rw [h.free q hfree, ht, Option.map_some]
  cases hlong : t.moves.any Move.isLong with
  | false =>
    rw [opening_of_short hlong] at hfirst
    exact .single hfirst
  | true =>
    have hrest := h.leads_remainder (hfits t hmem) (h.link t hmem hlong) ((t.opening g).act vs)
    rw [act_remainder hlong] at hrest
    rw [next_opening hlong] at hfirst
    exact .head hfirst hrest

/-- Unrolling does not change the verdict. -/
theorem verdict_iff (hfits : ∀ t ∈ ts, t.Fits n) (hfree : ∀ t ∈ ts, g.Free t.next) {q : String}
    (hq : g.Free q) (vs : List View) (v : Verdict) :
    (∃ k, ((advance ts)^[k] (q, vs)).1 = v.state) ↔ ∃ k, ((advance P)^[k] (q, vs)).1 = v.state := by
  have hfixed (ts : List JointTransition) (c : String × List View) (hc : isTerminal c.1 = true) :
      advance ts c = c := by
    rw [advance, if_pos hc]
  apply verdict_iff_of_simulation (hfixed ts) (hfixed P) _ _ (R := fun a b => a = b ∧ g.Free a.1)
    ⟨rfl, hq⟩
  . rintro a _ ⟨rfl, _⟩ _
    rfl
  . rintro ⟨q, vs⟩ _ ⟨rfl, hq⟩ hrunning
    refine ⟨hrunning, ?_⟩
    cases hserving : serving ts q (vs.map View.focus) with
    | some t =>
      have hstep := Leads.step hrunning hserving
      obtain ⟨k, hk, hiterate⟩ := iterate_of_leads (h.leads hfits hq hstep)
      refine ⟨k, hk, ?_⟩
      rw [hiterate, hstep.advance]
      exact ⟨rfl, hfree t (mem_of_serving hserving).1⟩
    | none =>
      have hnone : serving P q (vs.map View.focus) = none := by
        rw [h.free q hq, hserving]
        rfl
      refine ⟨1, Nat.one_pos, ?_⟩
      simp only [Function.iterate_one, advance, hrunning, hserving, hnone, Bool.false_eq_true,
        if_false, true_and]
      exact Guard.Clean.free (by decide) g

end Plan

/-- The transition reads and writes certain cells only. -/
def Over (Q : Cell → Prop) (t : JointTransition) : Prop :=
  (∀ p ∈ t.read.perTape 0, p.Over Q) ∧ ∀ w ∈ t.writes, w.Over Q

instance (Q : Cell → Prop) [DecidablePred Q] (t : JointTransition) : Decidable (t.Over Q) :=
  inferInstanceAs (Decidable (_ ∧ _))

/-- A transition on `n` tapes between states that can be told apart, with declared cells only. -/
structure Proper (g : Guard) (A : Alphabet) (n : Nat) (t : JointTransition) : Prop extends
    t.Fits n where
  cells : t.Over (· ∈ A.declared)
  origin : g.Named t.origin
  next : g.Named t.next

namespace Proper

variable {A : Alphabet}

theorem named_remainder (h : t.Proper g A n) (hn : 0 < n) (hnext : g.Free t.next) :
    g.Named (t.remainder g).origin := by
  refine .inr ⟨t.moves.map Move.rest, t.next, ?_, hnext, rfl⟩
  rw [Ne, List.map_eq_nil_iff]
  rintro hnil
  have := h.moves
  rw [hnil, List.length_nil] at this
  omega

theorem remainder (h : t.Proper g A n) (hn : 0 < n) (hnext : g.Free t.next) :
    (t.remainder g).Proper g A n where
  toFits := h.toFits.remainder
  cells := by
    refine ⟨nofun, ?_⟩
    intro w hw
    obtain ⟨_, _, rfl⟩ := List.mem_map.mp hw
    exact Writing.over_keep
  origin := h.named_remainder hn hnext
  next := .inl hnext

theorem opening (h : t.Proper g A n) (hn : 0 < n) (hnext : g.Free t.next) :
    (t.opening g).Proper g A n := by
  rw [JointTransition.opening]
  split
  . exact { h with
      moves := by rw [List.length_map, h.moves]
      next := h.named_remainder hn hnext }
  . exact h

end Proper

theorem Proper.of_free {A : Alphabet} (hfits : t.Fits n) (hover : t.Over (· ∈ A.declared))
    (horigin : g.Free t.origin) (hnext : g.Free t.next) : t.Proper g A n :=
  ⟨hfits, hover, .inl horigin, .inl hnext⟩

theorem short_opening (t : JointTransition) : ∀ m ∈ (t.opening g).moves, m.isLong = false := by
  rw [opening]
  split
  . intro m hm
    obtain ⟨m', _, rfl⟩ := List.mem_map.mp hm
    exact m'.isLong_step
  . next h => simpa using h

end

end JointTransition

theorem Draft.Pends.concat {g : Guard} {made : List ChainKey} {d : Draft} (h : d.Pends g made)
    (k : ChainKey) :
    ({ d with chains := d.chains ++ [(k, g.wrap k.parts)] } : Draft).Pends g (made ++ [k]) := by
  intro k' name hk'
  simp only [List.mem_append, List.mem_singleton, Prod.mk.injEq, h k' name hk']
  constructor
  . rintro (⟨hmade, hname⟩ | ⟨rfl, hname⟩)
    . exact ⟨.inl hmade, hname⟩
    . exact ⟨.inr rfl, hname⟩
  . rintro ⟨hmade | rfl, hname⟩
    . exact .inl ⟨hmade, hname⟩
    . exact .inr ⟨rfl, hname⟩

namespace Build

open JointTransition

variable {g : Guard} {A : Alphabet} {n : Nat}
  {I : List ChainKey → List JointTransition → Draft → Prop}

/-- What holds of a draft, transition by transition, while a transition is unrolled. -/
structure Unrolls (g : Guard) (A : Alphabet) (n : Nat)
    (I : List ChainKey → List JointTransition → Draft → Prop) : Prop where
  guard : ∀ {made P d}, I made P d → d.guard = g
  pends : ∀ {made P d}, I made P d → d.Pends g made
  moves : ∀ {made P d}, I made P d →
    (d.features.enabled .moveMulti && d.features.enabled .multiTape) = false
  chain : ∀ {made P d} {k : ChainKey}, I made P d → k ∉ made → k.kind = .jointMove →
    I (made ++ [k]) P { d with chains := d.chains ++ [(k, g.wrap k.parts)] }
  direct : ∀ {made P d d'} {t : JointTransition}, I made P d → t.Proper g A n →
    (∀ m ∈ t.moves, m.isLong = false) → jointTransition.direct t d = .ok () d' →
    I made (P ++ [t]) d'

theorem chain_pending {made : List ChainKey} {d d' : Draft} {state : String} {isNew : Bool}
    (t : JointTransition) (hd : d.guard = g) (h : d.Pends g made)
    (hok : chain t.pendingKey t.pendingKey.parts d = .ok (state, isNew) d') :
    state = (t.remainder g).origin
      ∧ (t.pendingKey ∈ made ∧ isNew = false ∧ d' = d
        ∨ t.pendingKey ∉ made ∧ isNew = true
          ∧ d' = { d with chains := d.chains ++ [(t.pendingKey, g.wrap t.pendingKey.parts)] }) := by
  subst hd
  rw [chain_apply] at hok
  cases hfind : d.chains.find? (·.1 = t.pendingKey) with
  | some e =>
    simp only [hfind, EStateM.Result.ok.injEq, Prod.mk.injEq] at hok
    obtain ⟨⟨rfl, rfl⟩, rfl⟩ := hok
    have hkey : e.1 = t.pendingKey := by simpa using List.find?_some hfind
    have hmem : (t.pendingKey, e.2) ∈ d.chains := hkey ▸ List.mem_of_find?_eq_some hfind
    obtain ⟨hmade, hname⟩ := (h t.pendingKey e.2 rfl).mp hmem
    exact ⟨hname, .inl ⟨hmade, rfl, rfl⟩⟩
  | none =>
    simp only [hfind, EStateM.Result.ok.injEq, Prod.mk.injEq] at hok
    obtain ⟨⟨rfl, rfl⟩, rfl⟩ := hok
    refine ⟨rfl, .inr ⟨fun hmade => ?_, rfl, rfl⟩⟩
    have hmem := (h t.pendingKey _ rfl).mpr ⟨hmade, rfl⟩
    simpa using List.find?_eq_none.mp hfind _ hmem

theorem go_eq_ok {m : Nat} {t : JointTransition} {d d' : Draft}
    (h : jointTransition.go (m + 1) t d = .ok () d')
    (hmoves : (d.features.enabled .moveMulti && d.features.enabled .multiTape) = false)
    (hlong : t.moves.any Move.isLong = true) :
    ∃ state isNew d₁ d₂, chain t.pendingKey t.pendingKey.parts d = .ok (state, isNew) d₁
      ∧ (isNew = false ∧ d₂ = d₁
        ∨ isNew = true ∧ jointTransition.go m ⟨state, .any, t.writes.map fun _ => .keep,
          t.moves.map Move.rest, t.next⟩ d₁ = .ok () d₂)
      ∧ jointTransition.direct { t with moves := t.moves.map Move.step, next := state } d₂
        = .ok () d' := by
  rw [jointTransition.go, bind_of_ok (enabled_apply _ _), bind_of_ok (enabled_apply _ _), hmoves,
    hlong, Bool.not_false, Bool.and_self, if_pos rfl, bind_eq_ok] at h
  obtain ⟨⟨state, isNew⟩, d₁, hchain, h⟩ := h
  cases isNew with
  | false => exact ⟨state, false, d₁, d₁, hchain, .inl ⟨rfl, rfl⟩, h⟩
  | true =>
    dsimp only at h
    rw [if_pos rfl, bind_eq_ok] at h
    obtain ⟨_, d₂, hgo, hdirect⟩ := h
    exact ⟨state, true, d₁, d₂, hchain, .inr ⟨rfl, hgo⟩, hdirect⟩

theorem go_short {m : Nat} {t : JointTransition} {d : Draft}
    (hshort : t.moves.any Move.isLong = false) :
    jointTransition.go m t d = jointTransition.direct t d := by
  cases m with
  | zero => rfl
  | succ m =>
    rw [jointTransition.go, bind_of_ok (enabled_apply _ _), bind_of_ok (enabled_apply _ _), hshort,
      Bool.and_false, if_neg Bool.false_ne_true]

theorem go_of_direct {t : JointTransition} {d : Draft}
    (h : (d.features.enabled .moveMulti && d.features.enabled .multiTape) = true) (m : Nat) :
    jointTransition.go m t d = jointTransition.direct t d := by
  cases m with
  | zero => rfl
  | succ m =>
    rw [jointTransition.go, bind_of_ok (enabled_apply _ _), bind_of_ok (enabled_apply _ _), h,
      Bool.not_true, Bool.false_and, if_neg Bool.false_ne_true]

theorem Unrolls.go (hI : Unrolls g A n I) (hn : 0 < n) {m : Nat} {made : List ChainKey}
    {P : List JointTransition} {t : JointTransition} {d d' : Draft}
    (hm : ∀ x ∈ t.moves, x.distance ≤ m) (ht : t.Proper g A n) (hnext : g.Free t.next)
    (h : I made P d) (hok : jointTransition.go m t d = .ok () d') :
    I (unroll g m made t).1 (P ++ (unroll g m made t).2) d' := by
  induction m generalizing made P t d d' with
  | zero =>
    have hshort := short_of_distance hm
    rw [go_short hshort] at hok
    exact hI.direct h ht (by simpa using hshort) hok
  | succ m ih =>
    cases hlong : t.moves.any Move.isLong with
    | false =>
      rw [go_short hlong] at hok
      rw [unroll, hlong, if_neg Bool.false_ne_true]
      exact hI.direct h ht (by simpa using hlong) hok
    | true =>
      obtain ⟨state, isNew, d₁, d₂, hchain, hrest, hdirect⟩ := go_eq_ok hok (hI.moves h) hlong
      obtain ⟨rfl, hcases⟩ := chain_pending t (hI.guard h) (hI.pends h) hchain
      have hopening : t.opening g
          = { t with moves := t.moves.map Move.step, next := (t.remainder g).origin } := by
        rw [opening, if_pos hlong]
      rw [← hopening] at hdirect
      rw [unroll, if_pos hlong]
      rcases hcases with ⟨hmade, rfl, rfl⟩ | ⟨hfresh, rfl, rfl⟩
      . obtain ⟨_, rfl⟩ | ⟨hnew, _⟩ := hrest
        . rw [if_pos hmade]
          exact hI.direct h (ht.opening hn hnext) t.short_opening hdirect
        . cases hnew
      . obtain ⟨hnew, _⟩ | ⟨_, hgo⟩ := hrest
        . cases hnew
        . rw [if_neg hfresh]
          have hlater := ih (distance_remainder hm) (ht.remainder hn hnext) hnext
            (hI.chain h hfresh rfl) hgo
          dsimp only
          rw [← List.append_assoc]
          exact hI.direct hlater (ht.opening hn hnext) t.short_opening hdirect

end Build

/-- The requests for a machine with several tapes and an alphabet of single characters. -/
def Request.onTapes (input extra : List Char) (features : List Feature) (n : Nat) (first : String)
    (ts : List JointTransition) : List Request :=
  .alphabets (input.map .ofChar) (extra.map .ofChar) :: .features features :: .tapes n first
    :: ts.map .joint

theorem Alphabet.mem_ofChars {input extra : List Char} {c : Cell} :
    c ∈ (ofChars input extra).declared
      ↔ (∃ char ∈ input ++ extra, .ofChar char = c) ∨ c = .blank := by
  rw [ofChars, declare, Build.mem_foldl_addNew]
  simp [or_and_right, exists_or, or_assoc]

namespace Build

variable {input extra : List Char} {features : List Feature} {n : Nat} {first : String}
  {ts : List JointTransition} {d d' : Draft}

theorem onTapes_eq_ok {g : Guard}
    (h : submitAll (Request.onTapes input extra features n first ts)
      { Draft.new Draft.defaultStart with guard := g } = .ok () d) :
    1 < n ∧ ∃ s d₁, openTapes n first
        { start := Draft.defaultStart, features := s, alphabet := .ofChars input extra, guard := g }
          = .ok () d₁
      ∧ submitAll (ts.map .joint) d₁ = .ok () d := by
  rw [submitAll, Request.onTapes, forM_cons_eq_ok] at h
  obtain ⟨d₁, halphabets, h⟩ := h
  cases halphabets
  rw [forM_cons_eq_ok] at h
  obtain ⟨d₂, hfeatures, h⟩ := h
  obtain ⟨s, rfl⟩ := enableFeatures_eq_ok hfeatures
  rw [forM_cons_eq_ok] at h
  obtain ⟨d₃, htapes, h⟩ := h
  obtain ⟨hn, _, hopen⟩ := setTapes_eq_ok htapes
  exact ⟨hn, s, d₃, hopen, h⟩

section

variable (hinput : ∀ c ∈ input ++ extra, c ≠ Guard.mark)
  (hclean : ∀ t ∈ ts, ∀ c ∈ (Request.joint t).mentioned, Guard.Clean c.display)

include hinput in
theorem clean_ofChars : ∀ c ∈ (Alphabet.ofChars input extra).declared, Guard.Clean c.display := by
  intro c hc
  rcases Alphabet.mem_ofChars.mp hc with ⟨char, hchar, rfl⟩ | rfl
  . rw [Guard.Clean, Cell.toList_display_ofChar, List.mem_singleton]
    exact (hinput char hchar).symm
  . decide

include hclean in
theorem guard_of_joints (hd : d.IsPlain) (h : submitAll (ts.map .joint) d = .ok () d') :
    d'.guard = d.guard.cover (ts.flatMap fun t => [t.origin, t.next]) := by
  induction ts generalizing d with
  | nil =>
    cases h
    rfl
  | cons t ts ih =>
    rw [List.forall_mem_cons] at hclean
    rw [List.map_cons, submitAll, forM_cons_eq_ok] at h
    obtain ⟨d₁, hjoint, h⟩ := h
    have hplain := (@submit_transparent d.guard [] (.joint t) hclean.1 d hd (List.forall_mem_nil _)).plain
    rw [after, hjoint] at hplain
    rw [ih hclean.2 hplain h, guard_of_userJoint hclean.1 hd hjoint, ← Guard.cover_append,
      List.flatMap_cons]

include hinput hclean

theorem guard_onTapes
    (h : submitAll (Request.onTapes input extra features n first ts) (.new Draft.defaultStart)
      = .ok () d) :
    d.guard = Guard.single.cover (first :: ts.flatMap fun t => [t.origin, t.next]) := by
  obtain ⟨_, s, d₁, hopen, hjoints⟩ := onTapes_eq_ok h
  have hplain : Draft.IsPlain
      { start := Draft.defaultStart, features := s, alphabet := .ofChars input extra } :=
    ⟨rfl, clean_ofChars hinput, nofun, fun c hc => .inl (clean_ofChars hinput c hc)⟩
  have hplain₁ := (@openTapes_transparent d.guard [] n first _ hplain nofun).plain
  rw [after, hopen] at hplain₁
  rw [guard_of_joints hclean hplain₁ hjoints, guard_of_openTapes hplain hopen, ← Guard.cover_append]
  rfl

theorem onTapes_withGuard
    (h : submitAll (Request.onTapes input extra features n first ts) (.new Draft.defaultStart)
      = .ok () d) :
    d.guard.Free first ∧ (∀ t ∈ ts, d.guard.Free t.origin ∧ d.guard.Free t.next)
      ∧ submitAll (Request.onTapes input extra features n first ts)
        { Draft.new Draft.defaultStart with guard := d.guard } = .ok () d := by
  have hmentioned : ∀ r ∈ Request.onTapes input extra features n first ts, ∀ c ∈ r.mentioned,
      Guard.Clean c.display := by
    simp only [Request.onTapes, List.forall_mem_cons, List.forall_mem_map]
    refine ⟨?_, nofun, nofun, hclean⟩
    intro c hc
    simp only [Request.mentioned, ← List.map_append, List.mem_map] at hc
    obtain ⟨char, hchar, rfl⟩ := hc
    rw [Guard.Clean, Cell.toList_display_ofChar, List.mem_singleton]
    exact (hinput char hchar).symm
  have hplain := Draft.new_plain Draft.defaultStart
  have hfree := (free_of_submitAll hmentioned hplain h).2
  simp only [Request.onTapes, List.forall_mem_cons, List.forall_mem_map, Request.names,
    List.not_mem_nil, false_imp_iff, implies_true, and_true, true_and] at hfree
  have hfixed := submitAll_withGuard hmentioned hplain h (Nat.le_refl d.guard.size)
  rw [d.withGuard_guard, Draft.new_withGuard (by decide)] at hfixed
  exact ⟨hfree.1, hfree.2, hfixed⟩

end

end Build

theorem Build.openTapes_apply (n : Nat) (first : String) (d : Draft) :
    openTapes n first d
      =
    if (d.avoid first).features.enabled .multiTape then
      .ok () { d.avoid first with
        start := first
        states := (d.avoid first).states.ensure first
        tapes := .multi n }
    else simulateTapes n first { d.avoid first with tapes := .multi n } := by
  rw [openTapes, bind_of_ok (avoid_apply _ _)]
  change (if (d.avoid first).features.enabled .multiTape = true then _
    else simulateTapes n first : Build Unit) _ = _
  split <;> rfl

theorem Build.openTapes_of_free {n : Nat} {first : String} {d : Draft} (h : d.guard.Free first) :
    openTapes n first d
      =
    if d.features.enabled .multiTape then
      .ok () { d with start := first, states := d.states.ensure first, tapes := .multi n }
    else simulateTapes n first { d with tapes := .multi n } := by
  rw [openTapes_apply, Draft.avoid_of_free h]

theorem Build.userJoint_of_free {n : Nat} {t : JointTransition} {d d' : Draft}
    (htapes : d.tapes = .multi n) (horigin : d.guard.Free t.origin) (hnext : d.guard.Free t.next)
    (h : userJoint t d = .ok () d') : t.Fits n ∧ jointTransition t d = .ok () d' := by
  obtain ⟨m, hm, hread, hwrites, hmoves, hjoint⟩ := userJoint_eq_ok h
  obtain rfl : m = n := by
    rw [htapes] at hm
    exact (TapeUse.multi.inj hm).symm
  rw [Draft.avoidBoth, Draft.avoid_of_free horigin, Draft.avoid_of_free hnext] at hjoint
  exact ⟨⟨hread, hwrites, hmoves⟩, hjoint⟩

end TuringLowering
