import TuringLowering.Segment.Route
import TuringLowering.Proofs.Letters

/-!
This module contains the lemmas about the names of the states by which a step on shared tapes is
simulated: what a state is for can be read off its name, so that routes have a state in common only if
they agree on what is done in it.
-/

namespace TuringLowering

namespace Guard

theorem longestRun_go_mono {a b : Nat} (h : a ≤ b) (cs : List Char) :
    longestRun.go a cs ≤ longestRun.go b cs := by
  induction cs generalizing a b with
  | nil => exact h
  | cons c cs ih =>
    rw [longestRun.go, longestRun.go]
    split
    . exact ih (Nat.add_le_add_right h 1)
    . omega

theorem longestRun_le_append (xs ys : List Char) : longestRun ys ≤ longestRun (xs ++ ys) := by
  have hgo (current : Nat) : longestRun ys ≤ longestRun.go current (xs ++ ys) := by
    induction xs generalizing current with
    | nil => exact longestRun_go_mono (Nat.zero_le current) ys
    | cons x xs ih =>
      rw [List.cons_append, longestRun.go]
      split
      . exact ih _
      . exact Nat.le_trans (ih 0) (Nat.le_max_right _ _)
  exact hgo 0

theorem not_free_of_run {n : Nat} {xs ys : List Char} (h : longestRun (xs ++ (run n ++ ys)) < n) :
    False := by
  have hrun := le_longestRun_run_append n ys
  have happend := longestRun_le_append xs (run n ++ ys)
  omega

theorem eq_run_of_append {n : Nat} {xs ys : List Char} (h : run n = xs ++ ys) :
    xs = run xs.length ∧ ys = run ys.length := by
  have hmem : ∀ c ∈ xs ++ ys, c = mark := by
    rw [← h]
    exact fun c hc => List.eq_of_mem_replicate hc
  rw [List.forall_mem_append] at hmem
  exact ⟨List.eq_replicate_of_mem hmem.1, List.eq_replicate_of_mem hmem.2⟩

section

variable {n : Nat} {xs xs' us vs : List Char} (hxs : longestRun xs < n)
  (hxs' : longestRun xs' < n)

theorem length_le_of_run (hus : us.head? ≠ some mark) (hxs' : longestRun xs' < n)
    (h : xs ++ (run n ++ us) = xs' ++ (run n ++ vs)) : xs'.length ≤ xs.length := by
  rcases List.append_eq_append_iff.mp h with ⟨zs, rfl, hrest⟩ | ⟨zs, rfl, _⟩
  . rcases List.append_eq_append_iff.mp hrest with ⟨as, rfl, _⟩ | ⟨as, hrun, htail⟩
    . exact (not_free_of_run hxs').elim
    . -- What the longer text has more is a part of the guard, so that a mark is left over.
      obtain ⟨hzs, has⟩ := eq_run_of_append hrun
      have hlen := congrArg List.length hrun
      simp only [run, List.length_replicate, List.length_append] at hlen
      rw [has, hlen, Nat.add_comm, ← run_append, List.append_assoc,
        List.append_cancel_left_eq] at htail
      cases hz : zs.length with
      | zero =>
        rw [List.length_append]
        omega
      | succ k =>
        rw [hz] at htail
        rw [← htail] at hus
        exact absurd rfl hus
  . rw [List.length_append]
    omega

include hxs hxs' in
theorem eq_of_append_run (hus : us.head? ≠ some mark) (hvs : vs.head? ≠ some mark)
    (h : xs ++ (run n ++ us) = xs' ++ (run n ++ vs)) : xs = xs' ∧ us = vs := by
  have hlen := Nat.le_antisymm (length_le_of_run hvs hxs h.symm) (length_le_of_run hus hxs' h)
  obtain ⟨heq, hrest⟩ := List.append_inj h hlen
  exact ⟨heq, List.append_cancel_left hrest⟩

theorem length_le_of_cons_run (hxs' : longestRun xs' < n)
    (h : xs ++ '_' :: (run n ++ us) = xs' ++ '_' :: (run n ++ vs)) : xs'.length ≤ xs.length := by
  rcases List.append_eq_append_iff.mp h with ⟨zs, rfl, hrest⟩ | ⟨zs, rfl, _⟩
  . cases zs with
    | nil => simp
    | cons z zs =>
      rw [List.cons_append, List.cons.injEq] at hrest
      rw [List.append_cons] at hxs'
      rcases List.append_eq_append_iff.mp hrest.2 with ⟨as, rfl, _⟩ | ⟨as, hrun, htail⟩
      . exact (not_free_of_run hxs').elim
      . cases as with
        | nil =>
          rw [List.append_nil] at hrun
          rw [← hrun, ← List.append_nil (run n)] at hxs'
          exact (not_free_of_run hxs').elim
        | cons a as =>
          rw [List.cons_append, List.cons.injEq] at htail
          apply absurd _ (not_mem_run n)
          rw [hrun, htail.1]
          simp
  . rw [List.length_append]
    omega

include hxs hxs' in
theorem eq_of_append_cons_run (h : xs ++ '_' :: (run n ++ us) = xs' ++ '_' :: (run n ++ vs)) :
    xs = xs' ∧ us = vs := by
  have hlen := Nat.le_antisymm (length_le_of_cons_run hxs h.symm) (length_le_of_cons_run hxs' h)
  obtain ⟨heq, hrest⟩ := List.append_inj h hlen
  rw [List.cons.injEq, List.append_cancel_left_eq] at hrest
  exact ⟨heq, hrest.2⟩

end

variable {g : Guard}

/-- The name of the state that finishes the movements of several tapes. -/
def pending (g : Guard) (moves : List Move) (next : String) : String :=
  g.wrap [joined "," (moves.map Move.display), next]

/-- The name of a state between two simulated steps: an author's one or one for the rest of a step. -/
def Named (g : Guard) (s : String) : Prop :=
  g.Free s ∨ ∃ moves next, moves ≠ [] ∧ g.Free next ∧ s = g.pending moves next

/-- What may follow the guard behind such a name. -/
def IsTail (cs : List Char) : Prop :=
  cs.head? ≠ some mark ∧ ∀ c cs', cs = '_' :: c :: cs' → c.isDigit = false ∧ c ≠ 'N'

theorem toList_pending (g : Guard) (moves : List Move) (next : String) :
    (g.pending moves next).toList
      =
    run g.size ++ '_' :: ((joined "," (moves.map Move.display)).toList
      ++ '_' :: (run g.size ++ '_' :: (next.toList ++ '_' :: run g.size))) := by
  rw [pending, toList_wrap]
  simp [behind]

theorem clean_moves (moves : List Move) : Clean (joined "," (moves.map Move.display)) := by
  rw [clean_joined (by decide)]
  intro text htext
  obtain ⟨m, _, rfl⟩ := List.mem_map.mp htext
  exact clean_move m

theorem display_head (m : Move) :
    ∃ c cs, m.display.toList = c :: cs ∧ (c.isDigit = true ∨ c = 'N') := by
  by_cases hm : m = .stay
  . rw [hm]
    exact ⟨'N', [], rfl, .inr rfl⟩
  . have hne : Nat.toDigits 10 m.distance ≠ [] := Nat.toDigits_ne_nil
    obtain ⟨c, cs, hdigits⟩ := List.exists_cons_of_ne_nil hne
    refine ⟨c, _, by rw [Move.display_of_ne_stay hm, hdigits, List.cons_append], .inl ?_⟩
    apply @Nat.isDigit_of_mem_toDigits 10 m.distance c (by decide) (by decide)
    rw [hdigits]
    exact List.mem_cons_self

theorem joined_head (m : Move) (moves : List Move) :
    ∃ c cs, (joined "," ((m :: moves).map Move.display)).toList = c :: cs
      ∧ (c.isDigit = true ∨ c = 'N') := by
  obtain ⟨c, cs, hm, hc⟩ := display_head m
  cases moves with
  | nil => exact ⟨c, cs, hm, hc⟩
  | cons m' moves =>
    simp only [List.map_cons, joined, String.toList_append, hm, List.cons_append]
    exact ⟨c, _, rfl, hc⟩

theorem Free.ne_pending {q next : String} {moves : List Move} (hq : g.Free q) (hmoves : moves ≠ [])
    {us vs : List Char} (hus : IsTail us) :
    q.toList ++ (run g.size ++ us) ≠ (g.pending moves next).toList ++ vs := by
  intro h
  rw [toList_pending, List.append_assoc] at h
  have hempty : q.toList = [] := by
    have hhead : some '_' ≠ some mark := by decide
    have hle : q.toList.length ≤ ([] : List Char).length := by
      apply length_le_of_run _ hq (h.symm : [] ++ (run g.size ++ _) = _)
      exact hhead
    exact List.eq_nil_of_length_eq_zero (Nat.le_zero.mp hle)
  rw [hempty, List.nil_append, List.append_cancel_left_eq] at h
  obtain ⟨m, moves, rfl⟩ := List.exists_cons_of_ne_nil hmoves
  obtain ⟨c, cs, hc, hdigit⟩ := joined_head m moves
  rw [hc] at h
  obtain ⟨hnot, hne⟩ := hus.2 c _ h
  rcases hdigit with hdigit | hdigit
  . rw [hnot] at hdigit
    cases hdigit
  . exact hne hdigit

theorem Named.eq_of_append {q q' : String} (hq : g.Named q) (hq' : g.Named q') {us vs : List Char}
    (hus : IsTail us) (hvs : IsTail vs)
    (h : q.toList ++ (run g.size ++ us) = q'.toList ++ (run g.size ++ vs)) : q = q' ∧ us = vs := by
  rcases hq with hq | ⟨moves, next, hmoves, hnext, rfl⟩
  . rcases hq' with hq' | ⟨moves', next', hmoves', _, rfl⟩
    . obtain ⟨heq, hrest⟩ := eq_of_append_run hq hq' hus.1 hvs.1 h
      exact ⟨String.toList_injective heq, hrest⟩
    . exact absurd h (hq.ne_pending hmoves' hus)
  . rcases hq' with hq' | ⟨moves', next', _, hnext', rfl⟩
    . exact absurd h.symm (hq'.ne_pending hmoves hvs)
    . simp only [toList_pending, List.append_assoc, List.cons_append, List.append_cancel_left_eq,
        List.cons.injEq, true_and] at h
      obtain ⟨htext, hrest⟩ := Apart.eq_of_append (.of_clean (clean_moves moves) g)
        (.of_clean (clean_moves moves') g) h
      obtain ⟨hlist, hrest⟩ := eq_of_append_cons_run hnext hnext' hrest
      rw [pending, pending, htext, String.toList_injective hlist]
      exact ⟨rfl, List.append_cancel_left hrest⟩

def rooted (g : Guard) (c : Char) (q : String) (cs : List Char) : List Char :=
  run g.size ++ c :: '_' :: (q.toList ++ (run g.size ++ cs))

theorem rooted_inj {c c' : Char} {q q' : String} (hq : g.Named q) (hq' : g.Named q')
    {us vs : List Char} (hus : IsTail us) (hvs : IsTail vs)
    (h : g.rooted c q us = g.rooted c' q' vs) : c = c' ∧ q = q' ∧ us = vs := by
  simp only [rooted, List.append_cancel_left_eq, List.cons.injEq, true_and] at h
  obtain ⟨hname, hrest⟩ := hq.eq_of_append hq' hus hvs h.2
  exact ⟨h.1, hname, hrest⟩

def listed (g : Guard) (c : Char) : List String → List Char
  | [] => []
  | texts => '_' :: c :: (Route.guarded g texts).toList

theorem toList_guarded_cons (text : String) (texts : List String) :
    (Route.guarded g (text :: texts)).toList
      =
    '_' :: (run g.size ++ (text.toList ++ (run g.size ++ (Route.guarded g texts).toList))) := by
  simp [Route.guarded, Guard.text, String.toList_join]

theorem guarded_head {cs : List Char} (hcs : cs.head? ≠ some mark) (texts : List String) :
    ((Route.guarded g texts).toList ++ cs).head? ≠ some mark := by
  cases texts with
  | nil => exact hcs
  | cons text texts =>
    rw [toList_guarded_cons, List.cons_append, List.head?_cons]
    decide

theorem guarded_inj {texts texts' : List String} (h : ∀ text ∈ texts, Clean text)
    (h' : ∀ text ∈ texts', Clean text) {us vs : List Char} (hus : us.head? ≠ some mark)
    (hus' : us.head? ≠ some '_') (hvs : vs.head? ≠ some mark) (hvs' : vs.head? ≠ some '_')
    (heq : (Route.guarded g texts).toList ++ us = (Route.guarded g texts').toList ++ vs) :
    texts = texts' ∧ us = vs := by
  have hnil : (Route.guarded g []).toList = [] := rfl
  induction texts generalizing texts' with
  | nil =>
    cases texts' with
    | nil => exact ⟨rfl, heq⟩
    | cons text' texts' =>
      rw [toList_guarded_cons, hnil, List.nil_append] at heq
      rw [heq] at hus'
      exact absurd rfl hus'
  | cons text texts ih =>
    cases texts' with
    | nil =>
      rw [toList_guarded_cons, hnil, List.nil_append] at heq
      rw [← heq] at hvs'
      exact absurd rfl hvs'
    | cons text' texts' =>
      rw [List.forall_mem_cons] at h h'
      simp only [toList_guarded_cons, List.cons_append, List.append_assoc, List.cons.injEq,
        true_and, List.append_cancel_left_eq] at heq
      obtain ⟨htext, hrest⟩ := eq_of_append_run (h.1.free g) (h'.1.free g) (guarded_head hus _)
        (guarded_head hvs _) heq
      obtain ⟨htexts, htail⟩ := ih h.2 h'.2 hrest
      rw [String.toList_injective htext, htexts]
      exact ⟨rfl, htail⟩

theorem listed_inj {c : Char} {texts texts' : List String} (h : ∀ text ∈ texts, Clean text)
    (h' : ∀ text ∈ texts', Clean text) {us vs : List Char} (hus : us.head? ≠ some mark)
    (hus' : us.head? ≠ some '_') (hvs : vs.head? ≠ some mark) (hvs' : vs.head? ≠ some '_')
    (heq : g.listed c texts ++ us = g.listed c texts' ++ vs) : texts = texts' ∧ us = vs := by
  cases texts with
  | nil =>
    cases texts' with
    | nil => exact ⟨rfl, heq⟩
    | cons text' texts' =>
      have hhead := congrArg List.head? heq
      exact absurd hhead hus'
  | cons text texts =>
    cases texts' with
    | nil =>
      have hhead := congrArg List.head? heq
      exact absurd hhead.symm hvs'
    | cons text' texts' =>
      simp only [listed, List.cons_append, List.cons.injEq, true_and] at heq
      exact guarded_inj h h' hus hus' hvs hvs' heq

theorem isTail_listed {c : Char} (hc : c.isDigit = false) (hc' : c ≠ 'N') (texts : List String)
    {cs : List Char} (hcs : cs.head? ≠ some mark) (hcs' : cs.head? ≠ some '_') :
    IsTail (g.listed c texts ++ cs) := by
  cases texts with
  | nil =>
    refine ⟨hcs, ?_⟩
    intro a as heq
    rw [listed, List.nil_append] at heq
    rw [heq] at hcs'
    exact absurd rfl hcs'
  | cons text texts =>
    constructor
    . change some '_' ≠ some mark
      decide
    . intro a as heq
      simp only [listed, List.cons_append, List.cons.injEq, true_and] at heq
      rw [← heq.1]
      exact ⟨hc, hc'⟩

/-- The name of a state that serves all routes: it contains no guard but the one in front. -/
def Serves (g : Guard) (s : String) : Prop :=
  Clean s ∨ ∃ text, Clean text ∧ s.toList = run g.size ++ '_' :: text.toList

theorem toList_of_generates {s : String} (h : g.Generates s) :
    ∃ cs, mark ∈ cs ∧ s.toList = run g.size ++ '_' :: cs := by
  have hmem : mark ∈ run g.size :=
    List.mem_replicate.mpr ⟨Nat.pos_iff_ne_zero.mp g.size_pos, rfl⟩
  obtain ⟨part, parts, rfl | ⟨suffix, _, rfl⟩⟩ := h
  . rw [toList_wrap, behind]
    exact ⟨_, by simp [hmem], rfl⟩
  . rw [String.toList_append, toList_wrap, behind, List.append_assoc, List.cons_append]
    exact ⟨_, by simp [hmem], rfl⟩

theorem Serves.not_generates {s : String} (h : g.Serves s) : ¬ g.Generates s := by
  intro hs
  obtain ⟨cs, hcs, hlist⟩ := toList_of_generates hs
  rcases h with hclean | ⟨text, hclean, htext⟩
  . apply hclean
    rw [hlist]
    simp [hcs]
  . rw [htext, List.append_cancel_left_eq, List.cons.injEq] at hlist
    apply hclean
    rw [hlist.2]
    exact hcs

theorem not_generates_rooted {c : Char} (hc : c ≠ '_') {q s : String} {cs : List Char}
    (h : s.toList = g.rooted c q cs) : ¬ g.Generates s := by
  intro hs
  obtain ⟨_, _, hlist⟩ := toList_of_generates hs
  rw [h, rooted, List.append_cancel_left_eq, List.cons.injEq] at hlist
  exact hc hlist.1

theorem Serves.ne_rooted {s : String} (h : g.Serves s) {c : Char} (hc : c ≠ '_') (q : String)
    (cs : List Char) : s.toList ≠ g.rooted c q cs := by
  intro heq
  rcases h with hclean | ⟨text, _, htext⟩
  . apply hclean
    rw [heq, rooted]
    exact List.mem_append_left _
      (List.mem_replicate.mpr ⟨Nat.pos_iff_ne_zero.mp g.size_pos, rfl⟩)
  . rw [htext, rooted, List.append_cancel_left_eq, List.cons.injEq] at heq
    exact hc heq.1.symm

end Guard

theorem Cell.map_display_inj {cells cells' : List Cell} (h : ∀ c ∈ cells, c.IsLetter)
    (h' : ∀ c ∈ cells', c.IsLetter) (heq : cells.map display = cells'.map display) :
    cells = cells' := by
  induction cells generalizing cells' with
  | nil =>
    rw [List.map_nil, eq_comm, List.map_eq_nil_iff] at heq
    exact heq.symm
  | cons c cells ih =>
    cases cells' with
    | nil => cases heq
    | cons c' cells' =>
      rw [List.forall_mem_cons] at h h'
      rw [List.map_cons, List.map_cons, List.cons.injEq] at heq
      rw [h.1.eq_of_display h'.1 heq.1, ih h.2 h'.2 heq.2]

namespace Route

/-- A route on `n` tapes whose states can be told apart from those of others. -/
structure WellFormed (g : Guard) (n : Nat) (r : Route) : Prop where
  guard : r.guard = g
  origin : g.Named r.origin
  next : g.Named r.next
  reads : ∀ c ∈ r.reads, c.IsLetter ∧ Guard.Clean c.display
  writes : ∀ c ∈ r.writes, c.IsLetter ∧ Guard.Clean c.display
  readsLength : r.reads.length = n
  writesLength : r.writes.length = n
  movesLength : r.moves.length = n

theorem toList_findState (r : Route) {i : Nat} (h : i < r.reads.length) :
    (r.findState i).toList
      =
    r.guard.rooted 's' r.origin (r.guard.listed 'f' ((r.reads.take i).map Cell.display)) := by
  cases i with
  | zero => simp [findState, searchRoot, Guard.rooted, Guard.listed, Guard.text]
  | succ i =>
    rw [findState, if_neg (Nat.ne_of_lt h)]
    cases hreads : r.reads with
    | nil =>
      rw [hreads] at h
      cases h
    | cons c cs => simp [searchRoot, Guard.rooted, Guard.listed, Guard.text]

theorem toList_applyState_append (r : Route) {i : Nat} (h : i ≤ r.actionTexts.length)
    (z : String) :
    (r.applyState i ++ z).toList
      =
    r.guard.rooted 'a' r.next (r.guard.listed 'p' (r.actionTexts.take i) ++ z.toList) := by
  cases i with
  | zero => simp [applyState, applyRoot, Guard.rooted, Guard.listed, Guard.text]
  | succ i =>
    cases htexts : r.actionTexts with
    | nil =>
      rw [htexts] at h
      cases h
    | cons text texts =>
      simp [applyState, htexts, applyRoot, Guard.rooted, Guard.listed, Guard.text]

def endings : List String := ["", "-markHead", "-doRecord"]

theorem ending_head {z : String} (h : z ∈ endings) :
    z.toList.head? ≠ some Guard.mark ∧ z.toList.head? ≠ some '_' := by
  have hall : ∀ z ∈ endings, z.toList.head? ≠ some Guard.mark ∧ z.toList.head? ≠ some '_' := by
    decide
  exact hall z h

theorem eq_of_zipWith {ws ws' : List Cell} {ms ms' : List Move} (hlen : ws.length = ms.length)
    (hlen' : ws'.length = ms'.length) (hws : ∀ c ∈ ws, c.IsLetter) (hws' : ∀ c ∈ ws', c.IsLetter)
    (h : List.zipWith (fun (c : Cell) (m : Move) => c.display ++ "," ++ m.display) ws ms
      = List.zipWith (fun (c : Cell) (m : Move) => c.display ++ "," ++ m.display) ws' ms') :
    ws = ws' ∧ ms = ms' := by
  induction ws generalizing ms ws' ms' with
  | nil =>
    have hms : ms = [] := List.eq_nil_of_length_eq_zero hlen.symm
    rw [hms, List.zipWith_nil_left, eq_comm, List.zipWith_eq_nil_iff] at h
    have hws' : ws' = [] := by
      rcases h with h | h
      . exact h
      . exact List.eq_nil_of_length_eq_zero (by rw [hlen', h]; rfl)
    have hms' : ms' = [] := List.eq_nil_of_length_eq_zero (by rw [← hlen', hws']; rfl)
    rw [hws', hms, hms']
    exact ⟨rfl, rfl⟩
  | cons w ws ih =>
    obtain ⟨m, ms, rfl⟩ := List.exists_cons_of_length_eq_add_one hlen.symm
    cases ws' with
    | nil => simp at h
    | cons w' ws' =>
      obtain ⟨m', ms', rfl⟩ := List.exists_cons_of_length_eq_add_one hlen'.symm
      rw [List.forall_mem_cons] at hws hws'
      rw [List.zipWith_cons_cons, List.zipWith_cons_cons, List.cons.injEq] at h
      have htext := congrArg String.toList h.1
      simp only [String.toList_append, List.append_assoc] at htext
      obtain ⟨rfl, hrest⟩ := hws.1.eq_of_append hws'.1 (by simp) (by simp) htext
      have hmove := Move.display_injective (String.toList_injective (List.append_cancel_left hrest))
      obtain ⟨rfl, rfl⟩ := ih (Nat.succ.inj hlen) (Nat.succ.inj hlen') hws.2 hws'.2 h.2
      rw [hmove]
      exact ⟨rfl, rfl⟩

namespace WellFormed

variable {g : Guard} {n : Nat} {r r' : Route}

theorem length_actionTexts (h : r.WellFormed g n) : r.actionTexts.length = n := by
  rw [actionTexts, List.length_zipWith, h.writesLength, h.movesLength, Nat.min_self]

theorem clean_actionTexts (h : r.WellFormed g n) : ∀ text ∈ r.actionTexts, Guard.Clean text := by
  have hcomma : Guard.Clean "," := by decide
  intro text htext
  obtain ⟨i, hi, rfl⟩ := List.mem_iff_getElem.mp htext
  simp only [actionTexts, List.getElem_zipWith, Guard.clean_append]
  exact ⟨⟨(h.writes _ (List.getElem_mem _)).2, hcomma⟩, Guard.clean_move _⟩

theorem findState_inj (h : r.WellFormed g n) (h' : r'.WellFormed g n) {i j : Nat} (hi : i < n)
    (hj : j < n) (heq : r.findState i = r'.findState j) :
    i = j ∧ r.origin = r'.origin ∧ r.reads.take i = r'.reads.take j := by
  have hlist := congrArg String.toList heq
  rw [toList_findState r (by rwa [h.readsLength]), toList_findState r' (by rwa [h'.readsLength]),
    h.guard, h'.guard, ← List.append_nil (g.listed 'f' (List.map _ (r.reads.take i))),
    ← List.append_nil (g.listed 'f' (List.map _ (r'.reads.take j)))] at hlist
  have htail (texts : List String) : Guard.IsTail (g.listed 'f' texts ++ []) :=
    Guard.isTail_listed (by decide) (by decide) texts (by simp) (by simp)
  have hclean {r : Route} (h : r.WellFormed g n) (i : Nat) :
      ∀ text ∈ (r.reads.take i).map Cell.display, Guard.Clean text := by
    intro text htext
    obtain ⟨c, hc, rfl⟩ := List.mem_map.mp htext
    exact (h.reads c (List.mem_of_mem_take hc)).2
  obtain ⟨_, horigin, hrest⟩ := Guard.rooted_inj h.origin h'.origin (htail _) (htail _) hlist
  obtain ⟨htexts, _⟩ := Guard.listed_inj (hclean h i) (hclean h' j) (by simp) (by simp) (by simp)
    (by simp) hrest
  have hreads := Cell.map_display_inj (fun c hc => (h.reads c (List.mem_of_mem_take hc)).1)
    (fun c hc => (h'.reads c (List.mem_of_mem_take hc)).1) htexts
  refine ⟨?_, horigin, hreads⟩
  have hlen := congrArg List.length hreads
  simp only [List.length_take, h.readsLength, h'.readsLength] at hlen
  omega

theorem applyState_inj (h : r.WellFormed g n) (h' : r'.WellFormed g n) {i j : Nat} (hi : i ≤ n)
    (hj : j ≤ n) {z z' : String} (hz : z ∈ endings) (hz' : z' ∈ endings)
    (heq : r.applyState i ++ z = r'.applyState j ++ z') :
    i = j ∧ r.next = r'.next ∧ r.writes.take i = r'.writes.take j
      ∧ r.moves.take i = r'.moves.take j ∧ z = z' := by
  obtain ⟨hmark, hline⟩ := ending_head hz
  obtain ⟨hmark', hline'⟩ := ending_head hz'
  have hlist := congrArg String.toList heq
  rw [toList_applyState_append r (by rwa [h.length_actionTexts]),
    toList_applyState_append r' (by rwa [h'.length_actionTexts]), h.guard, h'.guard] at hlist
  have htail (texts : List String) {z : String} (hz : z ∈ endings) :
      Guard.IsTail (g.listed 'p' texts ++ z.toList) :=
    Guard.isTail_listed (by decide) (by decide) texts (ending_head hz).1 (ending_head hz).2
  obtain ⟨_, hnext, hrest⟩ := Guard.rooted_inj h.next h'.next (htail _ hz) (htail _ hz') hlist
  obtain ⟨htexts, hending⟩ := Guard.listed_inj
    (fun text ht => h.clean_actionTexts text (List.mem_of_mem_take ht))
    (fun text ht => h'.clean_actionTexts text (List.mem_of_mem_take ht)) hmark hline hmark' hline'
    hrest
  simp only [actionTexts, List.take_zipWith] at htexts
  obtain ⟨hwrites, hmoves⟩ := eq_of_zipWith
    (by simp [h.writesLength, h.movesLength]) (by simp [h'.writesLength, h'.movesLength])
    (fun c hc => (h.writes c (List.mem_of_mem_take hc)).1)
    (fun c hc => (h'.writes c (List.mem_of_mem_take hc)).1) htexts
  refine ⟨?_, hnext, hwrites, hmoves, String.toList_injective hending⟩
  have hlen := congrArg List.length hwrites
  simp only [List.length_take, h.writesLength, h'.writesLength] at hlen
  omega

theorem findState_ne_applyState (h : r.WellFormed g n) (h' : r'.WellFormed g n) {i j : Nat}
    (hi : i < n) (hj : j ≤ n) {z : String} : r.findState i ≠ r'.applyState j ++ z := by
  intro heq
  have hlist := congrArg String.toList heq
  rw [toList_findState r (by rwa [h.readsLength]),
    toList_applyState_append r' (by rwa [h'.length_actionTexts]), h.guard, h'.guard] at hlist
  simp only [Guard.rooted, List.append_cancel_left_eq, List.cons.injEq] at hlist
  exact absurd hlist.1 (by decide)

theorem findState_congr (h : r.WellFormed g n) (h' : r'.WellFormed g n) {i : Nat} (hi : i < n)
    (horigin : r.origin = r'.origin) (hreads : r.reads.take i = r'.reads.take i) :
    r.findState i = r'.findState i := by
  apply String.toList_injective
  rw [toList_findState r (by rwa [h.readsLength]), toList_findState r' (by rwa [h'.readsLength]),
    h.guard, h'.guard, horigin, hreads]

theorem applyState_congr (h : r.WellFormed g n) (h' : r'.WellFormed g n) {i : Nat} (hi : i ≤ n)
    (hnext : r.next = r'.next) (hwrites : r.writes.take i = r'.writes.take i)
    (hmoves : r.moves.take i = r'.moves.take i) : r.applyState i = r'.applyState i := by
  have htexts : r.actionTexts.take i = r'.actionTexts.take i := by
    simp only [actionTexts, List.take_zipWith]
    rw [hwrites, hmoves]
  have hlist := toList_applyState_append r (show i ≤ r.actionTexts.length by
    rwa [h.length_actionTexts]) ""
  rw [htexts, h.guard, hnext] at hlist
  have hlist' := toList_applyState_append r' (show i ≤ r'.actionTexts.length by
    rwa [h'.length_actionTexts]) ""
  rw [h'.guard, ← hlist, String.append_empty, String.append_empty] at hlist'
  exact String.toList_injective hlist'.symm

theorem not_generates_findState (h : r.WellFormed g n) {i : Nat} (hi : i < n) :
    ¬ g.Generates (r.findState i) := by
  have hlist := toList_findState r (show i < r.reads.length by rwa [h.readsLength])
  rw [h.guard] at hlist
  exact Guard.not_generates_rooted (by decide) hlist

theorem not_generates_applyState (h : r.WellFormed g n) {i : Nat} (hi : i ≤ n) (z : String) :
    ¬ g.Generates (r.applyState i ++ z) := by
  have hlist := toList_applyState_append r (show i ≤ r.actionTexts.length by
    rwa [h.length_actionTexts]) z
  rw [h.guard] at hlist
  exact Guard.not_generates_rooted (by decide) hlist

theorem ne_findState (h : r.WellFormed g n) {i : Nat} (hi : i < n) {s : String} (hs : g.Serves s) :
    s ≠ r.findState i := by
  rintro rfl
  have hlist := toList_findState r (show i < r.reads.length by rwa [h.readsLength])
  rw [h.guard] at hlist
  exact hs.ne_rooted (by decide) _ _ hlist

theorem ne_applyState (h : r.WellFormed g n) {i : Nat} (hi : i ≤ n) (z : String) {s : String}
    (hs : g.Serves s) : s ≠ r.applyState i ++ z := by
  rintro rfl
  have hlist := toList_applyState_append r (show i ≤ r.actionTexts.length by
    rwa [h.length_actionTexts]) z
  rw [h.guard] at hlist
  exact hs.ne_rooted (by decide) _ _ hlist

end WellFormed

end Route

namespace Segment

variable (g : Guard)

theorem serves_stepState : g.Serves (stepState g) :=
  .inr ⟨"process", by decide, by simp [stepState, Guard.text]⟩

theorem serves_growState : g.Serves (growState g) :=
  .inr ⟨"doEmptyCellInsertions", by decide, by simp [growState, Guard.text]⟩

theorem serves_growPart {part : String} (h : Guard.Clean part) : g.Serves (growPart g part) := by
  have hclean : Guard.Clean "doEmptyCellInsertions-" := by decide
  refine .inr ⟨"doEmptyCellInsertions-" ++ part, ?_, ?_⟩
  . rw [Guard.clean_append]
    exact ⟨hclean, h⟩
  . simp [growPart, growState, Guard.text]

theorem serves_layoutPart {part : String} (h : Guard.Clean part) : g.Serves (layoutPart g part) := by
  have hclean : Guard.Clean "init_" := by decide
  refine .inr ⟨"init_" ++ part, ?_, ?_⟩
  . rw [Guard.clean_append]
    exact ⟨hclean, h⟩
  . simp [layoutPart, Guard.text]

end Segment

end TuringLowering
