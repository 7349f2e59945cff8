import TuringLowering.Proofs.Obedience
import TuringLowering.Proofs.SegmentNames

/-!
This module contains the directives by which a route is followed, and the proof that routes can share
them: a state with a directive of one route has all those that another route needs in it.
-/

namespace TuringLowering

namespace Cell

theorem IsLetter.head {c : Cell} (h : c.IsLetter) : c.head = false := by
  obtain ⟨char, rfl⟩ | rfl := h <;> rfl

theorem IsLetter.bare_tagged {c : Cell} (h : c.IsLetter) : c.tagged.bare = c := by
  obtain ⟨char, rfl⟩ | rfl := h <;> rfl

theorem IsLetter.eq_of_tagged {c c' : Cell} (h : c.IsLetter) (h' : c'.IsLetter)
    (heq : c.tagged = c'.tagged) : c = c' := by
  rw [← h.bare_tagged, heq, h'.bare_tagged]

end Cell

namespace Route

inductive Prescribes (r : Route) (A : Alphabet) : Directive → Prop where
  | entry {x : Directive} (mem : x ∈ r.entry) : Prescribes r A x
  | pass {i : Nat} (lt : i < r.reads.length) :
    Prescribes r A (.pass (r.findState i) (between A) .right (r.findState i))
  | found {i : Nat} {c : Cell} (read : r.reads[i]? = some c) :
    Prescribes r A (.replace (r.findState i) c.tagged c.tagged .right (r.findState (i + 1)))
  | action {i : Nat} {w : Cell} {m : Move} {x : Directive} (write : r.writes[i]? = some w)
    (move : r.moves[i]? = some m) (mem : x ∈ r.action A (i + 1) w m) : Prescribes r A x
  | record {x : Directive} (mem : x ∈ r.record A) : Prescribes r A x

variable {A : Alphabet} {g : Guard} {n : Nat} {r r' : Route} {x : Directive}

theorem origin_of_mem_entry (h : x ∈ r.entry) :
    x.origin = Segment.stepState r.guard ∨ x.origin = Segment.growPart r.guard "done" := by
  simp only [entry, List.mem_cons, List.not_mem_nil, or_false] at h
  rcases h with rfl | rfl
  . exact .inl rfl
  . exact .inr rfl

theorem origin_of_mem_action {i : Nat} {w : Cell} {m : Move} (h : x ∈ r.action A i w m) :
    ∃ z ∈ endings, x.origin = r.applyState i ++ z := by
  have hplain : r.applyState i = r.applyState i ++ "" := String.append_empty.symm
  simp only [action, List.mem_append, List.mem_cons, List.not_mem_nil, or_false,
    List.mem_map] at h
  rcases h with (rfl | rfl | rfl | rfl) | ⟨c, _, rfl⟩
  . exact ⟨"", by decide, hplain⟩
  . exact ⟨"", by decide, hplain⟩
  . exact ⟨"-markHead", by decide, rfl⟩
  . exact ⟨"-markHead", by decide, rfl⟩
  . exact ⟨"-markHead", by decide, rfl⟩

theorem origin_of_mem_record (h : x ∈ r.record A) :
    ∃ z ∈ endings, x.origin = r.applyState 0 ++ z := by
  have hplain : r.applyState 0 = r.applyState 0 ++ "" := String.append_empty.symm
  simp only [record, List.mem_cons, List.not_mem_nil, or_false] at h
  rcases h with rfl | rfl | rfl
  . exact ⟨"", by decide, hplain⟩
  . exact ⟨"", by decide, hplain⟩
  . exact ⟨"-doRecord", by decide, rfl⟩

theorem not_matches_between (hA : ∀ c ∈ A.declared, c.IsLetter) (c : Cell) :
    ¬ (between A).Matches c.tagged := by
  have hbound : ∀ b ∈ [Cell.boundLeft, Cell.boundRight], b.head = false := by decide
  intro hmem
  have hhead : c.tagged.head = false := by
    rcases List.mem_append.mp hmem with hmem | hmem
    . exact (hA _ hmem).head
    . exact hbound _ hmem
  rw [Cell.head_tagged] at hhead
  cases hhead

theorem length_of_getElem? {α : Type} {xs : List α} {i : Nat} {a : α} (h : xs[i]? = some a) :
    i < xs.length := (List.getElem?_eq_some_iff.mp h).1

namespace Prescribes

theorem origin_cases (hr : r.WellFormed g n) (h : r.Prescribes A x) :
    (x.origin = Segment.stepState g ∨ x.origin = Segment.growPart g "done")
      ∨ (∃ i < n, x.origin = r.findState i)
      ∨ ∃ i ≤ n, ∃ z ∈ endings, x.origin = r.applyState i ++ z := by
  cases h with
  | entry mem =>
    have := origin_of_mem_entry mem
    rw [hr.guard] at this
    exact .inl this
  | @pass i lt =>
    rw [hr.readsLength] at lt
    exact .inr (.inl ⟨i, lt, rfl⟩)
  | @found i c read =>
    have hlt := length_of_getElem? read
    rw [hr.readsLength] at hlt
    exact .inr (.inl ⟨i, hlt, rfl⟩)
  | @action i w m _ write move mem =>
    have hlt := length_of_getElem? write
    rw [hr.writesLength] at hlt
    exact .inr (.inr ⟨i + 1, hlt, origin_of_mem_action mem⟩)
  | record mem => exact .inr (.inr ⟨0, Nat.zero_le n, origin_of_mem_record mem⟩)

theorem not_generates (hr : r.WellFormed g n) (h : r.Prescribes A x) : ¬ g.Generates x.origin := by
  rcases h.origin_cases hr with (h | h) | ⟨i, hi, h⟩ | ⟨i, hi, z, _, h⟩
  . rw [h]
    exact (Segment.serves_stepState g).not_generates
  . rw [h]
    exact (Segment.serves_growPart g (by decide)).not_generates
  . rw [h]
    exact hr.not_generates_findState hi
  . rw [h]
    exact hr.not_generates_applyState hi z

theorem read_ne_any (h : r.Prescribes A x) : x.read ≠ .any := by
  cases h with
  | entry mem =>
    simp only [Route.entry, List.mem_cons, List.not_mem_nil, or_false] at mem
    rcases mem with rfl | rfl <;> exact nofun
  | pass lt => exact nofun
  | found read => exact nofun
  | action write move mem =>
    simp only [Route.action, List.mem_append, List.mem_cons, List.not_mem_nil, or_false,
      List.mem_map] at mem
    rcases mem with (rfl | rfl | rfl | rfl) | ⟨c, _, rfl⟩ <;> exact nofun
  | record mem =>
    simp only [Route.record, List.mem_cons, List.not_mem_nil, or_false] at mem
    rcases mem with rfl | rfl | rfl <;> exact nofun

variable (hr : r.WellFormed g n) (hr' : r'.WellFormed g n)

include hr hr'

theorem cases_of_findState (h : r'.Prescribes A x) {i : Nat} (hi : i < n)
    (horigin : x.origin = r.findState i) :
    r'.origin = r.origin ∧ r'.reads.take i = r.reads.take i
      ∧ (x = .pass (r.findState i) (between A) .right (r.findState i)
        ∨ ∃ c, r'.reads[i]? = some c
          ∧ x = .replace (r.findState i) c.tagged c.tagged .right (r'.findState (i + 1))) := by
  cases h with
  | entry mem =>
    exfalso
    rcases origin_of_mem_entry mem with h | h
    . rw [hr'.guard, horigin] at h
      exact hr.ne_findState hi (Segment.serves_stepState g) h.symm
    . rw [hr'.guard, horigin] at h
      exact hr.ne_findState hi (Segment.serves_growPart g (by decide)) h.symm
  | @pass j lt =>
    rw [hr'.readsLength] at lt
    obtain ⟨rfl, heq, hreads⟩ := hr'.findState_inj hr lt hi horigin
    exact ⟨heq, hreads, .inl (by rw [← horigin]; rfl)⟩
  | @found j c read =>
    have hlt := length_of_getElem? read
    rw [hr'.readsLength] at hlt
    obtain ⟨rfl, heq, hreads⟩ := hr'.findState_inj hr hlt hi horigin
    exact ⟨heq, hreads, .inr ⟨c, read, by rw [← horigin]; rfl⟩⟩
  | action write move mem =>
    exfalso
    obtain ⟨z, _, h⟩ := origin_of_mem_action mem
    have hlt := length_of_getElem? write
    rw [hr'.writesLength] at hlt
    rw [horigin] at h
    exact hr.findState_ne_applyState hr' hi hlt h
  | record mem =>
    exfalso
    obtain ⟨z, _, h⟩ := origin_of_mem_record mem
    rw [horigin] at h
    exact hr.findState_ne_applyState hr' hi (Nat.zero_le n) h

theorem share_pass (h : r'.Prescribes A x) {i : Nat} (hi : i < n)
    (horigin : x.origin = r.findState i) :
    r'.Prescribes A (.pass (r.findState i) (between A) .right (r.findState i)) := by
  obtain ⟨heq, hreads, _⟩ := h.cases_of_findState hr hr' hi horigin
  rw [← hr'.findState_congr hr hi heq hreads]
  exact .pass (by rwa [hr'.readsLength])

theorem reads_of_serves (hA : ∀ c ∈ A.declared, c.IsLetter) (h : r'.Prescribes A x) {i : Nat}
    (hi : i < n) {c : Cell} (hc : c.IsLetter)
    (hserves : x.serves (r.findState i) c.tagged = true) :
    r'.origin = r.origin ∧ r'.reads.take i = r.reads.take i ∧ r'.reads[i]? = some c := by
  obtain ⟨horigin, hmatch⟩ := Directive.serves_eq_true_iff.mp hserves
  obtain ⟨heq, hreads, rfl | ⟨c', read, rfl⟩⟩ := h.cases_of_findState hr hr' hi horigin
  . exact absurd hmatch (not_matches_between hA c)
  . have hletter := (hr'.reads c' (List.mem_of_getElem? read)).1
    rw [← hc.eq_of_tagged hletter hmatch] at read
    exact ⟨heq, hreads, read⟩

theorem share_found (hA : ∀ c ∈ A.declared, c.IsLetter) (h : r'.Prescribes A x) {i : Nat}
    (hi : i + 1 < n) {c : Cell} (hread : r.reads[i]? = some c)
    (hserves : x.serves (r.findState i) c.tagged = true) :
    r'.Prescribes A (.replace (r.findState i) c.tagged c.tagged .right (r.findState (i + 1))) := by
  have hc := (hr.reads c (List.mem_of_getElem? hread)).1
  obtain ⟨heq, hreads, hread'⟩ := h.reads_of_serves hr hr' hA (Nat.lt_of_succ_lt hi) hc hserves
  have hnext : r'.reads.take (i + 1) = r.reads.take (i + 1) := by
    rw [List.take_add_one, List.take_add_one, hreads, hread, hread']
  rw [← hr'.findState_congr hr (Nat.lt_of_succ_lt hi) heq hreads,
    ← hr'.findState_congr hr hi heq hnext]
  exact .found hread'

theorem cases_of_applyState (h : r'.Prescribes A x) {i : Nat} (hi : i ≤ n) {z : String}
    (hz : z ∈ endings) (horigin : x.origin = r.applyState i ++ z) :
    r'.next = r.next ∧ r'.writes.take i = r.writes.take i ∧ r'.moves.take i = r.moves.take i := by
  rcases h.origin_cases hr' with (h | h) | ⟨j, hj, h⟩ | ⟨j, hj, z', hz', h⟩
  . rw [horigin] at h
    exact absurd h.symm (hr.ne_applyState hi z (Segment.serves_stepState g))
  . rw [horigin] at h
    exact absurd h.symm (hr.ne_applyState hi z (Segment.serves_growPart g (by decide)))
  . rw [horigin] at h
    exact absurd h.symm (hr'.findState_ne_applyState hr hj hi)
  . rw [horigin] at h
    obtain ⟨rfl, hnext, hwrites, hmoves, _⟩ := hr'.applyState_inj hr hj hi hz' hz h.symm
    exact ⟨hnext, hwrites, hmoves⟩

theorem share_action (h : r'.Prescribes A x) {i : Nat} (hi : i < n) {w : Cell} {m : Move}
    (hwrite : r.writes[i]? = some w) (hmove : r.moves[i]? = some m) {z : String} (hz : z ∈ endings)
    (horigin : x.origin = r.applyState (i + 1) ++ z) {y : Directive}
    (hy : y ∈ r.action A (i + 1) w m) : r'.Prescribes A y := by
  obtain ⟨hnext, hwrites, hmoves⟩ := h.cases_of_applyState hr hr' hi hz horigin
  have hearlier {α : Type} {xs ys : List α} (h : xs.take (i + 1) = ys.take (i + 1)) :
      xs.take i = ys.take i := by
    have := congrArg (List.take i) h
    rwa [List.take_take, List.take_take, Nat.min_eq_left (Nat.le_succ i)] at this
  have hlast {α : Type} {xs ys : List α} (h : xs.take (i + 1) = ys.take (i + 1)) :
      xs[i]? = ys[i]? := by
    have := congrArg (·[i]?) h
    simpa using this
  have hstate := hr'.applyState_congr hr hi hnext hwrites hmoves
  have hdone := hr'.applyState_congr hr (Nat.le_of_lt hi) hnext (hearlier hwrites)
    (hearlier hmoves)
  refine .action (by rw [hlast hwrites, hwrite]) (by rw [hlast hmoves, hmove]) ?_
  simp only [Route.action, tagState, Nat.add_sub_cancel] at hy ⊢
  rwa [hstate, hdone]

theorem share_record (h : r'.Prescribes A x) {z : String} (hz : z ∈ endings)
    (horigin : x.origin = r.applyState 0 ++ z) {y : Directive} (hy : y ∈ r.record A) :
    r'.Prescribes A y := by
  obtain ⟨hnext, _, _⟩ := h.cases_of_applyState hr hr' (Nat.zero_le n) hz horigin
  have hstate := hr'.applyState_congr hr (Nat.zero_le n) hnext rfl rfl
  apply Prescribes.record
  simp only [Route.record] at hy ⊢
  rwa [hstate, hnext, hr'.guard, ← hr.guard]

theorem share_entry (h : r'.Prescribes A x) (hn : 0 < n)
    (hserves : x.serves (Segment.stepState g) (.state r.origin) = true) {y : Directive}
    (hy : y ∈ r.entry) : r'.Prescribes A y := by
  obtain ⟨horigin, hmatch⟩ := Directive.serves_eq_true_iff.mp hserves
  have hstep := Segment.serves_stepState g
  have hname {q q' : String} (h : Cell.state q = Cell.state q') : q' = q := by
    simpa using h.symm
  cases h with
  | entry mem =>
    have heq : r'.origin = r.origin := by
      simp only [Route.entry, List.mem_cons, List.not_mem_nil, or_false] at mem
      rcases mem with rfl | rfl
      . exact hname hmatch
      . exact hname hmatch
    have hfind := hr'.findState_congr hr hn heq rfl
    apply Prescribes.entry
    simp only [Route.entry] at hy ⊢
    rwa [heq, hfind, hr'.guard, ← hr.guard]
  | pass lt =>
    rw [hr'.readsLength] at lt
    exact absurd horigin.symm (hr'.ne_findState lt hstep)
  | found read =>
    have hlt := length_of_getElem? read
    rw [hr'.readsLength] at hlt
    exact absurd horigin.symm (hr'.ne_findState hlt hstep)
  | action write move mem =>
    have hlt := length_of_getElem? write
    rw [hr'.writesLength] at hlt
    obtain ⟨z, _, h⟩ := origin_of_mem_action mem
    rw [horigin] at h
    exact absurd h (hr'.ne_applyState hlt z hstep)
  | record mem =>
    obtain ⟨z, _, h⟩ := origin_of_mem_record mem
    rw [horigin] at h
    exact absurd h (hr'.ne_applyState (Nat.zero_le n) z hstep)

end Prescribes

end Route

end TuringLowering
