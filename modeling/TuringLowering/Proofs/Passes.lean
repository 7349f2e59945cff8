import Mathlib.Data.List.Forall2
import Mathlib.Data.List.Induction
import TuringLowering.Proofs.Segments

/-!
This module contains the passes of the head over a shared tape by which one step is simulated: the heads
of all tapes are found, the actions are done, the next state is recorded, and segments are lengthened.
-/

namespace TuringLowering

namespace Draft

variable {d : Draft} {B : List Cell} {s s' s'' : String} {v v' v'' : View}

def Attains (d : Draft) (s : String) (v : View) (s' : String) (v' : View) : Prop :=
  s = s' ∧ v = v' ∨ d.Reaches s v s' v'

namespace Attains

theorem refl (d : Draft) (s : String) (v : View) : d.Attains s v s v := .inl ⟨rfl, rfl⟩

theorem trans (h : d.Attains s v s' v') (h' : d.Attains s' v' s'' v'') :
    d.Attains s v s'' v'' := by
  rcases h with ⟨rfl, rfl⟩ | h
  . exact h'
  . rcases h' with ⟨rfl, rfl⟩ | h'
    . exact .inr h
    . exact .inr (h.trans h')

theorem trans_reaches (h : d.Attains s v s' v') (h' : d.Reaches s' v' s'' v'') :
    d.Reaches s v s'' v'' := by
  rcases h with ⟨rfl, rfl⟩ | h
  . exact h'
  . exact h.trans h'

theorem sweep_right (cells : List Cell)
    (h : ∀ v : View, v.focus ∈ cells → d.Reaches s v s (v.move .right)) (l r : List Cell) :
    d.Attains s (.of l (cells ++ r)) s (.of (l ++ cells) r) := by
  induction cells generalizing l with
  | nil =>
    rw [List.nil_append, List.append_nil]
    exact refl d s _
  | cons c cells ih =>
    have hstep := h (.of l (c :: (cells ++ r))) (by simp)
    have hrest := ih (fun v hv => h v (.tail _ hv)) (l ++ [c])
    rw [View.move_right_of] at hstep
    rw [List.append_assoc, List.singleton_append] at hrest
    exact trans (.inr hstep) hrest

theorem sweep_left (cells : List Cell)
    (h : ∀ v : View, v.focus ∈ cells → d.Reaches s v s (v.move .left)) (l r : List Cell) :
    d.Attains s ((View.of (l ++ cells) r).move .left) s ((View.of l (cells ++ r)).move .left) := by
  induction cells using List.reverseRecOn generalizing r with
  | nil =>
    rw [List.nil_append, List.append_nil]
    exact refl d s _
  | append_singleton cells c ih =>
    have hstep := h (.of (l ++ cells) (c :: r)) (by simp)
    have hrest := ih (fun v hv => h v (List.mem_append_left _ hv)) (c :: r)
    rw [← List.append_assoc, View.move_left_of, List.append_assoc, List.singleton_append]
    exact trans (.inr hstep) hrest

end Attains

theorem Reaches.trans_attains (h : d.Reaches s v s' v') (h' : d.Attains s' v' s'' v'') :
    d.Reaches s v s'' v'' := by
  rcases h' with ⟨rfl, rfl⟩ | h'
  . exact h
  . exact h.trans h'

def Heeds (B : List Cell) (x : Directive) (d : Draft) : Prop :=
  ∀ v v', x.read.Matches v.focus → x.Works B v v' → d.Reaches x.origin v x.next v'

theorem Executed.heeds {g : Guard} {S : String → Prop} {xs : List Directive} {x : Directive}
    (h : d.Executed g B S xs) (hx : x ∈ xs) (hread : x.read ≠ .any)
    (hrunning : isTerminal x.origin = false) : d.Heeds B x :=
  fun _ _ hmatch hworks => h.reaches hx hread hmatch hrunning hworks

namespace Heeds

theorem pass {read : Pattern} {m : Move} (h : d.Heeds B (.pass s read m s')) {v : View}
    (hmatch : read.Matches v.focus) (hclear : v.Clear B m) : d.Reaches s v s' (v.move m) := by
  apply h v _ hmatch
  constructor
  . rw [Writing.onto, View.write_focus]
    exact hclear
  . rw [Writing.onto, View.write_focus]

theorem pass_right {read : Pattern} (h : d.Heeds B (.pass s read .right s')) {v : View}
    (hmatch : read.Matches v.focus) : d.Reaches s v s' (v.move .right) :=
  h.pass hmatch (View.clear_of_distance rfl)

theorem pass_left {read : Pattern} (h : d.Heeds B (.pass s read .left s')) {v : View}
    (hmatch : read.Matches v.focus) : d.Reaches s v s' (v.move .left) :=
  h.pass hmatch (View.clear_of_distance rfl)

theorem put {read : Pattern} {w : Cell} {m : Move} (h : d.Heeds B (.transition s read (.put w) m s'))
    {c : Cell} (hmatch : read.Matches c) (l : List Cell) {r : List Cell}
    (hclear : (View.of l (w :: r)).Clear B m) :
    d.Reaches s (.of l (c :: r)) s' ((View.of l (w :: r)).move m) := by
  apply h
  . rw [View.focus_of_cons]
    exact hmatch
  . constructor
    . rw [Writing.onto, View.write_of]
      exact hclear
    . rw [Writing.onto, View.write_of]

theorem replace_right {c c' : Cell} (h : d.Heeds B (.replace s c c' .right s')) (l r : List Cell) :
    d.Reaches s (.of l (c :: r)) s' (.of (l ++ [c']) r) := by
  have hput := h.put (c := c) rfl l (r := r) (View.clear_of_distance rfl)
  rwa [View.move_right_of] at hput

theorem replace_left {c c' : Cell} (h : d.Heeds B (.replace s c c' .left s')) (l r : List Cell) :
    d.Reaches s (.of l (c :: r)) s' ((View.of l (c' :: r)).move .left) :=
  h.put rfl l (View.clear_of_distance rfl)

end Heeds

end Draft

namespace Segment

variable {A : Alphabet} {t : Tape}

theorem matches_lead (ht : t.view.Within A.declared) :
    ∀ c ∈ t.lead, (Route.between A).Matches c := by
  intro c hc
  rcases List.mem_cons.mp hc with rfl | hc
  . simp [Route.between, Pattern.Matches]
  . have := Tape.mem_before ht (List.mem_reverse.mp hc)
    simp [Route.between, Pattern.Matches, this]

theorem matches_trail (ht : t.view.Within A.declared) :
    ∀ c ∈ t.trail, (Route.between A).Matches c := by
  intro c hc
  rcases List.mem_append.mp hc with hc | hc
  . have := Tape.mem_after ht hc
    simp [Route.between, Pattern.Matches, this]
  . rw [List.mem_singleton.mp hc]
    simp [Route.between, Pattern.Matches]

end Segment

namespace Route

structure Over (A : Alphabet) (r : Route) : Prop where
  reads : ∀ c ∈ r.reads, c ∈ A.declared
  writes : ∀ c ∈ r.writes, c ∈ A.declared
  moves : ∀ m ∈ r.moves, m.isLong = false

def onEach {α : Type} (r : Route) (f : Tape → Cell → Move → α) (ts : List Tape) : List α :=
  List.zipWith (fun (p : Cell × Move) t => f t p.1 p.2) (r.writes.zip r.moves) ts

def acted (r : Route) (ts : List Tape) : List Tape := r.onEach Tape.act ts

def segments (r : Route) (ts : List Tape) : List (List Cell) :=
  r.onEach (fun t w m => Segment.encode (t.snapshot.act w m)) ts

theorem onEach_concat {α : Type} {r : Route} (f : Tape → Cell → Move → α) (ts : List Tape) (t : Tape)
    {w : Cell} {m : Move} (hw : r.writes[ts.length]? = some w) (hm : r.moves[ts.length]? = some m) :
    r.onEach f (ts ++ [t]) = r.onEach f ts ++ [f t w m] := by
  have hzip : (r.writes.zip r.moves)[ts.length]? = some (w, m) := by
    rw [List.zip, List.getElem?_zipWith, hw, hm]
  have hlen : (r.onEach f ts).length = ts.length := by
    have := length_of_getElem? hzip
    rw [onEach, List.length_zipWith]
    omega
  apply List.ext_getElem?
  intro i
  rcases Nat.lt_trichotomy i ts.length with hi | rfl | hi
  . rw [List.getElem?_append_left (by rw [hlen]; exact hi)]
    unfold onEach
    rw [List.getElem?_zipWith, List.getElem?_zipWith, List.getElem?_append_left hi]
  . rw [List.getElem?_append_right (Nat.le_of_eq hlen), hlen, onEach, List.getElem?_zipWith, hzip]
    simp
  . have hle : (r.onEach f (ts ++ [t])).length ≤ ts.length + 1 := by
      rw [onEach, List.length_zipWith, List.length_append]
      exact Nat.min_le_right _ _
    rw [List.getElem?_eq_none (Nat.le_trans hle hi),
      List.getElem?_eq_none (by rw [List.length_append, hlen]; exact hi)]

theorem Over.shows {A : Alphabet} {r : Route} (h : r.Over A) (ts : List Tape) :
    List.Forall₂ Segment.Shows (r.acted ts) (r.segments ts) := by
  have hall : ∀ (ps : List (Cell × Move)), (∀ p ∈ ps, p.2.isLong = false) → ∀ ts : List Tape,
      List.Forall₂ Segment.Shows (List.zipWith (fun p t => t.act p.1 p.2) ps ts)
        (List.zipWith (fun p t => Segment.encode (t.snapshot.act p.1 p.2)) ps ts) := by
    intro ps
    induction ps with
    | nil => exact fun _ _ => .nil
    | cons p ps ih =>
      intro hps ts
      rw [List.forall_mem_cons] at hps
      cases ts with
      | nil => exact .nil
      | cons t ts => exact .cons (Segment.shows_act hps.1 _) (ih hps.2 ts)
  exact hall _ (fun p hp => h.moves _ (List.of_mem_zip hp).2) ts

section

variable {A : Alphabet} {g : Guard} {n : Nat} {r : Route} {d : Draft} (hA : A.IsSegmented)
  (hr : r.WellFormed g n) (hd : ∀ x, r.Prescribes A x → d.Heeds (Segment.cells A) x)

include hd

include hr in
theorem search_reaches (before : List Tape) (t : Tape) (behind : List Tape)
    (hlength : before.length < n)
    (hreads : r.reads.take before.length = before.map Tape.focus)
    (hwithin : ∀ u ∈ before ++ [t], u.view.Within A.declared) :
    d.Reaches (Segment.stepState g) (Segment.shared r.origin (before ++ t :: behind))
      (r.findState before.length)
      (.of ([.start, .blank] ++ before.flatMap Tape.segment ++ t.lead)
        (t.focus.tagged :: (t.trail ++ (behind.flatMap Tape.segment ++ [.afterLast])))) := by
  induction before using List.reverseRecOn generalizing t behind with
  | nil =>
    have hentry := hd _ (.entry (List.mem_cons_self ..))
    rw [hr.guard] at hentry
    have hpass := hd _ (.pass (i := 0) (by rw [hr.readsLength]; exact hlength))
    have hsweep := Draft.Attains.sweep_right (d := d) (s := r.findState 0) t.lead
      (fun v hv => hpass.pass_right (Segment.matches_lead (hwithin t (by simp)) _ hv))
      [.start, .blank] (t.focus.tagged :: (t.trail ++ (behind.flatMap Tape.segment ++ [.afterLast])))
    have hreaches := (hentry.replace_right [.start] _).trans_attains hsweep
    simpa [Segment.shared, Tape.segment] using hreaches
  | append_singleton before u ih =>
    rw [List.length_append, List.length_singleton] at hlength hreads ⊢
    have hread : r.reads[before.length]? = some u.focus := by
      have := congrArg (·[before.length]?) hreads
      simpa [List.getElem?_take] using this
    have hbefore := ih u (t :: behind) (by omega)
      (by
        have := congrArg (List.take before.length) hreads
        simpa [List.take_take] using this)
      (fun u' hu' => hwithin u' (List.mem_append_left _ hu'))
    have hfound := hd _ (.found hread)
    have hpass := hd _ (.pass (i := before.length + 1) (by rw [hr.readsLength]; exact hlength))
    have hsweep := Draft.Attains.sweep_right (d := d) (s := r.findState (before.length + 1))
      (u.trail ++ t.lead)
      (fun v hv => hpass.pass_right (by
        rcases List.mem_append.mp hv with hv | hv
        . exact Segment.matches_trail (hwithin u (by simp)) _ hv
        . exact Segment.matches_lead (hwithin t (by simp)) _ hv))
      ([.start, .blank] ++ before.flatMap Tape.segment ++ u.lead ++ [u.focus.tagged])
      (t.focus.tagged :: (t.trail ++ (behind.flatMap Tape.segment ++ [.afterLast])))
    rw [List.append_assoc, List.singleton_append]
    apply hbefore.trans
    apply (hfound.replace_right _ _).trans_attains
    simpa [Tape.segment, List.append_assoc] using hsweep

section

variable {i : Nat} {w : Cell} {m : Move} (hwrite : r.writes[i]? = some w)
  (hmove : r.moves[i]? = some m) (hw : w ∈ A.declared) (hm : m.isLong = false)

include hwrite hmove in
theorem tag_letter {c : Cell} (hc : c ∈ A.declared) (l rest : List Cell) :
    d.Reaches (r.tagState (i + 1)) (.of l (c :: rest)) (r.applyState i)
      ((View.of l (c.tagged :: rest)).move .left) := by
  have htag := hd (.replace (r.tagState (i + 1)) c c.tagged .left (r.applyState i))
    (.action hwrite hmove (List.mem_append_right _ (List.mem_map_of_mem hc)))
  exact htag.replace_left l rest

include hwrite hmove hw hm in
theorem tag_reaches {t : Tape} (ht : t.view.Within A.declared) (l rest : List Cell) :
    ∃ p q, Segment.encode (t.snapshot.act w m) = .boundLeft :: p ++ q ∧ (∀ c ∈ p, c ∈ A.declared)
      ∧ d.Reaches (r.tagState (i + 1)) ((View.of (l ++ t.lead) (w :: (t.trail ++ rest))).move m)
        (r.applyState i) ((View.of (l ++ .boundLeft :: p) (q ++ rest)).move .left) := by
  have hencode (hlast : ¬ (m = .right ∧ t.after = [])) :
      Segment.encode (t.snapshot.act w m) = (t.act w m).segment := by
    rw [Tape.snapshot_act hm hlast, Segment.encode_snapshot]
  obtain ⟨before, c, after⟩ := t
  have hbefore : ∀ c ∈ before.reverse, c ∈ A.declared :=
    fun c hc => Tape.mem_before ht (List.mem_reverse.mp hc)
  have hletter {c : Cell} (hc : c ∈ A.declared) := tag_letter hd hwrite hmove hc
  unfold Tape.lead Tape.trail
  rcases Move.cases_of_not_isLong hm with rfl | rfl | rfl
  . rw [hencode (by simp)]
    cases before with
    | nil =>
      -- The head was on the first cell: it gets to the boundary, and back.
      have hback := hd (.replace (r.tagState (i + 1)) .boundLeft .boundLeft .right (r.tagState (i + 1)))
        (.action hwrite hmove (by simp [action]))
      refine ⟨[], w.tagged :: (after ++ [.boundRight]), rfl, by simp, ?_⟩
      rw [List.reverse_nil, View.move_left_of]
      apply (hback.replace_right _ _).trans
      exact hletter hw _ _
    | cons b before =>
      refine ⟨before.reverse, b.tagged :: (w :: after ++ [.boundRight]), rfl, ?_, ?_⟩
      . intro c hc
        exact hbefore c (by simp at hc ⊢; simp [hc])
      . have hfocus := hletter (hbefore b (by simp)) (l ++ .boundLeft :: before.reverse)
          (w :: (after ++ [.boundRight] ++ rest))
        rw [List.reverse_cons, ← List.cons_append, ← List.append_assoc, View.move_left_of]
        simpa using hfocus
  . rw [hencode (by simp)]
    refine ⟨before.reverse, w.tagged :: (after ++ [.boundRight]), rfl, hbefore, ?_⟩
    rw [View.move_stay]
    exact hletter hw _ _
  . have hp : ∀ c ∈ before.reverse ++ [w], c ∈ A.declared := by
      intro c hc
      rcases List.mem_append.mp hc with hc | hc
      . exact hbefore c hc
      . rw [List.mem_singleton.mp hc]
        exact hw
    cases after with
    | nil =>
      -- The head was on the last cell: the boundary is tagged instead of a cell.
      have hbound := hd (.replace (r.tagState (i + 1)) .boundRight Cell.boundRight.tagged .left
        (r.applyState i)) (.action hwrite hmove (by simp [action]))
      refine ⟨before.reverse ++ [w], [Cell.boundRight.tagged], Segment.encode_act_right rfl w, hp, ?_⟩
      rw [View.move_right_of]
      have hfocus := hbound.replace_left (l ++ .boundLeft :: (before.reverse ++ [w])) rest
      simpa using hfocus
    | cons b after =>
      rw [hencode (by simp)]
      refine ⟨before.reverse ++ [w], b.tagged :: (after ++ [.boundRight]), ?_, hp, ?_⟩
      . simp [Tape.act_right_cons, Tape.segment, Tape.lead, Tape.trail]
      . rw [View.move_right_of]
        have hfocus := hletter (Tape.mem_after ht (.head _)) (l ++ .boundLeft :: (before.reverse ++ [w]))
          (after ++ [.boundRight] ++ rest)
        simpa using hfocus

include hA hwrite hmove hw hm in
theorem act_reaches {t : Tape} (ht : t.view.Within A.declared) (l : List Cell)
    {gap right rest : List Cell} (hgap : ∀ c ∈ gap, (between A).Matches c)
    (hright : gap ++ right = t.trail ++ rest) :
    ∃ p q, Segment.encode (t.snapshot.act w m) = .boundLeft :: p ++ q ∧ (∀ c ∈ p, c ∈ A.declared)
      ∧ d.Reaches (r.applyState (i + 1))
        ((View.of (l ++ t.lead ++ t.focus.tagged :: gap) right).move .left)
        (r.applyState i) ((View.of (l ++ .boundLeft :: p) (q ++ rest)).move .left) := by
  have hpass := hd (.pass (r.applyState (i + 1)) (between A) .left (r.applyState (i + 1)))
    (.action hwrite hmove (by simp [action]))
  have hact := hd (.transition (r.applyState (i + 1)) (.oneOf A.heads) (.put w) m (r.tagState (i + 1)))
    (.action hwrite hmove (by simp [action]))
  have hhead : (Pattern.oneOf A.heads).Matches t.focus.tagged := by
    rw [hA.heads]
    exact List.mem_map_of_mem (Tape.focus_mem ht)
  have hclear : (View.of (l ++ t.lead) (w :: (t.trail ++ rest))).Clear (Segment.cells A) m := by
    rcases Move.cases_of_not_isLong hm with rfl | rfl | rfl
    . exact View.clear_of_distance rfl
    . obtain ⟨c, cs, hcs⟩ := t.exists_trail
      have hc := Prescribes.mem_cells_of_between (Segment.matches_trail ht c (by simp [hcs]))
      rw [hcs]
      exact View.clear_of_stay _ _ hc _
    . exact View.clear_of_distance rfl
  obtain ⟨p, q, hsegment, hp, htag⟩ := tag_reaches hd hwrite hmove hw hm ht l rest
  refine ⟨p, q, hsegment, hp, ?_⟩
  have hsweep := Draft.Attains.sweep_left (d := d) _ (fun v hv => hpass.pass_left (hgap _ hv))
    (l ++ t.lead ++ [t.focus.tagged]) right
  rw [View.move_left_of, hright, List.append_assoc, List.singleton_append] at hsweep
  apply hsweep.trans_reaches
  exact (hact.put hhead (l ++ t.lead) hclear).trans htag

end

include hr in
theorem record_reaches {p : List Cell} (hp : ∀ c ∈ p, c ∈ A.declared) (right : List Cell) :
    d.Reaches (r.applyState 0) ((View.of ([.start, .blank] ++ .boundLeft :: p) right).move .left)
      (Segment.growState g) (.of [.start, .state r.next] (.boundLeft :: p ++ right)) := by
  have hback := hd (.pass (r.applyState 0) (.oneOf A.declared) .left (r.applyState 0))
    (.record (by simp [record]))
  have hfront := hd (.replace (r.applyState 0) .boundLeft .boundLeft .left (r.applyState 0 ++ "-doRecord"))
    (.record (by simp [record]))
  have hrecord := hd (.replace (r.applyState 0 ++ "-doRecord") .blank (.state r.next) .right
    (Segment.growState g)) (.record (by simp [record, hr.guard]))
  have hsweep := Draft.Attains.sweep_left (d := d) _ (fun v hv => hback.pass_left (hp _ hv))
    ([.start, .blank] ++ [.boundLeft]) right
  rw [View.move_left_of, List.append_assoc, List.singleton_append] at hsweep
  apply hsweep.trans_reaches
  apply (hfront.replace_left [.start, .blank] (p ++ right)).trans
  exact hrecord.replace_right [.start] (.boundLeft :: (p ++ right))

variable (hover : r.Over A)

include hA hr hover

theorem acts_reaches (before : List Tape) (t : Tape) (hlength : before.length < n)
    (hwithin : ∀ u ∈ before ++ [t], u.view.Within A.declared) (gap right rest : List Cell)
    (hgap : ∀ c ∈ gap, (between A).Matches c) (hright : gap ++ right = t.trail ++ rest) :
    ∃ p q, (r.segments (before ++ [t])).flatten = .boundLeft :: p ++ q ∧ (∀ c ∈ p, c ∈ A.declared)
      ∧ d.Reaches (r.applyState (before.length + 1))
        ((View.of ([.start, .blank] ++ before.flatMap Tape.segment ++ t.lead
          ++ t.focus.tagged :: gap) right).move .left)
        (r.applyState 0) ((View.of ([.start, .blank] ++ .boundLeft :: p) (q ++ rest)).move .left) := by
  induction before using List.reverseRecOn generalizing t gap right rest with
  | nil =>
    obtain ⟨w, hw⟩ : ∃ w, r.writes[0]? = some w :=
      ⟨_, List.getElem?_eq_getElem (by rw [hr.writesLength]; exact hlength)⟩
    obtain ⟨m, hm⟩ : ∃ m, r.moves[0]? = some m :=
      ⟨_, List.getElem?_eq_getElem (by rw [hr.movesLength]; exact hlength)⟩
    obtain ⟨p, q, hsegment, hp, hreaches⟩ := act_reaches hA hd hw hm
      (hover.writes _ (List.mem_of_getElem? hw)) (hover.moves _ (List.mem_of_getElem? hm))
      (hwithin t (by simp)) [.start, .blank] hgap hright
    refine ⟨p, q, ?_, hp, by simpa using hreaches⟩
    rw [segments, onEach_concat _ [] t hw hm, hsegment]
    simp [onEach]
  | append_singleton before u ih =>
    rw [List.length_append, List.length_singleton] at hlength ⊢
    obtain ⟨w, hw⟩ : ∃ w, r.writes[(before ++ [u]).length]? = some w :=
      ⟨_, List.getElem?_eq_getElem (by simpa [hr.writesLength] using hlength)⟩
    obtain ⟨m, hm⟩ : ∃ m, r.moves[(before ++ [u]).length]? = some m :=
      ⟨_, List.getElem?_eq_getElem (by simpa [hr.movesLength] using hlength)⟩
    obtain ⟨p, q, hsegment, hp, hreaches⟩ := act_reaches hA hd hw hm
      (hover.writes _ (List.mem_of_getElem? hw)) (hover.moves _ (List.mem_of_getElem? hm))
      (hwithin t (by simp)) ([.start, .blank] ++ (before ++ [u]).flatMap Tape.segment) hgap hright
    obtain ⟨p', q', hflatten, hp', hreaches'⟩ := ih u (by omega)
      (fun u' hu' => hwithin u' (List.mem_append_left _ hu')) (u.trail ++ .boundLeft :: p) (q ++ rest)
      (.boundLeft :: p ++ (q ++ rest))
      (by
        intro c hc
        rcases List.mem_append.mp hc with hc | hc
        . exact Segment.matches_trail (hwithin u (by simp)) c hc
        . rcases List.mem_cons.mp hc with rfl | hc
          . simp [between, Pattern.Matches]
          . simp [between, Pattern.Matches, hp c hc])
      (by simp)
    refine ⟨p', q' ++ (.boundLeft :: p ++ q), ?_, hp', ?_⟩
    . rw [segments, onEach_concat _ _ t hw hm, ← segments, List.flatten_append, hflatten, hsegment]
      simp
    . rw [List.length_append, List.length_singleton] at hreaches
      apply hreaches.trans
      simpa [Tape.segment, List.append_assoc] using hreaches'

/-- The step of a route that was made for the cells under the heads, up to the check of segments. -/
theorem step_reaches {ts : List Tape} (hn : 0 < n) (hreads : r.reads = ts.map Tape.focus)
    (hwithin : ∀ t ∈ ts, t.view.Within A.declared) :
    d.Reaches (Segment.stepState g) (Segment.shared r.origin ts) (Segment.growState g)
      (.of [.start, .state r.next] ((r.segments ts).flatten ++ [.afterLast])) := by
  have hlength : ts.length = n := by rw [← hr.readsLength, hreads, List.length_map]
  obtain ⟨before, t, rfl⟩ : ∃ before t, ts = before ++ [t] := by
    rcases List.eq_nil_or_concat' ts with rfl | hts
    . rw [List.length_nil] at hlength
      omega
    . exact hts
  rw [List.length_append, List.length_singleton] at hlength
  have hread : r.reads[before.length]? = some t.focus := by simp [hreads]
  have hsearch := search_reaches hr hd before t [] (by omega) (by simp [hreads])
    hwithin
  have hfound := hd _ (.found hread)
  obtain ⟨c, cs, hcs⟩ := t.exists_trail
  have hlast : r.findState (before.length + 1) = r.applyState (before.length + 1) := by
    rw [findState, if_pos (by rw [hr.readsLength, hlength])]
  obtain ⟨p, q, hflatten, hp, hacts⟩ := acts_reaches hA hr hd hover before
    t (by omega) hwithin [c] (cs ++ [.afterLast]) [.afterLast]
    (by
      intro x hx
      rw [List.mem_singleton.mp hx]
      exact Segment.matches_trail (hwithin t (by simp)) c (by simp [hcs]))
    (by simp [hcs])
  have hrecord := record_reaches hr hd hp (q ++ [.afterLast])
  rw [← List.append_assoc, ← hflatten] at hrecord
  refine (hsearch.trans ?_).trans (hacts.trans hrecord)
  have hstep := hfound.replace_right
    ([.start, .blank] ++ before.flatMap Tape.segment ++ t.lead) (t.trail ++ [.afterLast])
  have hturn := View.move_left_of ([.start, .blank] ++ before.flatMap Tape.segment ++ t.lead
    ++ [t.focus.tagged]) c (cs ++ [.afterLast])
  rw [List.append_assoc, List.singleton_append] at hturn
  rw [hturn]
  rw [hlast, hcs] at hstep
  rw [hcs]
  exact hstep

end

end Route

namespace Segment

/-- The cells over which the check of segments goes. -/
def content (A : Alphabet) : List Cell := A.declared ++ A.heads ++ [.boundLeft, .boundRight]

section

variable {A : Alphabet} {t : Tape} (hA : A.HasHeads) (ht : t.view.Within A.declared)

theorem mem_content_of_between {c : Cell} (h : (Route.between A).Matches c) : c ∈ content A := by
  simp only [Route.between, Pattern.Matches, List.mem_append] at h
  simp only [content, List.mem_append]
  tauto

theorem mem_cells_of_content {c : Cell} (h : c ∈ content A) : c ∈ cells A := by
  simp only [content, List.mem_append, List.mem_cons] at h
  simp only [cells, List.mem_append, List.mem_cons]
  tauto

include hA in
theorem ne_onBound_of_content {c : Cell} (h : c ∈ content A) : c ≠ Cell.boundRight.tagged := by
  rintro rfl
  simp only [content, hA.heads, List.mem_append, List.mem_map, List.mem_cons, List.not_mem_nil,
    or_false] at h
  rcases h with (h | ⟨c, hc, heq⟩) | h
  . cases (hA.letters _ h).head
  . rcases hA.letters _ hc with ⟨char, rfl⟩ | rfl
    . cases heq
    . cases heq
  . rcases h with h | h
    . cases h
    . cases h

include hA ht in
theorem mem_content_segment : ∀ c ∈ t.segment, c ∈ content A := by
  intro c hc
  rcases List.mem_append.mp hc with hc | hc
  . exact mem_content_of_between (matches_lead ht c hc)
  . rcases List.mem_cons.mp hc with rfl | hc
    . apply List.mem_append_left
      apply List.mem_append_right
      rw [hA.heads]
      exact List.mem_map_of_mem (Tape.focus_mem ht)
    . exact mem_content_of_between (matches_trail ht c hc)

include hA ht in
theorem Shows.mem_content {cs : List Cell} (h : Shows t cs) :
    ∀ c ∈ cs, c ∈ content A ++ [Cell.boundRight.tagged] := by
  intro c hc
  cases h with
  | settled => exact List.mem_append_left _ (mem_content_segment hA ht c hc)
  | overrun =>
    rcases List.mem_append.mp hc with hc | hc
    . exact List.mem_append_left _ (mem_content_of_between (matches_lead ht c hc))
    . exact List.mem_append_right _ hc

end

theorem mem_content_of_shows {A : Alphabet} (hA : A.HasHeads) {ts : List Tape}
    {segments : List (List Cell)} (hts : ∀ t ∈ ts, t.view.Within A.declared)
    (h : List.Forall₂ Shows ts segments) :
    ∀ c ∈ segments.flatten, c ∈ content A ++ [Cell.boundRight.tagged] := by
  induction h with
  | nil => simp
  | cons hshow _ ih =>
    intro c hc
    rcases List.mem_append.mp hc with hc | hc
    . exact hshow.mem_content hA (hts _ (.head _)) c hc
    . exact ih (fun t ht => hts t (.tail _ ht)) c hc

theorem flatten_eq_of_shows {ts : List Tape} {segments : List (List Cell)}
    (h : List.Forall₂ Shows ts segments) (hmem : Cell.boundRight.tagged ∉ segments.flatten) :
    segments.flatten = ts.flatMap Tape.segment := by
  induction h with
  | nil => rfl
  | cons hshow _ ih =>
    rw [List.flatten_cons, List.mem_append, not_or] at hmem
    rw [List.flatten_cons, List.flatMap_cons, ih hmem.2]
    cases hshow with
    | settled => rfl
    | overrun => simp at hmem

section

variable {A : Alphabet} {g : Guard} {d : Draft} (hA : A.HasHeads)
  (hd : ∀ x ∈ growth g A, x.read ≠ .any → d.Heeds (cells A) x)
  (hinsert : ∀ v v', v.focus ∈ cells A →
    Build.InsertsAfter (cells A) Cell.boundRight.tagged .boundRight v v' →
    d.Reaches (growPart g "foundToGrab") v (growPart g "justInserted") v')

include hA hd hinsert

theorem grab_reaches {l xs : List Cell} (left right : List Cell)
    (hxs : ∀ c ∈ xs, c ∈ content A ++ [Cell.boundRight.tagged])
    (hsplit : l ++ xs = left ++ Cell.boundRight.tagged :: right) (hright : ∀ c ∈ right, c ∈ content A)
    (hhead : right = [] ∨ ∃ cs, right = .boundLeft :: cs) :
    d.Reaches (growPart g "findToGrab") (.of l (xs ++ [.afterLast])) (growPart g "done")
      ((View.of left (Cell.blank.tagged :: .boundRight :: (right ++ [.afterLast]))).move .left) := by
  have hseek := hd (.pass (growPart g "findToGrab") (.oneOf (content A ++ [Cell.boundRight.tagged]))
    .right (growPart g "findToGrab")) (by simp [growth, content]) (Pattern.oneOf_ne_any _)
  have hend := hd (.replace (growPart g "findToGrab") .afterLast .afterLast .stay
    (growPart g "foundToGrab")) (by simp [growth]) (Pattern.cell_ne_any _)
  have hback := hd (.pass (growPart g "justInserted") (.oneOf [.boundLeft, .afterLast]) (.leftBy 2)
    (growPart g "nowMakeEmptyHead")) (by simp [growth]) (Pattern.oneOf_ne_any _)
  have htag := hd (.replace (growPart g "nowMakeEmptyHead") Cell.boundRight.tagged Cell.blank.tagged
    .left (growPart g "done")) (by simp [growth]) (Pattern.cell_ne_any _)
  have hafterLast : Cell.afterLast ∈ cells A := by simp [cells]
  have hboundRight : Cell.boundRight ∈ cells A := by simp [cells]
  have hsweep := Draft.Attains.sweep_right (d := d) _ (fun v hv => hseek.pass_right (hxs _ hv)) l
    [.afterLast]
  apply hsweep.trans_reaches
  rw [hsplit]
  have hstay := hend.put (c := .afterLast) rfl (left ++ Cell.boundRight.tagged :: right)
    (View.clear_of_stay _ _ (Alphabet.mem_cells_of_declared hA.blank) [])
  have hbehind := View.of_append_blank (left ++ Cell.boundRight.tagged :: right) [.afterLast]
  rw [List.singleton_append] at hbehind
  rw [View.move_stay, hbehind] at hstay
  apply hstay.trans
  have hworks : Build.InsertsAfter (cells A) Cell.boundRight.tagged .boundRight
      (.of (left ++ Cell.boundRight.tagged :: right) [.afterLast])
      (.of (left ++ [Cell.boundRight.tagged, .boundRight]) (right ++ [.afterLast])) := by
    apply Build.insertsAfter_of
    . intro x hx
      rcases List.mem_append.mp hx with hx | hx
      . exact ⟨mem_cells_of_content (hright x hx), ne_onBound_of_content hA (hright x hx)⟩
      . rw [List.mem_singleton.mp hx]
        exact ⟨hafterLast, by decide⟩
    . simp
  apply (hinsert _ _ (by simpa using hafterLast) hworks).trans
  have hfocus : (Pattern.oneOf [.boundLeft, .afterLast]).Matches
      (View.of (left ++ [Cell.boundRight.tagged, .boundRight]) (right ++ [.afterLast])).focus := by
    rcases hhead with rfl | ⟨cs, rfl⟩
    . simp [Pattern.Matches]
    . simp [Pattern.Matches]
  have hclear : (View.of (left ++ [Cell.boundRight.tagged, .boundRight])
      (right ++ [.afterLast])).Clear (cells A) (.leftBy 2) := by
    apply View.clear_of_left left
    . rfl
    . simpa using hboundRight
  have hmove : (View.of (left ++ [Cell.boundRight.tagged, .boundRight])
      (right ++ [.afterLast])).move (.leftBy 2)
      = .of left (Cell.boundRight.tagged :: .boundRight :: (right ++ [.afterLast])) :=
    View.move_of_left left rfl _
  have hturn := hback.pass hfocus hclear
  rw [hmove] at hturn
  apply hturn.trans
  exact htag.replace_left left _

theorem grab_one_reaches {t : Tape} (ht : t.view.Within A.declared) (hfocus : t.focus = .blank)
    (hafter : t.after = []) (left : List Cell) {l xs right : List Cell}
    (hxs : ∀ c ∈ xs, c ∈ content A ++ [Cell.boundRight.tagged])
    (hsplit : l ++ xs = left ++ (t.lead ++ [Cell.boundRight.tagged]) ++ right)
    (hright : ∀ c ∈ right, c ∈ content A) (hhead : right = [] ∨ ∃ cs, right = .boundLeft :: cs) :
    d.Reaches (growPart g "findToGrab") (.of l (xs ++ [.afterLast])) (growPart g "done")
      ((View.of left (t.segment ++ (right ++ [.afterLast]))).move .left) := by
  have hpass := hd (.pass (growPart g "done") (.oneOf (content A)) .left (growPart g "done"))
    (by simp [growth, content]) (Pattern.oneOf_ne_any _)
  have hgrab := grab_reaches hA hd hinsert (left ++ t.lead) right hxs
    (by simpa using hsplit) hright hhead
  have hsweep := Draft.Attains.sweep_left (d := d) _
    (fun v hv => hpass.pass_left (mem_content_of_between (matches_lead ht _ hv))) left
    (Cell.blank.tagged :: .boundRight :: (right ++ [.afterLast]))
  have hsegment : t.segment = t.lead ++ [Cell.blank.tagged, .boundRight] := by
    rw [Tape.segment, hfocus, Tape.trail, hafter]
    rfl
  rw [hsegment, List.append_assoc]
  exact hgrab.trans_attains hsweep

theorem lengthen_attains {t : Tape} {cs : List Cell} (ht : t.view.Within A.declared)
    (hshows : Shows t cs) (left right : List Cell) (hright : ∀ c ∈ right, c ∈ content A)
    (hhead : right = [] ∨ ∃ cs, right = .boundLeft :: cs) :
    d.Attains (growPart g "done") ((View.of (left ++ cs) (right ++ [.afterLast])).move .left)
      (growPart g "done") ((View.of left (t.segment ++ (right ++ [.afterLast]))).move .left) := by
  cases hshows with
  | settled =>
    have hpass := hd (.pass (growPart g "done") (.oneOf (content A)) .left (growPart g "done"))
      (by simp [growth, content]) (Pattern.oneOf_ne_any _)
    exact Draft.Attains.sweep_left (d := d) _
      (fun v hv => hpass.pass_left (mem_content_segment hA ht _ hv)) left _
  | overrun hfocus hafter =>
    have hfound := hd (.replace (growPart g "done") Cell.boundRight.tagged Cell.boundRight.tagged
      .right (growPart g "findToGrab")) (by simp [growth]) (Pattern.cell_ne_any _)
    rw [← List.append_assoc, View.move_left_of]
    apply Draft.Attains.trans (.inr (hfound.replace_right _ _))
    exact .inr (grab_one_reaches hA hd hinsert ht hfocus hafter left
      (fun c hc => List.mem_append_left _ (hright c hc)) (by simp) hright hhead)

theorem lengthen_all_attains {ts : List Tape} {segments : List (List Cell)}
    (hts : ∀ t ∈ ts, t.view.Within A.declared) (hshows : List.Forall₂ Shows ts segments)
    (left right : List Cell) (hright : ∀ c ∈ right, c ∈ content A)
    (hhead : right = [] ∨ ∃ cs, right = .boundLeft :: cs) :
    d.Attains (growPart g "done")
      ((View.of (left ++ segments.flatten) (right ++ [.afterLast])).move .left)
      (growPart g "done")
      ((View.of left (ts.flatMap Tape.segment ++ (right ++ [.afterLast]))).move .left) := by
  induction hshows generalizing left with
  | nil => simpa using Draft.Attains.refl d _ _
  | @cons t cs ts segments hshow hshows ih =>
    have hrest := ih (fun u hu => hts u (.tail _ hu)) (left ++ cs)
    have hone := lengthen_attains hA hd hinsert (hts t (.head _)) hshow left
      (ts.flatMap Tape.segment ++ right)
      (by
        intro c hc
        rcases List.mem_append.mp hc with hc | hc
        . obtain ⟨u, hu, hc⟩ := List.mem_flatMap.mp hc
          exact mem_content_segment hA (hts u (.tail _ hu)) c hc
        . exact hright c hc)
      (by
        cases ts with
        | nil => exact hhead
        | cons u ts => exact .inr ⟨_, rfl⟩)
    rw [List.flatten_cons, ← List.append_assoc left, List.flatMap_cons]
    apply hrest.trans
    simpa [List.append_assoc] using hone

theorem grab_all_reaches {ts : List Tape} {segments : List (List Cell)}
    (hts : ∀ t ∈ ts, t.view.Within A.declared) (hshows : List.Forall₂ Shows ts segments)
    (hmem : Cell.boundRight.tagged ∈ segments.flatten) (left : List Cell) {l xs : List Cell}
    (hxs : ∀ c ∈ xs, c ∈ content A ++ [Cell.boundRight.tagged])
    (hsplit : l ++ xs = left ++ segments.flatten) :
    d.Reaches (growPart g "findToGrab") (.of l (xs ++ [.afterLast])) (growPart g "done")
      ((View.of left (ts.flatMap Tape.segment ++ [.afterLast])).move .left) := by
  induction hshows generalizing left with
  | nil => simp at hmem
  | @cons t cs ts segments hshow hshows ih =>
    have htail : ∀ u ∈ ts, u.view.Within A.declared := fun u hu => hts u (.tail _ hu)
    have hright : ∀ c ∈ ts.flatMap Tape.segment, c ∈ content A := by
      intro c hc
      obtain ⟨u, hu, hc⟩ := List.mem_flatMap.mp hc
      exact mem_content_segment hA (htail u hu) c hc
    have hhead : ts.flatMap Tape.segment = [] ∨ ∃ cs, ts.flatMap Tape.segment = .boundLeft :: cs := by
      cases ts with
      | nil => exact .inl rfl
      | cons u ts => exact .inr ⟨_, rfl⟩
    have hone := lengthen_attains hA hd hinsert (hts t (.head _)) hshow left _ hright hhead
    rw [List.flatten_cons, ← List.append_assoc] at hsplit
    rw [List.flatMap_cons, List.append_assoc]
    by_cases hlater : Cell.boundRight.tagged ∈ segments.flatten
    . -- A later segment gets its cell first.
      exact (ih htail hlater (left ++ cs) hsplit).trans_attains hone
    . rw [flatten_eq_of_shows hshows hlater] at hsplit
      rw [List.flatten_cons, List.mem_append, or_iff_left hlater] at hmem
      cases hshow with
      | settled =>
        cases ne_onBound_of_content hA (mem_content_segment hA (hts t (.head _)) _ hmem) rfl
      | overrun hfocus hafter =>
        exact grab_one_reaches hA hd hinsert (hts t (.head _)) hfocus hafter left hxs hsplit hright
          hhead

/-- The check of segments, up to where the name of the state is read. -/
theorem grow_reaches {q : String} {ts : List Tape} {segments : List (List Cell)} (hne : ts ≠ [])
    (hts : ∀ t ∈ ts, t.view.Within A.declared) (hshows : List.Forall₂ Shows ts segments) :
    d.Reaches (growState g) (.of [.start, .state q] (segments.flatten ++ [.afterLast]))
      (growPart g "done") (shared q ts) := by
  have hbegin := hd (.replace (growState g) .boundLeft .boundLeft .right (growPart g "search"))
    (by simp [growth]) (Pattern.cell_ne_any _)
  have hpass := hd (.pass (growPart g "search") (.oneOf (content A)) .right (growPart g "search"))
    (by simp [growth, content]) (Pattern.oneOf_ne_any _)
  have hend := hd (.replace (growPart g "search") .afterLast .afterLast .left (growPart g "done"))
    (by simp [growth]) (Pattern.cell_ne_any _)
  have hfound := hd (.replace (growPart g "search") Cell.boundRight.tagged Cell.boundRight.tagged .right
    (growPart g "findToGrab")) (by simp [growth]) (Pattern.cell_ne_any _)
  have hcells := mem_content_of_shows hA hts hshows
  obtain ⟨cs, hcs⟩ : ∃ cs, segments.flatten = .boundLeft :: cs := by
    cases hshows with
    | nil => cases hne rfl
    | cons hshow _ =>
      cases hshow with
      | settled => exact ⟨_, rfl⟩
      | overrun => exact ⟨_, rfl⟩
  have hshared : shared q ts
      = (View.of [.start, .state q] (ts.flatMap Tape.segment ++ [.afterLast])).move .left :=
    (View.move_left_of [.start] _ _).symm
  rw [hshared, hcs, List.cons_append]
  apply (hbegin.replace_right [.start, .state q] (cs ++ [Cell.afterLast])).trans
  by_cases hmem : Cell.boundRight.tagged ∈ segments.flatten
  . rw [hcs, List.mem_cons, or_iff_right (by decide)] at hmem
    obtain ⟨xs, ys, rfl, hxs⟩ := List.eq_append_cons_of_mem hmem
    have hsweep := Draft.Attains.sweep_right (d := d) xs
      (fun v hv => hpass.pass_right (by
        have := hcells v.focus (by simp [hcs, hv])
        rcases List.mem_append.mp this with h | h
        . exact h
        . rw [← List.mem_singleton.mp h] at hxs
          cases hxs hv))
      [.start, .state q, .boundLeft] (Cell.boundRight.tagged :: ys ++ [.afterLast])
    rw [List.append_assoc]
    apply hsweep.trans_reaches
    apply (hfound.replace_right _ (ys ++ [Cell.afterLast])).trans
    apply grab_all_reaches hA hd hinsert hts hshows (by simp [hcs])
    . intro c hc
      exact hcells c (by simp [hcs, hc])
    . simp [hcs]
  . have hsweep := Draft.Attains.sweep_right (d := d) cs
      (fun v hv => hpass.pass_right (by
        have := hcells v.focus (by simp [hcs, hv])
        rcases List.mem_append.mp this with h | h
        . exact h
        . rw [← List.mem_singleton.mp h, hcs] at hmem
          cases hmem (.tail _ hv)))
      [.start, .state q, .boundLeft] [.afterLast]
    have hback := lengthen_all_attains hA hd hinsert hts hshows [.start, .state q] []
      (List.forall_mem_nil _) (.inl rfl)
    apply hsweep.trans_reaches
    rw [hcs] at hback
    exact (hend.replace_left _ []).trans_attains hback

end

end Segment

end TuringLowering
