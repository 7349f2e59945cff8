import TuringLowering.Proofs.Operation
import TuringLowering.Proofs.Written

/-!
This module contains the proof that it makes no difference when the guard is widened: a draft whose
guard grew on the way is the draft that was made with the final guard from the beginning.
-/

namespace TuringLowering

def RequestError.mapNames (f : String → String) : RequestError → RequestError
  | .rule state cause => .rule (f state) (cause.mapNames f)
  | e => e

def Writing.mapNames (f : String → String) : Writing → Writing
  | .put c => .put (c.mapNames f)
  | .keep => .keep

namespace Writing

variable (f : String → String)

@[simp]
theorem onto_mapNames (w : Writing) (c : Cell) :
    (w.mapNames f).onto (c.mapNames f) = (w.onto c).mapNames f := by
  cases w <;> rfl

@[simp]
theorem action_mapNames (w : Writing) (m : Move) :
    (w.mapNames f).action m = (w.action m).mapNames f := by
  cases w <;> rfl

@[simp]
theorem mapNames_beq_keep (w : Writing) : (w.mapNames f == .keep) = (w == .keep) := by
  cases w <;> rfl

end Writing

def Gadget.mapNames (f : String → String) : Gadget → Gadget
  | .shift m => .shift m
  | .markFirst marker => .markFirst (marker.mapNames f)
  | .insertAfter marker insert => .insertAfter (marker.mapNames f) (insert.mapNames f)

def Gadget.Clean : Gadget → Prop
  | .shift _ => True
  | .markFirst marker => Guard.Clean marker.display
  | .insertAfter marker insert => Guard.Clean marker.display ∧ Guard.Clean insert.display

instance (g : Gadget) : Decidable g.Clean := by
  cases g <;> unfold Gadget.Clean <;> infer_instance

theorem Gadget.mapNames_of_clean {x : Gadget} {g g' : Guard} (h : x.Clean) :
    x.mapNames (g.rename g') = x := by
  cases x with
  | shift m => rfl
  | markFirst marker => rw [mapNames, Cell.mapNames_of_clean h]
  | insertAfter marker insert =>
    rw [mapNames, Cell.mapNames_of_clean h.1, Cell.mapNames_of_clean h.2]

def Directive.mapNames (f : String → String) : Directive → Directive
  | .transition origin read w m next =>
    .transition (f origin) (read.mapNames f) (w.mapNames f) m (f next)
  | .gadget origin read g next => .gadget (f origin) (read.mapNames f) (g.mapNames f) (f next)

theorem ChainKey.mapNames_injective {f : String → String} (hf : Function.Injective f) :
    Function.Injective (ChainKey.mapNames f) := by
  intro k k' h
  simp only [mapNames, mk.injEq] at h
  cases k
  cases k'
  simp only [mk.injEq]
  exact ⟨h.1, (List.map_inj_right fun _ _ heq => hf heq).mp h.2⟩

def Directive.Clean : Directive → Prop
  | .transition _ _ _ _ _ => True
  | .gadget _ read x _ => Guard.Clean read.display ∧ x.Clean

/-- A draft with a given guard, in which guard characters stand in names of states only. -/
structure Draft.Plain (g : Guard) (d : Draft) : Prop where
  guard : d.guard = g
  declared : ∀ c ∈ d.alphabet.declared, Guard.Clean c.display
  heads : ∀ c ∈ d.alphabet.heads, Guard.Clean c.display
  symbols : ∀ c ∈ d.alphabet.symbols, Guard.Clean c.display ∨ ∃ name, c = .state name

namespace Segment

variable {g g' : Guard}

theorem rename_stepState : g.rename g' (stepState g) = stepState g' := by
  unfold stepState
  rw [Guard.rename_append_of_clean _ (by decide), Guard.rename_text]

theorem rename_growState : g.rename g' (growState g) = growState g' := by
  unfold growState
  rw [Guard.rename_append_of_clean _ (by decide), Guard.rename_text]

theorem rename_growPart {part : String} (h : Guard.Clean part) :
    g.rename g' (growPart g part) = growPart g' part := by
  unfold growPart
  rw [Guard.rename_append_of_clean _ h, Guard.rename_append_of_clean _ (by decide),
    rename_growState]

theorem rename_layoutPart {part : String} (h : Guard.Clean part) :
    g.rename g' (layoutPart g part) = layoutPart g' part := by
  unfold layoutPart
  rw [Guard.rename_append_of_clean _ h, Guard.rename_append_of_clean _ (by decide),
    Guard.rename_text]

theorem map_layout (start first : String) (count : Nat) {declared : List Cell}
    (h : ∀ c ∈ declared, Guard.Clean c.display) :
    (layout g start first count declared).map (Directive.mapNames (g.rename g'))
      =
    layout g' (g.rename g' start) (g.rename g' first) count declared := by
  simp (disch := decide) only [layout, List.map_append, List.map_cons, List.map_nil, List.map_map,
    Directive.mapNames, Pattern.mapNames, Writing.mapNames, Gadget.mapNames, rename_layoutPart,
    Cell.mapNames_atom, Cell.mapNames_tagged, Mark.mapNames]
  rw [List.append_right_inj]
  apply List.map_congr_left
  intro c hc
  simp (disch := decide) only [Function.comp, Directive.mapNames, Pattern.mapNames,
    Writing.mapNames, Cell.mapNames_tagged, Cell.mapNames_of_clean (h c hc), rename_layoutPart,
    rename_stepState]

theorem map_growth {alphabet : Alphabet} (hdeclared : ∀ c ∈ alphabet.declared, Guard.Clean c.display)
    (hheads : ∀ c ∈ alphabet.heads, Guard.Clean c.display) :
    (growth g alphabet).map (Directive.mapNames (g.rename g')) = growth g' alphabet := by
  simp (disch := decide) only [growth, List.map_append, List.map_cons, List.map_nil, List.map_map,
    Directive.mapNames, Pattern.mapNames, Writing.mapNames, Gadget.mapNames, rename_growPart,
    rename_growState, Cell.mapNames_atom, Cell.mapNames_tagged, Mark.mapNames,
    Cell.map_mapNames_of_clean hdeclared, Cell.map_mapNames_of_clean hheads]
  rw [List.append_right_inj]
  apply List.map_congr_left
  intro v _
  have hv : g.rename g' v.state = v.state := Guard.rename_of_clean (by cases v <;> decide) g g'
  simp (disch := decide) only [Function.comp, Directive.mapNames, Pattern.mapNames,
    Writing.mapNames, Cell.mapNames_atom, Mark.mapNames, rename_growPart, hv]

end Segment

namespace Route

def widen (g' : Guard) (r : Route) : Route :=
  { r with
    guard := g'
    origin := r.guard.rename g' r.origin
    next := r.guard.rename g' r.next }

structure Clean (r : Route) : Prop where
  reads : ∀ c ∈ r.reads, Guard.Clean c.display
  writes : ∀ c ∈ r.writes, Guard.Clean c.display

variable {g' : Guard}

theorem rename_append_guarded (g : Guard) (x : String) {texts : List String}
    (h : ∀ text ∈ texts, Guard.Clean text) :
    g.rename g' (x ++ guarded g texts) = g.rename g' x ++ guarded g' texts := by
  unfold guarded
  induction texts generalizing x with
  | nil =>
    simp
  | cons text texts ih =>
    rw [List.forall_mem_cons] at h
    have hx : g.rename g' (x ++ "_" ++ g.text ++ text ++ g.text)
        = g.rename g' x ++ "_" ++ g'.text ++ text ++ g'.text := by
      rw [Guard.rename_append_text, Guard.rename_append_of_clean _ h.1, Guard.rename_append_text,
        Guard.rename_append_of_clean _ (by decide)]
    simp only [List.map_cons, String.join_cons, ← String.append_assoc]
    rw [ih _ h.2, hx]

variable (r : Route)

theorem rename_searchRoot : r.guard.rename g' r.searchRoot = (r.widen g').searchRoot := by
  unfold searchRoot
  rw [Guard.rename_append_text, Guard.rename_append_append _ _ (by decide) (by decide),
    Guard.rename_text]
  rfl

theorem rename_applyRoot : r.guard.rename g' r.applyRoot = (r.widen g').applyRoot := by
  unfold applyRoot
  rw [Guard.rename_append_text, Guard.rename_append_append _ _ (by decide) (by decide),
    Guard.rename_text]
  rfl

theorem findState_succ (n : Nat) :
    r.findState (n + 1)
      =
    if n + 1 = r.reads.length then r.applyState (n + 1)
    else r.searchRoot ++ "_f" ++ guarded r.guard ((r.reads.map Cell.display).take (n + 1)) := rfl

variable {r} (h : r.Clean)

include h

theorem clean_actionTexts : ∀ text ∈ r.actionTexts, Guard.Clean text := by
  unfold actionTexts
  rw [← List.map_uncurry_zip_eq_zipWith]
  intro text htext
  obtain ⟨⟨c, m⟩, hmem, rfl⟩ := List.mem_map.mp htext
  have hsep : Guard.Clean "," := by decide
  simp [Function.uncurry_apply_pair, h.writes c (List.of_mem_zip hmem).1, hsep, Guard.clean_move]

theorem rename_applyState (n : Nat) :
    r.guard.rename g' (r.applyState n) = (r.widen g').applyState n := by
  cases n with
  | zero => exact rename_applyRoot r
  | succ n =>
    unfold applyState
    rw [rename_append_guarded, Guard.rename_append_of_clean _ (by decide), rename_applyRoot]
    . rfl
    . intro text htext
      exact clean_actionTexts h text (List.mem_of_mem_take htext)

theorem rename_tagState (n : Nat) :
    r.guard.rename g' (r.tagState n) = (r.widen g').tagState n := by
  unfold tagState
  rw [Guard.rename_append_of_clean _ (by decide), rename_applyState h]

theorem rename_findState (n : Nat) :
    r.guard.rename g' (r.findState n) = (r.widen g').findState n := by
  cases n with
  | zero => exact rename_searchRoot r
  | succ n =>
    have hreads : (r.widen g').reads = r.reads := rfl
    rw [findState_succ, findState_succ, hreads]
    split
    . exact rename_applyState h (n + 1)
    . rw [rename_append_guarded, Guard.rename_append_of_clean _ (by decide), rename_searchRoot]
      . rfl
      . intro text htext
        obtain ⟨c, hc, rfl⟩ := List.mem_map.mp (List.mem_of_mem_take htext)
        exact h.reads c hc

theorem map_entry :
    r.entry.map (Directive.mapNames (r.guard.rename g')) = (r.widen g').entry := by
  have hguard : (r.widen g').guard = g' := rfl
  have horigin : (r.widen g').origin = r.guard.rename g' r.origin := rfl
  simp (disch := decide) only [entry, List.map_cons, List.map_nil, Directive.mapNames,
    Pattern.mapNames, Writing.mapNames, Cell.mapNames_atom, Mark.mapNames, hguard, horigin,
    Segment.rename_stepState, Segment.rename_growPart, rename_findState h]

variable {alphabet : Alphabet} (hdeclared : ∀ c ∈ alphabet.declared, Guard.Clean c.display)

include hdeclared

omit h in
theorem mapNames_between (g : Guard) :
    (between alphabet).mapNames (g.rename g') = between alphabet := by
  simp only [between, Pattern.mapNames, List.map_append, Cell.map_mapNames_of_clean hdeclared,
    List.map_cons, List.map_nil, Cell.mapNames_atom, Mark.mapNames]

theorem map_action (hheads : ∀ c ∈ alphabet.heads, Guard.Clean c.display) (n : Nat) {write : Cell}
    (hwrite : Guard.Clean write.display) (m : Move) :
    (r.action alphabet n write m).map (Directive.mapNames (r.guard.rename g'))
      =
    (r.widen g').action alphabet n write m := by
  simp only [action, List.map_append, List.map_cons, List.map_nil, List.map_map,
    Directive.mapNames, Pattern.mapNames_cell, Pattern.mapNames_oneOf, Writing.mapNames,
    mapNames_between hdeclared,
    Cell.map_mapNames_of_clean hheads, Cell.mapNames_of_clean hwrite, Cell.mapNames_atom,
    Cell.mapNames_tagged, Mark.mapNames, rename_applyState h, rename_tagState h]
  rw [List.append_right_inj]
  apply List.map_congr_left
  intro c hc
  simp only [Function.comp, Directive.mapNames, Pattern.mapNames, Writing.mapNames,
    Cell.mapNames_tagged, Cell.mapNames_of_clean (hdeclared c hc), rename_applyState h,
    rename_tagState h]

theorem map_record :
    (r.record alphabet).map (Directive.mapNames (r.guard.rename g'))
      =
    (r.widen g').record alphabet := by
  have hguard : (r.widen g').guard = g' := rfl
  have hnext : (r.widen g').next = r.guard.rename g' r.next := rfl
  simp (disch := decide) only [record, List.map_cons, List.map_nil, Directive.mapNames,
    Pattern.mapNames, Writing.mapNames, Cell.map_mapNames_of_clean hdeclared, Cell.mapNames_atom,
    Mark.mapNames, hguard, hnext, rename_applyState h, Guard.rename_append_of_clean,
    Segment.rename_growState]

end Route

namespace Build

variable {α β : Type} {g g' : Guard}

def widened (g g' : Guard) (v : α → α) :
    EStateM.Result RequestError Draft α → EStateM.Result RequestError Draft α
  | .ok a d => .ok (v a) (d.withGuard g')
  | .error e d => .error (e.mapNames (g.rename g')) (d.withGuard g')

/--
An operation does with another guard what it does with the given one, up to the names that it makes.
-/
def Follows (g g' : Guard) (v : α → α) (x x' : Build α) : Prop :=
  ∀ d, d.Plain g → x' (d.withGuard g') = widened g g' v (x d) ∧ (x.after d).Plain g

namespace Follows

theorem pure (v : α → α) (a : α) : Follows g g' v (Pure.pure a) (Pure.pure (v a)) := by
  intro d hd
  exact ⟨rfl, hd⟩

theorem bind {v : α → α} {w : β → β} {x x' : Build α} {k k' : α → Build β}
    (hx : Follows g g' v x x') (hk : ∀ a, Follows g g' w (k a) (k' (v a))) :
    Follows g g' w (x >>= k) (x' >>= k') := by
  intro d hd
  obtain ⟨hrun, hplain⟩ := hx d hd
  unfold after at hplain ⊢
  cases h : x d with
  | ok a e =>
    rw [h] at hrun hplain
    rw [bind_of_ok h, bind_of_ok hrun]
    exact hk a e hplain
  | error err e =>
    rw [h] at hrun hplain
    rw [bind_of_error h, bind_of_error hrun]
    exact ⟨rfl, hplain⟩

theorem get_bind {w : β → β} {k k' : Draft → Build β}
    (hk : ∀ d, d.Plain g → Follows g g' w (k d) (k' (d.withGuard g'))) :
    Follows g g' w (get >>= k) (get >>= k') := by
  intro d hd
  exact hk d hd d hd

theorem enabled_bind {w : β → β} {f : Feature} {k k' : Bool → Build β}
    (hk : ∀ b, Follows g g' w (k b) (k' b)) :
    Follows g g' w (enabled f >>= k) (enabled f >>= k') := by
  intro d hd
  exact hk _ d hd

theorem of_modify {h h' : Draft → Draft}
    (hh : ∀ d, d.Plain g → h' (d.withGuard g') = (h d).withGuard g' ∧ (h d).Plain g) :
    Follows g g' id (modify h) (modify h') := by
  intro d hd
  refine ⟨?_, (hh d hd).2⟩
  rw [modify_apply, modify_apply, (hh d hd).1]
  rfl

theorem forM {xs : List α} {k k' : α → Build Unit} {h : α → α}
    (hk : ∀ x ∈ xs, Follows g g' id (k x) (k' (h x))) :
    Follows g g' id (xs.forM k) ((xs.map h).forM k') := by
  induction xs with
  | nil => exact pure id ()
  | cons x xs ih =>
    apply bind
    . exact hk x List.mem_cons_self
    . intro _
      apply ih
      intro y hy
      exact hk y (List.mem_cons_of_mem x hy)

theorem forM_same {γ : Type} {xs : List γ} {k k' : γ → Build Unit}
    (hk : ∀ x ∈ xs, Follows g g' id (k x) (k' x)) :
    Follows g g' id (xs.forM k) (xs.forM k') := by
  have := @forM γ g g' xs k k' id hk
  rwa [List.map_id] at this

end Follows

section Rules

variable (hle : g.size ≤ g'.size)

include hle

theorem rename_inj : Function.Injective (g.rename g') := fun _ _ h => Guard.rename_injective hle h

theorem addState_follows (name : String) :
    Follows g g' id (addState name) (addState (g.rename g' name)) := by
  intro d hd
  obtain rfl := hd.guard
  refine ⟨?_, rfl, hd.declared, hd.heads, hd.symbols⟩
  rw [addState_apply, addState_apply]
  simp only [widened, Draft.withGuard, Draft.mapNames, StateTables.ensure_mapNames (rename_inj hle),
    id]

theorem addRule_follows (state : String)
    {add add' : Alphabet → RuleTable → Except RuleError RuleTable}
    (hadd : ∀ a t, add' (a.mapNames (g.rename g')) (t.mapNames (g.rename g'))
      = ((add a t).map (RuleTable.mapNames (g.rename g'))).mapError
        (RuleError.mapNames (g.rename g'))) :
    Follows g g' id (addRule state add) (addRule (g.rename g' state) add') := by
  intro d hd
  obtain rfl := hd.guard
  have hstates : (d.withGuard g').states = d.states.mapNames (d.guard.rename g') := rfl
  have halphabet : (d.withGuard g').alphabet = d.alphabet.mapNames (d.guard.rename g') := rfl
  unfold after
  rw [addRule_apply, addRule_apply, hstates, halphabet, StateTables.table_mapNames (rename_inj hle),
    hadd, StateTables.ensure_mapNames (rename_inj hle)]
  cases add d.alphabet (d.states.table state) with
  | ok t =>
    refine ⟨?_, rfl, hd.declared, hd.heads, hd.symbols⟩
    have hok : ((Except.ok t : Except RuleError RuleTable).map
        (RuleTable.mapNames (d.guard.rename g'))).mapError (RuleError.mapNames (d.guard.rename g'))
        = .ok (t.mapNames (d.guard.rename g')) := rfl
    rw [hok]
    dsimp only
    rw [StateTables.set_mapNames (rename_inj hle)]
    rfl
  | error e => exact ⟨rfl, rfl, hd.declared, hd.heads, hd.symbols⟩

theorem addExact_follows (state : String) (c : Cell) (o : Outcome) :
    Follows g g' id (addRule state (RuleTable.addExact c o))
      (addRule (g.rename g' state)
        (RuleTable.addExact (c.mapNames (g.rename g')) (o.mapNames (g.rename g')))) := by
  apply addRule_follows hle
  intro a t
  exact RuleTable.addExact_mapNames (rename_inj hle) t c o a

theorem addWildcard_follows (state : String) (o : Outcome) :
    Follows g g' id (addRule state fun _ => RuleTable.addWildcard o)
      (addRule (g.rename g' state) fun _ => RuleTable.addWildcard (o.mapNames (g.rename g'))) := by
  apply addRule_follows hle
  intro a t
  exact RuleTable.addWildcard_mapNames t o

theorem addRules_follows (state : String) (cells : List Cell) (grouped : Bool)
    {shared shared' : Outcome} {each each' : Cell → Outcome} (source : Option JointPattern)
    (hshared : shared' = shared.mapNames (g.rename g'))
    (heach : ∀ c ∈ cells, each' (c.mapNames (g.rename g')) = (each c).mapNames (g.rename g')) :
    Follows g g' id (addRules state cells grouped shared each source)
      (addRules (g.rename g' state) (cells.map (Cell.mapNames (g.rename g'))) grouped shared'
        each' source) := by
  unfold addRules
  rw [hshared, List.isEmpty_map]
  split
  . split
    . exact addState_follows hle state
    . apply addRule_follows hle
      intro a t
      exact RuleTable.addGroup_mapNames (rename_inj hle) t cells shared source a
  . apply Follows.forM
    intro c hc
    rw [heach c hc]
    exact addExact_follows hle state c (each c)

theorem chain_follows (key : ChainKey) (parts : List String) :
    Follows g g' (Prod.map (g.rename g') id) (chain key parts)
      (chain (key.mapNames (g.rename g')) (parts.map (g.rename g'))) := by
  intro d hd
  obtain rfl := hd.guard
  have hfind : (d.withGuard g').chains.find? (·.1 = key.mapNames (d.guard.rename g'))
      = (d.chains.find? (·.1 = key)).map fun e =>
        (e.1.mapNames (d.guard.rename g'), d.guard.rename g' e.2) := by
    simp only [Draft.withGuard, Draft.mapNames, List.find?_map]
    congr 2
    funext e
    simp [(ChainKey.mapNames_injective (rename_inj hle)).eq_iff]
  have hguard : (d.withGuard g').guard = g' := rfl
  unfold after
  rw [chain_apply, chain_apply, hfind, hguard, ← Guard.rename_wrap]
  cases d.chains.find? (·.1 = key) with
  | some e => exact ⟨rfl, hd⟩
  | none =>
    refine ⟨?_, rfl, hd.declared, hd.heads, hd.symbols⟩
    simp [widened, Draft.withGuard, Draft.mapNames]

theorem uncovered_follows {d : Draft} (hd : d.Plain g) (origin : String) :
    (d.withGuard g').uncovered (g.rename g' origin)
      =
    (d.uncovered origin).map (Cell.mapNames (g.rename g')) := by
  obtain rfl := hd.guard
  have hstates : (d.withGuard g').states = d.states.mapNames (d.guard.rename g') := rfl
  unfold Draft.uncovered
  rw [hstates, StateTables.find?_mapNames (rename_inj hle)]
  cases d.states.find? origin with
  | none => rfl
  | some t => exact RuleTable.uncovered_mapNames (rename_inj hle) t d.alphabet.symbols

theorem directForCells_follows (origin : String) (cells : List Cell) (w : Writing) (m : Move)
    (next : String) :
    Follows g g' id (directForCells origin cells w m next)
      (directForCells (g.rename g' origin) (cells.map (Cell.mapNames (g.rename g')))
        (w.mapNames (g.rename g')) m (g.rename g' next)) := by
  apply Follows.get_bind
  intro d hd
  rw [Writing.mapNames_beq_keep]
  apply addRules_follows hle
  . simp
  . intro c _
    simp [Action.mapNames]

theorem direct_follows (origin : String) (read : Pattern) (w : Writing) (m : Move)
    (next : String) :
    Follows g g' id (direct origin read w m next)
      (direct (g.rename g' origin) (read.mapNames (g.rename g')) (w.mapNames (g.rename g')) m
        (g.rename g' next)) := by
  unfold direct
  cases read with
  | cell c =>
    have := addExact_follows hle origin c (.single (.write (w.onto c) m) next)
    simpa [Pattern.mapNames, Action.mapNames] using this
  | oneOf cells => exact directForCells_follows hle origin cells w m next
  | any =>
    apply Follows.enabled_bind
    intro b
    split
    . have := addWildcard_follows hle origin (.single (w.action m) next)
      simpa using this
    . apply Follows.get_bind
      intro d hd
      rw [uncovered_follows hle hd]
      exact directForCells_follows hle origin _ w m next

theorem transition_go_follows (n : Nat) (origin : String) (read : Pattern) (w : Writing)
    (m : Move) (next : String) :
    Follows g g' id (transition.go n origin read w m next)
      (transition.go n (g.rename g' origin) (read.mapNames (g.rename g'))
        (w.mapNames (g.rename g')) m (g.rename g' next)) := by
  induction n generalizing origin read w m next with
  | zero => exact direct_follows hle origin read w m next
  | succ n ih =>
    apply Follows.get_bind
    intro d hd
    have hfeatures : (d.withGuard g').features = d.features := rfl
    rw [hfeatures]
    split
    . exact direct_follows hle origin read w m next
    . have hrest : g.rename g' m.detour.2.display = m.detour.2.display :=
        Guard.rename_of_clean (Guard.clean_move _) g g'
      have hchain := chain_follows hle ⟨.continuation, [m.detour.2.display, next]⟩
        [m.detour.2.display, next]
      simp only [ChainKey.mapNames, List.map_cons, List.map_nil, hrest] at hchain
      apply Follows.bind hchain
      intro (state, isNew)
      dsimp only [Prod.map, id]
      split
      . apply Follows.bind
        . exact ih state .any .keep m.detour.2 next
        . intro _
          exact direct_follows hle origin read w m.detour.1 state
      . exact direct_follows hle origin read w m.detour.1 state

theorem transition_follows (origin : String) (read : Pattern) (w : Writing) (m : Move)
    (next : String) :
    Follows g g' id (transition origin read w m next)
      (transition (g.rename g' origin) (read.mapNames (g.rename g')) (w.mapNames (g.rename g')) m
        (g.rename g' next)) :=
  transition_go_follows hle _ origin read w m next

theorem addAction_follows (origin : String) (read : Pattern) (a : Action) (next : String) :
    Follows g g' id (addAction origin read a next)
      (addAction (g.rename g' origin) (read.mapNames (g.rename g'))
        (a.mapNames (g.rename g')) (g.rename g' next)) := by
  have hrules : ∀ cells grouped, Follows g g' id
      (addRules origin cells grouped (.single a next) (fun _ => .single a next) none)
      (addRules (g.rename g' origin) (cells.map (Cell.mapNames (g.rename g'))) grouped
        (.single (a.mapNames (g.rename g')) (g.rename g' next))
        (fun _ => .single (a.mapNames (g.rename g')) (g.rename g' next)) none) := by
    intro cells grouped
    apply addRules_follows hle
    . rfl
    . intro c _
      rfl
  apply Follows.enabled_bind
  intro grouped
  cases read with
  | cell c => exact addExact_follows hle origin c (.single a next)
  | oneOf cells => exact hrules cells grouped
  | any =>
    apply Follows.enabled_bind
    intro b
    split
    . exact addWildcard_follows hle origin (.single a next)
    . apply Follows.get_bind
      intro d hd
      rw [uncovered_follows hle hd]
      exact hrules _ grouped

theorem shiftChain_follows (origin : String) {read : Pattern}
    (hread : Guard.Clean read.display) (m : Move) (next : String) :
    Follows g g' id (shiftChain origin read m next)
      (shiftChain (g.rename g' origin) read m (g.rename g' next)) := by
  have hmove : g.rename g' m.display = m.display :=
    Guard.rename_of_clean (Guard.clean_move _) g g'
  apply Follows.get_bind
  intro d hd
  rw [uncovered_follows hle hd, Pattern.cells_map_mapNames hread]
  have hsymbols : ∀ c ∈ read.cells (d.uncovered origin),
      Guard.Clean c.display ∨ ∃ name, c = .state name := by
    intro c hc
    cases read with
    | cell c' =>
      rw [List.mem_singleton.mp hc]
      exact .inl hread
    | oneOf cells =>
      rw [Pattern.clean_display_oneOf] at hread
      exact .inl (hread c hc)
    | any => exact hd.symbols c (Draft.mem_uncovered.mp hc).1
  apply Follows.forM
  intro symbol hsymbol
  have hdisplay : g.rename g' symbol.display = (symbol.mapNames (g.rename g')).display :=
    Cell.rename_display (hsymbols symbol hsymbol)
  have hpaste : g.rename g' ("paste" ++ symbol.display)
      = "paste" ++ (symbol.mapNames (g.rename g')).display := by
    rw [Guard.rename_clean_append (by decide), hdisplay]
  have hchain := chain_follows hle ⟨.paste, [symbol.display, m.display, next]⟩
    ["paste" ++ symbol.display, m.display, next]
  simp only [ChainKey.mapNames, List.map_cons, List.map_nil, hdisplay, hmove, hpaste] at hchain
  apply Follows.bind hchain
  intro (paste, isNew)
  have htransition := transition_follows hle origin (.cell symbol) (.put .blank) .right paste
  dsimp only [Prod.map, id]
  split
  . apply Follows.bind
    . exact transition_follows hle paste .any (.put symbol) m next
    . intro _
      exact htransition
  . exact htransition

theorem shift_follows (origin : String) {read : Pattern} (hread : Guard.Clean read.display)
    (m : Move) (next : String) :
    Follows g g' id (shift origin read m next)
      (shift (g.rename g' origin) read m (g.rename g' next)) := by
  apply Follows.enabled_bind
  intro b
  split
  . have := addAction_follows hle origin read (.shift m) next
    rwa [Pattern.mapNames_of_clean hread] at this
  . exact shiftChain_follows hle origin hread m next

theorem seekEnd_follows (state next : String) :
    Follows g g' id (seekEnd state next) (seekEnd (g.rename g' state) (g.rename g' next)) := by
  apply Follows.bind
  . exact transition_follows hle state (.cell .blank) (.put .blank) .left next
  . intro _
    exact transition_follows hle state .any .keep .right state

theorem markFirstChain_follows (origin : String) {read : Pattern}
    (hread : Guard.Clean read.display) {marker : Cell} (hmarker : Guard.Clean marker.display)
    (next : String) :
    Follows g g' id (markFirstChain origin read marker next)
      (markFirstChain (g.rename g' origin) read marker (g.rename g' next)) := by
  have hchain := chain_follows hle
    ⟨.markFirst, [origin, read.display, marker.display, next]⟩
    ["firstCellMarker", origin, read.display]
  have hkind : g.rename g' "firstCellMarker" = "firstCellMarker" :=
    Guard.rename_of_clean (by decide) g g'
  simp only [ChainKey.mapNames, List.map_cons, List.map_nil, Guard.rename_of_clean hread,
    Guard.rename_of_clean hmarker, hkind] at hchain
  apply Follows.bind hchain
  intro (base, isNew)
  dsimp only [Prod.map, id]
  split
  . have hfind : g.rename g' (base ++ "_findEnd") = g.rename g' base ++ "_findEnd" :=
      Guard.rename_append_of_clean base (by decide)
    have hshift : g.rename g' (base ++ "_doShifts") = g.rename g' base ++ "_doShifts" :=
      Guard.rename_append_of_clean base (by decide)
    rw [← hfind, ← hshift]
    apply Follows.bind
    . have := transition_follows hle origin read .keep .right (base ++ "_findEnd")
      rwa [Pattern.mapNames_of_clean hread] at this
    intro _
    apply Follows.bind (seekEnd_follows hle _ _)
    intro _
    apply Follows.bind
    . have := transition_follows hle (base ++ "_doShifts") (.cell .blank) (.put marker) .right next
      rwa [Writing.mapNames, Cell.mapNames_of_clean hmarker] at this
    intro _
    exact shift_follows hle _ (by decide) _ _
  . exact Follows.pure id ()

theorem insertAfterChain_follows (origin : String) {read : Pattern}
    (hread : Guard.Clean read.display) {marker insert : Cell}
    (hmarker : Guard.Clean marker.display) (hinsert : Guard.Clean insert.display)
    (next : String) :
    Follows g g' id (insertAfterChain origin read marker insert next)
      (insertAfterChain (g.rename g' origin) read marker insert (g.rename g' next)) := by
  have hchain := chain_follows hle
    ⟨.insertAfter, [origin, read.display, marker.display, insert.display, next]⟩
    ["afterCellMarker", origin, read.display]
  have hkind : g.rename g' "afterCellMarker" = "afterCellMarker" :=
    Guard.rename_of_clean (by decide) g g'
  simp only [ChainKey.mapNames, List.map_cons, List.map_nil, Guard.rename_of_clean hread,
    Guard.rename_of_clean hmarker, Guard.rename_of_clean hinsert, hkind] at hchain
  apply Follows.bind hchain
  intro (base, isNew)
  dsimp only [Prod.map, id]
  split
  . have hfind : g.rename g' (base ++ "_findEnd") = g.rename g' base ++ "_findEnd" :=
      Guard.rename_append_of_clean base (by decide)
    have hshift : g.rename g' (base ++ "_doShifts") = g.rename g' base ++ "_doShifts" :=
      Guard.rename_append_of_clean base (by decide)
    have hput : g.rename g' (base ++ "_doInsert") = g.rename g' base ++ "_doInsert" :=
      Guard.rename_append_of_clean base (by decide)
    rw [← hfind, ← hshift, ← hput]
    apply Follows.bind
    . have := transition_follows hle origin read .keep .right (base ++ "_findEnd")
      rwa [Pattern.mapNames_of_clean hread] at this
    intro _
    apply Follows.bind (seekEnd_follows hle _ _)
    intro _
    apply Follows.bind
    . have := transition_follows hle (base ++ "_doShifts") (.cell marker) (.put marker) .right
        (base ++ "_doInsert")
      rwa [Pattern.mapNames, Writing.mapNames, Cell.mapNames_of_clean hmarker] at this
    intro _
    apply Follows.bind (shift_follows hle _ (by decide) _ _)
    intro _
    have := transition_follows hle (base ++ "_doInsert") (.cell .blank) (.put insert) .right next
    rwa [Writing.mapNames, Cell.mapNames_of_clean hinsert] at this
  . exact Follows.pure id ()

theorem gadget_follows (origin : String) {read : Pattern} (hread : Guard.Clean read.display)
    {x : Gadget} (hx : x.Clean) (next : String) :
    Follows g g' id (gadget origin read x next)
      (gadget (g.rename g' origin) read x (g.rename g' next)) := by
  apply Follows.enabled_bind
  intro b
  split
  . have := addAction_follows hle origin read x.action next
    have haction : x.action.mapNames (g.rename g') = (x.mapNames (g.rename g')).action := by
      cases x <;> rfl
    rwa [haction, Pattern.mapNames_of_clean hread, Gadget.mapNames_of_clean hx] at this
  . cases x with
    | shift m => exact shiftChain_follows hle origin hread m next
    | markFirst marker => exact markFirstChain_follows hle origin hread hx next
    | insertAfter marker insert => exact insertAfterChain_follows hle origin hread hx.1 hx.2 next

theorem directive_follows {x : Directive} (hx : x.Clean) :
    Follows g g' id (directive x) (directive (x.mapNames (g.rename g'))) := by
  cases x with
  | transition origin read w m next => exact transition_follows hle origin read w m next
  | gadget origin read x next =>
    have := gadget_follows hle origin hx.1 hx.2 next
    simpa only [directive, Directive.mapNames, Pattern.mapNames_of_clean hx.1,
      Gadget.mapNames_of_clean hx.2] using this

theorem directives_follows {xs : List Directive} (hxs : ∀ x ∈ xs, x.Clean) :
    Follows g g' id (directives xs) (directives (xs.map (Directive.mapNames (g.rename g')))) := by
  apply Follows.forM
  intro x hx
  exact directive_follows hle (hxs x hx)

theorem addNew_mapNames (cells : List Cell) (c : Cell) :
    Alphabet.addNew (cells.map (Cell.mapNames (g.rename g'))) (c.mapNames (g.rename g'))
      =
    (Alphabet.addNew cells c).map (Cell.mapNames (g.rename g')) := by
  unfold Alphabet.addNew
  simp only [Cell.mem_map_mapNames (rename_inj hle)]
  split
  . rfl
  . simp

theorem foldl_addNew_mapNames (added cells : List Cell) :
    (added.map (Cell.mapNames (g.rename g'))).foldl Alphabet.addNew
        (cells.map (Cell.mapNames (g.rename g')))
      =
    (added.foldl Alphabet.addNew cells).map (Cell.mapNames (g.rename g')) := by
  induction added generalizing cells with
  | nil => rfl
  | cons c added ih =>
    rw [List.map_cons, List.foldl_cons, addNew_mapNames hle, ih, List.foldl_cons]

omit hle in
theorem mem_foldl_addNew {added cells : List Cell} {c : Cell} :
    c ∈ added.foldl Alphabet.addNew cells ↔ c ∈ added ∨ c ∈ cells := by
  induction added generalizing cells with
  | nil => simp
  | cons a added ih =>
    rw [List.foldl_cons, ih, Alphabet.addNew]
    split
    . next h => grind
    . simp only [List.mem_append, List.mem_cons]
      grind

theorem addSymbol_follows {c : Cell} (hc : Guard.Clean c.display ∨ ∃ name, c = .state name) :
    Follows g g' id (addSymbol c) (addSymbol (c.mapNames (g.rename g'))) := by
  apply Follows.of_modify
  intro d hd
  obtain rfl := hd.guard
  refine ⟨?_, rfl, hd.declared, hd.heads, ?_⟩
  . simp only [Draft.withGuard, Draft.mapNames, Alphabet.add, Alphabet.mapNames,
      addNew_mapNames hle]
  . intro c' hc'
    have hmem : c' = c ∨ c' ∈ d.alphabet.symbols := by
      have := @mem_foldl_addNew [c] d.alphabet.symbols c'
      simpa using this.mp hc'
    rcases hmem with rfl | hmem
    . exact hc
    . exact hd.symbols c' hmem

theorem withSegments_follows :
    Follows g g' id (modify fun d => { d with alphabet := d.alphabet.withSegments })
      (modify fun d => { d with alphabet := d.alphabet.withSegments }) := by
  apply Follows.of_modify
  intro d hd
  obtain rfl := hd.guard
  have hheads : ∀ c ∈ d.alphabet.declared.map Cell.tagged, Guard.Clean c.display := by
    intro c hc
    obtain ⟨c', hc', rfl⟩ := List.mem_map.mp hc
    exact Cell.clean_tagged.mpr (hd.declared c' hc')
  have hmarkers : ∀ c ∈ [Cell.start, .boundLeft, .boundRight, .afterLast, Cell.boundRight.tagged],
      Guard.Clean c.display := by decide
  have hadded : ∀ c ∈ d.alphabet.declared.map Cell.tagged
      ++ [Cell.start, .boundLeft, .boundRight, .afterLast, Cell.boundRight.tagged],
      Guard.Clean c.display := by
    intro c hc
    rcases List.mem_append.mp hc with hc | hc
    . exact hheads c hc
    . exact hmarkers c hc
  cases hsim : d.alphabet.simulating with
  | true =>
    refine ⟨?_, rfl, ?_, ?_, ?_⟩
    . simp [Draft.withGuard, Draft.mapNames, Alphabet.withSegments, Alphabet.mapNames, hsim]
    . simpa [Alphabet.withSegments, hsim] using hd.declared
    . simpa [Alphabet.withSegments, hsim] using hd.heads
    . simpa [Alphabet.withSegments, hsim] using hd.symbols
  | false =>
    refine ⟨?_, rfl, ?_, ?_, ?_⟩
    . have := foldl_addNew_mapNames hle (d.alphabet.declared.map Cell.tagged
        ++ [Cell.start, .boundLeft, .boundRight, .afterLast, Cell.boundRight.tagged])
        d.alphabet.symbols
      rw [Cell.map_mapNames_of_clean hadded] at this
      simp [Draft.withGuard, Draft.mapNames, Alphabet.withSegments, Alphabet.mapNames, hsim, this]
    . simpa [Alphabet.withSegments, hsim] using hd.declared
    . simpa [Alphabet.withSegments, hsim] using hheads
    . intro c hc
      simp only [Alphabet.withSegments, hsim] at hc
      rcases mem_foldl_addNew.mp hc with hc | hc
      . exact .inl (hadded c hc)
      . exact hd.symbols c hc

omit hle in
theorem clean_layout (start first : String) (count : Nat) (declared : List Cell) :
    ∀ x ∈ Segment.layout g start first count declared, x.Clean := by
  have hany : Guard.Clean Pattern.any.display := by decide
  have hstart : Guard.Clean Cell.start.display := by decide
  have hbound : Guard.Clean Cell.boundLeft.display := by decide
  have hblank : Guard.Clean Cell.blank.display := by decide
  simp only [Segment.layout, List.forall_mem_append, List.forall_mem_cons, List.forall_mem_map,
    Directive.Clean, Gadget.Clean, hany, hstart, hbound, hblank]
  simp

omit hle in
theorem clean_growth (alphabet : Alphabet) : ∀ x ∈ Segment.growth g alphabet, x.Clean := by
  have hany : Guard.Clean Pattern.any.display := by decide
  have hbound : Guard.Clean Cell.boundRight.display := by decide
  have htagged : Guard.Clean Cell.boundRight.tagged.display := by decide
  simp only [Segment.growth, List.forall_mem_append, List.forall_mem_cons, List.forall_mem_map,
    Directive.Clean, Gadget.Clean, hany, hbound, htagged]
  simp

theorem simulateTapes_follows (count : Nat) (first : String) :
    Follows g g' id (simulateTapes count first) (simulateTapes count (g.rename g' first)) := by
  apply Follows.bind (withSegments_follows hle)
  intro _
  apply Follows.bind (addSymbol_follows hle (.inr ⟨first, rfl⟩))
  intro _
  apply Follows.bind
  . apply Follows.forM_same
    intro v _
    have := addSymbol_follows hle (.inr ⟨v.state, rfl⟩)
    rwa [Cell.mapNames_of_clean (by cases v <;> decide)] at this
  intro _
  apply Follows.get_bind
  intro d hd
  have hguard : (d.withGuard g').guard = g' := rfl
  have hstart : (d.withGuard g').start = g.rename g' d.start := by rw [← hd.guard]; rfl
  have hdeclared : (d.withGuard g').alphabet.declared = d.alphabet.declared := rfl
  have hgrowth : Segment.growth g' (d.withGuard g').alphabet = Segment.growth g' d.alphabet := rfl
  have hlayout := directives_follows hle (@clean_layout g d.start first count d.alphabet.declared)
  have hgrow := directives_follows hle (@clean_growth g d.alphabet)
  rw [Segment.map_layout _ _ _ hd.declared] at hlayout
  rw [Segment.map_growth hd.declared hd.heads] at hgrow
  have hstate := addState_follows hle (Segment.stepState g)
  rw [Segment.rename_stepState] at hstate
  rw [hguard, hstart, hdeclared, hgrowth, hd.guard]
  apply Follows.bind hlayout
  intro _
  apply Follows.bind hstate
  intro _
  exact hgrow

end Rules

end Build

end TuringLowering
