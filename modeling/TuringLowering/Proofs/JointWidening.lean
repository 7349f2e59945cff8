import TuringLowering.Proofs.Widening

/-!
This module contains the part of the proof of transparency that is about joint transitions, on tapes
of their own and on simulated ones.
-/

namespace TuringLowering

namespace Pattern

theorem clean_of_mem_cells {p : Pattern} (h : Guard.Clean p.display) {rest : List Cell}
    (hrest : ∀ c ∈ rest, Guard.Clean c.display) : ∀ c ∈ p.cells rest, Guard.Clean c.display := by
  cases p with
  | cell c =>
    rw [cells, List.forall_mem_singleton]
    exact h
  | oneOf cells => exact clean_display_oneOf.mp h
  | any => exact hrest

theorem mem_of_exactCells? {patterns : List Pattern} {cells : List Cell}
    (h : exactCells? patterns = some cells) : ∀ c ∈ cells, .cell c ∈ patterns := by
  unfold exactCells? at h
  induction patterns generalizing cells with
  | nil =>
    cases h
    simp
  | cons p patterns ih =>
    rw [List.mapM_cons] at h
    cases p with
    | cell c =>
      obtain ⟨cs, hcs, rfl⟩ := by simpa [Option.bind_eq_some_iff] using h
      rw [List.forall_mem_cons]
      refine ⟨List.mem_cons_self, ?_⟩
      intro c' hc'
      exact List.mem_cons_of_mem _ (ih hcs c' hc')
    | oneOf cells => simp at h
    | any => simp at h

end Pattern

theorem combinations_map (f : Cell → Cell) (options : List (List Cell)) :
    combinations (options.map (List.map f)) = (combinations options).map (List.map f) := by
  induction options with
  | nil => rfl
  | cons cells options ih =>
    rw [List.map_cons, combinations, combinations, ih]
    simp [List.flatMap_map, List.map_flatMap, Function.comp_def]

theorem mem_of_mem_combinations {options : List (List Cell)} {read : List Cell}
    (h : read ∈ combinations options) : ∀ c ∈ read, ∃ cells ∈ options, c ∈ cells := by
  induction options generalizing read with
  | nil =>
    rw [List.mem_singleton.mp h]
    simp
  | cons cells options ih =>
    simp only [combinations, List.mem_flatMap, List.mem_map] at h
    obtain ⟨c, hc, rest, hrest, rfl⟩ := h
    rw [List.forall_mem_cons]
    refine ⟨⟨cells, List.mem_cons_self, hc⟩, ?_⟩
    intro c' hc'
    obtain ⟨cells', hmem, hc'⟩ := ih hrest c' hc'
    exact ⟨cells', List.mem_cons_of_mem _ hmem, hc'⟩

def JointPattern.Clean (p : JointPattern) : Prop := Guard.Clean p.display

theorem JointPattern.clean_perTape {p : JointPattern} (h : p.Clean) (count : Nat) :
    ∀ q ∈ p.perTape count, Guard.Clean q.display := by
  cases p with
  | any =>
    intro q hq
    rw [List.eq_of_mem_replicate hq]
    decide
  | tapes patterns =>
    rw [Clean, display, Cell.clean_displayJoint] at h
    intro q hq
    exact h q.display (List.mem_map_of_mem hq)

def Writing.Clean : Writing → Prop
  | .put c => Guard.Clean c.display
  | .keep => True

namespace Writing

variable {g g' : Guard}

theorem mapNames_of_clean {w : Writing} (h : w.Clean) : w.mapNames (g.rename g') = w := by
  cases w with
  | put c => rw [mapNames, Cell.mapNames_of_clean h]
  | keep => rfl

theorem clean_onto {w : Writing} (h : w.Clean) {c : Cell} (hc : Guard.Clean c.display) :
    Guard.Clean (w.onto c).display := by
  cases w with
  | put c' => exact h
  | keep => exact hc

theorem ontoAll_map_mapNames {writes : List Writing} (h : ∀ w ∈ writes, w.Clean)
    (reads : List Cell) :
    ontoAll writes (reads.map (Cell.mapNames (g.rename g')))
      =
    (ontoAll writes reads).map (Cell.mapNames (g.rename g')) := by
  unfold ontoAll
  induction writes generalizing reads with
  | nil => rfl
  | cons w writes ih =>
    rw [List.forall_mem_cons] at h
    cases reads with
    | nil => rfl
    | cons c reads =>
      have honto := onto_mapNames (g.rename g') w c
      rw [mapNames_of_clean h.1] at honto
      rw [List.map_cons, List.zipWith_cons_cons, List.zipWith_cons_cons, List.map_cons, ih h.2,
        honto]

theorem clean_of_mem_ontoAll {writes : List Writing} (h : ∀ w ∈ writes, w.Clean)
    {reads : List Cell} (hreads : ∀ c ∈ reads, Guard.Clean c.display) :
    ∀ c ∈ ontoAll writes reads, Guard.Clean c.display := by
  unfold ontoAll
  rw [← List.map_uncurry_zip_eq_zipWith]
  intro c hc
  obtain ⟨⟨w, c'⟩, hmem, rfl⟩ := List.mem_map.mp hc
  obtain ⟨hw, hc'⟩ := List.of_mem_zip hmem
  exact clean_onto (h w hw) (hreads c' hc')

theorem map_zipWith_action {writes : List Writing} (h : ∀ w ∈ writes, w.Clean)
    (moves : List Move) :
    (List.zipWith action writes moves).map (Action.mapNames (g.rename g'))
      =
    List.zipWith action writes moves := by
  rw [← List.map_uncurry_zip_eq_zipWith, List.map_map]
  apply List.map_congr_left
  intro (w, m) hmem
  have haction := action_mapNames (g.rename g') w m
  rw [mapNames_of_clean (h w (List.of_mem_zip hmem).1)] at haction
  exact haction.symm

end Writing

namespace Build

variable {β : Type} {g g' : Guard} (hle : g.size ≤ g'.size)

include hle

theorem Follows.hasState_bind {name : String} {w : β → β} {k k' : Bool → Build β}
    (hk : ∀ b, Follows g g' w (k b) (k' b)) :
    Follows g g' w (hasState name >>= k) (hasState (g.rename g' name) >>= k') := by
  intro d hd
  have hcontains : (d.withGuard g').states.contains (g.rename g' name) = d.states.contains name := by
    obtain rfl := hd.guard
    exact StateTables.contains_mapNames (rename_inj hle) d.states name
  have hrun : (hasState (g.rename g' name) >>= k') (d.withGuard g')
      = k' ((d.withGuard g').states.contains (g.rename g' name)) (d.withGuard g') := rfl
  rw [hrun, hcontains]
  exact hk _ d hd

theorem Follows.hasRule_bind {state : String} {c : Cell} {w : β → β} {k k' : Bool → Build β}
    (hk : ∀ b, Follows g g' w (k b) (k' b)) :
    Follows g g' w (hasRule state c >>= k)
      (hasRule (g.rename g' state) (c.mapNames (g.rename g')) >>= k') := by
  intro d hd
  have hlookup : ((d.withGuard g').states.lookup (g.rename g' state)
      (c.mapNames (g.rename g'))).isSome = (d.states.lookup state c).isSome := by
    obtain rfl := hd.guard
    have hstates : (d.withGuard g').states = d.states.mapNames (d.guard.rename g') := rfl
    rw [hstates, StateTables.lookup_mapNames (rename_inj hle), Option.isSome_map]
  have hrun : (hasRule (g.rename g' state) (c.mapNames (g.rename g')) >>= k') (d.withGuard g')
      = k' ((d.withGuard g').states.lookup (g.rename g' state)
        (c.mapNames (g.rename g'))).isSome (d.withGuard g') := rfl
  rw [hrun, hlookup]
  exact hk _ d hd

section Routes

variable {r : Route} (hguard : r.guard = g) (hr : r.Clean)

include hguard hr

theorem findHeads_follows : Follows g g' id (findHeads r) (findHeads (r.widen g')) := by
  obtain rfl := hguard
  apply Follows.get_bind
  intro d hd
  have hbetween : Route.between (d.withGuard g').alphabet = Route.between d.alphabet := rfl
  have hreads : (r.widen g').reads = r.reads := rfl
  dsimp only
  rw [hbetween, hreads]
  apply Follows.forM_same
  intro (c, n) hmem
  have hc : c.tagged.mapNames (r.guard.rename g') = c.tagged :=
    Cell.mapNames_of_clean (Cell.clean_tagged.mpr (hr.reads c (List.fst_mem_of_mem_zipIdx hmem)))
  dsimp only
  rw [← Route.rename_findState hr, ← Route.rename_findState hr]
  have hpass : Follows r.guard g' id
      (directive (.pass (r.findState n) (Route.between d.alphabet) .right (r.findState n)))
      (directive (.pass (r.guard.rename g' (r.findState n)) (Route.between d.alphabet) .right
        (r.guard.rename g' (r.findState n)))) := by
    have := transition_follows hle (r.findState n) (Route.between d.alphabet) .keep .right
      (r.findState n)
    rwa [Route.mapNames_between hd.declared] at this
  have hfound : Follows r.guard g' id
      (directive (.replace (r.findState n) c.tagged c.tagged .right (r.findState (n + 1))))
      (directive (.replace (r.guard.rename g' (r.findState n)) c.tagged c.tagged .right
        (r.guard.rename g' (r.findState (n + 1))))) := by
    have := transition_follows hle (r.findState n) (.cell c.tagged) (.put c.tagged) .right
      (r.findState (n + 1))
    rwa [Pattern.mapNames_cell, Writing.mapNames, hc] at this
  have hlast : ∀ {isLast : Bool}, Follows r.guard g' id
      (do if isLast || !(← hasRule (r.findState n) c.tagged) then
            directive (.replace (r.findState n) c.tagged c.tagged .right (r.findState (n + 1))))
      (do if isLast || !(← hasRule (r.guard.rename g' (r.findState n)) c.tagged) then
            directive (.replace (r.guard.rename g' (r.findState n)) c.tagged c.tagged .right
              (r.guard.rename g' (r.findState (n + 1))))) := by
    intro isLast
    have hbind := @Follows.hasRule_bind Unit r.guard g' hle (r.findState n) c.tagged id
    rw [hc] at hbind
    apply hbind
    intro b
    split
    . exact hfound
    . exact Follows.pure id ()
  apply Follows.hasState_bind hle
  intro b
  split
  . apply Follows.bind hpass
    intro _
    exact hlast
  . exact hlast

theorem applyActions_follows :
    Follows g g' id (applyActions r) (applyActions (r.widen g')) := by
  obtain rfl := hguard
  apply Follows.get_bind
  intro d hd
  have hwrites : (r.widen g').writes = r.writes := rfl
  have hmoves : (r.widen g').moves = r.moves := rfl
  dsimp only
  rw [hwrites, hmoves]
  apply Follows.forM_same
  intro ((write, move), n) hmem
  have hwrite : Guard.Clean write.display :=
    hr.writes write
      (List.of_mem_zip (List.fst_mem_of_mem_zipIdx (List.mem_reverse.mp hmem))).1
  have hclean : ∀ x ∈ r.action d.alphabet (n + 1) write move, x.Clean := by
    simp [Route.action, Directive.Clean]
  have haction : (r.widen g').action (d.withGuard g').alphabet (n + 1) write move
      = (r.action d.alphabet (n + 1) write move).map (Directive.mapNames (r.guard.rename g')) := by
    rw [Route.map_action hr hd.declared hd.heads (n + 1) hwrite move]
    rfl
  dsimp only
  rw [← Route.rename_applyState hr, haction]
  apply Follows.hasState_bind hle
  intro b
  split
  . exact directives_follows hle hclean
  . exact Follows.pure id ()

theorem route_follows : Follows g g' id (route r) (route (r.widen g')) := by
  have hsearch := findHeads_follows hle hguard hr
  have happly := applyActions_follows hle hguard hr
  obtain rfl := hguard
  have hrest : Follows r.guard g' id
      (do findHeads r
          applyActions r
          if !(← hasState (r.applyState 0)) then
            directives (r.record (← get).alphabet))
      (do findHeads (r.widen g')
          applyActions (r.widen g')
          if !(← hasState ((r.widen g').applyState 0)) then
            directives ((r.widen g').record (← get).alphabet)) := by
    apply Follows.bind hsearch
    intro _
    apply Follows.bind happly
    intro _
    rw [← Route.rename_applyState hr]
    apply Follows.hasState_bind hle
    intro b
    split
    . apply Follows.get_bind
      intro d hd
      have hrecord : (r.widen g').record (d.withGuard g').alphabet
          = (r.record d.alphabet).map (Directive.mapNames (r.guard.rename g')) := by
        rw [Route.map_record hr hd.declared]
        rfl
      rw [hrecord]
      apply directives_follows hle
      simp [Route.record, Directive.Clean]
    . exact Follows.pure id ()
  have hentry : Follows r.guard g' id (directives r.entry) (directives (r.widen g').entry) := by
    rw [← Route.map_entry hr]
    apply directives_follows hle
    simp [Route.entry, Directive.Clean]
  have hsymbol := addSymbol_follows hle (.inr ⟨r.origin, rfl⟩)
  have hknown := @Follows.hasRule_bind Unit r.guard g' hle (Segment.stepState r.guard)
    (.state r.origin) id
  rw [Segment.rename_stepState] at hknown
  apply hknown
  intro b
  split
  . apply Follows.bind hsymbol
    intro _
    apply Follows.bind hentry
    intro _
    exact hrest
  . exact hrest

end Routes

omit hle in
theorem clean_of_mem_options {patterns : List Pattern}
    (hpatterns : ∀ p ∈ patterns, Guard.Clean p.display) {rest : List Cell}
    (hrest : ∀ c ∈ rest, Guard.Clean c.display) {read : List Cell}
    (hread : read ∈ combinations (patterns.map (Pattern.cells rest))) :
    ∀ c ∈ read, Guard.Clean c.display := by
  intro c hc
  obtain ⟨cells, hcells, hmem⟩ := mem_of_mem_combinations hread c hc
  obtain ⟨p, hp, rfl⟩ := List.mem_map.mp hcells
  exact Pattern.clean_of_mem_cells (hpatterns p hp) hrest c hmem

theorem isKnown_widen {d : Draft} (hd : d.Plain g) {r : Route} (hguard : r.guard = g)
    (hr : r.Clean) : (r.widen g').isKnown (d.withGuard g') = r.isKnown d := by
  obtain rfl := hguard
  have hstates : (d.withGuard g').states = d.states.mapNames (r.guard.rename g') := by
    rw [← hd.guard]
    rfl
  have hreads : (r.widen g').reads = r.reads := rfl
  unfold Route.isKnown
  rw [hstates, hreads]
  cases hlast : r.reads.getLast? with
  | none => rfl
  | some c =>
    have hc : c.tagged.mapNames (r.guard.rename g') = c.tagged :=
      Cell.mapNames_of_clean (Cell.clean_tagged.mpr (hr.reads c (List.mem_of_getLast? hlast)))
    have := StateTables.lookup_mapNames (rename_inj hle) d.states
      (r.findState (r.reads.length - 1)) c.tagged
    rw [hc, Route.rename_findState hr] at this
    dsimp only
    rw [this, Option.isSome_map]

section Joint

variable {read : JointPattern} (hread : read.Clean) {writes : List Writing}
  (hwrites : ∀ w ∈ writes, w.Clean)

include hread hwrites

theorem simulated_follows (origin : String) (moves : List Move) (next : String) :
    Follows g g' id (simulated origin read writes moves next)
      (simulated (g.rename g' origin) read writes moves (g.rename g' next)) := by
  apply Follows.get_bind
  intro d hd
  have hguard : (d.withGuard g').guard = g' := rfl
  have hdeclared : (d.withGuard g').alphabet.declared = d.alphabet.declared := rfl
  have hclean := JointPattern.clean_perTape hread writes.length
  dsimp only
  rw [hguard, hdeclared, hd.guard]
  generalize hreads : combinations ((read.perTape writes.length).map
    (Pattern.cells d.alphabet.declared)) = reads
  have hroutes : ∀ r ∈ reads.map fun reads =>
      (⟨g, origin, reads, Writing.ontoAll writes reads, moves, next⟩ : Route),
      r.guard = g ∧ r.Clean := by
    intro r hr
    obtain ⟨cells, hcells, rfl⟩ := List.mem_map.mp hr
    have hcells := clean_of_mem_options hclean hd.declared (hreads ▸ hcells)
    exact ⟨rfl, hcells, Writing.clean_of_mem_ontoAll hwrites hcells⟩
  have hwiden : (reads.map fun reads =>
      (⟨g', g.rename g' origin, reads, Writing.ontoAll writes reads, moves, g.rename g' next⟩ : Route))
      = (reads.map fun reads =>
        (⟨g, origin, reads, Writing.ontoAll writes reads, moves, next⟩ : Route)).map
          (Route.widen g') := by
    rw [List.map_map]
    rfl
  rw [hwiden]
  generalize (reads.map fun reads =>
    (⟨g, origin, reads, Writing.ontoAll writes reads, moves, next⟩ : Route)) = routes at hroutes
  have hroute : ∀ r ∈ routes, Follows g g' id (route r) (route (r.widen g')) := by
    intro r hr
    obtain ⟨hrguard, hrclean⟩ := hroutes r hr
    exact route_follows hle hrguard hrclean
  split
  . have hfilter : (routes.map (Route.widen g')).filter (fun r => !r.isKnown (d.withGuard g'))
        = (routes.filter fun r => !r.isKnown d).map (Route.widen g') := by
      rw [List.filter_map]
      congr 1
      apply List.filter_congr
      intro r hr
      obtain ⟨hrguard, hrclean⟩ := hroutes r hr
      rw [Function.comp, isKnown_widen hle hd hrguard hrclean]
    rw [hfilter]
    apply Follows.forM
    intro r hr
    exact hroute r (List.mem_filter.mp hr).1
  . exact Follows.forM hroute

omit hread in
theorem jointForCells_follows (origin : String) (reads : List (List Cell)) (moves : List Move)
    (next : String) (source : JointPattern) :
    Follows g g' id (jointForCells origin reads writes moves next source)
      (jointForCells (g.rename g' origin) (reads.map (List.map (Cell.mapNames (g.rename g'))))
        writes moves (g.rename g' next) source) := by
  apply Follows.get_bind
  intro d hd
  have hfeatures : (d.withGuard g').features = d.features := rfl
  have hjoint : (reads.map (List.map (Cell.mapNames (g.rename g')))).map Cell.joint
      = (reads.map Cell.joint).map (Cell.mapNames (g.rename g')) := by
    simp [Function.comp_def]
  dsimp only
  rw [hfeatures, hjoint]
  apply addRules_follows hle
  . simp only [Outcome.mapNames, Writing.map_zipWith_action hwrites]
  . intro c _
    simp only [Outcome.mapNames, Cell.mapNames_components,
      Writing.ontoAll_map_mapNames hwrites, List.map_zipWith, List.zipWith_map_left, Action.mapNames]

omit hread in
theorem jointPerTape_follows {patterns : List Pattern}
    (hpatterns : ∀ p ∈ patterns, Guard.Clean p.display) (origin : String) (moves : List Move)
    (next : String) :
    Follows g g' id (jointPerTape origin patterns writes moves next)
      (jointPerTape (g.rename g' origin) patterns writes moves (g.rename g' next)) := by
  unfold jointPerTape
  cases hexact : Pattern.exactCells? patterns with
  | some cells =>
    have hcells : ∀ c ∈ cells, Guard.Clean c.display := by
      intro c hc
      exact hpatterns _ (Pattern.mem_of_exactCells? hexact c hc)
    have := addExact_follows hle origin (.joint cells)
      ⟨List.zipWith Writing.action writes moves, next⟩
    rwa [Cell.mapNames_tuple, Cell.map_mapNames_of_clean hcells, Outcome.mapNames,
      Writing.map_zipWith_action hwrites] at this
  | none =>
    apply Follows.get_bind
    intro d hd
    obtain rfl := hd.guard
    have hstates : (d.withGuard g').states = d.states.mapNames (d.guard.rename g') := rfl
    have hsymbols : (d.withGuard g').alphabet.symbols
        = d.alphabet.symbols.map (Cell.mapNames (d.guard.rename g')) := rfl
    have hoptions : patterns.map (Pattern.cells (d.withGuard g').alphabet.symbols)
        = (patterns.map (Pattern.cells d.alphabet.symbols)).map
          (List.map (Cell.mapNames (d.guard.rename g'))) := by
      rw [List.map_map, hsymbols]
      apply List.map_congr_left
      intro p hp
      exact Pattern.cells_map_mapNames (hpatterns p hp) d.alphabet.symbols
    have hknown (read : List Cell) : ((d.withGuard g').states.lookup (d.guard.rename g' origin)
        (.joint (read.map (Cell.mapNames (d.guard.rename g'))))).isNone
        = (d.states.lookup origin (.joint read)).isNone := by
      have := StateTables.lookup_mapNames (rename_inj hle) d.states origin (.joint read)
      rw [Cell.mapNames_tuple] at this
      rw [hstates, this, Option.isNone_map]
    dsimp only
    rw [hoptions, combinations_map]
    split
    . rw [List.filter_map]
      simp only [Function.comp_def, hknown]
      exact jointForCells_follows hle hwrites origin _ moves next (.tapes patterns)
    . exact jointForCells_follows hle hwrites origin _ moves next (.tapes patterns)

theorem joint_follows (origin : String) (moves : List Move) (next : String) :
    Follows g g' id (joint origin read writes moves next)
      (joint (g.rename g' origin) read writes moves (g.rename g' next)) := by
  have hpatterns := JointPattern.clean_perTape hread writes.length
  apply Follows.enabled_bind
  intro b
  split
  . have := addWildcard_follows hle origin ⟨List.zipWith Writing.action writes moves, next⟩
    rwa [Outcome.mapNames, Writing.map_zipWith_action hwrites] at this
  . exact jointPerTape_follows hle hwrites hpatterns origin moves next

theorem jointDirect_follows (origin : String) (moves : List Move) (next : String) :
    Follows g g' id (jointTransition.direct ⟨origin, read, writes, moves, next⟩)
      (jointTransition.direct ⟨g.rename g' origin, read, writes, moves, g.rename g' next⟩) := by
  apply Follows.enabled_bind
  intro b
  split
  . exact joint_follows hle hread hwrites origin moves next
  . exact simulated_follows hle hread hwrites origin moves next

end Joint

theorem jointTransition_go_follows (n : Nat) (origin : String) {read : JointPattern}
    (hread : read.Clean) {writes : List Writing} (hwrites : ∀ w ∈ writes, w.Clean)
    (moves : List Move) (next : String) :
    Follows g g' id (jointTransition.go n ⟨origin, read, writes, moves, next⟩)
      (jointTransition.go n ⟨g.rename g' origin, read, writes, moves, g.rename g' next⟩) := by
  induction n generalizing origin read writes moves next with
  | zero => exact jointDirect_follows hle hread hwrites origin moves next
  | succ n ih =>
    apply Follows.enabled_bind
    intro b
    apply Follows.enabled_bind
    intro b'
    dsimp only
    split
    . have hremaining : Guard.Clean (joined "," ((moves.map Move.rest).map Move.display)) := by
        rw [Guard.clean_joined (by decide), List.forall_mem_map]
        intro m _
        exact Guard.clean_move m
      have hchain := chain_follows hle
        ⟨.jointMove, [joined "," ((moves.map Move.rest).map Move.display), next]⟩
        [joined "," ((moves.map Move.rest).map Move.display), next]
      simp only [ChainKey.mapNames, List.map_cons, List.map_nil,
        Guard.rename_of_clean hremaining] at hchain
      have hkeep : ∀ w ∈ writes.map fun _ => Writing.keep, w.Clean := by
        simp [Writing.Clean]
      have hany : JointPattern.any.Clean := by
        unfold JointPattern.Clean
        decide
      apply Follows.bind hchain
      rintro ⟨state, isNew⟩
      have hstep := jointDirect_follows hle hread hwrites origin (moves.map Move.step) state
      dsimp only [Prod.map, id]
      split
      . apply Follows.bind
        . exact ih state hany hkeep (moves.map Move.rest) next
        . intro _
          exact hstep
      . exact hstep
    . exact jointDirect_follows hle hread hwrites origin moves next

end Build

end TuringLowering
