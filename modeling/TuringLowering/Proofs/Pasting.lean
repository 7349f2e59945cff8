import TuringLowering.Proofs.Carrying
import TuringLowering.Proofs.Supply

/-!
This module contains the shifts that are spelled out by states. Whatever was requested before and will be
requested after it, a shift carries the symbol that it reads: a generated state of its own pastes the
symbol, moves as it was asked to and goes on to the next state.
-/

namespace TuringLowering

theorem Guard.Generates.rename {g : Guard} {s : String} (h : g.Generates s) (g' : Guard) :
    g'.Generates (g.rename g' s) := by
  obtain ⟨part, parts, rfl | ⟨suffix, hsuffix, rfl⟩⟩ := h
  . exact ⟨_, _, .inl (Guard.rename_wrap _)⟩
  . refine ⟨g.rename g' part, parts.map (g.rename g'), .inr ⟨suffix, hsuffix, ?_⟩⟩
    rw [rename_append_of_clean _ (clean_chainSuffixes suffix hsuffix), rename_wrap, List.map_cons]

theorem Guard.Generates.occursIn {g : Guard} {s : String} (h : g.Generates s) :
    g.occursIn s = true := by
  have := h.not_free
  rwa [free_iff_not_occursIn, Bool.not_eq_false] at this

theorem Guard.Generates.running {g : Guard} {s : String} (h : g.Generates s) :
    isTerminal s = false := by
  apply isTerminal_of_mem_mark
  obtain ⟨part, parts, rfl | ⟨suffix, _, rfl⟩⟩ := h
  . exact mark_mem_wrap g _
  . rw [String.toList_append]
    exact List.mem_append_left _ (mark_mem_wrap g _)

theorem Relay.generates (g : Guard) (s : Relay) : g.Generates (s.name g) := by
  cases s with
  | continuation m next => exact ⟨_, _, .inl rfl⟩
  | paste c m next => exact ⟨_, _, .inl rfl⟩

theorem RuleTable.lookup_uniform {F : FeatureSet} {symbols : List Cell} {w : Writing} {m : Move}
    {next : String} {c : Cell} (hc : c ∈ symbols) :
    ∃ o, w.Gives m next c o ∧ (uniform F symbols w m next).lookup c = some o := by
  unfold uniform
  split
  . exact ⟨_, .inr rfl, rfl⟩
  . split
    . refine ⟨_, .inr rfl, ?_⟩
      simp [lookup, listed?, hc]
    . refine ⟨_, .inl rfl, ?_⟩
      cases hfind : (symbols.map fun c => (c, Outcome.single (.write (w.onto c) m) next)).find?
          (·.1 = c) with
      | none => exact absurd (List.find?_eq_none.mp hfind _ (List.mem_map_of_mem hc)) (by simp)
      | some rule =>
        obtain ⟨c', _, rfl⟩ := List.mem_map.mp (List.mem_of_find?_eq_some hfind)
        obtain rfl : c' = c := by simpa using List.find?_some hfind
        simp [lookup, listed?, hfind]

namespace Draft

/-- The part of a draft that consists of certain states. -/
def only (P : String → Bool) (d : Draft) : Draft :=
  { d with states := ⟨d.states.entries.filter fun e => P e.1⟩ }

/-- The part of a draft that consists of generated states. -/
abbrev generated (d : Draft) : Draft := d.only d.guard.occursIn

section

variable {d e : Draft} {s s' next : String} {B : List Cell} {w : Writing} {m : Move} {P : String → Bool}

theorem find?_only (s : String) :
    (d.only P).states.find? s = if P s then d.states.find? s else none := by
  change ((d.states.entries.filter _).find? _).map _ = _
  rw [List.find?_filter]
  unfold StateTables.find?
  split
  . next h =>
    congr 2
    funext e
    by_cases he : e.1 = s
    . simp [he, h]
    . simp [he]
  . next h =>
    rw [Option.map_eq_none_iff, List.find?_eq_none]
    intro e _
    simp only [decide_eq_true_eq, not_and]
    rintro hP rfl
    exact h hP

theorem lookup_only (h : P s = true) (c : Cell) : (d.only P).states.lookup s c = d.states.lookup s c := by
  rw [StateTables.lookup, find?_only, if_pos h, StateTables.lookup]

theorem of_lookup_only {c : Cell} {o : Outcome} (h : (d.only P).states.lookup s c = some o) :
    P s = true ∧ d.states.lookup s c = some o := by
  rw [StateTables.lookup, find?_only] at h
  split at h
  . next hP => exact ⟨hP, h⟩
  . cases h

theorem only_below (P : String → Bool) (d : Draft) : (d.only P).Below d :=
  ⟨fun _ => id, fun _ _ _ h => (of_lookup_only h).2⟩

theorem iterate_next_of_only {x y : String × Tape} (h : Relation.TransGen (d.only P).Step x y) :
    ∃ k, d.compile.next^[k] ⟨x.1, [x.2]⟩ = ⟨y.1, [y.2]⟩
      ∧ ∀ j < k, isTerminal (d.compile.next^[j] ⟨x.1, [x.2]⟩).state = false
        ∧ P (d.compile.next^[j] ⟨x.1, [x.2]⟩).state = true := by
  have hsource {x y : String × Tape} (h : (d.only P).Step x y) :
      isTerminal x.1 = false ∧ P x.1 = true := by
    cases h with
    | rule running _ lookup => exact ⟨running, (of_lookup_only lookup).1⟩
  induction h with
  | single h =>
    refine ⟨1, next_of_step ((d.only_below P).step h), ?_⟩
    intro j hj
    obtain rfl : j = 0 := by omega
    exact hsource h
  | tail _ h ih =>
    obtain ⟨k, hk, hinner⟩ := ih
    refine ⟨k + 1, ?_, ?_⟩
    . rw [Function.iterate_succ_apply', hk, next_of_step ((d.only_below P).step h)]
    . intro j hj
      rcases Nat.lt_succ_iff_lt_or_eq.mp hj with hj | rfl
      . exact hinner j hj
      . rw [hk]
        exact hsource h

def Ruled (d : Draft) (B : List Cell) (s : String) (w : Writing) (m : Move) (next : String) : Prop :=
  ∀ c ∈ B, ∃ o, w.Gives m next c o ∧ d.states.lookup s c = some o

theorem Ruled.only (h : d.Ruled B s w m next) (hs : P s = true) : (d.only P).Ruled B s w m next := by
  intro c hc
  rw [lookup_only hs]
  exact h c hc

theorem Ruled.reaches (h : d.Ruled B s w m next) (hrunning : isTerminal s = false)
    (haccepts : ∀ c ∈ B, d.alphabet.accepts c = true) {v : View} (hv : v.focus ∈ B) :
    d.Reaches s v next ((v.write (w.onto v.focus)).move m) := by
  obtain ⟨o, ho, hlookup⟩ := h v.focus hv
  obtain ⟨a, rfl, hview⟩ := ho.view_apply
  apply Reaches.of_rule hrunning (haccepts _ hv) hlookup
  rintro t rfl
  rw [hview t (Tape.focus_view t).symm]

theorem Ruled.mono (h : d.Ruled B s w m next) (he : d.Below e) : e.Ruled B s w m next := by
  intro c hc
  obtain ⟨o, ho, hlookup⟩ := h c hc
  exact ⟨o, ho, he.lookup s c o hlookup⟩

theorem Ruled.later (hs : d.Ruled B s w m next) (h : d.Later e) :
    e.Ruled (B.map (Cell.mapNames (d.guard.rename e.guard))) (d.guard.rename e.guard s)
      (w.mapNames (d.guard.rename e.guard)) m (d.guard.rename e.guard next) := by
  simp only [Ruled, List.forall_mem_map]
  intro c hc
  obtain ⟨o, ho, hlookup⟩ := hs c hc
  refine ⟨_, ?_, h.lookup s c o hlookup⟩
  rcases ho with rfl | rfl
  . left
    rw [Outcome.mapNames_single, Action.mapNames, ← Writing.onto_mapNames]
  . right
    rw [Outcome.mapNames_single, ← Writing.action_mapNames]

theorem Later.ruled (h : d.Later e) (hB : ∀ c ∈ B, c.mapNames (d.guard.rename e.guard) = c)
    (hw : w.mapNames (d.guard.rename e.guard) = w) (hs : d.Ruled B s w m next) :
    e.Ruled B (d.guard.rename e.guard s) w m (d.guard.rename e.guard next) := by
  have := hs.later h
  rwa [hw, List.map_congr_left (g := id) hB, List.map_id] at this

/-- The rules of generated states by which a symbol is written and a movement made, step by step. -/
inductive Relays (d : Draft) (B : List Cell) : String → Writing → Move → String → Prop where
  | last {s : String} {w : Writing} {m : Move} {next : String} (generates : d.guard.Generates s)
    (ruled : d.Ruled B s w m next) : Relays d B s w m next
  | more {s s' : String} {w : Writing} {m : Move} {next : String} (generates : d.guard.Generates s)
    (long : m.distance ≠ 1) (ruled : d.Ruled B s w m.detour.1 s')
    (rest : Relays d B s' .keep m.detour.2 next) : Relays d B s w m next

namespace Relays

theorem reaches (h : d.Relays B s w m next) (haccepts : ∀ c ∈ B, d.alphabet.accepts c = true)
    {v : View} (hv : v.focus ∈ B) (hclear : (v.write (w.onto v.focus)).Clear B m) :
    d.generated.Reaches s v next ((v.write (w.onto v.focus)).move m) := by
  induction h generalizing v with
  | last hs hruled => exact (hruled.only hs.occursIn).reaches hs.running haccepts hv
  | more hs hlong hruled _ ih =>
    obtain ⟨hfocus, hrest⟩ := hclear.detour hlong
    have hkeep (v : View) : v.write (Writing.keep.onto v.focus) = v := v.write_focus
    have hlast := ih hfocus (by rwa [hkeep])
    rw [hkeep, View.move_detour] at hlast
    exact ((hruled.only hs.occursIn).reaches hs.running haccepts hv).trans hlast

theorem exists_ruled (h : d.Relays B s w m next) : ∃ m' s', d.Ruled B s w m' s' := by
  cases h with
  | last _ hruled => exact ⟨_, _, hruled⟩
  | more _ _ hruled _ => exact ⟨_, _, hruled⟩

theorem later (h : d.Relays B s w m next) (he : d.Later e)
    (hB : ∀ c ∈ B, c.mapNames (d.guard.rename e.guard) = c)
    (hw : w.mapNames (d.guard.rename e.guard) = w) :
    e.Relays B (d.guard.rename e.guard s) w m (d.guard.rename e.guard next) := by
  induction h with
  | last hs hruled => exact .last (hs.rename _) (he.ruled hB hw hruled)
  | more hs hlong hruled _ ih => exact .more (hs.rename _) hlong (he.ruled hB hw hruled) (ih rfl)

end Relays

theorem Stocked.relays {b : Draft} {C : Cell → Prop} (h : d.Stocked b C fun _ => False)
    (hb : b.Grounds C) (hne : b.alphabet.symbols ≠ []) {s : Relay} (hs : s.Within C)
    (hmem : s.key ∈ d.keys) : ∃ r : Relay, r.Within C ∧ r.key = s.key
      ∧ d.Relays b.alphabet.symbols (s.name b.guard) r.writing s.move s.next := by
  -- A detour leaves less to be done than there was.
  generalize hweight : s.move.weight = n
  induction n using Nat.strongRecOn generalizing s with
  | ind n ih =>
    obtain ⟨r, hr, hkey, hfind⟩ := h.stocked s hs hmem not_false
    obtain ⟨hmove, hnext⟩ := Relay.same_of_key hkey
    have hgenerates : d.guard.Generates (s.name b.guard) := by
      rw [h.guard]
      exact s.generates _
    have hruled {m : Move} {next : String}
        (htable : r.table b = some (.uniform b.features b.alphabet.symbols r.writing m next)) :
        d.Ruled b.alphabet.symbols (s.name b.guard) r.writing m next := by
      intro c hc
      obtain ⟨o, ho, hlookup⟩ := @RuleTable.lookup_uniform b.features _ r.writing m next c hc
      refine ⟨o, ho, ?_⟩
      rw [StateTables.lookup, hfind, htable]
      exact hlookup
    have htable := @Relay.table_eq b C r hb hne
    rw [Relay.rest?_of_key hkey, hmove, hnext] at htable
    refine ⟨r, hr, hkey, ?_⟩
    by_cases hsupports : b.features.supports s.move = true
    . have hrest : s.rest? b.features = none := by rw [Relay.rest?, if_pos hsupports]
      rw [if_pos hsupports, hrest] at htable
      exact .last hgenerates (hruled htable)
    . have hrest : s.rest? b.features = some (.continuation s.move.detour.2 s.next) := by
        rw [Relay.rest?, if_neg hsupports]
      have hlong := Move.distance_ne_one_of_not_supports hsupports
      rw [if_neg hsupports, hrest] at htable
      obtain ⟨hrestMem, _⟩ := h.closed s hs hmem not_false _ hrest
      obtain ⟨r', _, hkey', hrelays⟩ := ih _ (hweight ▸ Move.weight_detour_lt hlong)
        (Relay.within_of_rest? hrest) hrestMem rfl
      have hkeep : r'.writing = .keep := by
        cases r' with
        | continuation m next => rfl
        | paste c m next => simp [Relay.key] at hkey'
      rw [hkeep] at hrelays
      exact .more hgenerates hlong (hruled htable) hrelays

end

end Draft

namespace Build

variable {b d d' : Draft} {C : Cell → Prop} {origin next : String} {m : Move}

theorem transition_of_supports (hm : d.features.supports m = true) (origin : String) (read : Pattern)
    (w : Writing) (next : String) :
    transition origin read w m next d = direct origin read w m next d := by
  obtain ⟨n, hn⟩ : ∃ n, max 1 m.distance = n + 1 := ⟨max 1 m.distance - 1, by omega⟩
  rw [transition, hn, transition_go_succ, if_pos hm]

theorem transition_of_distance (hm : m.distance = 1) (origin : String) (read : Pattern) (w : Writing)
    (next : String) (d : Draft) :
    transition origin read w m next d = direct origin read w m next d :=
  transition_of_supports (FeatureSet.supports_of_distance hm) origin read w next

theorem direct_cell_cases (s : String) (c : Cell) (w : Writing) (m : Move) (next : String) (d : Draft) :
    (∃ e, direct s (.cell c) w m next d = .ok () e ∧ d.Adds s (.cell c) (w.Gives m next) e)
      ∨ ((∃ err e, direct s (.cell c) w m next d = .error err e
          ∧ d.Adds s (.oneOf []) (w.Gives m next) e)
        ∧ (d.states.lookup s c = none → d.alphabet.accepts c = false)) := by
  cases hdirect : direct s (.cell c) w m next d with
  | ok _ e => exact .inl ⟨e, rfl, direct_adds hdirect⟩
  | error err e =>
    right
    obtain rfl := eq_of_addRule_error hdirect
    refine ⟨⟨err, _, rfl, .of_addState rfl⟩, ?_⟩
    intro hnone
    rw [Bool.eq_false_iff]
    intro haccepts
    obtain ⟨e, he⟩ := exists_addRule_exact hnone haccepts (.single (.write (w.onto c) m) next)
    cases hdirect.symm.trans he

def carry (origin : String) (m : Move) (next : String) (c : Cell) : Build Unit :=
  (Relay.paste c m next).provide (max 1 m.distance) >>= fun paste =>
    transition origin (.cell c) (.put .blank) .right paste

theorem shiftChain_apply (origin : String) (read : Pattern) (m : Move) (next : String) (d : Draft) :
    shiftChain origin read m next d
      = (read.cells (d.uncovered origin)).forM (carry origin m next) d := by
  rw [shiftChain, bind_of_ok (get_apply d)]
  apply congrArg fun f : Cell → Build Unit => (read.cells (d.uncovered origin)).forM f d
  funext c
  exact (Relay.provide_bind _ (.paste c m next) _).symm

theorem carry_amends {d₀ : Draft} (c : Cell) :
    Maintains (d₀.Amends fun _ => True) (carry origin m next c) := by
  have hcarry (paste : String) : Maintains (d₀.Amends fun _ => True)
      (transition origin (.cell c) (.put .blank) .right paste) :=
    transition_amends trivial (fun _ => trivial) _ _ _
  rw [carry, Relay.provide_bind]
  apply chain_bind_maintains (fun _ hd => hd.guard) (chain_amends _ _)
  . exact hcarry
  . exact .bind (transition_go_amends _ trivial (fun _ => trivial) _ _ _) fun _ => hcarry _

section

variable (hb : b.Grounds C) (horigin : ∀ s : Relay, s.Within C → origin ≠ s.name b.guard)
include hb horigin

theorem carry_eq_ok {c : Cell} (hd : d.Stocked b C fun _ => False) (hc : C c)
    (h : carry origin m next c d = .ok () d') :
    (d'.Stocked b C fun _ => False) ∧ (Relay.paste c m next).key ∈ d'.keys
      ∧ d'.states.lookup origin c = some (.single (.write .blank .right)
        ((Relay.paste c m next).name b.guard)) := by
  obtain ⟨e, hprovide, hstocked, _, hmem⟩ :=
    hd.exists_provide hb (s := .paste c m next) hc (Relay.weight_le m)
  rw [carry, bind_of_ok hprovide, transition_of_distance rfl] at h
  have hadds := direct_adds h
  refine ⟨hstocked.of_states hadds.rest fun s hs => hadds.other _ (horigin s hs).symm, ?_, ?_⟩
  . rw [Draft.keys, hadds.chains]
    exact hmem
  . obtain ⟨o, ho, hlookup⟩ := hadds.new c rfl (by simp) (hadds.free (by simp) c rfl)
    rcases ho with rfl | rfl <;> exact hlookup

theorem shiftChain_eq_ok {read : Pattern} (hd : d.Stocked b C fun _ => False)
    (hread : ∀ c ∈ read.cells (d.uncovered origin), C c)
    (h : shiftChain origin read m next d = .ok () d') :
    (d'.Stocked b C fun _ => False) ∧ ∀ c ∈ read.cells (d.uncovered origin),
      (Relay.paste c m next).key ∈ d'.keys
        ∧ d'.states.lookup origin c = some (.single (.write .blank .right)
          ((Relay.paste c m next).name b.guard)) := by
  rw [shiftChain_apply] at h
  generalize read.cells (d.uncovered origin) = cells at h hread
  induction cells generalizing d with
  | nil =>
    cases h
    exact ⟨hd, List.forall_mem_nil _⟩
  | cons c cells ih =>
    rw [List.forall_mem_cons] at hread
    rw [forM_cons_eq_ok] at h
    obtain ⟨d₁, hcarry, hcells⟩ := h
    obtain ⟨hstocked, hmem, hlookup⟩ := carry_eq_ok hb horigin hd hread.1 hcarry
    obtain ⟨hstocked', hall⟩ := ih hstocked hcells hread.2
    have hamends : d₁.Amends (fun _ => True) d' :=
      (Maintains.forM fun c _ => carry_amends c).of_ok (.refl d₁) hcells
    refine ⟨hstocked', List.forall_mem_cons.mpr ⟨⟨?_, hamends.lookup _ _ _ hlookup⟩, hall⟩⟩
    obtain ⟨e, he, hkey⟩ := List.mem_map.mp hmem
    exact List.mem_map.mpr ⟨e, hamends.chains e he, hkey⟩

end

end Build

namespace Draft

variable {d d' e : Draft} {C : Cell → Prop} {origin next : String} {read : Pattern} {m : Move}

/-- The cells that states may be named for: the symbols, and what it was asked to shift. -/
def Carried (d : Draft) (rs : List Request) (c : Cell) : Prop :=
  c ∈ d.alphabet.symbols ∨ ∃ r ∈ rs, c ∈ r.carried

theorem avoid_withTapes (d : Draft) (use : TapeUse) (name : String) :
    avoid { d with tapes := use } name = { d.avoid name with tapes := use } := by
  have hguard : ({ d with tapes := use } : Draft).guard.occursIn name = d.guard.occursIn name := rfl
  rw [avoid, avoid, hguard]
  cases d.guard.occursIn name <;> rfl

theorem features_avoid (d : Draft) (name : String) : (d.avoid name).features = d.features := by
  unfold avoid
  split <;> rfl

theorem features_avoidBoth (d : Draft) (a b : String) : (d.avoidBoth a b).features = d.features := by
  rw [avoidBoth, features_avoid, features_avoid]

/-- The draft that a gadget is added to: the names in the request are avoided before. -/
def readied (d : Draft) (origin next : String) : Draft :=
  { d.avoidBoth origin next with tapes := .single }

theorem Supplies.readied (hd : d.Supplies C) (hC : ∀ c, C c → c.Lasting) (origin next : String) :
    (d.readied origin next).Supplies C :=
  ((hd.avoid hC origin).avoid hC next).withTapes .single

theorem Supplies.of_mem_cells (hd : d.Supplies C) (hread : ∀ c ∈ read.cells [], C c) (origin : String) :
    ∀ c ∈ read.cells (d.uncovered origin), C c := by
  cases read with
  | cell c => exact hread
  | oneOf cells => exact hread
  | any => exact fun c hc => hd.symbols c (mem_uncovered.mp hc).1

theorem Supplies.alphabet_readied (hd : d.Supplies C) (hC : ∀ c, C c → c.Lasting)
    (origin next : String) : (d.readied origin next).alphabet = d.alphabet :=
  ((hd.avoid hC origin).alphabet_avoid hC next).trans (hd.alphabet_avoid hC origin)

theorem free_readied (d : Draft) (origin next : String) : (d.readied origin next).guard.Free origin :=
  (d.free_avoidBoth origin next).1

theorem enabled_readied {f : Feature} (hoff : d.features.enabled f = false) (origin next : String) :
    (d.readied origin next).features.enabled f = false :=
  (congrArg (FeatureSet.enabled · f) (d.features_avoidBoth origin next)).trans hoff

theorem submit_gadget (htapes : ∀ n, d.tapes ≠ .multi n) (origin : String) (read : Pattern)
    (x : Gadget) (next : String) :
    Build.submit (.directive (.gadget origin read x next)) d
      = Build.gadget origin read x next (d.readied origin next) := by
  have hclaim : avoidBoth { d with tapes := .single } origin next = d.readied origin next :=
    (congrArg (·.avoid next) (avoid_withTapes d .single origin)).trans
      (avoid_withTapes (d.avoid origin) .single next)
  rw [Build.submit, Build.userDirective, Build.bind_of_ok (Build.claimSingleTape_apply _ htapes),
    ← hclaim]
  rfl

theorem submit_of_multi {n : Nat} (htapes : d.tapes = .multi n) (x : Directive) :
    ∃ call, Build.submit (.directive x) d = .error (.needsSingleTape call) d := by
  have hclaim (call : Call) : Build.claimSingleTape call d = .error (.needsSingleTape call) d := by
    rw [Build.claimSingleTape, Build.bind_of_ok (Build.get_apply d), htapes]
    rfl
  cases x with
  | transition origin read w m next => exact ⟨.transition, Build.bind_of_error (hclaim _) _⟩
  | gadget origin read x next => exact ⟨.gadget, Build.bind_of_error (hclaim _) _⟩

theorem not_multi_of_gadget {x : Gadget}
    (h : (Build.submit (.directive (.gadget origin read x next))).succeeds d = true) (n : Nat) :
    d.tapes ≠ .multi n := by
  intro htapes
  obtain ⟨call, herror⟩ := submit_of_multi htapes (.gadget origin read x next)
  rw [Build.succeeds, herror] at h
  cases h

theorem submit_gadget_amends {x : Gadget} (htapes : ∀ n, d.tapes ≠ .multi n)
    (hok : Build.submit (.directive (.gadget origin read x next)) d = .ok () d') :
    Amends (fun _ => True) (d.readied origin next) d' := by
  rw [submit_gadget htapes] at hok
  exact (Build.directive_amends (fun _ _ => trivial) trivial).of_ok
    (x := Build.directive (.gadget origin read x next)) (.refl _) hok

theorem free_of_gadget {x : Gadget} (htapes : ∀ n, d.tapes ≠ .multi n)
    (hok : Build.submit (.directive (.gadget origin read x next)) d = .ok () d') :
    d'.guard.Free origin ∧ d'.guard.Free next := by
  have hguard : d'.guard = (d.avoidBoth origin next).guard := (submit_gadget_amends htapes hok).guard
  rw [hguard]
  exact d.free_avoidBoth origin next

theorem accepts_of_gadget {x : Gadget} (hC : ∀ c, C c → c.Lasting) (hd : d.Supplies C)
    (htapes : ∀ n, d.tapes ≠ .multi n)
    (hok : Build.submit (.directive (.gadget origin read x next)) d = .ok () d') (he : d'.Later e)
    {c : Cell} (hc : c ∈ d.alphabet.symbols) : e.alphabet.accepts c = true := by
  have hamends := submit_gadget_amends htapes hok
  have haccepts := he.accepts c (hamends.below.accepts c (by
    rw [hd.alphabet_readied hC]
    exact hd.orderly.accepts c hc))
  rwa [(hC c (hd.symbols c hc)).kept] at haccepts

section

variable (hC : ∀ c, C c → c.Lasting) (hd : d.Supplies C) (htapes : ∀ n, d.tapes ≠ .multi n)
  (hread : ∀ c ∈ read.cells [], C c) (hoff : d.features.enabled .gadgetShift = false)
  (hok : Build.submit (.directive (.gadget origin read (.shift m) next)) d = .ok () d')
include hC hd htapes hread hoff hok

theorem exists_relays_of_shift {c : Cell}
    (hc : c ∈ read.cells ((d.avoidBoth origin next).uncovered origin)) :
    ∃ (c' : Cell) (paste : String), C c' ∧ c'.display = c.display
      ∧ d'.states.lookup origin c = some (.single (.write .blank .right) paste)
      ∧ d'.Relays d.alphabet.symbols paste (.put c') m next := by
  have hsupplies := hd.readied hC origin next
  have hfeatures : (d.readied origin next).features.enabled (Gadget.shift m).kind.feature = false :=
    enabled_readied hoff origin next
  rw [submit_gadget htapes, Build.gadget, Build.bind_of_ok (Build.enabled_apply _ _),
    if_neg (by simp [hfeatures])] at hok
  have hread' := hsupplies.of_mem_cells hread origin
  obtain ⟨hstocked, hall⟩ := Build.shiftChain_eq_ok (hsupplies.grounds hC)
    (fun s _ => Guard.Belongs.self.ne_relay (d.free_readied origin next) s) hsupplies.stocked hread' hok
  obtain ⟨hmem, hlookup⟩ := hall c hc
  have hwithin : (Relay.paste c m next).Within C := hread' c hc
  obtain ⟨r, hr, hkey, hrelays⟩ := hstocked.relays (hsupplies.grounds hC) hsupplies.symbols_ne_nil
    hwithin hmem
  cases r with
  | continuation m' next' => simp [Relay.key] at hkey
  | paste c' m' next' =>
    simp only [Relay.key, ChainKey.mk.injEq, List.cons.injEq, true_and] at hkey
    have halphabet : (d.readied origin next).bare.alphabet = d.alphabet :=
      hd.alphabet_readied hC origin next
    rw [halphabet] at hrelays
    exact ⟨c', _, hr, hkey.1, hlookup, hrelays⟩

theorem exists_relays_later (he : d'.Later e) {c : Cell} (hsymbol : c ∈ d.alphabet.symbols)
    (hdistinct : ∀ c', C c' → c'.display = c.display → c' = c)
    (hc : c ∈ read.cells ((d.avoidBoth origin next).uncovered origin)) :
    ∃ paste, e.states.lookup origin c = some (.single (.write .blank .right) paste)
      ∧ e.Relays d.alphabet.symbols paste (.put c) m next := by
  obtain ⟨c', paste, hc', hdisplay, hlookup, hrelays⟩ :=
    exists_relays_of_shift hC hd htapes hread hoff hok hc
  obtain rfl := hdistinct c' hc' hdisplay
  obtain ⟨horigin, hnext⟩ := free_of_gadget htapes hok
  have hkept (b : Cell) (hb : b ∈ d.alphabet.symbols) := (hC b (hd.symbols b hb)).kept d'.guard e.guard
  refine ⟨d'.guard.rename e.guard paste, ?_, ?_⟩
  . have := he.lookup origin c' _ hlookup
    rwa [hkept c' hsymbol, Guard.rename_of_free horigin] at this
  . have := hrelays.later he hkept (congrArg Writing.put (hkept c' hsymbol))
    rwa [Guard.rename_of_free hnext] at this

end

theorem supplies_carried {start : String} {rs rs₀ : List Request}
    (hd : d = (new start).receive rs) (hrs : rs ⊆ rs₀) (hC : ∀ c, d.Carried rs₀ c → c.Lasting)
    (htapes : ∀ n, d.tapes ≠ .multi n)
    (hatoms : ∀ c ∈ d.alphabet.symbols, ∃ mark tag, c = .atom mark tag) :
    d.Supplies (d.Carried rs₀) := by
  have hrs' : ∀ r ∈ rs, ∀ c ∈ r.carried, d.Carried rs₀ c := fun r hr c hc => .inr ⟨r, hrs hr, hc⟩
  have hatoms' : d.alphabet.Atoms (d.Carried rs₀) := fun c hc => ⟨.inl hc, hatoms c hc⟩
  generalize d.Carried rs₀ = C at hC hrs' hatoms'
  subst hd
  exact supplies_receive hC start hrs' htapes hatoms'

theorem later_of_gadget {start : String} {rs : List Request} {r : Request} {x : Gadget}
    (hd : d = (new start).receive rs) (hr : r = .directive (.gadget origin read x next))
    (hok : (Build.submit r).succeeds d = true) (rs' : List Request) :
    ((Build.submit r).after d).Later ((new start).receive (rs ++ r :: rs')) := by
  have hsubmit := Build.eq_ok_of_succeeds hok
  rw [receive_append, ← hd, receive_cons]
  apply later_receive
  subst hr
  rw [(submit_gadget_amends (not_multi_of_gadget hok) hsubmit).tapes]
  nofun

theorem lookup_compile {s : String} {c : Cell} {o : Outcome}
    (haccepts : d.alphabet.accepts c = true) (h : d.states.lookup s c = some o) :
    d.compile.lookup s c = o := by
  have hrule : d.compile.rule? s c = some o := (if_pos haccepts).trans h
  rw [Machine.lookup, hrule, Option.getD_some]

end Draft

theorem Tape.cellAt_mem {B : List Cell} (hblank : .blank ∈ B) {t : Tape} (h : ∀ c ∈ t.cells, c ∈ B)
    (i : Nat) : t.cellAt i ∈ B := by
  rw [cellAt, List.getD_eq_getElem?_getD]
  cases hi : t.cells[i]? with
  | none => exact hblank
  | some c => exact h c (List.mem_of_getElem? hi)

theorem Draft.Relays.reaches_carried {d : Draft} {B : List Cell} {paste next : String} {m : Move}
    {v : View} (h : d.Relays B paste (.put v.focus) m next) (hblank : .blank ∈ B)
    (haccepts : ∀ c ∈ B, d.alphabet.accepts c = true) (hv : ∀ i, v.cells i ∈ B) :
    d.generated.Reaches paste ((v.write .blank).move .right) next (v.carryRight.move m) := by
  have hfocus : ((v.write .blank).move .right).focus ∈ B := by
    change (if v.position + 1 = v.position then _ else v.cells (v.position + 1)) ∈ B
    rw [if_neg (by omega)]
    exact hv _
  apply h.reaches haccepts hfocus
  apply View.clear_of_forall
  intro i
  change v.carryRight.cells i ∈ B
  rw [View.cells_carryRight]
  split
  . exact hv _
  . split
    . exact hblank
    . exact hv i

/--
A shift that is spelled out by states pastes the symbol that it reads, if the cells that states are named
for contain no guard character, single characters apart, and no two of them are written alike.
-/
theorem shift_pastes_symbol_read {start origin next : String} {read : Pattern} {m : Move}
    {rs rs' : List Request} {d : Draft} (hd : d = (Draft.new start).receive rs)
    {x : Request} (hx : x = .directive (.gadget origin read (.shift m) next))
    (hliteral : ∀ c ∈ d.alphabet.symbols, c = .blank ∨ ∃ text, c = .literal text)
    (hnamed : ∀ c, d.Carried (rs ++ [x]) c → Guard.Clean c.display ∨ c.IsLetter)
    (hdistinct : ∀ c ∈ d.alphabet.symbols, ∀ c', d.Carried (rs ++ [x]) c' →
      c'.display = c.display → c' = c)
    (hoff : d.features.enabled .gadgetShift = false) (hok : (Build.submit x).succeeds d = true)
    {t : Tape} (ht : ∀ c ∈ t.cells, c ∈ d.alphabet.symbols)
    (hread : t.focus ∈ read.cells ((d.avoidBoth origin next).uncovered origin)) :
    let e := (Draft.new start).receive (rs ++ x :: rs')
    ∃ (paste : String) (k : Nat) (t' : Tape),
      -- The cell is blanked, and the head moves to the right.
      e.compile.lookup origin t.focus = .single (.write .blank .right) paste
      ∧ (isTerminal origin = false →
        e.compile.next ⟨origin, [t]⟩ = ⟨paste, [(t.write .blank).move .right]⟩)
      -- Whatever is there, the symbol that was read is written over it.
      ∧ (∀ c ∈ d.alphabet.symbols, ∃ m' s,
        e.compile.lookup paste c = .single (.write t.focus m') s)
      -- The next state is reached through generated states only.
      ∧ e.compile.next^[k] ⟨paste, [(t.write .blank).move .right]⟩ = ⟨next, [t']⟩
      ∧ (∀ j < k, e.guard.occursIn
        (e.compile.next^[j] ⟨paste, [(t.write .blank).move .right]⟩).state = true)
      ∧ e.guard.occursIn next = false
      ∧ t'.view = ((Action.shift m).apply t).view := by
  intro e
  have hlater : ((Build.submit x).after d).Later e := Draft.later_of_gadget hd hx hok rs'
  have hsubmit := Build.eq_ok_of_succeeds hok
  have htapes : ∀ n, d.tapes ≠ .multi n := Draft.not_multi_of_gadget (hx ▸ hok)
  have hC (c : Cell) (hc : d.Carried (rs ++ [x]) c) : c.Lasting :=
    (hnamed c hc).elim .of_clean Cell.IsLetter.lasting
  have hsupplies : d.Supplies (d.Carried (rs ++ [x])) := by
    apply Draft.supplies_carried hd (List.subset_append_left rs [x]) hC htapes
    intro c hc
    obtain rfl | ⟨text, rfl⟩ := hliteral c hc
    . exact ⟨_, _, rfl⟩
    . exact ⟨_, _, rfl⟩
  have hcarried : ∀ c ∈ read.cells [], d.Carried (rs ++ [x]) c := by
    intro c hc
    refine .inr ⟨x, List.mem_append_right _ (List.mem_singleton_self x), ?_⟩
    rw [hx]
    exact hc
  clear_value e
  subst hx
  have hfocus := ht _ (List.mem_append_right _ List.mem_cons_self : t.focus ∈ t.cells)
  have haccepts (c : Cell) (hc : c ∈ d.alphabet.symbols) : e.alphabet.accepts c = true :=
    Draft.accepts_of_gadget hC hsupplies htapes hsubmit hlater hc
  obtain ⟨paste, hlookup, hrelays⟩ := Draft.exists_relays_later hC hsupplies htapes hcarried hoff
    hsubmit hlater hfocus (hdistinct _ hfocus) hread
  have hrule := Draft.lookup_compile (haccepts _ hfocus) hlookup
  -- What is seen of the tape consists of symbols, so that no relay is left without a rule.
  have hcells : ∀ i, t.view.cells i ∈ d.alphabet.symbols := Tape.cellAt_mem hsupplies.blank ht
  have hview : ((t.write .blank).move .right).view = (t.view.write .blank).move .right := by
    rw [Tape.view_move, Tape.view_write]
  obtain ⟨t', ht', hsteps⟩ := Draft.Relays.reaches_carried (v := t.view)
    (by rwa [Tape.focus_view]) hsupplies.blank haccepts hcells _ hview
  obtain ⟨k, hk, hinner⟩ := Draft.iterate_next_of_only hsteps
  refine ⟨paste, k, t', hrule, ?_, ?_, hk, fun j hj => (hinner j hj).2, ?_, ?_⟩
  . intro hrunning
    exact Draft.next_of_step (.rule hrunning (haccepts _ hfocus) hlookup)
  . intro c hc
    obtain ⟨m', s, hruled⟩ := hrelays.exists_ruled
    obtain ⟨o, ho, hlookup'⟩ := hruled c hc
    refine ⟨m', s, ?_⟩
    rw [Draft.lookup_compile (haccepts c hc) hlookup']
    rcases ho with rfl | rfl <;> rfl
  . exact Guard.free_iff_not_occursIn.mp ((Draft.free_of_gadget htapes hsubmit).2.mono hlater.size_le)
  . rw [ht', Action.view_shift]

/-- The symbol is a word, the movement needs a detour, and the guard is widened before and after. -/
theorem shift_pastes_word_read :
    let rs : List Request :=
      [ .alphabets [.literal "ab", .literal "c"] [], .features [],
        .directive (.gadget "p" (.cell (.literal "zz")) (.shift .right) "q"), .state "rΩ" ]
    let x : Request := .directive (.gadget "qstart" .any (.shift (.leftBy 2)) "ACCEPT")
    let t : Tape := ⟨[.literal "c"], .literal "ab", [.literal "c"]⟩
    let d := (Draft.new "qstart").receive rs
    let e := (Draft.new "qstart").receive (rs ++ x :: [.state "ΩΩ"])
    ((Draft.new "qstart").answers (rs ++ x :: [.state "ΩΩ"]) = [true, true, false, true, true, true]
      ∧ t.focus ∈ Pattern.cells ((d.avoidBoth "qstart" "ACCEPT").uncovered "qstart") .any)
    ∧ ∃ (paste : String) (k : Nat) (t' : Tape),
      e.compile.lookup "qstart" t.focus = .single (.write .blank .right) paste
      ∧ (isTerminal "qstart" = false →
        e.compile.next ⟨"qstart", [t]⟩ = ⟨paste, [(t.write .blank).move .right]⟩)
      ∧ (∀ c ∈ d.alphabet.symbols, ∃ m' s,
        e.compile.lookup paste c = .single (.write t.focus m') s)
      ∧ e.compile.next^[k] ⟨paste, [(t.write .blank).move .right]⟩ = ⟨"ACCEPT", [t']⟩
      ∧ (∀ j < k, e.guard.occursIn
        (e.compile.next^[j] ⟨paste, [(t.write .blank).move .right]⟩).state = true)
      ∧ e.guard.occursIn "ACCEPT" = false
      ∧ t'.view = ((Action.shift (.leftBy 2)).apply t).view := by
  intro rs x t d e
  have hsymbols : d.alphabet.symbols = [.literal "ab", .literal "c", .blank] := by decide +kernel
  have hrequests : ∀ r ∈ rs ++ [x], ∀ c ∈ r.carried, c = .literal "zz" := by decide
  have hcarried (c : Cell) (hc : d.Carried (rs ++ [x]) c) :
      c ∈ [.literal "ab", .literal "c", Cell.blank, .literal "zz"] := by
    rcases hc with hc | ⟨r, hr, hc⟩
    . rw [hsymbols] at hc
      exact List.mem_append_left [.literal "zz"] hc
    . rw [hrequests r hr c hc]
      decide
  have hclean : ∀ c ∈ [.literal "ab", .literal "c", Cell.blank, .literal "zz"],
      Guard.Clean c.display := by decide
  have hdistinct : ∀ c ∈ [.literal "ab", .literal "c", Cell.blank, .literal "zz"],
      ∀ c' ∈ [.literal "ab", .literal "c", Cell.blank, .literal "zz"],
      c'.display = c.display → c' = c := by decide
  refine ⟨by decide +kernel, ?_⟩
  apply shift_pastes_symbol_read rfl rfl
  . rw [hsymbols]
    simp
  . exact fun c hc => .inl (hclean c (hcarried c hc))
  . exact fun c hc c' hc' => hdistinct c (hcarried c (.inl hc)) c' (hcarried c' hc')
  . decide +kernel
  . decide +kernel
  . decide +kernel
  . decide +kernel

/--
Two symbols that are written alike share the state that pastes them. Two that are guards of different width
do so when the guard was widened in between.
-/
theorem shift_pastes_namesake :
    let shift (origin text : String) : Request :=
      .directive (.gadget origin (.cell (.literal text)) (.shift .left) "ACCEPT")
    let alike : List Request :=
      [ .alphabets [.literal "\x7be\x7d", .literal "S:\x7be\x7d"] [], .features [],
        shift "qstart" "\x7be\x7d", shift "qstart" "S:\x7be\x7d" ]
    let widened : List Request :=
      [ .alphabets [.literal "Ω", .literal "ΩΩ"] [], .features [], shift "p" "Ω", .state "Ω",
        shift "qstart" "ΩΩ" ]
    let run (rs : List Request) (text : String) : Config :=
      ((Draft.new "qstart").receive rs).compile.next^[2] ⟨"qstart", [.ofInput [.literal text]]⟩
    (∀ a ∈ (Draft.new "qstart").answers alike ++ (Draft.new "qstart").answers widened, a = true)
      ∧ (run alike "S:\x7be\x7d").state = "ACCEPT"
      ∧ (run alike "S:\x7be\x7d").tapes = [⟨[], .blank, [.literal "\x7be\x7d", .blank]⟩]
      ∧ (run widened "ΩΩ").state = "ACCEPT"
      ∧ (run widened "ΩΩ").tapes = [⟨[], .blank, [.literal "Ω", .blank]⟩]
      ∧ ∀ text, (Action.shift .left).apply (.ofInput [.literal text])
        = ⟨[], .blank, [.literal text, .blank]⟩ := by
  intro shift alike widened run
  refine ⟨by decide +kernel, by decide +kernel, by decide +kernel, by decide +kernel,
    by decide +kernel, ?_⟩
  intro text
  rfl

end TuringLowering
