import TuringLowering.Proofs.FeatureIndependence
import TuringLowering.Proofs.Pasting

/-!
This module contains the gadgets that carry cells to the right to make room for another one. Spelled out by
states, such a gadget does in many steps what it does in one, whatever was requested before and is
requested after it.
-/

namespace TuringLowering

namespace Guard

/-- The states that write the cell which a chain makes room for. -/
def Inserts (g : Guard) (s : String) : Prop := ∃ part parts, s = g.wrap (part :: parts) ++ "_doInsert"

variable {g : Guard} {s : String}

theorem Inserts.generates (h : g.Inserts s) : g.Generates s := by
  obtain ⟨part, parts, rfl⟩ := h
  exact ⟨part, parts, .inr ⟨"_doInsert", by decide, rfl⟩⟩

theorem Inserts.rename (h : g.Inserts s) (g' : Guard) : g'.Inserts (g.rename g' s) := by
  obtain ⟨part, parts, rfl⟩ := h
  rw [rename_append_of_clean _ (clean_chainSuffixes "_doInsert" (by decide)), rename_wrap, List.map_cons]
  exact ⟨_, _, rfl⟩

end Guard

namespace Draft

def Idle (d : Draft) (base : String) : Prop :=
  ∀ suffix ∈ chainSuffixes, ∀ c, d.states.lookup (base ++ suffix) c = none

/-- Of the states of a chain that carries cells, the one that seeks the end gets the first rule. -/
def Ordered (d : Draft) (base : String) : Prop :=
  d.states.lookup (base ++ "_findEnd") .blank ≠ none ∨ d.Idle base

variable {d e : Draft} {S : String → Prop} {base : String}

theorem Amends.begun (h : d.Amends S e) (hd : d.states.lookup (base ++ "_findEnd") .blank ≠ none) :
    e.states.lookup (base ++ "_findEnd") .blank ≠ none := by
  obtain ⟨o, ho⟩ := Option.ne_none_iff_exists'.mp hd
  rw [h.lookup _ _ _ ho]
  nofun

theorem Ordered.amends (hd : d.Ordered base)
    (h : d.Amends (fun s => ∀ suffix ∈ chainSuffixes, s ≠ base ++ suffix) e) : e.Ordered base := by
  refine hd.imp h.begun fun hidle suffix hsuffix c => ?_
  rw [h.lookup_other fun hne => hne suffix hsuffix rfl]
  exact hidle suffix hsuffix c

theorem Ordered.of_lookup (hd : d.Ordered base)
    (h : ∀ s c, e.states.lookup s c = d.states.lookup s c) : e.Ordered base := by
  unfold Ordered Idle
  simp only [h]
  exact hd

end Draft

namespace Build

open Draft (Amends Ordered)

section

variable {g : Guard} {base part : String} {parts : List String}

theorem maintains_ordered {x : Build Unit} (h : ∀ d₀ : Draft, d₀.guard = g →
      Maintains (d₀.Amends fun s => ∀ suffix ∈ chainSuffixes, s ≠ base ++ suffix) x) :
    Maintains (fun d => d.guard = g ∧ d.Ordered base) x := by
  intro d hd
  have hamends := h d hd.1 d (.refl d)
  exact ⟨hamends.guard.trans hd.1, hd.2.amends hamends⟩

theorem seekEnd_ordered {doShifts : String} {rest : Build Unit}
    (hrest : ∀ d₀ : Draft, Maintains (d₀.Amends fun _ => True) rest) :
    Maintains (fun d => d.guard = g ∧ d.Ordered base)
      (seekEnd (base ++ "_findEnd") doShifts >>= fun _ => rest) := by
  rintro d ⟨hguard, hordered⟩
  have hpass (d₀ : Draft) : Maintains (d₀.Amends fun _ => True) (do
      transition (base ++ "_findEnd") .any .keep .right (base ++ "_findEnd")
      rest) :=
    .bind (transition_amends trivial (fun _ => trivial) _ _ _) fun _ => hrest d₀
  rw [seekEnd, bind_assoc]
  unfold after
  cases hturn : transition (base ++ "_findEnd") (.cell .blank) (.put .blank) .left doShifts d with
  | ok _ d' =>
    rw [bind_of_ok hturn]
    rw [transition_of_distance rfl] at hturn
    have hadds := direct_adds hturn
    obtain ⟨o, _, ho⟩ := hadds.new .blank rfl (by simp) (hadds.free (by simp) .blank rfl)
    have hamends := hpass d' d' (.refl d')
    refine ⟨hamends.guard.trans (hadds.guard.trans hguard), .inl (hamends.begun ?_)⟩
    rw [ho]
    exact Option.some_ne_none o
  | error e d' =>
    rw [bind_of_error hturn]
    rw [transition_of_distance rfl] at hturn
    obtain rfl := eq_of_addRule_error hturn
    refine ⟨hguard, hordered.of_lookup fun s c => ?_⟩
    rw [StateTables.lookup_eq, StateTables.table_ensure, StateTables.lookup_eq]

theorem wrap_ne_part (part' : String) (parts' : List String) :
    ∀ suffix ∈ chainSuffixes, g.wrap (part' :: parts') ≠ base ++ suffix := by
  intro suffix hsuffix heq
  apply Guard.getLast?_append_suffix base hsuffix
  rw [← heq]
  exact Guard.getLast?_wrap g part' parts'

variable (hbase : base = g.wrap (part :: parts)) {origin : String} (horigin : g.Free origin)
include hbase horigin

theorem origin_ne_part : ∀ suffix ∈ chainSuffixes, origin ≠ base ++ suffix := by
  rintro suffix hsuffix rfl
  rw [hbase] at horigin
  exact Guard.Generates.not_free ⟨part, parts, .inr ⟨suffix, hsuffix, rfl⟩⟩ horigin

theorem carrying_ordered {read : Pattern} {rest : Build Unit}
    (hrest : ∀ d₀ : Draft, Maintains (d₀.Amends fun _ => True) rest) :
    Maintains (fun d => d.guard = g ∧ d.Ordered base) (do
      transition origin read .keep .right (base ++ "_findEnd")
      seekEnd (base ++ "_findEnd") (base ++ "_doShifts")
      rest) := by
  apply Maintains.bind
  . apply maintains_ordered
    rintro d₀ rfl
    exact transition_amends (origin_ne_part hbase horigin) (fun _ => wrap_ne_part _ _) _ _ _
  . exact fun _ => seekEnd_ordered hrest

omit hbase horigin in
theorem chain_bind_ordered {k : ChainKey} {parts' : List String} {f : String × Bool → Build Unit}
    (hold : ∀ name, Maintains (fun d => d.guard = g ∧ d.Ordered base) (f (name, false)))
    (hnew : Maintains (fun d => d.guard = g ∧ d.Ordered base) (f (g.wrap parts', true))) :
    Maintains (fun d => d.guard = g ∧ d.Ordered base) (chain k parts' >>= f) := by
  intro d hd
  have happly := chain_apply k parts' d
  cases hfind : d.chains.find? (·.1 = k) with
  | some e =>
    rw [hfind] at happly
    rw [after, bind_of_ok happly]
    exact hold _ d hd
  | none =>
    rw [hfind, hd.1] at happly
    rw [after, bind_of_ok happly]
    exact hnew _ ⟨rfl, hd.2.of_lookup fun _ _ => rfl⟩

theorem markFirstChain_ordered (read : Pattern) (marker : Cell) (next : String) :
    Maintains (fun d => d.guard = g ∧ d.Ordered base) (markFirstChain origin read marker next) := by
  have horigin' := origin_ne_part hbase horigin
  by_cases hsame : base = g.wrap ["firstCellMarker", origin, read.display]
  . -- This is the chain in question: it is begun with the end that is sought.
    apply chain_bind_ordered
    . exact fun _ => Maintains.pure ()
    . rw [← hsame]
      apply carrying_ordered hbase horigin
      intro d₀
      exact .bind (transition_amends trivial (fun _ => trivial) _ _ _) fun _ =>
        shift_amends (fun _ _ => trivial) trivial _ _ _
  . apply maintains_ordered
    rintro d₀ rfl
    apply markFirstChain_amends wrap_ne_part horigin'
    intro suffix hsuffix suffix' hsuffix' heq
    exact hsame (chainSuffixes_inj hsuffix hsuffix' heq).1.symm

theorem insertAfterChain_ordered (read : Pattern) (marker insert : Cell) (next : String) :
    Maintains (fun d => d.guard = g ∧ d.Ordered base)
      (insertAfterChain origin read marker insert next) := by
  have horigin' := origin_ne_part hbase horigin
  by_cases hsame : base = g.wrap ["afterCellMarker", origin, read.display]
  . apply chain_bind_ordered
    . exact fun _ => Maintains.pure ()
    . rw [← hsame]
      apply carrying_ordered hbase horigin
      intro d₀
      refine .bind (transition_amends trivial (fun _ => trivial) _ _ _) fun _ => ?_
      exact .bind (shift_amends (fun _ _ => trivial) trivial _ _ _) fun _ =>
        transition_amends trivial (fun _ => trivial) _ _ _
  . apply maintains_ordered
    rintro d₀ rfl
    apply insertAfterChain_amends wrap_ne_part horigin'
    intro suffix hsuffix suffix' hsuffix' heq
    exact hsame (chainSuffixes_inj hsuffix hsuffix' heq).1.symm

theorem directive_ordered {x : Directive} (hx : x.origin = origin) :
    Maintains (fun d => d.guard = g ∧ d.Ordered base) (directive x) := by
  have horigin' := origin_ne_part hbase horigin
  cases x with
  | transition s read w m next =>
    obtain rfl : s = origin := hx
    apply maintains_ordered
    rintro d₀ rfl
    exact transition_amends horigin' (fun _ => wrap_ne_part _ _) read w m
  | gadget s read x next =>
    obtain rfl : s = origin := hx
    apply Maintains.enabled_bind
    intro d _
    split
    . apply maintains_ordered
      rintro d₀ rfl
      exact addAction_amends horigin' read x.action next
    . cases x with
      | shift m =>
        apply maintains_ordered
        rintro d₀ rfl
        exact shiftChain_amends wrap_ne_part horigin' read m next
      | markFirst marker => exact markFirstChain_ordered hbase horigin read marker next
      | insertAfter marker insert => exact insertAfterChain_ordered hbase horigin read marker insert next

end

end Build

theorem StateTables.find?_ne_none_of_lookup {s : StateTables} {name : String} {c : Cell}
    (h : s.lookup name c ≠ none) : s.find? name ≠ none := by
  intro hnone
  rw [lookup, hnone] at h
  exact h rfl

namespace Draft

theorem Kept.of_same {I : Draft → Prop} {X : Directive → Prop}
    (htapes : ∀ d, I d → ∀ n, d.tapes ≠ .multi n)
    (hsame : ∀ d e : Draft, I d → (∀ n, e.tapes ≠ .multi n) → e.guard = d.guard →
      (∀ s c, e.states.lookup s c = d.states.lookup s c) → I e)
    (hguard : ∀ (d : Draft) (g : Guard), I d → d.guard.size ≤ g.size → I (d.withGuard g))
    (hdirective : ∀ d x, X x → I d → d.tapes = .single → d.guard.Free x.origin →
      I ((Build.directive x).after d)) : Kept I X where
  tapes := htapes
  alphabets input extra := by
    apply Build.checkUnsettled_bind
    intro d h _
    exact hsame _ _ h (htapes d h) rfl fun _ _ => rfl
  features features := by
    apply Build.checkUnsettled_bind
    intro d h _
    apply Build.forM_enable_maintains _ features d h
    exact fun d F h => hsame _ _ h (htapes d h) rfl fun _ _ => rfl
  claim d h := hsame _ _ h nofun rfl fun _ _ => rfl
  avoid d name h := avoid_induction name h fun g hlt => hguard _ _ h (Nat.le_of_lt hlt)
  state d name h _ := by
    refine hsame d ((Build.addState name).after d) h (htapes d h) rfl fun s c => ?_
    change (d.states.ensure name).lookup s c = _
    rw [StateTables.lookup_eq, StateTables.table_ensure, StateTables.lookup_eq]
  directive := hdirective

theorem part_eq_of_find?_withGuard {d : Draft} {g : Guard} (hle : d.guard.size ≤ g.size)
    {part suffix : String} {parts : List String} (hsuffix : suffix ∈ chainSuffixes)
    (hfind : (d.withGuard g).states.find? (g.wrap (part :: parts) ++ suffix) ≠ none) :
    g.wrap (part :: parts) ++ suffix = d.guard.rename g
      (d.guard.wrap (g.rename d.guard part :: parts.map (g.rename d.guard)) ++ suffix) := by
  obtain ⟨s₀, hs₀, _⟩ := exists_of_find?_withGuard hle hfind
  have hback := congrArg (g.rename d.guard) hs₀
  rw [Guard.rename_rename hle, Guard.rename_self,
    Guard.rename_append_of_clean _ (clean_chainSuffixes suffix hsuffix), Guard.rename_wrap,
    List.map_cons] at hback
  rw [hs₀, ← hback]

structure InOrder (d : Draft) : Prop where
  tapes : ∀ n, d.tapes ≠ .multi n
  ordered : ∀ part parts, d.Ordered (d.guard.wrap (part :: parts))

namespace InOrder

variable {d e : Draft}

theorem of_same (h : d.InOrder) (htapes : ∀ n, e.tapes ≠ .multi n) (hguard : e.guard = d.guard)
    (hlookup : ∀ s c, e.states.lookup s c = d.states.lookup s c) : e.InOrder := by
  refine ⟨htapes, fun part parts => ?_⟩
  rw [hguard]
  exact (h.ordered part parts).of_lookup hlookup

theorem withGuard {g : Guard} (h : d.InOrder) (hle : d.guard.size ≤ g.size) :
    (d.withGuard g).InOrder := by
  refine ⟨h.tapes, fun part parts => ?_⟩
  change (d.withGuard g).Ordered (g.wrap (part :: parts))
  have hordered := h.ordered (g.rename d.guard part) (parts.map (g.rename d.guard))
  have hpart (suffix : String) (hsuffix : suffix ∈ chainSuffixes) :=
    @part_eq_of_find?_withGuard d g hle part suffix parts hsuffix
  generalize d.guard.wrap (g.rename d.guard part :: parts.map (g.rename d.guard)) = old
    at hordered hpart
  by_cases himage : g.wrap (part :: parts) = d.guard.rename g old
  . have hname (suffix : String) (hsuffix : suffix ∈ chainSuffixes) :
        g.wrap (part :: parts) ++ suffix = d.guard.rename g (old ++ suffix) := by
      rw [himage, Guard.rename_append_of_clean _ (clean_chainSuffixes suffix hsuffix)]
    rcases hordered with hbegun | hidle
    . left
      rw [hname _ (by decide), lookup_withGuard hle fun _ => rfl]
      simpa using hbegun
    . right
      intro suffix hsuffix c
      by_contra hlookup
      rw [hname suffix hsuffix] at hlookup
      rcases lookup_of_withGuard hle hlookup with hne | ⟨c₀, _, hne⟩
      . exact hne c (hidle suffix hsuffix c)
      . exact hne (hidle suffix hsuffix c₀)
  . right
    intro suffix hsuffix c
    by_contra hlookup
    apply himage
    have hname := hpart suffix hsuffix (StateTables.find?_ne_none_of_lookup hlookup)
    rw [Guard.rename_append_of_clean _ (clean_chainSuffixes suffix hsuffix)] at hname
    exact (chainSuffixes_inj hsuffix hsuffix hname).1

theorem kept : Kept InOrder fun _ => True := by
  apply Kept.of_same
  . exact fun d h => h.tapes
  . exact fun d e h htapes hguard hlookup => h.of_same htapes hguard hlookup
  . exact fun d g h hle => h.withGuard hle
  . intro d x _ h _ horigin
    have hamends := Build.directive_amends (S := fun _ => True) (fun _ _ => trivial) trivial d
      (.refl d) (x := x)
    refine ⟨by rw [hamends.tapes]; exact h.tapes, fun part parts => ?_⟩
    rw [hamends.guard]
    exact (Build.directive_ordered rfl horigin rfl d ⟨rfl, h.ordered part parts⟩).2

end InOrder

section

variable {d e : Draft} {B : List Cell} {s next : String} {m : Move} {c : Cell}

inductive Shifts (d : Draft) (B : List Cell) (s : String) (m : Move) (next : String) (c : Cell) :
    Prop where
  | rule (lookup : d.states.lookup s c = some (.single (.shift m) next))
  | relay {paste : String}
    (lookup : d.states.lookup s c = some (.single (.write .blank .right) paste))
    (relays : d.Relays B paste (.put c) m next)

theorem Shifts.later (h : d.Shifts B s m next c) (he : d.Later e)
    (hB : ∀ c ∈ B, c.mapNames (d.guard.rename e.guard) = c) (hc : c ∈ B) :
    e.Shifts B (d.guard.rename e.guard s) m (d.guard.rename e.guard next) c := by
  cases h with
  | rule hlookup =>
    have := he.lookup s c _ hlookup
    rw [hB c hc] at this
    exact .rule this
  | relay hlookup hrelays =>
    have := he.lookup s c _ hlookup
    rw [hB c hc] at this
    exact .relay this (hrelays.later he hB (congrArg Writing.put (hB c hc)))

theorem Shifts.reaches {v v' : View} (h : d.Shifts B s m next v.focus) (hs : d.guard.Generates s)
    (haccepts : ∀ c ∈ B, d.alphabet.accepts c = true) (hv : Build.Carries B m v v') :
    d.generated.Reaches s v next v' := by
  obtain ⟨hfocus, hbeside, hclear, rfl⟩ := hv
  cases h with
  | rule hlookup =>
    apply Reaches.of_rule (d := d.generated) hs.running (haccepts _ hfocus)
    . rwa [lookup_only hs.occursIn]
    . rintro t rfl
      exact Action.view_shift m t
  | @relay paste hlookup hrelays =>
    have hfirst : d.generated.Reaches s v paste ((v.write .blank).move .right) := by
      apply Reaches.of_rule (d := d.generated) hs.running (haccepts _ hfocus)
      . rwa [lookup_only hs.occursIn]
      . rintro t rfl
        exact Action.view_write _ _ t
    have hbeside' : ((v.write .blank).move .right).focus ∈ B := by
      change (if v.position + 1 = v.position then _ else v.cells (v.position + 1)) ∈ B
      rwa [if_neg (by omega)]
    exact hfirst.trans (hrelays.reaches haccepts hbeside' hclear)

structure Carrying (d : Draft) (B : List Cell) (findEnd doShifts : String) (stop out : Cell)
    (target : String) : Prop where
  seeker : d.guard.Generates findEnd
  carrier : d.guard.Generates doShifts
  turn : d.Ruled [.blank] findEnd (.put .blank) .left doShifts
  seek : d.Ruled (B.filter (· ≠ .blank)) findEnd .keep .right findEnd
  exit : d.Ruled [stop] doShifts (.put out) .right target
  carry : ∀ c ∈ B, c ≠ stop → d.Shifts B doShifts (.leftBy 2) doShifts c

namespace Carrying

variable {findEnd doShifts target : String} {stop out : Cell}

theorem later (h : d.Carrying B findEnd doShifts stop out target) (he : d.Later e)
    (hB : ∀ c ∈ B, c.mapNames (d.guard.rename e.guard) = c) (hstop : stop ∈ B) (hout : out ∈ B) :
    e.Carrying B (d.guard.rename e.guard findEnd) (d.guard.rename e.guard doShifts) stop out
      (d.guard.rename e.guard target) where
  seeker := h.seeker.rename _
  carrier := h.carrier.rename _
  turn := he.ruled (List.forall_mem_singleton.mpr rfl) rfl h.turn
  seek := he.ruled (fun c hc => hB c (List.mem_filter.mp hc).1) rfl h.seek
  exit := he.ruled (List.forall_mem_singleton.mpr (hB stop hstop)) (congrArg Writing.put (hB out hout))
    h.exit
  carry c hc hne := (h.carry c hc hne).later he hB hc

theorem amends {S : String → Prop} (h : d.Carrying B findEnd doShifts stop out target)
    (he : d.Amends S e) (hstop : stop ∈ B) (hout : out ∈ B) :
    e.Carrying B findEnd doShifts stop out target := by
  have := h.later (.of_amends he) (by rw [he.rename, Cell.mapNames_id]; exact fun _ _ => rfl) hstop hout
  rwa [he.rename] at this

variable (haccepts : ∀ c ∈ B, d.alphabet.accepts c = true) (hblank : .blank ∈ B)
include haccepts

theorem exits (h : d.Carrying B findEnd doShifts stop out target) (hstop : stop ∈ B) {v : View}
    (hv : v.focus = stop) : d.generated.Reaches doShifts v target ((v.write out).move .right) :=
  (h.exit.only h.carrier.occursIn).reaches h.carrier.running
    (List.forall_mem_singleton.mpr (haccepts stop hstop)) (List.mem_singleton.mpr hv)

include hblank

theorem carryChain (h : d.Carrying B findEnd doShifts stop out target) :
    Build.CarryChain B findEnd doShifts stop d.generated where
  turn v hv := by
    have hreaches := (h.turn.only h.seeker.occursIn).reaches h.seeker.running
      (List.forall_mem_singleton.mpr (haccepts _ hblank)) (List.mem_singleton.mpr hv)
    have hwrite : v.write ((Writing.put .blank).onto v.focus) = v := by
      have := v.write_focus
      rwa [hv] at this
    rwa [hwrite] at hreaches
  seek v hv hne := by
    have hreaches := (h.seek.only h.seeker.occursIn).reaches h.seeker.running
      (fun c hc => haccepts c (List.mem_filter.mp hc).1)
      (List.mem_filter.mpr ⟨hv, decide_eq_true hne⟩)
    have hwrite : v.write (Writing.keep.onto v.focus) = v := v.write_focus
    rwa [hwrite] at hreaches
  carry v hv hne hbeside :=
    (h.carry v.focus hv hne).reaches h.carrier haccepts (Build.carries_carryBack hblank hv hbeside)

end Carrying

/-- The rules by which a gadget is spelled out, from the state and the cell that it was asked for. -/
inductive Spells (d : Draft) (B : List Cell) (origin : String) (c : Cell) (next : String) :
    Gadget → Prop where
  | markFirst {marker : Cell} {findEnd doShifts : String}
    (start : d.Ruled [c] origin .keep .right findEnd)
    (carrying : d.Carrying B findEnd doShifts .blank marker next) : Spells d B origin c next (.markFirst marker)
  | insertAfter {marker insert : Cell} {findEnd doShifts doInsert : String}
    (start : d.Ruled [c] origin .keep .right findEnd)
    (carrying : d.Carrying B findEnd doShifts marker marker doInsert)
    (inserter : d.guard.Inserts doInsert)
    (inserting : d.Ruled [.blank] doInsert (.put insert) .right next) :
    Spells d B origin c next (.insertAfter marker insert)

namespace Spells

variable {origin : String} {x : Gadget}

theorem later (h : d.Spells B origin c next x) (he : d.Later e)
    (hB : ∀ c ∈ B, c.mapNames (d.guard.rename e.guard) = c) (hblank : .blank ∈ B) (hc : c ∈ B)
    (hx : x.action.Over (· ∈ B)) :
    e.Spells B (d.guard.rename e.guard origin) c (d.guard.rename e.guard next) x := by
  have hread : ∀ c' ∈ [c], c'.mapNames (d.guard.rename e.guard) = c' :=
    List.forall_mem_singleton.mpr (hB c hc)
  cases h with
  | markFirst start carrying =>
    exact .markFirst (he.ruled hread rfl start) (carrying.later he hB hblank hx)
  | insertAfter start carrying inserter inserting =>
    exact .insertAfter (he.ruled hread rfl start) (carrying.later he hB hx.1 hx.1) (inserter.rename _)
      (he.ruled (List.forall_mem_singleton.mpr rfl) (congrArg Writing.put (hB _ hx.2)) inserting)

theorem reaches {v v' : View} (h : d.Spells B origin v.focus next x)
    (haccepts : ∀ c ∈ B, d.alphabet.accepts c = true) (hblank : .blank ∈ B)
    (hx : x.action.Over (· ∈ B)) (hv : x.Works B v v') :
    ∃ findEnd, d.Ruled [v.focus] origin .keep .right findEnd
      ∧ d.generated.Reaches findEnd (v.move .right) next v' := by
  cases h with
  | @markFirst marker findEnd doShifts start carrying =>
    refine ⟨findEnd, start, ?_⟩
    have hchain := carrying.carryChain haccepts hblank
    obtain ⟨e, he, hB, hcase⟩ := hv
    apply (Build.IsLast.seek hchain he hB).trans
    rcases hcase with ⟨m, hm, hmB, rfl⟩ | ⟨hall, rfl⟩
    . apply hchain.carryTo he.blank hm.le fun i hi hi' => ⟨hm.ne i hi hi', hmB i hi hi'⟩
      apply carrying.exits haccepts hblank
      rw [View.focus_carried, hm.eq]
    . apply hchain.carryAll he.blank hall
      exact carrying.exits haccepts hblank rfl
  | @insertAfter marker insert findEnd doShifts doInsert start carrying inserter inserting =>
    refine ⟨findEnd, start, ?_⟩
    have hchain := carrying.carryChain haccepts hblank
    obtain ⟨e, m, he, hm, hB, hmB, rfl⟩ := hv
    apply (Build.IsLast.seek hchain he hB).trans
    apply hchain.carryTo he.blank hm.le fun i hi hi' => ⟨hm.ne i hi hi', hmB i hi hi'⟩
    have hfocus : (⟨m, View.carried v.cells e m⟩ : View).focus = marker := by
      rw [View.focus_carried, hm.eq]
    have hexit := carrying.exits haccepts hx.1 hfocus
    have hwrite : (⟨m, View.carried v.cells e m⟩ : View).write marker
        = ⟨m, View.carried v.cells e m⟩ := by
      have := View.write_focus ⟨m, View.carried v.cells e m⟩
      rwa [hfocus] at this
    rw [hwrite] at hexit
    apply hexit.trans
    exact (inserting.only inserter.generates.occursIn).reaches inserter.generates.running
      (List.forall_mem_singleton.mpr (haccepts _ hblank))
      (List.mem_singleton.mpr (View.carried_succ v.cells e m))

end Spells

end

end Draft

namespace Build

open Draft (Amends)

section

variable {b d d' : Draft} {C : Cell → Prop} (hb : b.Grounds C) (hne : b.alphabet.symbols ≠ [])
  (hsymbols : ∀ c ∈ b.alphabet.symbols, C c)
  (hdistinct : ∀ c ∈ b.alphabet.symbols, ∀ c', C c' → c'.display = c.display → c' = c)
include hb hne hsymbols hdistinct

theorem shift_eq_ok {s next : String} {m : Move} (hd : d.Stocked b C fun _ => False)
    (hs : ∀ r : Relay, r.Within C → s ≠ r.name b.guard) (h : shift s .any m next d = .ok () d') :
    (d'.Stocked b C fun _ => False) ∧ ∀ c ∈ b.alphabet.symbols, d.states.lookup s c = none →
      d'.Shifts b.alphabet.symbols s m next c := by
  rw [shift, bind_of_ok (enabled_apply _ d)] at h
  split at h
  . have hadds := addAction_adds h
    refine ⟨hd.of_states hadds.rest fun r hr => hadds.other _ (hs r hr).symm, ?_⟩
    intro c hc hnone
    obtain ⟨o, rfl, hlookup⟩ := hadds.new c trivial (fun _ => by rwa [hd.alphabet]) hnone
    exact .rule hlookup
  . have hread : ∀ c ∈ Pattern.any.cells (d.uncovered s), C c := by
      intro c hc
      apply hsymbols
      rw [← hd.alphabet]
      exact (Draft.mem_uncovered.mp hc).1
    obtain ⟨hstocked, hall⟩ := shiftChain_eq_ok hb hs hd hread h
    refine ⟨hstocked, ?_⟩
    intro c hc hnone
    obtain ⟨hmem, hlookup⟩ := hall c (Draft.mem_uncovered.mpr ⟨by rwa [hd.alphabet], hnone⟩)
    obtain ⟨r, hr, hkey, hrelays⟩ := hstocked.relays hb hne (s := .paste c m next) (hsymbols c hc) hmem
    cases r with
    | continuation m' next' => simp [Relay.key] at hkey
    | paste c' m' next' =>
      simp only [Relay.key, ChainKey.mk.injEq, List.cons.injEq, true_and] at hkey
      obtain rfl := hdistinct c hc c' hr hkey.1
      exact .relay hlookup hrelays

variable {base part target : String} {parts : List String} {stop out : Cell} {d₁ d₂ : Draft}
  (hbase : base = b.guard.wrap (part :: parts)) (hd : d.Stocked b C fun _ => False)
  (hidle : d.Idle base) (hseek : seekEnd (base ++ "_findEnd") (base ++ "_doShifts") d = .ok () d₁)
  (hstop : transition (base ++ "_doShifts") (.cell stop) (.put out) .right target d₁ = .ok () d₂)
  (hshift : shift (base ++ "_doShifts") .any (.leftBy 2) (base ++ "_doShifts") d₂ = .ok () d')
include hbase hd hidle hseek hstop hshift

theorem carrying_eq_ok : (d'.Stocked b C fun _ => False)
    ∧ d'.Carrying b.alphabet.symbols (base ++ "_findEnd") (base ++ "_doShifts") stop out target := by
  obtain ⟨hfindEnd, hdoShifts⟩ : "_findEnd" ∈ chainSuffixes ∧ "_doShifts" ∈ chainSuffixes := by decide
  have hparts : base ++ "_doShifts" ≠ base ++ "_findEnd" := by
    intro heq
    exact absurd (chainSuffixes_inj hdoShifts hfindEnd heq).2 (by decide)
  have hrelay (suffix : String) (hsuffix : suffix ∈ chainSuffixes) (r : Relay) :
      base ++ suffix ≠ r.name b.guard := by
    obtain ⟨part', parts', hr⟩ : ∃ part' parts', r.name b.guard = b.guard.wrap (part' :: parts') := by
      cases r <;> exact ⟨_, _, rfl⟩
    rw [hr]
    exact (wrap_ne_part part' parts' suffix hsuffix).symm
  rw [seekEnd, bind_eq_ok] at hseek
  obtain ⟨_, d₀, hturn, hpass⟩ := hseek
  rw [transition_of_distance rfl] at hturn hpass hstop
  have adds₀ := direct_adds hturn
  have adds₁ := direct_adds hpass
  have adds₂ := direct_adds hstop
  have hd₀ := hd.of_states adds₀.rest fun r _ => adds₀.other _ (hrelay _ hfindEnd r).symm
  have hd₁ := hd₀.of_states adds₁.rest fun r _ => adds₁.other _ (hrelay _ hfindEnd r).symm
  have hd₂ := hd₁.of_states adds₂.rest fun r _ => adds₂.other _ (hrelay _ hdoShifts r).symm
  obtain ⟨hd', hcarry⟩ := shift_eq_ok hb hne hsymbols hdistinct hd₂ (fun r _ => hrelay _ hdoShifts r)
    hshift
  -- No rule is lost on the way.
  have hlast : d₂.Amends (fun _ => True) d' :=
    (shift_amends (fun _ _ => trivial) trivial _ _ _).of_ok (.refl d₂) hshift
  have below₂ := hlast.below
  have below₁ := adds₂.below.trans below₂
  have below₀ := adds₁.below.trans below₁
  have hunruled (c : Cell) : d₁.states.lookup (base ++ "_doShifts") c = none := by
    rw [adds₁.lookup_other hparts, adds₀.lookup_other hparts]
    exact hidle _ hdoShifts c
  have hgenerates (suffix : String) (hsuffix : suffix ∈ chainSuffixes) :
      d'.guard.Generates (base ++ suffix) := by
    rw [hd'.guard, hbase]
    exact ⟨part, parts, .inr ⟨suffix, hsuffix, rfl⟩⟩
  refine ⟨hd', hgenerates _ hfindEnd, hgenerates _ hdoShifts, ?_, ?_, ?_, ?_⟩
  . rw [Draft.Ruled, List.forall_mem_singleton]
    obtain ⟨o, ho, hlookup⟩ := adds₀.new .blank rfl (by simp) (hidle _ hfindEnd _)
    exact ⟨o, ho, below₀.lookup _ _ _ hlookup⟩
  . intro c hc
    rw [List.mem_filter, decide_eq_true_eq] at hc
    obtain ⟨o, ho, hlookup⟩ := adds₁.new c trivial (fun _ => by rw [hd₀.alphabet]; exact hc.1)
      (adds₀.missing c hc.2 (hidle _ hfindEnd c))
    exact ⟨o, ho, below₁.lookup _ _ _ hlookup⟩
  . rw [Draft.Ruled, List.forall_mem_singleton]
    obtain ⟨o, ho, hlookup⟩ := adds₂.new stop rfl (by simp) (hunruled stop)
    exact ⟨o, ho, below₂.lookup _ _ _ hlookup⟩
  . intro c hc hneStop
    exact hcarry c hc (adds₂.missing c hneStop (hunruled c))

omit hd hidle hseek hstop hshift in
theorem chain_eq_ok {k : ChainKey} {origin : String} {read : Pattern} {d₃ : Draft}
    (hk : ¬ IsStep k) (hd : d.Stocked b C fun _ => False) (hordered : d.Ordered base)
    (horigin : b.guard.Free origin)
    (hstart : transition origin read .keep .right (base ++ "_findEnd") (d.withChain k) = .ok () d₁)
    (hseek : seekEnd (base ++ "_findEnd") (base ++ "_doShifts") d₁ = .ok () d₂)
    (hstop : transition (base ++ "_doShifts") (.cell stop) (.put out) .right target d₂ = .ok () d₃)
    (hshift : shift (base ++ "_doShifts") .any (.leftBy 2) (base ++ "_doShifts") d₃ = .ok () d') :
    (d'.Stocked b C fun _ => False)
      ∧ d'.Carrying b.alphabet.symbols (base ++ "_findEnd") (base ++ "_doShifts") stop out target
      ∧ ∀ c ∈ b.alphabet.symbols, d.states.lookup origin c = none →
        d'.states.lookup origin c ≠ none →
        d'.Ruled [c] origin .keep .right (base ++ "_findEnd") := by
  have hguard : (d.withChain k).guard = b.guard := hd.guard
  have hpart (suffix : String) (h : suffix ∈ chainSuffixes) : ¬ b.guard.Free (base ++ suffix) := by
    rw [hbase]
    exact Guard.Generates.not_free ⟨part, parts, .inr ⟨suffix, h, rfl⟩⟩
  have hwrap (part : String) (parts : List String) : ¬ b.guard.Free (b.guard.wrap (part :: parts)) :=
    Guard.Generates.not_free ⟨part, parts, .inl rfl⟩
  rw [transition_of_distance rfl] at hstart
  have adds := direct_adds hstart
  have hd₁ := (hd.withOther hk).of_states adds.rest fun r _ =>
    adds.other _ (Guard.Belongs.self.ne_relay horigin r).symm
  have hordered₁ : d₁.Ordered base := by
    refine Draft.Ordered.amends (d := d.withChain k) (hordered.of_lookup fun _ _ => rfl) ?_
    exact (direct_amends (origin_ne_part hbase horigin) _ _ _ _).of_ok (.refl _) hstart
  -- The chain was not begun, or else its end could not be sought.
  have hidle : d₁.Idle base := by
    rcases hordered₁ with hbegun | hidle
    . rw [seekEnd, bind_eq_ok] at hseek
      obtain ⟨_, d₀, hturn, _⟩ := hseek
      rw [transition_of_distance rfl] at hturn
      exact absurd ((direct_adds hturn).free (by simp) .blank rfl) hbegun
    . exact hidle
  obtain ⟨hd', hcarrying⟩ := carrying_eq_ok hb hne hsymbols hdistinct hbase hd₁ hidle hseek hstop hshift
  refine ⟨hd', hcarrying, ?_⟩
  intro c hc hnone hsome
  -- The states of the chain are not those of an author, so that the origin keeps its rules.
  have hlookup : d'.states.lookup origin c = d₁.states.lookup origin c := by
    have hwrap' (part : String) (parts : List String) :
        ¬ b.guard.Free (d₁.guard.wrap (part :: parts)) := by
      rw [hd₁.guard]
      exact hwrap part parts
    have hamends : d₁.Amends (fun s => ¬ b.guard.Free s) d' := by
      apply (shift_amends hwrap' (hpart _ (by decide)) _ _ _).of_ok _ hshift
      apply (transition_amends (hpart _ (by decide)) (fun _ => hwrap' _ _) _ _ _).of_ok _ hstop
      exact (seekEnd_amends hwrap' (hpart _ (by decide)) _).of_ok (.refl d₁) hseek
    exact hamends.lookup_other (not_not.mpr horigin) c
  have hmatch : read.Matches c := by
    by_contra hmatch
    rw [hlookup, adds.missing c hmatch hnone] at hsome
    exact hsome rfl
  obtain ⟨o, ho, ho'⟩ := adds.new c hmatch (fun _ => by
    change c ∈ d.alphabet.symbols
    rwa [hd.alphabet]) hnone
  rw [Draft.Ruled, List.forall_mem_singleton]
  exact ⟨o, ho, by rw [hlookup, ho']⟩

omit hbase hd hidle hseek hstop hshift in
theorem gadget_spells {origin next : String} {read : Pattern} {x : Gadget} {c : Cell}
    (hkind : x.kind ≠ .shift) (hx : x.action.Over (· ∈ b.alphabet.symbols))
    (hoff : d.features.enabled x.kind.feature = false) (hd : d.Stocked b C fun _ => False)
    (hordered : ∀ part parts, d.Ordered (b.guard.wrap (part :: parts)))
    (horigin : b.guard.Free origin) (hok : gadget origin read x next d = .ok () d')
    (hc : c ∈ b.alphabet.symbols) (hnone : d.states.lookup origin c = none)
    (hsome : d'.states.lookup origin c ≠ none) :
    d'.Spells b.alphabet.symbols origin c next x := by
  unfold gadget at hok
  rw [bind_of_ok (enabled_apply _ d), if_neg (by simp [hoff])] at hok
  cases x with
  | shift m => exact absurd rfl hkind
  | markFirst marker =>
    change markFirstChain origin read marker next d = _ at hok
    rw [markFirstChain, bind_eq_ok] at hok
    obtain ⟨⟨base, isNew⟩, d₀, hchain, hok⟩ := hok
    rcases @chain_cases d d₀ (.markFirst origin read marker next) _ _ hchain with
      ⟨rfl, _, rfl⟩ | ⟨rfl, _, hbase, rfl⟩
    . cases hok
      exact absurd hnone hsome
    . dsimp only at hok
      simp only [↓reduceIte, bind_eq_ok] at hok
      obtain ⟨_, d₁, hstart, _, d₂, hseek, _, d₃, hstop, hshift⟩ := hok
      rw [hd.guard] at hbase
      obtain ⟨_, hcarrying, hruled⟩ := chain_eq_ok hb hne hsymbols hdistinct hbase (by simp [IsStep]) hd
        (hbase ▸ hordered _ _) horigin hstart hseek hstop hshift
      exact .markFirst (hruled c hc hnone hsome) hcarrying
  | insertAfter marker insert =>
    change insertAfterChain origin read marker insert next d = _ at hok
    rw [insertAfterChain, bind_eq_ok] at hok
    obtain ⟨⟨base, isNew⟩, d₀, hchain, hok⟩ := hok
    rcases @chain_cases d d₀ (.insertAfter origin read marker insert next) _ _ hchain with
      ⟨rfl, _, rfl⟩ | ⟨rfl, _, hbase, rfl⟩
    . cases hok
      exact absurd hnone hsome
    . dsimp only at hok
      simp only [↓reduceIte, bind_eq_ok] at hok
      obtain ⟨_, d₁, hstart, _, d₂, hseek, _, d₃, hstop, _, d₄, hshift, hinsert⟩ := hok
      rw [hd.guard] at hbase
      obtain ⟨hd₄, hcarrying, hruled⟩ := chain_eq_ok hb hne hsymbols hdistinct hbase (by simp [IsStep]) hd
        (hbase ▸ hordered _ _) horigin hstart hseek hstop hshift
      rw [transition_of_distance rfl] at hinsert
      have horigin' := origin_ne_part hbase horigin "_doInsert" (by decide)
      have hamends : d₄.Amends (fun s => s ≠ origin) d' :=
        (@direct_amends (· ≠ origin) d₄ _ horigin'.symm _ _ _ _).of_ok (.refl d₄) hinsert
      have hlookup (c : Cell) := hamends.lookup_other (not_not.mpr rfl) c
      rw [hlookup] at hsome
      have hadds := direct_adds hinsert
      refine .insertAfter ?_ (hcarrying.amends hamends hx.1 hx.1) ?_ ?_
      . intro c' hc'
        rw [hlookup]
        exact hruled c hc hnone hsome c' hc'
      . rw [hamends.guard, hd₄.guard, hbase]
        exact ⟨_, _, rfl⟩
      . rw [Draft.Ruled, List.forall_mem_singleton]
        exact hadds.new .blank rfl (by simp) (hadds.free (by simp) .blank rfl)

end

end Build

theorem Mark.toList_display_literal (text : String) (tag : Bool) :
    ((Mark.literal text).display tag).toList
      = (if looksReserved text then "S:".toList else []) ++ text.toList
        ++ if tag then "-\x7bHEAD\x7d".toList else [] := by
  simp only [Mark.display, String.toList_append]
  congr 1
  . congr 1
    split <;> rfl
  . split <;> rfl

theorem Cell.IsLetter.eq_of_written {c c' : Cell} (h : c.IsLetter) (heq : c'.display = c.display) :
    c' = c := by
  replace heq := congrArg String.toList heq
  cases c' with
  | tuple parts tag =>
    obtain ⟨char, rfl⟩ | rfl := h
    . rw [toList_display_ofChar] at heq
      simp [display, displayJoint] at heq
    . rw [toList_display_blank] at heq
      simp [display, displayJoint] at heq
  | atom mark tag =>
    change (mark.display tag).toList = _ at heq
    obtain ⟨char, rfl⟩ | rfl := h
    . rw [toList_display_ofChar] at heq
      cases mark with
      | literal text =>
        rw [Mark.toList_display_literal] at heq
        have hlength := congrArg List.length heq
        cases tag with
        | true =>
          rw [List.length_append, if_pos rfl] at hlength
          change _ + 7 = _ at hlength
          simp at hlength
        | false =>
          split at heq
          . simp at heq
          . rw [if_neg (by decide), List.nil_append, List.append_nil] at heq
            have htext : text = String.singleton char :=
              String.toList_injective (by simpa using heq)
            rw [ofChar, htext]
      | state name => simp [Mark.display, braced] at heq
      | empty => cases tag <;> simp [Mark.display, braced] at heq
      | tapeStart => cases tag <;> simp [Mark.display, braced] at heq
      | boundLeft => cases tag <;> simp [Mark.display, braced] at heq
      | boundRight => cases tag <;> simp [Mark.display, braced] at heq
      | afterLast => cases tag <;> simp [Mark.display, braced] at heq
    . rw [toList_display_blank] at heq
      cases mark with
      | literal text =>
        rw [Mark.toList_display_literal] at heq
        have hlength := congrArg List.length heq
        cases tag with
        | true =>
          rw [List.length_append, if_pos rfl] at hlength
          change _ + 7 = _ at hlength
          simp at hlength
        | false =>
          by_cases hreserved : Mark.looksReserved text = true
          . simp [hreserved] at heq
          . rw [if_neg hreserved, if_neg (by decide), List.nil_append, List.append_nil] at heq
            have htext : text = "\x7be\x7d" := String.toList_injective heq
            rw [htext] at hreserved
            exact absurd (by decide) hreserved
      | state name => simp [Mark.display, braced] at heq
      | empty => cases tag <;> simp [Mark.display, braced] at heq ⊢
      | tapeStart => cases tag <;> simp [Mark.display, braced] at heq
      | boundLeft => cases tag <;> simp [Mark.display, braced] at heq
      | boundRight => cases tag <;> simp [Mark.display, braced] at heq
      | afterLast => cases tag <;> simp [Mark.display, braced] at heq

namespace Draft

theorem inOrder_new (start : String) : (new start).InOrder :=
  ⟨fun _ => nofun, fun _ _ => .inr fun _ _ _ => rfl⟩

theorem inOrder_receive (start : String) {rs : List Request}
    (htapes : ∀ n, ((new start).receive rs).tapes ≠ .multi n) : ((new start).receive rs).InOrder := by
  rcases InOrder.kept.receive (inOrder_new start) rs fun _ _ => trivial with ⟨n, hn⟩ | hd
  . exact absurd hn (htapes n)
  . exact hd

section

variable {d d' e : Draft} {C : Cell → Prop} {origin next : String} {read : Pattern} {x : Gadget}
  {c : Cell} (hC : ∀ c, C c → c.Lasting) (hd : d.Supplies C) (horder : d.InOrder)
  (hdistinct : ∀ c ∈ d.alphabet.symbols, ∀ c', C c' → c'.display = c.display → c' = c)
  (hkind : x.kind ≠ .shift) (hx : x.action.Over (· ∈ d.alphabet.symbols))
  (hoff : d.features.enabled x.kind.feature = false)
  (hok : Build.submit (.directive (.gadget origin read x next)) d = .ok () d')
  (hc : c ∈ d.alphabet.symbols) (hnone : (d.avoidBoth origin next).states.lookup origin c = none)
  (hsome : d'.states.lookup origin c ≠ none)
include hC hd horder hdistinct hkind hx hoff hok hc hnone hsome

theorem spells_of_gadget : d'.Spells d.alphabet.symbols origin c next x := by
  have hsupplies := hd.readied hC origin next
  have hordered : (d.readied origin next).InOrder :=
    InOrder.kept.claim _ (InOrder.kept.avoid _ next (InOrder.kept.avoid _ origin horder))
  have halphabet : (d.readied origin next).bare.alphabet = d.alphabet :=
    hd.alphabet_readied hC origin next
  rw [submit_gadget horder.tapes] at hok
  rw [← halphabet] at hx hc hdistinct ⊢
  exact Build.gadget_spells (hsupplies.grounds hC) hsupplies.symbols_ne_nil hsupplies.symbols hdistinct
    hkind hx (enabled_readied hoff origin next) hsupplies.stocked hordered.ordered
    (d.free_readied origin next) hok hc hnone hsome

theorem spells_later (he : d'.Later e) : e.Spells d.alphabet.symbols origin c next x := by
  have hspells := spells_of_gadget hC hd horder hdistinct hkind hx hoff hok hc hnone hsome
  obtain ⟨horigin, hnext⟩ := free_of_gadget horder.tapes hok
  have := hspells.later he (fun c hc => (hC c (hd.symbols c hc)).kept _ _) hd.blank hc hx
  rwa [Guard.rename_of_free horigin, Guard.rename_of_free hnext] at this

end

theorem spells_receive {start origin next : String} {read : Pattern} {x : Gadget}
    {rs rs' : List Request} {d : Draft} (hd : d = (new start).receive rs)
    {r : Request} (hr : r = .directive (.gadget origin read x next)) (hkind : x.kind ≠ .shift)
    (hletters : ∀ c ∈ d.alphabet.symbols, c.IsLetter)
    (hcarried : ∀ r ∈ rs, ∀ c ∈ r.carried, c ∈ d.alphabet.symbols ∨ Guard.Clean c.display)
    (hoff : d.features.enabled x.kind.feature = false) (hok : (Build.submit r).succeeds d = true)
    (hx : x.action.Over (· ∈ d.alphabet.symbols)) {c : Cell} (hc : c ∈ d.alphabet.symbols)
    (hnone : (d.avoidBoth origin next).states.lookup origin c = none)
    (hsome : ((Build.submit r).after d).states.lookup origin c ≠ none) :
    let e := (new start).receive (rs ++ r :: rs')
    e.Spells d.alphabet.symbols origin c next x
      ∧ (∀ c ∈ d.alphabet.symbols, e.alphabet.accepts c = true)
      ∧ .blank ∈ d.alphabet.symbols := by
  intro e
  have hlater : ((Build.submit r).after d).Later e := later_of_gadget hd hr hok rs'
  have hsubmit := Build.eq_ok_of_succeeds hok
  have htapes : ∀ n, d.tapes ≠ .multi n := not_multi_of_gadget (hr ▸ hok)
  have hC (c : Cell) (hc : d.Carried rs c) : c.Lasting := by
    rcases hc with hc | ⟨r, hr, hc⟩
    . exact (hletters c hc).lasting
    . rcases hcarried r hr c hc with hc | hclean
      . exact (hletters c hc).lasting
      . exact .of_clean hclean
  have hsupplies : d.Supplies (d.Carried rs) := by
    apply supplies_carried hd (List.Subset.refl rs) hC htapes
    intro c hc
    obtain ⟨char, rfl⟩ | rfl := hletters c hc
    . exact ⟨_, _, rfl⟩
    . exact ⟨_, _, rfl⟩
  have horder : d.InOrder := by
    subst hd
    exact inOrder_receive start htapes
  subst hr
  refine ⟨?_, ?_, hsupplies.blank⟩
  . exact spells_later hC hsupplies horder (fun c hc c' _ => (hletters c hc).eq_of_written) hkind hx hoff
      hsubmit hc hnone hsome hlater
  . exact fun c hc => accepts_of_gadget hC hsupplies htapes hsubmit hlater hc

/-- A gadget that is spelled out does what it does in one step, and meets generated states only. -/
theorem Spells.exists_run {e : Draft} {B : List Cell} {origin next : String} {x : Gadget} {t : Tape}
    (h : e.Spells B origin t.focus next x) (haccepts : ∀ c ∈ B, e.alphabet.accepts c = true)
    (hblank : .blank ∈ B) (hx : x.action.Over (· ∈ B)) (ht : ∀ c ∈ t.cells, c ∈ B)
    (hmarker : ∀ marker insert, x = .insertAfter marker insert → t.Finds marker)
    (hrunning : isTerminal origin = false) :
    ∃ (k : Nat) (t' : Tape), e.compile.next^[k + 1] ⟨origin, [t]⟩ = ⟨next, [t']⟩
      ∧ (∀ j, 0 < j → j ≤ k → e.guard.occursIn (e.compile.next^[j] ⟨origin, [t]⟩).state = true)
      ∧ t'.view = (x.action.apply t).view := by
  obtain ⟨v, hworks, -⟩ := Gadget.exists_works hx hblank (Tape.cellAt_mem hblank ht) hmarker
  rw [← Tape.focus_view] at h
  obtain ⟨findEnd, hstart, hreaches⟩ := h.reaches haccepts hblank hx hworks
  obtain ⟨o, ho, hlookup⟩ := hstart t.view.focus (List.mem_singleton_self _)
  obtain ⟨a, rfl, hview⟩ := ho.view_apply
  have hright : (a.apply t).view = t.view.move .right := by
    rw [hview t (Tape.focus_view t).symm]
    exact congrArg (View.move · Move.right) t.view.write_focus
  rw [Tape.focus_view] at hlookup
  have haccepts' := haccepts _ (ht _ (List.mem_append_right _ List.mem_cons_self : t.focus ∈ t.cells))
  have hfirst : e.compile.next ⟨origin, [t]⟩ = ⟨findEnd, [a.apply t]⟩ :=
    next_of_step (.rule hrunning haccepts' hlookup)
  obtain ⟨t', ht', hsteps⟩ := hreaches _ hright
  obtain ⟨k, hk, hinner⟩ := iterate_next_of_only hsteps
  refine ⟨k, t', ?_, ?_, ?_⟩
  . rw [Function.iterate_succ_apply, hfirst]
    exact hk
  . intro j hpos hj
    obtain ⟨i, rfl⟩ : ∃ i, j = i + 1 := ⟨j - 1, by omega⟩
    rw [Function.iterate_succ_apply, hfirst]
    exact (hinner i hj).2
  . rw [ht', hworks.view_action]

end Draft

/--
A gadget that is spelled out by states does what it does in one step, if the cells that were to be shifted
before are symbols or contain no guard character.
-/
theorem gadget_states_act_like_gadget {start origin next : String} {read : Pattern} {x : Gadget}
    {rs rs' : List Request} {d : Draft} (hd : d = (Draft.new start).receive rs)
    {r : Request} (hr : r = .directive (.gadget origin read x next)) (hkind : x.kind ≠ .shift)
    (hletters : ∀ c ∈ d.alphabet.symbols, c.IsLetter)
    (hcarried : ∀ r ∈ rs, ∀ c ∈ r.carried, c ∈ d.alphabet.symbols ∨ Guard.Clean c.display)
    (hoff : d.features.enabled x.kind.feature = false)
    (hok : (Build.submit r).succeeds d = true) (hrunning : isTerminal origin = false)
    (hx : x.action.Over (· ∈ d.alphabet.symbols))
    {t : Tape} (ht : ∀ c ∈ t.cells, c ∈ d.alphabet.symbols)
    -- It is this request by which the cell under the head gets its rule.
    (hnone : (d.avoidBoth origin next).states.lookup origin t.focus = none)
    (hsome : ((Build.submit r).after d).states.lookup origin t.focus ≠ none)
    (hmarker : ∀ marker insert, x = .insertAfter marker insert → t.Finds marker) :
    let e := (Draft.new start).receive (rs ++ r :: rs')
    ∃ (k : Nat) (t' : Tape),
      e.compile.next^[k + 1] ⟨origin, [t]⟩ = ⟨next, [t']⟩
      ∧ (∀ j, 0 < j → j ≤ k → e.guard.occursIn (e.compile.next^[j] ⟨origin, [t]⟩).state = true)
      ∧ e.guard.occursIn next = false
      ∧ t'.position = (x.action.apply t).position
      ∧ t'.cellAt = (x.action.apply t).cellAt := by
  intro e
  have hlater : ((Build.submit r).after d).Later e := Draft.later_of_gadget hd hr hok rs'
  have hfocus := ht _ (List.mem_append_right _ List.mem_cons_self : t.focus ∈ t.cells)
  obtain ⟨hspells, haccepts, hblank⟩ : e.Spells _ _ _ _ _ ∧ _ :=
    Draft.spells_receive hd hr hkind hletters hcarried hoff hok hx hfocus hnone hsome
  obtain ⟨k, t', hk, hinner, ht'⟩ := hspells.exists_run haccepts hblank hx ht hmarker hrunning
  refine ⟨k, t', hk, hinner, ?_, congrArg View.position ht', congrArg View.cells ht'⟩
  subst hr
  have hfree := (Draft.free_of_gadget (Draft.not_multi_of_gadget hok) (Build.eq_ok_of_succeeds hok)).2
  exact Guard.free_iff_not_occursIn.mp (hfree.mono hlater.size_le)

/-- The guard is a symbol and is widened before and after, and a refused request left its states. -/
theorem insert_states_act_like_gadget :
    let rs : List Request :=
      [ .alphabets [.literal "a", .literal "Ω"] [.literal "x"], .features [.moveMulti],
        .directive (.gadget "p" (.cell (.literal "zz")) (.shift .right) "q"), .state "rΩ" ]
    let r : Request :=
      .directive (.gadget "qstart" .any (.insertAfter (.literal "Ω") (.literal "x")) "ACCEPT")
    let t : Tape := ⟨[.literal "a"], .literal "Ω", [.literal "a", .literal "a"]⟩
    let d := (Draft.new "qstart").receive rs
    let e := (Draft.new "qstart").receive (rs ++ r :: [.state "ΩΩ"])
    ((Draft.new "qstart").answers (rs ++ r :: [.state "ΩΩ"]) = [true, true, false, true, true, true]
      ∧ (d.avoidBoth "qstart" "ACCEPT").states.lookup "qstart" t.focus = none
      ∧ ((Build.submit r).after d).states.lookup "qstart" t.focus ≠ none)
    ∧ ∃ (k : Nat) (t' : Tape),
      e.compile.next^[k + 1] ⟨"qstart", [t]⟩ = ⟨"ACCEPT", [t']⟩
      ∧ (∀ j, 0 < j → j ≤ k → e.guard.occursIn (e.compile.next^[j] ⟨"qstart", [t]⟩).state = true)
      ∧ e.guard.occursIn "ACCEPT" = false
      ∧ t'.position = ((Action.insertAfter (.literal "Ω") (.literal "x")).apply t).position
      ∧ t'.cellAt = ((Action.insertAfter (.literal "Ω") (.literal "x")).apply t).cellAt := by
  intro rs r t d e
  have hsymbols : d.alphabet.symbols = [.literal "a", .literal "Ω", .literal "x", .blank] := by
    decide +kernel
  have hrule : (d.avoidBoth "qstart" "ACCEPT").states.lookup "qstart" t.focus = none
      ∧ ((Build.submit r).after d).states.lookup "qstart" t.focus ≠ none := by decide +kernel
  refine ⟨⟨by decide +kernel, hrule⟩, ?_⟩
  apply gadget_states_act_like_gadget rfl rfl
  . decide
  . rw [hsymbols]
    simp only [List.forall_mem_cons]
    exact ⟨.inl ⟨'a', rfl⟩, .inl ⟨'Ω', rfl⟩, .inl ⟨'x', rfl⟩, .inr rfl, nofun⟩
  . have hrequests : ∀ r ∈ rs, ∀ c ∈ r.carried, c = .literal "zz" := by decide
    intro r hr c hc
    rw [hrequests r hr c hc]
    exact .inr (by decide)
  . decide +kernel
  . decide +kernel
  . decide
  . rw [hsymbols]
    decide
  . rw [hsymbols]
    decide
  . exact hrule.1
  . exact hrule.2
  . intro marker insert h
    cases h
    have hwritten : ∀ i < 4, 1 < i → t.cellAt i ≠ .blank := by decide
    refine ⟨3, ⟨by decide, by decide, ?_⟩, 1, by decide, by decide⟩
    intro i hi hi'
    exact hwritten i (by omega) hi

/--
A cell that is no symbol can be written like the name of a chain. The refused request to shift it leaves a
state that the chain takes for its own, and the machine rejects.
-/
theorem gadget_states_taken :
    let foreign : Cell := .literal "a_Ω_2L_Ω_Ω_firstCellMarker_Ω_qstart"
    let rs : List Request :=
      [ .alphabets [.literal "a", .literal "N"] [], .features [],
        .directive (.gadget "p" (.cell foreign) (.shift .stay) "doShifts"),
        .directive (.gadget "qstart" (.cell (.literal "N")) (.markFirst (.literal "a")) "ACCEPT") ]
    let t : Tape := .ofInput [.literal "N", .literal "a"]
    let run := ((Draft.new "qstart").receive rs).compile.next^[7] ⟨"qstart", [t]⟩
    (Draft.new "qstart").answers rs = [true, true, false, true]
      ∧ run.state = "REJECT"
      ∧ run.tapes = [⟨[.blank, .blank, .literal "N"], .blank, [.blank]⟩]
      ∧ (Action.markFirst (.literal "a")).apply t
        = ⟨[.literal "a"], .literal "N", [.literal "a", .blank]⟩ := by
  decide +kernel

end TuringLowering
