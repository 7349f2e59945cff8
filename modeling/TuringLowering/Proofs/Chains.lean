import TuringLowering.Proofs.Names
import TuringLowering.Proofs.Rules

/-!
This module contains the invariant of the states that are generated for one tape: each of them does
what it was generated for, and none is given rules by anything else. From it follows what a lowered
transition does, however its movement is split.
-/

namespace TuringLowering

namespace Move

/-- How far a movement is from one that needs no split; to stay may take two steps. -/
def weight (m : Move) : Nat := if m = stay then 2 else m.distance

theorem distance_ne_one_of_not_supports {s : FeatureSet} {m : Move} (h : ¬ s.supports m = true) :
    m.distance ≠ 1 := by
  intro hm
  simp [FeatureSet.supports, hm] at h

theorem weight_detour_lt {m : Move} (h : m.distance ≠ 1) : m.detour.2.weight < m.weight := by
  unfold detour weight
  by_cases hm : m = stay
  . rw [if_pos hm, if_pos hm]
    decide
  . have hpos : m.distance ≠ 0 := by
      intro hzero
      apply hm
      cases m
      simp only [distance, Int.natAbs_eq_zero] at hzero
      rw [hzero]
    have hrest : m.rest ≠ stay := by
      intro heq
      have := distance_rest m
      rw [heq] at this
      simp only [distance, Int.natAbs_zero] at this
      unfold distance at h hpos
      omega
    rw [if_neg hm, if_neg hm, if_neg hrest, distance_rest]
    omega

end Move

namespace View

structure Clear (B : List Cell) (v : View) (m : Move) : Prop where
  beside : m = .stay → v.cells (v.position + 1) ∈ B
  between : ∀ k : Nat, 0 < k → k < m.distance →
    v.cells (v.position + m.offset.sign * k).toNat ∈ B

variable {B : List Cell} {v : View} {m : Move}

theorem clear_of_forall (h : ∀ i, v.cells i ∈ B) (m : Move) : v.Clear B m :=
  ⟨fun _ => h _, fun _ _ _ => h _⟩

theorem clear_of_distance (h : m.distance = 1) : v.Clear B m := by
  constructor
  . rintro rfl
    cases h
  . intro k hk hk'
    omega

theorem move_detour (v : View) (m : Move) : (v.move m.detour.1).move m.detour.2 = v.move m := by
  ext i
  . unfold Move.detour
    split
    . next h =>
      rw [h]
      simp only [position_move]
      omega
    . simp only [position_move, Move.step, Move.rest]
      rcases Int.lt_trichotomy m.offset 0 with h | h | h
      . simp only [Int.sign_eq_neg_one_of_neg h]
        omega
      . simp [h]
      . simp only [Int.sign_eq_one_of_pos h]
        omega
  . rfl

theorem Clear.detour (h : v.Clear B m) (hm : m.distance ≠ 1) :
    (v.move m.detour.1).focus ∈ B ∧ (v.move m.detour.1).Clear B m.detour.2 := by
  unfold Move.detour
  split
  . next hstay =>
    refine ⟨?_, clear_of_distance rfl⟩
    exact h.beside hstay
  . next hstay =>
    have hoffset : m.offset ≠ 0 := by
      intro hzero
      apply hstay
      cases m
      rw [Move.mk.injEq]
      exact hzero
    have hlong : 1 < m.distance := by
      unfold Move.distance at hm ⊢
      omega
    have hsign : m.rest.offset.sign = m.offset.sign := by
      unfold Move.rest Move.distance at *
      rcases Int.lt_or_gt_of_ne hoffset with hneg | hpos
      . rw [Int.sign_eq_neg_one_of_neg hneg]
        exact Int.sign_eq_neg_one_of_neg (by dsimp only; omega)
      . rw [Int.sign_eq_one_of_pos hpos]
        exact Int.sign_eq_one_of_pos (by dsimp only; omega)
    refine ⟨?_, ?_, ?_⟩
    . have := h.between 1 Nat.one_pos hlong
      simpa [focus, Move.step] using this
    . intro hrest
      dsimp only at hrest
      rw [hrest] at hsign
      have := Int.sign_eq_zero_iff_zero.mp hsign.symm
      exact absurd this hoffset
    . intro k hk hk'
      rw [Move.distance_rest] at hk'
      have := h.between (k + 1) (Nat.succ_pos k) (by omega)
      have hposition : ((v.move m.step).position + m.offset.sign * k).toNat
          = (v.position + m.offset.sign * (k + 1 : Nat)).toNat := by
        simp only [position_move, Move.step]
        rcases Int.lt_or_gt_of_ne hoffset with hneg | hpos
        . rw [Int.sign_eq_neg_one_of_neg hneg]
          omega
        . rw [Int.sign_eq_one_of_pos hpos]
          omega
      rw [hsign, hposition]
      exact this

end View

theorem isTerminal_of_mem_mark {s : String} (h : Guard.mark ∈ s.toList) : isTerminal s = false := by
  cases hs : isTerminal s with
  | false => rfl
  | true =>
    obtain ⟨v, hv⟩ := Option.isSome_iff_exists.mp hs
    rw [← Verdict.ofState?_eq_some_iff.mp hv] at h
    cases v <;> exact absurd h (by decide)

theorem Guard.mark_mem_wrap (g : Guard) (parts : List String) :
    Guard.mark ∈ (g.wrap parts).toList := by
  rw [toList_wrap, List.mem_append]
  exact .inl (List.mem_replicate.mpr ⟨Nat.pos_iff_ne_zero.mp g.size_pos, rfl⟩)

/-- What is put behind the name of a generated state to name the states that belong to it. -/
def chainSuffixes : List String := ["_findEnd", "_doShifts", "_doInsert"]

/-- A name that is made for a generated state. -/
def Guard.Generates (g : Guard) (s : String) : Prop :=
  ∃ part parts, s = g.wrap (part :: parts)
    ∨ ∃ suffix ∈ chainSuffixes, s = g.wrap (part :: parts) ++ suffix

theorem Guard.getLast?_wrap (g : Guard) (part : String) (parts : List String) :
    (g.wrap (part :: parts)).toList.getLast? = some Guard.mark := by
  have hrun (xs : List Char) : (xs ++ run g.size).getLast? = some mark := by
    obtain ⟨n, hn⟩ := Nat.exists_eq_succ_of_ne_zero (Nat.pos_iff_ne_zero.mp g.size_pos)
    rw [hn, run, Nat.succ_eq_add_one, List.replicate_succ', ← List.append_assoc,
      List.getLast?_concat]
  have hbehind (part : String) : ∃ xs, g.behind (part :: parts) = xs ++ run g.size := by
    induction parts generalizing part with
    | nil => exact ⟨'_' :: (part.toList ++ ['_']), by simp [behind]⟩
    | cons p ps ih =>
      obtain ⟨xs, hxs⟩ := ih p
      refine ⟨'_' :: (part.toList ++ '_' :: (run g.size ++ xs)), ?_⟩
      rw [behind, hxs]
      simp
  obtain ⟨xs, hxs⟩ := hbehind part
  rw [toList_wrap, hxs, ← List.append_assoc, hrun]

theorem Guard.getLast?_append_suffix (name : String) {suffix : String}
    (h : suffix ∈ chainSuffixes) : (name ++ suffix).toList.getLast? ≠ some Guard.mark := by
  have hsuffix : ∀ x ∈ chainSuffixes, x.toList.getLast? ≠ some Guard.mark
      ∧ x.toList.getLast?.isSome = true := by
    decide
  obtain ⟨hne, hsome⟩ := hsuffix suffix h
  rw [String.toList_append, List.getLast?_append, Option.or_of_isSome hsome]
  exact hne

theorem chainSuffixes_inj {name name' suffix suffix' : String} (h : suffix ∈ chainSuffixes)
    (h' : suffix' ∈ chainSuffixes) (heq : name ++ suffix = name' ++ suffix') :
    name = name' ∧ suffix = suffix' := by
  have hlast : ∀ x ∈ chainSuffixes, ∀ y ∈ chainSuffixes,
      x.toList.getLast? = y.toList.getLast? → x = y := by
    decide
  have hsome : ∀ x ∈ chainSuffixes, x.toList.getLast?.isSome = true := by decide
  have hlist := congrArg String.toList heq
  rw [String.toList_append, String.toList_append] at hlist
  have hsuffix : suffix = suffix' := by
    apply hlast suffix h suffix' h'
    have := congrArg List.getLast? hlist
    rwa [List.getLast?_append, List.getLast?_append, Option.or_of_isSome (hsome suffix h),
      Option.or_of_isSome (hsome suffix' h')] at this
  rw [hsuffix] at hlist
  exact ⟨String.toList_injective (List.append_cancel_right hlist), hsuffix⟩

namespace Draft

/-- A state that an author may name, or one that belongs to a generated state of the draft. -/
def Known (N : String → Prop) (d : Draft) (s : String) : Prop :=
  N s ∨ ∃ e ∈ d.chains, e.1.kind ≠ .jointMove ∧ (s = e.2 ∨ ∃ suffix ∈ chainSuffixes, s = e.2 ++ suffix)

/--
The state generated for a key does what it was generated for, if the cells that it comes by are among
those of `B`.
-/
structure Performs (B : List Cell) (k : ChainKey) (name : String) (d : Draft) : Prop where
  continuation : ∀ m next, k = .continuation m next → ∀ v : View, v.focus ∈ B → v.Clear B m →
    d.Reaches name v next (v.move m)
  paste : ∀ c ∈ B, ∀ m next, k = .paste c m next → ∀ v : View, v.focus ∈ B →
    (v.write c).Clear B m → d.Reaches name v next ((v.write c).move m)
  carries : k.kind = .markFirst ∨ k.kind = .insertAfter →
    d.states.lookup (name ++ "_findEnd") .blank ≠ none

/--
The generated states of a draft are in order: all of them, except those that are being worked on, do
what they were generated for. `B` are the cells they deal with, and `N` are the names of other states.
-/
structure Sound (B : List Cell) (N : String → Prop) (opened : ChainKey → Prop) (d : Draft) :
    Prop where
  blank : .blank ∈ B
  accepts : ∀ c ∈ B, d.alphabet.accepts c = true
  symbols : ∀ c ∈ B, c ∈ d.alphabet.symbols
  displays : ∀ c ∈ B, ∀ c' ∈ d.alphabet.symbols, c.display = c'.display → c = c'
  foreign : ∀ s, N s → ¬ d.guard.Generates s
  formed : ∀ e ∈ d.chains, e.1.kind ≠ .jointMove →
    e.1.Formed d.guard ∧ e.2 = d.guard.wrap e.1.nameParts
  known : ∀ s, d.states.find? s ≠ none → d.Known N s
  performs : ∀ e ∈ d.chains, ¬ opened e.1 → d.Performs B e.1 e.2

/-- Rules and generated states were added; of the states known before, only those in `S` got rules. -/
structure Grows (N S : String → Prop) (K : ChainKey → Prop) (d d' : Draft) : Prop where
  rest : d' = { d with states := d'.states, chains := d'.chains }
  lookup : ∀ s c o, d.states.lookup s c = some o → d'.states.lookup s c = some o
  other : ∀ s, ¬ S s → d.Known N s → d'.states.find? s = d.states.find? s
  chains : ∀ e ∈ d.chains, e ∈ d'.chains
  new : ∀ e ∈ d'.chains, e ∈ d.chains ∨ K e.1

variable {B : List Cell} {N S S' : String → Prop} {opened K K' : ChainKey → Prop}
  {d d' d'' : Draft}

theorem Performs.mono {k : ChainKey} {name : String} (h : d.Performs B k name)
    (hbelow : d.Below d') : d'.Performs B k name := by
  refine ⟨?_, ?_, ?_⟩
  . intro m next hk v hv hclear
    exact hbelow.reaches (h.continuation m next hk v hv hclear)
  . intro c hc m next hk v hv hclear
    exact hbelow.reaches (h.paste c hc m next hk v hv hclear)
  . intro hk hnone
    obtain ⟨o, ho⟩ := Option.ne_none_iff_exists'.mp (h.carries hk)
    rw [hbelow.lookup _ _ _ ho] at hnone
    cases hnone

namespace Grows

theorem guard (h : d.Grows N S K d') : d'.guard = d.guard := by
  rw [h.rest]

theorem alphabet (h : d.Grows N S K d') : d'.alphabet = d.alphabet := by
  rw [h.rest]

theorem features (h : d.Grows N S K d') : d'.features = d.features := by
  rw [h.rest]

theorem below (h : d.Grows N S K d') : d.Below d' := by
  refine ⟨?_, h.lookup⟩
  intro c hc
  rwa [h.alphabet]

theorem known (h : d.Grows N S K d') {s : String} (hs : d.Known N s) : d'.Known N s := by
  rcases hs with hs | ⟨e, he, hkind, hname⟩
  . exact .inl hs
  . exact .inr ⟨e, h.chains e he, hkind, hname⟩

theorem lookup_other (h : d.Grows N S K d') {s : String} (hs : ¬ S s) (hknown : d.Known N s)
    (c : Cell) : d'.states.lookup s c = d.states.lookup s c := by
  rw [StateTables.lookup, h.other s hs hknown, StateTables.lookup]

theorem lookup_ne_none (h : d.Grows N S K d') {s : String} {c : Cell}
    (hs : d.states.lookup s c ≠ none) : d'.states.lookup s c ≠ none := by
  obtain ⟨o, ho⟩ := Option.ne_none_iff_exists'.mp hs
  exact Option.ne_none_iff_exists'.mpr ⟨o, h.lookup s c o ho⟩

theorem refl (d : Draft) : d.Grows N S K d :=
  ⟨rfl, fun _ _ _ h => h, fun _ _ _ => rfl, fun _ h => h, fun _ h => .inl h⟩

theorem mono (h : d.Grows N S K d') (hS : ∀ s, S s → S' s) (hK : ∀ k, K k → K' k) :
    d.Grows N S' K' d' :=
  ⟨h.rest, h.lookup, fun s hs => h.other s fun hs' => hs (hS s hs'), h.chains,
    fun e he => (h.new e he).imp id (hK e.1)⟩

theorem trans (h : d.Grows N S K d') (h' : d'.Grows N S K d'') : d.Grows N S K d'' := by
  refine ⟨?_, ?_, ?_, ?_, ?_⟩
  . rw [h'.rest, h.rest]
  . intro s c o ho
    exact h'.lookup s c o (h.lookup s c o ho)
  . intro s hs hknown
    rw [h'.other s hs (h.known hknown), h.other s hs hknown]
  . intro e he
    exact h'.chains e (h.chains e he)
  . intro e he
    rcases h'.new e he with he | hk
    . exact h.new e he
    . exact .inr hk

end Grows

theorem Sound.generates (hd : d.Sound B N opened) {e : ChainKey × String} (he : e ∈ d.chains)
    (hkind : e.1.kind ≠ .jointMove) {s : String}
    (hs : s = e.2 ∨ ∃ suffix ∈ chainSuffixes, s = e.2 ++ suffix) : d.guard.Generates s := by
  obtain ⟨hformed, hname⟩ := hd.formed e he hkind
  obtain ⟨part, parts, hparts⟩ := hformed.exists_nameParts
  rw [hparts] at hname
  rw [hname] at hs
  exact ⟨part, parts, hs⟩

theorem Sound.not_known_of_fresh (hd : d.Sound B N opened) {k : ChainKey}
    (hk : k.Formed d.guard) (hkind : k.kind = .continuation ∨ k.kind = .paste)
    (hfresh : ∀ e ∈ d.chains, e.1 ≠ k) : ¬ d.Known N (d.guard.wrap k.nameParts) := by
  obtain ⟨part, parts, hparts⟩ := hk.exists_nameParts
  rintro (hN | ⟨e, he, hjoint, heq | ⟨suffix, hsuffix, heq⟩⟩)
  . exact hd.foreign _ hN ⟨part, parts, .inl (by rw [hparts])⟩
  . obtain ⟨hformed, hname⟩ := hd.formed e he hjoint
    rw [hname] at heq
    exact hfresh e he (hk.eq_of_wrap hformed hkind heq).symm
  . have hlast := Guard.getLast?_append_suffix e.2 hsuffix
    rw [← heq, hparts] at hlast
    exact hlast (Guard.getLast?_wrap _ _ _)

theorem Sound.find?_of_not_known (hd : d.Sound B N opened) {s : String} (h : ¬ d.Known N s) :
    d.states.find? s = none := by
  cases hfind : d.states.find? s with
  | none => rfl
  | some t => exact absurd (hd.known s (by rw [hfind]; exact Option.some_ne_none t)) h

theorem Sound.find?_fresh (hd : d.Sound B N opened) {k : ChainKey} (hk : k.Formed d.guard)
    (hkind : k.kind = .continuation ∨ k.kind = .paste) (hfresh : ∀ e ∈ d.chains, e.1 ≠ k) :
    d.states.find? (d.guard.wrap k.nameParts) = none :=
  hd.find?_of_not_known (hd.not_known_of_fresh hk hkind hfresh)

theorem Sound.not_known_suffix (hd : d.Sound B N opened) {k : ChainKey}
    (hk : k.Formed d.guard)
    (hname : ∀ e ∈ d.chains, e.1.kind ≠ .jointMove → e.2 ≠ d.guard.wrap k.nameParts)
    {suffix : String} (hsuffix : suffix ∈ chainSuffixes) :
    ¬ d.Known N (d.guard.wrap k.nameParts ++ suffix) := by
  rintro (hN | ⟨e, he, hjoint, heq | ⟨suffix', hsuffix', heq⟩⟩)
  . obtain ⟨part, parts, hparts⟩ := hk.exists_nameParts
    exact hd.foreign _ hN ⟨part, parts, .inr ⟨suffix, hsuffix, by rw [hparts]⟩⟩
  . obtain ⟨hformed, hwrap⟩ := hd.formed e he hjoint
    obtain ⟨part, parts, hparts⟩ := hformed.exists_nameParts
    have hlast := Guard.getLast?_append_suffix (d.guard.wrap k.nameParts) hsuffix
    rw [heq, hwrap, hparts] at hlast
    exact hlast (Guard.getLast?_wrap _ _ _)
  . exact hname e he hjoint (chainSuffixes_inj hsuffix hsuffix' heq).1.symm

theorem Adds.sound {origin : String} {p : Pattern} {R : Cell → Outcome → Prop}
    (h : d.Adds origin p R d') (hd : d.Sound B N opened) (horigin : d.Known N origin) :
    d'.Sound B N opened := by
  have hguard := h.guard
  have hchains := h.chains
  have halphabet := h.alphabet
  have hknown : ∀ s, d'.Known N s ↔ d.Known N s := by
    intro s
    unfold Known
    rw [hchains]
  refine ⟨hd.blank, ?_, ?_, ?_, ?_, ?_, ?_, ?_⟩
  . rw [halphabet]
    exact hd.accepts
  . rw [halphabet]
    exact hd.symbols
  . rw [halphabet]
    exact hd.displays
  . rw [hguard]
    exact hd.foreign
  . rw [hchains, hguard]
    exact hd.formed
  . intro s hs
    rw [hknown]
    by_cases heq : s = origin
    . rw [heq]
      exact horigin
    . rw [h.other s heq] at hs
      exact hd.known s hs
  . rw [hchains]
    intro e he hopened
    exact (hd.performs e he hopened).mono h.below

theorem Adds.grows {origin : String} {p : Pattern} {R : Cell → Outcome → Prop}
    (h : d.Adds origin p R d') : d.Grows N (· = origin) K d' := by
  refine ⟨?_, h.below.lookup, fun s hs _ => h.other s hs, ?_, ?_⟩
  . rw [h.rest]
  . intro e he
    rwa [h.chains]
  . intro e he
    rw [h.chains] at he
    exact .inl he

/--
What a lowered request does for a state and a pattern: where the state had no rule for a matching
cell, it gets from what is seen to what `E` relates to it, and goes on to the next state.
-/
structure Lowers (B : List Cell) (N : String → Prop) (opened : ChainKey → Prop)
    (K : ChainKey → Prop) (origin : String) (read : Pattern) (next : String)
    (E : View → View → Prop) (d d' : Draft) : Prop where
  sound : d'.Sound B N opened
  grows : d.Grows N (· = origin) K d'
  reaches : ∀ v v', (read = .any → v.focus ∈ B) → read.Matches v.focus →
    d.states.lookup origin v.focus = none → isTerminal origin = false → E v v' →
    d'.Reaches origin v next v'
  covers : ∀ c, (read = .any → c ∈ B) → read.Matches c → d'.states.lookup origin c ≠ none
  missing : ∀ c, ¬ read.Matches c → d.states.lookup origin c = none →
    d'.states.lookup origin c = none
  free : read ≠ .any → ∀ c, read.Matches c → d.states.lookup origin c = none

theorem Adds.lowers {origin next : String} {read : Pattern} {R : Cell → Outcome → Prop}
    {E : View → View → Prop} (h : d.Adds origin read R d') (hd : d.Sound B N opened)
    (horigin : d.Known N origin)
    (hR : ∀ c o, R c o → ∃ a, o = .single a next ∧ ∀ (t : Tape) (v' : View), t.focus = c →
      E t.view v' → (a.apply t).view = v') :
    d.Lowers B N opened K origin read next E d' := by
  refine ⟨h.sound hd horigin, h.grows, ?_, ?_, h.missing, h.free⟩
  . intro v v' hv hmatch hnone hrunning hE
    obtain ⟨o, ho, hlookup⟩ := h.new v.focus hmatch (fun hp => hd.symbols _ (hv hp)) hnone
    obtain ⟨a, rfl, hview⟩ := hR _ _ ho
    apply Reaches.of_rule hrunning
    . rw [h.alphabet]
      by_cases hp : read = .any
      . exact hd.accepts _ (hv hp)
      . exact h.accepted hp _ hmatch
    . exact hlookup
    . intro t ht
      apply hview t v'
      . rw [← Tape.focus_view, ht]
      . rwa [ht]
  . intro c hc hmatch
    cases hlookup : d.states.lookup origin c with
    | some o => exact Option.ne_none_iff_exists'.mpr ⟨o, h.kept c o hlookup⟩
    | none =>
      obtain ⟨o, _, ho⟩ := h.new c hmatch (fun hp => hd.symbols c (hc hp)) hlookup
      exact Option.ne_none_iff_exists'.mpr ⟨o, ho⟩

theorem Grows.forget {state : String} (h : d.Grows N (fun s => S s ∨ s = state) K d')
    (hstate : ¬ d.Known N state) : d.Grows N S K d' := by
  refine ⟨h.rest, h.lookup, ?_, h.chains, h.new⟩
  intro s hs hknown
  apply h.other s _ hknown
  rintro (hs' | rfl)
  . exact hs hs'
  . exact hstate hknown

theorem Lowers.of_grows {origin next : String} {read : Pattern} {E : View → View → Prop}
    (hgrows : d.Grows N (fun _ => False) K d') (horigin : d.Known N origin)
    (h : d'.Lowers B N opened K origin read next E d'') :
    d.Lowers B N opened K origin read next E d'' := by
  have hlookup := hgrows.lookup_other (fun h : False => h) horigin
  refine ⟨h.sound, (hgrows.mono (fun _ h => h.elim) fun _ h => h).trans h.grows, ?_, h.covers, ?_,
    ?_⟩
  . intro v v' hv hmatch hnone
    rw [← hlookup] at hnone
    exact h.reaches v v' hv hmatch hnone
  . intro c hc hnone
    rw [← hlookup] at hnone
    exact h.missing c hc hnone
  . intro hp c hc
    rw [← hlookup]
    exact h.free hp c hc

def withChain (d : Draft) (k : ChainKey) : Draft :=
  { d with chains := d.chains ++ [(k, d.guard.wrap k.nameParts)] }

theorem mem_withChain {k : ChainKey} {e : ChainKey × String} :
    e ∈ (d.withChain k).chains ↔ e ∈ d.chains ∨ e = (k, d.guard.wrap k.nameParts) := by
  simp [withChain]

theorem withChain_grows {k : ChainKey} (hk : K k) : d.Grows N S K (d.withChain k) := by
  refine ⟨rfl, fun _ _ _ h => h, fun _ _ _ => rfl, ?_, ?_⟩
  . intro e he
    exact mem_withChain.mpr (.inl he)
  . intro e he
    rcases mem_withChain.mp he with he | rfl
    . exact .inl he
    . exact .inr hk

theorem Sound.withChain {k : ChainKey} (hd : d.Sound B N opened) (hk : k.Formed d.guard) :
    (d.withChain k).Sound B N fun x => opened x ∨ x = k := by
  have hgrows : d.Grows N (fun _ => False) (· = k) (d.withChain k) := withChain_grows rfl
  refine ⟨hd.blank, hd.accepts, hd.symbols, hd.displays, hd.foreign, ?_, ?_, ?_⟩
  . intro e he hkind
    rcases mem_withChain.mp he with he | rfl
    . exact hd.formed e he hkind
    . exact ⟨hk, rfl⟩
  . intro s hs
    exact hgrows.known (hd.known s hs)
  . intro e he hopened
    rw [not_or] at hopened
    rcases mem_withChain.mp he with he | rfl
    . exact (hd.performs e he hopened.1).mono hgrows.below
    . exact absurd rfl hopened.2

theorem Sound.close {k : ChainKey} (hd : d.Sound B N fun x => opened x ∨ x = k)
    (hkind : k.kind ≠ .jointMove) (hk : d.Performs B k (d.guard.wrap k.nameParts)) :
    d.Sound B N opened := by
  refine ⟨hd.blank, hd.accepts, hd.symbols, hd.displays, hd.foreign, hd.formed, hd.known,
    ?_⟩
  intro e he hopened
  by_cases heq : e.1 = k
  . rw [(hd.formed e he (by rwa [heq])).2, heq]
    exact hk
  . exact hd.performs e he (by simp [hopened, heq])

theorem Sound.generate {k : ChainKey} {next : String} {E : View → View → Prop}
    (hd : d.Sound B N opened) (hk : k.Formed d.guard)
    (hkind : k.kind = .continuation ∨ k.kind = .paste) (hfresh : ∀ e ∈ d.chains, e.1 ≠ k)
    (h : (d.withChain k).Lowers B N (fun x => opened x ∨ x = k) K (d.guard.wrap k.nameParts)
      .any next E d')
    (hK : K k)
    (hperforms : (∀ v v', v.focus ∈ B → E v v' →
      d'.Reaches (d.guard.wrap k.nameParts) v next v') →
      d'.Performs B k (d.guard.wrap k.nameParts)) :
    d'.Sound B N opened ∧ d.Grows N (fun _ => False) K d' := by
  have hguard : d'.guard = d.guard := h.grows.guard
  constructor
  . apply h.sound.close
    . rintro hjoint
      rcases hkind with hkind | hkind <;> simp [hkind] at hjoint
    . rw [hguard]
      apply hperforms
      intro v v' hv hE
      apply h.reaches v v' (fun _ => hv) trivial _ (isTerminal_of_mem_mark (Guard.mark_mem_wrap _ _)) hE
      rw [StateTables.lookup]
      change (d.states.find? _).bind _ = none
      rw [hd.find?_fresh hk hkind hfresh, Option.bind_none]
  . apply Grows.forget _ (hd.not_known_of_fresh hk hkind hfresh)
    have hopen : d.Grows N (fun s => False ∨ s = d.guard.wrap k.nameParts) K (d.withChain k) :=
      withChain_grows hK
    exact hopen.trans (h.grows.mono (fun _ hs => .inr hs) fun _ hk => hk)

end Draft

namespace Build

variable {B : List Cell} {N : String → Prop} {opened : ChainKey → Prop} {d d' : Draft}

theorem chain_cases {k : ChainKey} {name : String} {isNew : Bool}
    (h : chain k k.nameParts d = .ok (name, isNew) d') :
    (isNew = false ∧ (k, name) ∈ d.chains ∧ d' = d)
      ∨ (isNew = true ∧ (∀ e ∈ d.chains, e.1 ≠ k) ∧ name = d.guard.wrap k.nameParts
        ∧ d' = d.withChain k) := by
  rw [chain_apply] at h
  cases hfind : d.chains.find? (·.1 = k) with
  | some e =>
    simp only [hfind, EStateM.Result.ok.injEq, Prod.mk.injEq] at h
    have hkey : e.1 = k := by simpa using List.find?_some hfind
    obtain ⟨⟨hname, hnew⟩, hdraft⟩ := h
    refine .inl ⟨hnew.symm, ?_, hdraft.symm⟩
    have := List.mem_of_find?_eq_some hfind
    rwa [← hname, ← hkey]
  | none =>
    simp only [hfind, EStateM.Result.ok.injEq, Prod.mk.injEq] at h
    obtain ⟨⟨hname, hnew⟩, hdraft⟩ := h
    refine .inr ⟨hnew.symm, ?_, hname.symm, hdraft.symm⟩
    simpa using List.find?_eq_none.mp hfind

def Travels (B : List Cell) (w : Writing) (m : Move) (v v' : View) : Prop :=
  (v.write (w.onto v.focus)).Clear B m ∧ v' = (v.write (w.onto v.focus)).move m

theorem direct_lowers {K : ChainKey → Prop} {origin next : String} {read : Pattern} {w : Writing}
    {m : Move} (h : direct origin read w m next d = .ok () d') (hd : d.Sound B N opened)
    (horigin : d.Known N origin) :
    d.Lowers B N opened K origin read next (Travels B w m) d' := by
  apply (direct_adds h).lowers hd horigin
  intro c o ho
  obtain ⟨a, heq, hview⟩ := ho.view_apply
  refine ⟨a, heq, ?_⟩
  rintro t v' ht ⟨_, rfl⟩
  rw [hview t ht, Tape.focus_view, ht]

theorem detour_lowers {origin next state : String} {read : Pattern} {w : Writing} {m : Move}
    (hm : m.distance ≠ 1) (h : direct origin read w m.detour.1 state d = .ok () d')
    (hd : d.Sound B N opened) (horigin : d.Known N origin)
    (hstate : (.continuation m.detour.2 next, state) ∈ d.chains)
    (hopened : ¬ opened (.continuation m.detour.2 next)) :
    d.Lowers B N opened (fun k => k.kind = .continuation) origin read next (Travels B w m) d' := by
  have hstep := @direct_lowers B N opened d d' (fun k => k.kind = .continuation) _ _ _ _ _ h hd
    horigin
  refine ⟨hstep.sound, hstep.grows, ?_, hstep.covers, hstep.missing, hstep.free⟩
  rintro v v' hv hmatch hnone hrunning ⟨hclear, rfl⟩
  obtain ⟨hfocus, hrest⟩ := hclear.detour hm
  have hfirst : d'.Reaches origin v state ((v.write (w.onto v.focus)).move m.detour.1) := by
    apply hstep.reaches v _ hv hmatch hnone hrunning
    refine ⟨View.clear_of_distance ?_, rfl⟩
    unfold Move.detour
    split
    . rfl
    . next hstay =>
      have : m.offset ≠ 0 := by
        intro hzero
        apply hstay
        cases m
        rw [Move.mk.injEq]
        exact hzero
      rcases Int.lt_or_gt_of_ne this with hneg | hpos
      . simp [Move.step, Move.distance, Int.sign_eq_neg_one_of_neg hneg]
      . simp [Move.step, Move.distance, Int.sign_eq_one_of_pos hpos]
  have hsecond := (hd.performs _ hstate hopened).continuation m.detour.2 next rfl _ hfocus hrest
  rw [View.move_detour] at hsecond
  exact hfirst.trans (hstep.grows.below.reaches hsecond)

theorem transition_go_lowers (n : Nat) {origin next : String} {read : Pattern} {w : Writing}
    {m : Move} (h : transition.go n origin read w m next d = .ok () d')
    (hd : d.Sound B N opened) (horigin : d.Known N origin)
    (hopened : ∀ m' next', m'.weight < m.weight → ¬ opened (.continuation m' next')) :
    d.Lowers B N opened (fun k => k.kind = .continuation) origin read next (Travels B w m) d' := by
  induction n generalizing origin next read w m d d' opened with
  | zero => exact direct_lowers h hd horigin
  | succ n ih =>
    rw [transition.go, bind_eq_ok] at h
    obtain ⟨e, _, he, h⟩ := h
    cases he
    split at h
    . exact direct_lowers h hd horigin
    . next hsupports =>
      have hm := Move.distance_ne_one_of_not_supports hsupports
      have hweight := Move.weight_detour_lt hm
      rw [bind_eq_ok] at h
      obtain ⟨⟨state, isNew⟩, d₁, hchain, h⟩ := h
      rcases chain_cases hchain with ⟨rfl, hmem, rfl⟩ | ⟨rfl, hfresh, rfl, rfl⟩
      . exact detour_lowers hm h hd horigin hmem (hopened _ next hweight)
      . dsimp only at h
        rw [if_pos rfl, bind_eq_ok] at h
        obtain ⟨_, d₂, hgo, hdirect⟩ := h
        have hformed : (ChainKey.continuation m.detour.2 next).Formed d.guard :=
          .continuation _ _
        have hmem := Draft.mem_withChain.mpr (.inr (Eq.refl
          (ChainKey.continuation m.detour.2 next, d.guard.wrap _)))
        have hlow := ih hgo (hd.withChain hformed) (.inr ⟨_, hmem, nofun, .inl rfl⟩) (by
          rintro m' next' hlt (hopen | heq)
          . exact hopened m' next' (Nat.lt_trans hlt hweight) hopen
          . simp only [ChainKey.mk.injEq, List.cons.injEq, true_and] at heq
            rw [Move.display_injective heq.1] at hlt
            exact Nat.lt_irrefl _ hlt)
        obtain ⟨hsound, hgrows⟩ := hd.generate hformed (.inl rfl) hfresh hlow rfl (by
          intro hreaches
          refine ⟨?_, ?_, ?_⟩
          . intro m' next' hk v hv hclear
            simp only [ChainKey.mk.injEq, List.cons.injEq, and_true, true_and] at hk
            obtain ⟨hm', rfl⟩ := hk
            obtain rfl := Move.display_injective hm'
            have hwrite : v.write (Writing.keep.onto v.focus) = v := v.write_focus
            exact hreaches v _ hv ⟨by rwa [hwrite], by rw [hwrite]⟩
          . intro c _ m' next' hk
            simp at hk
          . intro hk
            simp at hk)
        apply Draft.Lowers.of_grows hgrows horigin
        exact detour_lowers hm hdirect hsound (hgrows.known horigin) (hlow.grows.chains _ hmem)
          (hopened _ next hweight)

theorem transition_lowers {origin next : String} {read : Pattern} {w : Writing} {m : Move}
    (h : transition origin read w m next d = .ok () d') (hd : d.Sound B N opened)
    (horigin : d.Known N origin) (hopened : ∀ m next, ¬ opened (.continuation m next)) :
    d.Lowers B N opened (fun k => k.kind = .continuation) origin read next (Travels B w m) d' :=
  transition_go_lowers _ h hd horigin fun m' next' _ => hopened m' next'

end Build

end TuringLowering
