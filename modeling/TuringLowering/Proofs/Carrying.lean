import TuringLowering.Proofs.Chains

/-!
This module contains what lowered gadgets do. Spelled out as a chain of states, a gadget changes what
is seen of a tape as it does in one step.
-/

namespace TuringLowering

namespace Draft.Lowers

variable {B : List Cell} {N : String → Prop} {opened K K' : ChainKey → Prop}
  {origin next : String} {E : View → View → Prop} {d d' d'' : Draft}

theorem mono {read : Pattern} (h : d.Lowers B N opened K origin read next E d')
    (hK : ∀ k, K k → K' k) : d.Lowers B N opened K' origin read next E d' :=
  ⟨h.sound, h.grows.mono (fun _ hs => hs) hK, h.reaches, h.covers, h.missing, h.free⟩

theorem nil (hd : d.Sound B N opened) : d.Lowers B N opened K origin (.oneOf []) next E d := by
  refine ⟨hd, .refl d, ?_, ?_, fun _ _ h => h, ?_⟩
  . intro v v' _ hmatch
    cases hmatch
  . intro c _ hmatch
    cases hmatch
  . intro _ c hc
    cases hc

theorem cons {c : Cell} {cells : List Cell}
    (h : d.Lowers B N opened K origin (.cell c) next E d')
    (h' : d'.Lowers B N opened K origin (.oneOf cells) next E d'') :
    d.Lowers B N opened K origin (.oneOf (c :: cells)) next E d'' := by
  refine ⟨h'.sound, h.grows.trans h'.grows, ?_, ?_, ?_, ?_⟩
  . intro v v' hv hmatch hnone hrunning hE
    rcases List.mem_cons.mp hmatch with hc | hmem
    . exact h'.grows.below.reaches (h.reaches v v' nofun hc hnone hrunning hE)
    . exact h'.reaches v v' nofun hmem (h'.free nofun _ hmem) hrunning hE
  . intro x hx hmatch
    rcases List.mem_cons.mp hmatch with hc | hmem
    . exact h'.grows.lookup_ne_none (h.covers x nofun hc)
    . exact h'.covers x nofun hmem
  . intro x hx hnone
    have hx' : ¬ (x = c ∨ x ∈ cells) := fun h => hx (List.mem_cons.mpr h)
    rw [not_or] at hx'
    exact h'.missing x hx'.2 (h.missing x hx'.1 hnone)
  . intro _ x hx
    rcases List.mem_cons.mp hx with rfl | hx
    . exact h.free nofun x rfl
    . have hnone := h'.free nofun x hx
      cases ho : d.states.lookup origin x with
      | none => rfl
      | some o =>
        rw [h.grows.lookup _ _ _ ho] at hnone
        cases hnone

theorem of_singleton {c : Cell} (h : d.Lowers B N opened K origin (.oneOf [c]) next E d') :
    d.Lowers B N opened K origin (.cell c) next E d' := by
  have hmatch : ∀ x, (Pattern.oneOf [c]).Matches x ↔ (Pattern.cell c).Matches x :=
    fun _ => List.mem_singleton
  refine ⟨h.sound, h.grows, ?_, ?_, ?_, ?_⟩
  . intro v v' _ hv
    exact h.reaches v v' nofun ((hmatch _).mpr hv)
  . intro x _ hx
    exact h.covers x nofun ((hmatch x).mpr hx)
  . intro x hx
    exact h.missing x fun hx' => hx ((hmatch x).mp hx')
  . intro _ x hx
    exact h.free nofun x ((hmatch x).mpr hx)

theorem any_of_uncovered (hd : d.Sound B N opened)
    (h : d.Lowers B N opened K origin (.oneOf (d.uncovered origin)) next E d') :
    d.Lowers B N opened K origin .any next E d' := by
  refine ⟨h.sound, h.grows, ?_, ?_, fun _ hc => absurd trivial hc, fun hp => absurd rfl hp⟩
  . intro v v' hv _ hnone
    apply h.reaches v v' nofun _ hnone
    exact mem_uncovered.mpr ⟨hd.symbols _ (hv rfl), hnone⟩
  . intro c hc _
    cases hlookup : d.states.lookup origin c with
    | some o => exact Option.ne_none_iff_exists'.mpr ⟨o, h.grows.lookup _ _ _ hlookup⟩
    | none => exact h.covers c nofun (mem_uncovered.mpr ⟨hd.symbols c (hc rfl), hlookup⟩)

end Draft.Lowers

/-- The written forms of the symbols contain no guard, so that states can be named after them. -/
def Draft.SymbolsApart (d : Draft) : Prop := ∀ c ∈ d.alphabet.symbols, d.guard.Apart c.display

theorem Draft.SymbolsApart.grows {N S : String → Prop} {K : ChainKey → Prop} {d d' : Draft}
    (h : d.SymbolsApart) (hgrows : d.Grows N S K d') : d'.SymbolsApart := by
  unfold SymbolsApart
  rw [hgrows.alphabet, hgrows.guard]
  exact h

namespace Build

variable {B : List Cell} {N : String → Prop} {opened : ChainKey → Prop} {d d' : Draft}

/-- What a shift does to what is seen, if the cells on the way are among those of `B`. -/
def Carries (B : List Cell) (m : Move) (v v' : View) : Prop :=
  v.focus ∈ B ∧ v.cells (v.position + 1) ∈ B ∧ v.carryRight.Clear B m ∧ v' = v.carryRight.move m

/-- The keys of the states by which movements and shifts are spelled out. -/
def IsStep (k : ChainKey) : Prop := k.kind = .continuation ∨ k.kind = .paste

theorem paste_lowers {origin next paste : String} {m : Move} {c : Cell}
    (h : transition origin (.cell c) (.put .blank) .right paste d = .ok () d')
    (hd : d.Sound B N opened) (horigin : d.Known N origin)
    (hopened : ∀ k, IsStep k → ¬ opened k) (hmem : (.paste c m next, paste) ∈ d.chains) :
    d.Lowers B N opened IsStep origin (.cell c) next (Carries B m) d' := by
  have hlow := transition_lowers h hd horigin fun _ _ => hopened _ (.inl rfl)
  refine ⟨hlow.sound, hlow.grows.mono (fun _ hs => hs) fun _ => .inl, ?_, hlow.covers, hlow.missing,
    hlow.free⟩
  rintro v v' _ hmatch hnone hrunning ⟨hv, hbeside, hclear, rfl⟩
  have hc : v.focus = c := hmatch
  have hfirst := hlow.reaches v _ nofun hmatch hnone hrunning ⟨View.clear_of_distance rfl, rfl⟩
  have hfocus : ((v.write .blank).move .right).focus = v.cells (v.position + 1) := by
    change (if v.position + 1 = v.position then _ else v.cells (v.position + 1)) = _
    rw [if_neg (by omega)]
  have hcarry : ((v.write .blank).move .right).write c = v.carryRight := by
    rw [View.carryRight, hc]
  have hsecond := (hd.performs _ hmem (hopened _ (.inr rfl))).paste c (hc ▸ hv) m next rfl
    ((v.write .blank).move .right) (by rwa [hfocus]) (by rwa [hcarry])
  rw [hcarry] at hsecond
  exact hfirst.trans (hlow.grows.below.reaches hsecond)

theorem paste_generated {next : String} {m : Move} {c : Cell}
    (h : transition (d.guard.wrap (ChainKey.paste c m next).nameParts) .any (.put c) m next
      (d.withChain (.paste c m next)) = .ok () d')
    (hd : d.Sound B N opened) (hc : c ∈ d.alphabet.symbols) (hapart : d.guard.Apart c.display)
    (hopened : ∀ k, IsStep k → ¬ opened k) (hfresh : ∀ e ∈ d.chains, e.1 ≠ .paste c m next) :
    d'.Sound B N opened ∧ d.Grows N (fun _ => False) IsStep d'
      ∧ (.paste c m next, d.guard.wrap (ChainKey.paste c m next).nameParts) ∈ d'.chains := by
  have hformed : (ChainKey.paste c m next).Formed d.guard := .paste hapart m next
  have hmem := Draft.mem_withChain.mpr (.inr (Eq.refl
    (ChainKey.paste c m next, d.guard.wrap (ChainKey.paste c m next).nameParts)))
  have hlow := transition_lowers h (hd.withChain hformed) (.inr ⟨_, hmem, nofun, .inl rfl⟩) (by
    rintro m' next' (hopen | heq)
    . exact hopened _ (.inl rfl) hopen
    . simp at heq)
  have hgenerate := hd.generate hformed (.inr rfl) hfresh
    (hlow.mono fun _ hk => (.inl hk : IsStep _)) (.inr rfl) (by
      intro hreaches
      refine ⟨?_, ?_, ?_⟩
      . intro m' next' hk
        simp at hk
      . intro c' hc' m' next' hk v hv hclear
        simp only [ChainKey.mk.injEq, List.cons.injEq, and_true, true_and] at hk
        obtain ⟨hdisplay, hm', rfl⟩ := hk
        obtain rfl := Move.display_injective hm'
        obtain rfl := hd.displays c' hc' c hc hdisplay.symm
        exact hreaches v _ hv ⟨hclear, rfl⟩
      . intro hk
        simp at hk)
  exact ⟨hgenerate.1, hgenerate.2, hlow.grows.chains _ hmem⟩

theorem shiftChain_lowers {origin next : String} {read : Pattern} {m : Move}
    (h : shiftChain origin read m next d = .ok () d') (hd : d.Sound B N opened)
    (hapart : d.SymbolsApart) (horigin : d.Known N origin)
    (hopened : ∀ k, IsStep k → ¬ opened k)
    (hread : ∀ c ∈ read.cells [], c ∈ d.alphabet.symbols) :
    d.Lowers B N opened IsStep origin read next (Carries B m) d' := by
  rw [shiftChain, bind_eq_ok] at h
  obtain ⟨e, _, he, h⟩ := h
  cases he
  have hcells : ∀ c ∈ read.cells (d.uncovered origin), c ∈ d.alphabet.symbols := by
    cases read with
    | cell c => exact hread
    | oneOf cells => exact hread
    | any =>
      intro c hc
      exact (Draft.mem_uncovered.mp hc).1
  have hlist : d.Lowers B N opened IsStep origin (.oneOf (read.cells (d.uncovered origin))) next
      (Carries B m) d' := by
    clear hread
    generalize read.cells (d.uncovered origin) = cells at h hcells
    induction cells generalizing d with
    | nil =>
      cases h
      exact .nil hd
    | cons c cells ih =>
      rw [List.forall_mem_cons] at hcells
      rw [forM_cons_eq_ok] at h
      obtain ⟨d₁, hc, hrest⟩ := h
      have hlow : d.Lowers B N opened IsStep origin (.cell c) next (Carries B m) d₁ := by
        rw [bind_eq_ok] at hc
        obtain ⟨⟨paste, isNew⟩, d₂, hchain, hc⟩ := hc
        rcases @chain_cases d d₂ (.paste c m next) _ _ hchain with
          ⟨rfl, hmem, rfl⟩ | ⟨rfl, hfresh, rfl, rfl⟩
        . exact paste_lowers hc hd horigin hopened hmem
        . dsimp only at hc
          rw [if_pos rfl, bind_eq_ok] at hc
          obtain ⟨_, d₃, hpaste, hcarry⟩ := hc
          obtain ⟨hsound, hgrows, hmem⟩ := paste_generated hpaste hd hcells.1
            (hapart c hcells.1) hopened hfresh
          apply Draft.Lowers.of_grows hgrows horigin
          exact paste_lowers hcarry hsound (hgrows.known horigin) hopened hmem
      apply hlow.cons
      apply ih hlow.sound (hapart.grows hlow.grows) (hlow.grows.known horigin) hrest
      rw [hlow.grows.alphabet]
      exact hcells.2
  cases read with
  | cell c => exact hlist.of_singleton
  | oneOf cells => exact hlist
  | any => exact hlist.any_of_uncovered hd

theorem shift_lowers {origin next : String} {read : Pattern} {m : Move}
    (h : shift origin read m next d = .ok () d') (hd : d.Sound B N opened)
    (hapart : d.SymbolsApart) (horigin : d.Known N origin)
    (hopened : ∀ k, IsStep k → ¬ opened k)
    (hread : ∀ c ∈ read.cells [], c ∈ d.alphabet.symbols) :
    d.Lowers B N opened IsStep origin read next (Carries B m) d' := by
  rw [shift, bind_eq_ok] at h
  obtain ⟨b, _, hb, h⟩ := h
  cases hb
  split at h
  . apply (addAction_adds h).lowers hd horigin
    rintro c o rfl
    refine ⟨_, rfl, ?_⟩
    rintro t v' _ ⟨_, _, _, rfl⟩
    exact Action.view_shift m t
  . exact shiftChain_lowers h hd hapart horigin hopened hread

/-- What the states of a chain do that carries cells to the right until it finds `stop`. -/
structure CarryChain (B : List Cell) (findEnd doShifts : String) (stop : Cell) (d : Draft) :
    Prop where
  turn : ∀ v : View, v.focus = .blank → d.Reaches findEnd v doShifts (v.move .left)
  seek : ∀ v : View, v.focus ∈ B → v.focus ≠ .blank → d.Reaches findEnd v findEnd (v.move .right)
  carry : ∀ v : View, v.focus ∈ B → v.focus ≠ stop → v.cells (v.position + 1) = .blank →
    d.Reaches doShifts v doShifts v.carryBack

namespace CarryChain

variable {findEnd doShifts : String} {stop : Cell} {cells : Nat → Cell} {e m : Nat}

theorem seekEnd (h : CarryChain B findEnd doShifts stop d) {q : Nat} (hq : q ≤ e + 1)
    (hblank : cells (e + 1) = .blank)
    (hwritten : ∀ i, q ≤ i → i ≤ e → cells i ≠ .blank ∧ cells i ∈ B) :
    d.Reaches findEnd ⟨q, cells⟩ doShifts ⟨e, cells⟩ := by
  obtain ⟨n, hn⟩ := Nat.exists_eq_add_of_le hq
  induction n generalizing q with
  | zero =>
    obtain rfl : q = e + 1 := by omega
    have := h.turn ⟨e + 1, cells⟩ hblank
    have hmove : (⟨e + 1, cells⟩ : View).move .left = ⟨e, cells⟩ := by
      ext i
      . simp only [View.position_move]
        omega
      . rfl
    rwa [hmove] at this
  | succ n ih =>
    obtain ⟨hne, hmem⟩ := hwritten q (Nat.le_refl q) (by omega)
    apply (h.seek ⟨q, cells⟩ hmem hne).trans
    exact @ih (q + 1) (by omega) (fun i hi => hwritten i (by omega)) (by omega)

theorem carryTo (h : CarryChain B findEnd doShifts stop d) {s : String} {v : View}
    (hblank : cells (e + 1) = .blank) (hm : m ≤ e)
    (hcells : ∀ i, m < i → i ≤ e → cells i ≠ stop ∧ cells i ∈ B)
    (hexit : d.Reaches doShifts ⟨m, View.carried cells e m⟩ s v) :
    d.Reaches doShifts ⟨e, cells⟩ s v := by
  have hall (k : Nat) (hmk : m ≤ k) (hke : k ≤ e) :
      d.Reaches doShifts ⟨k, View.carried cells e k⟩ s v := by
    induction k with
    | zero =>
      obtain rfl : m = 0 := by omega
      exact hexit
    | succ k ih =>
      by_cases heq : m = k + 1
      . rwa [← heq]
      . obtain ⟨hne, hmem⟩ := hcells (k + 1) (by omega) hke
        have hfocus := View.focus_carried cells e (k + 1)
        have hcarry := h.carry ⟨k + 1, View.carried cells e (k + 1)⟩ (by rwa [hfocus])
          (by rwa [hfocus]) (View.carried_succ cells e (k + 1))
        rw [View.carryBack_carried cells (by omega)] at hcarry
        exact hcarry.trans (ih (by omega) (by omega))
  have := hall e hm (Nat.le_refl e)
  rwa [View.carried_self hblank] at this

theorem carryAll (h : CarryChain B findEnd doShifts stop d) {s : String} {v : View}
    (hblank : cells (e + 1) = .blank) (hcells : ∀ i ≤ e, cells i ≠ stop ∧ cells i ∈ B)
    (hexit : d.Reaches doShifts ⟨0, View.carriedAll cells e⟩ s v) :
    d.Reaches doShifts ⟨e, cells⟩ s v := by
  apply h.carryTo hblank (Nat.zero_le e) fun i _ hi => hcells i hi
  obtain ⟨hne, hmem⟩ := hcells 0 (Nat.zero_le e)
  have hfocus := View.focus_carried cells e 0
  have hcarry := h.carry ⟨0, View.carried cells e 0⟩ (by rwa [hfocus]) (by rwa [hfocus])
    (View.carried_succ cells e 0)
  rw [View.carryBack_carried_zero] at hcarry
  exact hcarry.trans hexit

theorem mono (h : CarryChain B findEnd doShifts stop d) (hbelow : d.Below d') :
    CarryChain B findEnd doShifts stop d' :=
  ⟨fun v hv => hbelow.reaches (h.turn v hv), fun v hv hv' => hbelow.reaches (h.seek v hv hv'),
    fun v hv hv' hb => hbelow.reaches (h.carry v hv hv' hb)⟩

end CarryChain

theorem carries_carryBack (hB : .blank ∈ B) {v : View} (hv : v.focus ∈ B)
    (h : v.cells (v.position + 1) = .blank) : Carries B (.leftBy 2) v v.carryBack := by
  have hsign : (Move.leftBy 2).offset.sign = -1 := by decide
  refine ⟨hv, h ▸ hB, ⟨?_, ?_⟩, rfl⟩
  . intro hstay
    exact absurd hstay (by decide)
  . intro k hk hk'
    have hdistance : (Move.leftBy 2).distance = 2 := by decide
    obtain rfl : k = 1 := by omega
    have hposition : (v.carryRight.position + (Move.leftBy 2).offset.sign * (1 : Nat)).toNat
        = v.position := by
      rw [View.position_carryRight, hsign]
      omega
    rw [hposition, View.cells_carryRight, if_neg (by omega), if_pos rfl]
    exact hB

theorem carryChain_lowers {findEnd doShifts target : String} {stop out : Cell} {d₁ d₂ : Draft}
    (hseek : seekEnd findEnd doShifts d = .ok () d₁)
    (hstop : transition doShifts (.cell stop) (.put out) .right target d₁ = .ok () d₂)
    (hshift : shift doShifts .any (.leftBy 2) doShifts d₂ = .ok () d') (hd : d.Sound B N opened)
    (hapart : d.SymbolsApart) (hopened : ∀ k, IsStep k → ¬ opened k)
    (hfind : d.Known N findEnd) (hdo : d.Known N doShifts) (hne : findEnd ≠ doShifts)
    (hfindFresh : d.states.find? findEnd = none) (hdoFresh : d.states.find? doShifts = none)
    (hfindRuns : isTerminal findEnd = false) (hdoRuns : isTerminal doShifts = false) :
    d'.Sound B N opened ∧ d.Grows N (fun s => s = findEnd ∨ s = doShifts) IsStep d'
      ∧ CarryChain B findEnd doShifts stop d'
      ∧ (∀ v : View, v.focus = stop → d'.Reaches doShifts v target ((v.write out).move .right))
      ∧ d'.states.lookup findEnd .blank ≠ none := by
  rw [seekEnd, bind_eq_ok] at hseek
  obtain ⟨_, d₀, hturn, hpass⟩ := hseek
  have hcontinuation : ∀ m next, ¬ opened (.continuation m next) := fun _ _ => hopened _ (.inl rfl)
  have hlookup {s : String} (h : d.states.find? s = none) (c : Cell) :
      d.states.lookup s c = none := by
    rw [StateTables.lookup, h, Option.bind_none]
  -- Each of the four requests is lowered in the draft that the one before it has left.
  have low₀ := transition_lowers hturn hd hfind hcontinuation
  have low₁ := transition_lowers hpass low₀.sound (low₀.grows.known hfind) hcontinuation
  have grows₁ := low₀.grows.trans low₁.grows
  have low₂ := transition_lowers hstop low₁.sound (grows₁.known hdo) hcontinuation
  have low₃ := shift_lowers hshift low₂.sound
    ((hapart.grows grows₁).grows low₂.grows) (low₂.grows.known (grows₁.known hdo)) hopened
    (by simp [Pattern.cells])
  have below₂ := low₂.grows.below.trans low₃.grows.below
  have below₁ := low₁.grows.below.trans below₂
  have hdoNone : ∀ c, d₁.states.lookup doShifts c = none := by
    intro c
    rw [grows₁.lookup_other (Ne.symm hne) hdo, hlookup hdoFresh]
  refine ⟨low₃.sound, ?_, ⟨?_, ?_, ?_⟩, ?_, ?_⟩
  . refine ((grows₁.mono (fun _ => .inl) fun _ => .inl).trans ?_)
    refine ((low₂.grows.mono (fun _ => .inr) fun _ => .inl).trans ?_)
    exact low₃.grows.mono (fun _ => .inr) fun _ h => h
  . intro v hv
    have hreaches := low₀.reaches v _ (by simp) hv (hlookup hfindFresh _) hfindRuns
      ⟨View.clear_of_distance rfl, rfl⟩
    have hwrite : v.write ((Writing.put .blank).onto v.focus) = v := by
      have := v.write_focus
      rwa [hv] at this
    rw [hwrite] at hreaches
    exact below₁.reaches hreaches
  . intro v hv hne'
    have hnone := low₀.missing v.focus hne' (hlookup hfindFresh _)
    have hreaches := low₁.reaches v _ (fun _ => hv) trivial hnone hfindRuns ⟨View.clear_of_distance rfl, rfl⟩
    have hwrite : v.write (Writing.keep.onto v.focus) = v := v.write_focus
    rw [hwrite] at hreaches
    exact below₂.reaches hreaches
  . intro v hv hne' hblank
    have hnone := low₂.missing v.focus hne' (hdoNone _)
    exact low₃.reaches v _ (fun _ => hv) trivial hnone hdoRuns
      (carries_carryBack hd.blank hv hblank)
  . intro v hv
    apply low₃.grows.below.reaches
    exact low₂.reaches v _ (by simp) hv (hdoNone _) hdoRuns
      ⟨View.clear_of_distance rfl, rfl⟩
  . apply low₃.grows.lookup_ne_none
    apply low₂.grows.lookup_ne_none
    apply low₁.grows.lookup_ne_none
    exact low₀.covers .blank (by simp) rfl

/-- The name of a new carrying state is not taken, or else its states could not get their rules. -/
theorem namesake_free {k : ChainKey} {d₁ d₂ : Draft} {findEnd doShifts : String}
    (hfindEnd : findEnd = d.guard.wrap k.nameParts ++ "_findEnd")
    (hkind : k.kind = .markFirst ∨ k.kind = .insertAfter) (hk : k.Formed d.guard)
    (hd : d.Sound B N fun _ => False) (hbelow : d.Below d₁)
    (hsound : d₁.Sound B N opened) (hopened : ∀ k, IsStep k → ¬ opened k)
    (hknown : d₁.Known N findEnd) (hseek : seekEnd findEnd doShifts d₁ = .ok () d₂) :
    ∀ e ∈ d.chains, e.1.kind ≠ .jointMove → e.2 ≠ d.guard.wrap k.nameParts := by
  rintro ⟨key, name⟩ he hjoint hname
  obtain ⟨hformed, hwrap⟩ := hd.formed _ he hjoint
  dsimp only at hjoint hname hformed hwrap
  rw [seekEnd, bind_eq_ok] at hseek
  obtain ⟨_, d₀, hturn, _⟩ := hseek
  have hfree := (transition_lowers hturn hsound hknown fun _ _ => hopened _ (.inl rfl)).free nofun
    .blank rfl
  have hsame : d.guard.wrap key.nameParts = d.guard.wrap k.nameParts := by rw [← hwrap, hname]
  have hcarrying : key.kind = .markFirst ∨ key.kind = .insertAfter := by
    cases hformed with
    | continuation m next =>
      have := (ChainKey.Formed.continuation m next).eq_of_wrap hk (.inl rfl) hsame
      rw [← this] at hkind
      simp at hkind
    | paste hapart m next =>
      have := (ChainKey.Formed.paste hapart m next).eq_of_wrap hk (.inr rfl) hsame
      rw [← this] at hkind
      simp at hkind
    | markFirst _ _ _ _ => exact .inl rfl
    | insertAfter _ _ _ _ _ => exact .inr rfl
  have hcarries := (hd.performs _ he id).carries hcarrying
  dsimp only at hcarries
  rw [hname, ← hfindEnd] at hcarries
  obtain ⟨o, ho⟩ := Option.ne_none_iff_exists'.mp hcarries
  rw [hbelow.lookup _ _ _ ho] at hfree
  cases hfree

theorem carrying_lowers {k : ChainKey} {base origin target : String} {read : Pattern}
    {stop out : Cell} {d₁ d₂ d₃ : Draft} (hbase : base = d.guard.wrap k.nameParts)
    (hstart : transition origin read .keep .right (base ++ "_findEnd") (d.withChain k) = .ok () d₁)
    (hseek : seekEnd (base ++ "_findEnd") (base ++ "_doShifts") d₁ = .ok () d₂)
    (hstop : transition (base ++ "_doShifts") (.cell stop) (.put out) .right target d₂ = .ok () d₃)
    (hshift : shift (base ++ "_doShifts") .any (.leftBy 2) (base ++ "_doShifts") d₃ = .ok () d')
    (hkind : k.kind = .markFirst ∨ k.kind = .insertAfter) (hk : k.Formed d.guard)
    (hd : d.Sound B N fun _ => False) (hapart : d.SymbolsApart) (horigin : d.Known N origin) :
    d.Lowers B N (fun _ => False) (fun x => IsStep x ∨ x = k) origin read (base ++ "_findEnd")
        (fun v v' => v' = v.move .right) d'
      ∧ CarryChain B (base ++ "_findEnd") (base ++ "_doShifts") stop d'
      ∧ (∀ v : View, v.focus = stop →
        d'.Reaches (base ++ "_doShifts") v target ((v.write out).move .right))
      ∧ (∀ suffix ∈ chainSuffixes, ¬ d.Known N (base ++ suffix) ∧ d'.Known N (base ++ suffix))
      ∧ d'.states.find? (base ++ "_doInsert") = none := by
  have hsuffixes : "_findEnd" ∈ chainSuffixes ∧ "_doShifts" ∈ chainSuffixes
      ∧ "_doInsert" ∈ chainSuffixes := by decide
  obtain ⟨hfindEnd, hdoShifts, hdoInsert⟩ := hsuffixes
  have hopened : ∀ x, IsStep x → ¬ (False ∨ x = k) := by
    rintro x hx (hfalse | rfl)
    . exact hfalse
    . rcases hx with hx | hx <;> simp [hx] at hkind
  have hjoint : k.kind ≠ .jointMove := by
    intro h
    simp [h] at hkind
  have hruns (suffix : String) : isTerminal (base ++ suffix) = false := by
    apply isTerminal_of_mem_mark
    rw [hbase, String.toList_append]
    exact List.mem_append_left _ (Guard.mark_mem_wrap _ _)
  have hmem : (k, base) ∈ (d.withChain k).chains :=
    Draft.mem_withChain.mpr (.inr (by rw [hbase]))
  have hknown (suffix : String) (h : suffix ∈ chainSuffixes) :
      (d.withChain k).Known N (base ++ suffix) := .inr ⟨_, hmem, hjoint, .inr ⟨suffix, h, rfl⟩⟩
  have hnew : d.Grows N (fun _ => False) (fun x => IsStep x ∨ x = k) (d.withChain k) :=
    Draft.withChain_grows (.inr rfl)
  have low₁ := transition_lowers hstart (hd.withChain hk) (hnew.known horigin) fun _ _ =>
    hopened _ (.inl rfl)
  -- No state that belongs to the new one has rules when the chain is begun.
  have hnamesake := namesake_free (by rw [hbase]) hkind hk hd (hnew.below.trans low₁.grows.below)
    low₁.sound hopened (low₁.grows.known (hknown _ hfindEnd)) hseek
  have hunknown (suffix : String) (h : suffix ∈ chainSuffixes) : ¬ d.Known N (base ++ suffix) := by
    rw [hbase]
    exact hd.not_known_suffix hk hnamesake h
  have hnone (suffix : String) (h : suffix ∈ chainSuffixes) :
      d₁.states.find? (base ++ suffix) = none := by
    have hne : base ++ suffix ≠ origin := by
      rintro rfl
      exact hunknown suffix h horigin
    rw [low₁.grows.other _ hne (hknown suffix h)]
    exact hd.find?_of_not_known (hunknown suffix h)
  have hne : base ++ "_findEnd" ≠ base ++ "_doShifts" := by
    intro h
    exact absurd (chainSuffixes_inj hfindEnd hdoShifts h).2 (by decide)
  obtain ⟨hsound, hgrows, hcarry, hexit, hblank⟩ := carryChain_lowers hseek hstop hshift low₁.sound
    ((hapart.grows hnew).grows low₁.grows) hopened (low₁.grows.known (hknown _ hfindEnd))
    (low₁.grows.known (hknown _ hdoShifts)) hne
    (hnone _ hfindEnd) (hnone _ hdoShifts) (hruns _) (hruns _)
  have hguard : d'.guard = d.guard := by
    rw [hgrows.guard, low₁.grows.guard]
    rfl
  have hlookup (c : Cell) : d'.states.lookup origin c = d₁.states.lookup origin c := by
    apply hgrows.lookup_other _ (low₁.grows.known (hnew.known horigin))
    rintro (rfl | rfl)
    . exact hunknown _ hfindEnd horigin
    . exact hunknown _ hdoShifts horigin
  refine ⟨⟨?_, ?_, ?_, ?_, ?_, ?_⟩, hcarry, hexit, ?_, ?_⟩
  . apply hsound.close hjoint
    refine ⟨?_, ?_, ?_⟩
    . rintro m next rfl
      simp at hkind
    . rintro c _ m next rfl
      simp at hkind
    . intro _
      rwa [hguard, ← hbase]
  . have hall : d.Grows N (fun s => (s = origin ∨ s = base ++ "_findEnd") ∨ s = base ++ "_doShifts")
        (fun x => IsStep x ∨ x = k) d' := by
      refine (hnew.mono (fun _ h => h.elim) fun _ h => h).trans ?_
      refine (low₁.grows.mono (fun _ h => .inl (.inl h)) fun _ h => .inl (.inl h)).trans ?_
      refine hgrows.mono ?_ fun _ h => .inl h
      rintro s (h | h)
      . exact .inl (.inr h)
      . exact .inr h
    exact (hall.forget (hunknown _ hdoShifts)).forget (hunknown _ hfindEnd)
  . rintro v v' hv hmatch hnone' hrunning rfl
    have hwrite : v.write (Writing.keep.onto v.focus) = v := v.write_focus
    have := low₁.reaches v _ hv hmatch hnone' hrunning ⟨View.clear_of_distance rfl, rfl⟩
    rw [hwrite] at this
    exact hgrows.below.reaches this
  . intro c hc hmatch
    rw [hlookup]
    exact low₁.covers c hc hmatch
  . intro c hc hnone'
    rw [hlookup]
    exact low₁.missing c hc hnone'
  . exact low₁.free
  . intro suffix h
    exact ⟨hunknown suffix h, hgrows.known (low₁.grows.known (hknown suffix h))⟩
  . have hne₁ : ¬ (base ++ "_doInsert" = base ++ "_findEnd"
        ∨ base ++ "_doInsert" = base ++ "_doShifts") := by
      rintro (h | h)
      . exact absurd (chainSuffixes_inj hdoInsert hfindEnd h).2 (by decide)
      . exact absurd (chainSuffixes_inj hdoInsert hdoShifts h).2 (by decide)
    rw [hgrows.other _ hne₁ (low₁.grows.known (hknown _ hdoInsert))]
    exact hnone _ hdoInsert

def MarksFirst (B : List Cell) (marker : Cell) (v v' : View) : Prop :=
  ∃ e, v.IsLast e ∧ (∀ i, v.position < i → i ≤ e → v.cells i ∈ B) ∧
    ((∃ m, View.IsNearest v.cells .blank e m ∧ (∀ i, m < i → i ≤ e → v.cells i ∈ B)
        ∧ v' = ((⟨m, View.carried v.cells e m⟩ : View).write marker).move .right)
      ∨ ((∀ i ≤ e, v.cells i ≠ .blank ∧ v.cells i ∈ B)
        ∧ v' = ((⟨0, View.carriedAll v.cells e⟩ : View).write marker).move .right))

def InsertsAfter (B : List Cell) (marker insert : Cell) (v v' : View) : Prop :=
  ∃ e m, v.IsLast e ∧ View.IsNearest v.cells marker e m
    ∧ (∀ i, v.position < i → i ≤ e → v.cells i ∈ B) ∧ (∀ i, m < i → i ≤ e → v.cells i ∈ B)
    ∧ v' = (((⟨m, View.carried v.cells e m⟩ : View).move .right).write insert).move .right

theorem view_markFirst {t : Tape} {marker : Cell} {v : View} (h : MarksFirst B marker t.view v) :
    ((Action.markFirst marker).apply t).view = v := by
  obtain ⟨e, he, _, ⟨m, hm, _, rfl⟩ | ⟨hm, rfl⟩⟩ := h
  . exact Action.view_markFirst_found he hm
  . exact Action.view_markFirst_missing he fun i hi => (hm i hi).1

theorem view_insertAfter {t : Tape} {marker insert : Cell} {v : View}
    (h : InsertsAfter B marker insert t.view v) :
    ((Action.insertAfter marker insert).apply t).view = v := by
  obtain ⟨e, m, he, hm, _, _, rfl⟩ := h
  exact Action.view_insertAfter_found he hm

theorem IsLast.seek {findEnd doShifts : String} {stop : Cell} {v : View} {e : Nat}
    (hcarry : CarryChain B findEnd doShifts stop d) (he : v.IsLast e)
    (hB : ∀ i, v.position < i → i ≤ e → v.cells i ∈ B) :
    d.Reaches findEnd (v.move .right) doShifts ⟨e, v.cells⟩ := by
  have hle := he.le
  exact hcarry.seekEnd (Nat.succ_le_succ hle) he.blank fun i hi hi' =>
    ⟨he.written i hi hi', hB i hi hi'⟩

theorem markFirstChain_lowers {origin next : String} {read : Pattern} {marker : Cell}
    (h : markFirstChain origin read marker next d = .ok () d') (hd : d.Sound B N fun _ => False)
    (hapart : d.SymbolsApart) (horigin : d.Known N origin) :
    ((∃ name, (.markFirst origin read marker next, name) ∈ d.chains) ∧ d' = d)
      ∨ d.Lowers B N (fun _ => False)
        (fun k => IsStep k ∨ k = .markFirst origin read marker next) origin read next
        (MarksFirst B marker) d' := by
  rw [markFirstChain, bind_eq_ok] at h
  obtain ⟨⟨base, isNew⟩, d₀, hchain, h⟩ := h
  rcases @chain_cases d d₀ (.markFirst origin read marker next) _ _ hchain with
    ⟨rfl, hmem, rfl⟩ | ⟨rfl, hfresh, hbase, rfl⟩
  . cases h
    exact .inl ⟨⟨base, hmem⟩, rfl⟩
  . dsimp only at h
    simp only [↓reduceIte, bind_eq_ok] at h
    obtain ⟨_, d₁, hstart, _, d₂, hseek, _, d₃, hstop, hshift⟩ := h
    obtain ⟨hlow, hcarry, hexit, _, _⟩ := carrying_lowers hbase hstart hseek hstop hshift (.inl rfl)
      (.markFirst _ _ _ _) hd hapart horigin
    refine .inr ⟨hlow.sound, hlow.grows, ?_, hlow.covers, hlow.missing, hlow.free⟩
    rintro v v' hv hmatch hnone hrunning ⟨e, he, hB, hcase⟩
    have hfirst := hlow.reaches v _ hv hmatch hnone hrunning rfl
    apply (hfirst.trans (IsLast.seek hcarry he hB)).trans
    rcases hcase with ⟨m, hm, hmB, rfl⟩ | ⟨hall, rfl⟩
    . apply hcarry.carryTo he.blank hm.le fun i hi hi' => ⟨hm.ne i hi hi', hmB i hi hi'⟩
      apply hexit
      rw [View.focus_carried, hm.eq]
    . apply hcarry.carryAll he.blank hall
      apply hexit
      rfl

theorem insertAfterChain_lowers {origin next : String} {read : Pattern} {marker insert : Cell}
    (h : insertAfterChain origin read marker insert next d = .ok () d')
    (hd : d.Sound B N fun _ => False) (hapart : d.SymbolsApart) (horigin : d.Known N origin) :
    ((∃ name, (.insertAfter origin read marker insert next, name) ∈ d.chains) ∧ d' = d)
      ∨ d.Lowers B N (fun _ => False)
        (fun k => IsStep k ∨ k = .insertAfter origin read marker insert next) origin read next
        (InsertsAfter B marker insert) d' := by
  rw [insertAfterChain, bind_eq_ok] at h
  obtain ⟨⟨base, isNew⟩, d₀, hchain, h⟩ := h
  rcases @chain_cases d d₀ (.insertAfter origin read marker insert next) _ _ hchain with
    ⟨rfl, hmem, rfl⟩ | ⟨rfl, hfresh, hbase, rfl⟩
  . cases h
    exact .inl ⟨⟨base, hmem⟩, rfl⟩
  . dsimp only at h
    simp only [↓reduceIte, bind_eq_ok] at h
    obtain ⟨_, d₁, hstart, _, d₂, hseek, _, d₃, hstop, _, d₄, hshift, hinsert⟩ := h
    obtain ⟨hlow, hcarry, hexit, hknown, hnoInsert⟩ := carrying_lowers hbase hstart hseek hstop
      hshift (.inr rfl) (.insertAfter _ _ _ _ _) hd hapart horigin
    have hsuffix : "_doInsert" ∈ chainSuffixes := by decide
    obtain ⟨hunknown, hinsertKnown⟩ := hknown _ hsuffix
    have hlast := transition_lowers hinsert hlow.sound hinsertKnown fun _ _ => id
    have hne : origin ≠ base ++ "_doInsert" := by
      rintro rfl
      exact hunknown horigin
    have hlookup := hlast.grows.lookup_other hne (hlow.grows.known horigin)
    have hruns : isTerminal (base ++ "_doInsert") = false := by
      apply isTerminal_of_mem_mark
      rw [hbase, String.toList_append]
      exact List.mem_append_left _ (Guard.mark_mem_wrap _ _)
    have below := hlast.grows.below
    refine .inr ⟨hlast.sound, ?_, ?_, ?_, ?_, hlow.free⟩
    . apply Draft.Grows.forget _ hunknown
      refine (hlow.grows.mono (fun _ => .inl) fun _ h => h).trans ?_
      exact hlast.grows.mono (fun _ => .inr) fun _ h => .inl (.inl h)
    . rintro v v' hv hmatch hnone hrunning ⟨e, m, he, hm, hB, hmB, rfl⟩
      have hfirst := hlow.reaches v _ hv hmatch hnone hrunning rfl
      apply (below.reaches (hfirst.trans (IsLast.seek hcarry he hB))).trans
      apply (hcarry.mono below).carryTo he.blank hm.le fun i hi hi' =>
        ⟨hm.ne i hi hi', hmB i hi hi'⟩
      have hfocus := View.focus_carried v.cells e m
      have hmove := hexit ⟨m, View.carried v.cells e m⟩ (by rw [hfocus, hm.eq])
      have hwrite : (⟨m, View.carried v.cells e m⟩ : View).write marker
          = ⟨m, View.carried v.cells e m⟩ := by
        have := View.write_focus ⟨m, View.carried v.cells e m⟩
        rwa [hfocus, hm.eq] at this
      rw [hwrite] at hmove
      apply (below.reaches hmove).trans
      have hblank : ((⟨m, View.carried v.cells e m⟩ : View).move .right).focus = .blank :=
        View.carried_succ v.cells e m
      apply hlast.reaches _ _ nofun hblank _ hruns
        ⟨View.clear_of_distance rfl, rfl⟩
      rw [StateTables.lookup, hnoInsert, Option.bind_none]
    . intro c hc hmatch
      rw [hlookup]
      exact hlow.covers c hc hmatch
    . intro c hc hnone
      rw [hlookup]
      exact hlow.missing c hc hnone

end Build

namespace Gadget

/-- How what is seen changes by a gadget, if the cells on the way are among those of `B`. -/
def Works (B : List Cell) : Gadget → View → View → Prop
  | .shift m => Build.Carries B m
  | .markFirst marker => Build.MarksFirst B marker
  | .insertAfter marker insert => Build.InsertsAfter B marker insert

/-- The key of the states to which a gadget is lowered without its feature. -/
def key? (origin : String) (read : Pattern) (next : String) : Gadget → Option ChainKey
  | .shift _ => none
  | .markFirst marker => some (.markFirst origin read marker next)
  | .insertAfter marker insert => some (.insertAfter origin read marker insert next)

theorem Works.view_action {B : List Cell} {x : Gadget} {t : Tape} {v : View}
    (h : x.Works B t.view v) : (x.action.apply t).view = v := by
  cases x with
  | shift m =>
    obtain ⟨_, _, _, rfl⟩ := h
    exact Action.view_shift m t
  | markFirst marker => exact Build.view_markFirst h
  | insertAfter marker insert => exact Build.view_insertAfter h

end Gadget

namespace Build

variable {B : List Cell} {N : String → Prop} {d d' : Draft}

/-- A gadget is lowered, unless the states for it were generated before. -/
theorem gadget_lowers {origin next : String} {read : Pattern} {x : Gadget}
    (h : gadget origin read x next d = .ok () d') (hd : d.Sound B N fun _ => False)
    (hapart : d.SymbolsApart) (horigin : d.Known N origin)
    (hread : ∀ c ∈ read.cells [], c ∈ d.alphabet.symbols) :
    (∃ k name, x.key? origin read next = some k ∧ (k, name) ∈ d.chains ∧ d' = d)
      ∨ d.Lowers B N (fun _ => False) (fun k => IsStep k ∨ x.key? origin read next = some k)
        origin read next (x.Works B) d' := by
  unfold gadget at h
  rw [bind_eq_ok] at h
  obtain ⟨b, _, hb, h⟩ := h
  cases hb
  split at h
  . right
    apply (addAction_adds h).lowers hd horigin
    rintro c o rfl
    exact ⟨_, rfl, fun t v' _ hworks => hworks.view_action⟩
  . cases x with
    | shift m =>
      right
      exact (shiftChain_lowers h hd hapart horigin (fun _ _ => id) hread).mono fun _ => .inl
    | markFirst marker =>
      rcases markFirstChain_lowers h hd hapart horigin with ⟨⟨name, hmem⟩, rfl⟩ | hlow
      . exact .inl ⟨_, name, rfl, hmem, rfl⟩
      . exact .inr (hlow.mono fun k hk => hk.imp id fun heq => congrArg some heq.symm)
    | insertAfter marker insert =>
      rcases insertAfterChain_lowers h hd hapart horigin with ⟨⟨name, hmem⟩, rfl⟩ | hlow
      . exact .inl ⟨_, name, rfl, hmem, rfl⟩
      . exact .inr (hlow.mono fun k hk => hk.imp id fun heq => congrArg some heq.symm)

end Build

end TuringLowering
