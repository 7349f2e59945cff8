import TuringLowering.Proofs.Written

/-!
This module contains the lemmas about the names of generated states: the key for which a state was
generated can be read off its name, so that no two of them have a state in common.
-/

namespace TuringLowering

namespace Guard

theorem longestRun_go_append_cons (current : Nat) (xs : List Char) {c : Char} (hc : c ≠ mark)
    (cs : List Char) :
    longestRun.go current (xs ++ c :: cs) = max (longestRun.go current xs) (longestRun cs) := by
  induction xs generalizing current with
  | nil =>
    simp only [List.nil_append, longestRun.go, if_neg hc]
    rfl
  | cons x xs ih =>
    rw [List.cons_append, longestRun.go, longestRun.go]
    split
    . exact ih (current + 1)
    . rw [ih 0, Nat.max_assoc]

theorem longestRun_append_cons (xs : List Char) {c : Char} (hc : c ≠ mark) (cs : List Char) :
    longestRun (xs ++ c :: cs) = max (longestRun xs) (longestRun cs) :=
  longestRun_go_append_cons 0 xs hc cs

theorem le_longestRun_go (current : Nat) (cs : List Char) : current ≤ longestRun.go current cs := by
  induction cs generalizing current with
  | nil => exact Nat.le_refl _
  | cons c cs ih =>
    rw [longestRun.go]
    split
    . exact Nat.le_of_succ_le (ih (current + 1))
    . exact Nat.le_max_left _ _

theorem longestRun_go_run (current n : Nat) (cs : List Char) :
    longestRun.go current (run n ++ cs) = longestRun.go (current + n) cs := by
  induction n generalizing current with
  | zero => rfl
  | succ n ih =>
    rw [run, List.replicate_succ, List.cons_append, longestRun.go, if_pos rfl]
    rw [run] at ih
    rw [ih]
    congr 1
    omega

theorem le_longestRun_run_append (n : Nat) (cs : List Char) : n ≤ longestRun (run n ++ cs) := by
  rw [longestRun, longestRun_go_run, Nat.zero_add]
  exact le_longestRun_go n cs

variable {g : Guard}

def Apart (g : Guard) (text : String) : Prop := g.Free text ∨ '_' ∉ text.toList

theorem Apart.of_clean {text : String} (h : Clean text) (g : Guard) : g.Apart text :=
  .inl (h.free g)

theorem not_mem_run (n : Nat) : '_' ∉ run n := by
  intro h
  exact absurd (List.eq_of_mem_replicate h) (by decide)

theorem not_mem_stretch (a b : Nat) {cs : List Char} (h : '_' ∉ cs) : '_' ∉ stretch a b cs := by
  have hgo (current : Nat) : '_' ∉ stretch.go a b current cs := by
    induction cs generalizing current with
    | nil => exact not_mem_run _
    | cons c cs ih =>
      rw [List.mem_cons, not_or] at h
      rw [stretch.go]
      split
      . exact ih h.2 (current + 1)
      . rw [List.mem_append, List.mem_cons, not_or, not_or]
        exact ⟨not_mem_run _, h.1, ih h.2 0⟩
  exact hgo 0

theorem Apart.rename {g' : Guard} (hle : g.size ≤ g'.size) {text : String} (h : g.Apart text) :
    g'.Apart (g.rename g' text) := by
  rcases h with h | h
  . rw [rename_of_free h]
    exact .inl (h.mono hle)
  . right
    rw [Guard.rename, String.toList_ofList]
    exact not_mem_stretch _ _ h

theorem Apart.eq_of_append {t t' : String} (ht : g.Apart t) (ht' : g.Apart t')
    {us vs : List Char}
    (h : t.toList ++ '_' :: (run g.size ++ '_' :: us)
      = t'.toList ++ '_' :: (run g.size ++ '_' :: vs)) : t = t' ∧ us = vs := by
  -- If one text were longer, it would contain the guard that follows the other one.
  have hshort : ∀ (t t' : String) (us vs : List Char), g.Apart t' →
      t.toList ++ '_' :: (run g.size ++ '_' :: us)
        = t'.toList ++ '_' :: (run g.size ++ '_' :: vs) → ¬ t.toList.length < t'.toList.length := by
    intro t t' us vs ht' h hlt
    obtain ⟨zs, hzs, hrest⟩ : ∃ zs, t'.toList = t.toList ++ '_' :: zs
        ∧ run g.size ++ '_' :: us = zs ++ '_' :: (run g.size ++ '_' :: vs) := by
      rcases List.append_eq_append_iff.mp h with ⟨as, hx, hy⟩ | ⟨cs, hx, hy⟩
      . cases as with
        | nil =>
          rw [hx, List.append_nil] at hlt
          omega
        | cons a as =>
          simp only [List.cons_append, List.cons.injEq] at hy
          rw [← hy.1] at hx
          exact ⟨as, hx, hy.2⟩
      . rw [hx, List.length_append] at hlt
        omega
    have hfree : longestRun t'.toList < g.size := by
      rcases ht' with hfree | hmem
      . exact hfree
      . rw [hzs] at hmem
        simp at hmem
    rw [hzs, longestRun_append_cons _ (by decide)] at hfree
    rcases List.append_eq_append_iff.mp hrest with ⟨as, hx, hy⟩ | ⟨cs, hx, hy⟩
    . have := le_longestRun_run_append g.size as
      rw [← hx] at this
      omega
    . cases cs with
      | nil =>
        rw [List.append_nil] at hx
        have := le_longestRun_run_append g.size []
        rw [List.append_nil, hx] at this
        omega
      | cons c cs =>
        simp only [List.cons_append, List.cons.injEq] at hy
        apply not_mem_run g.size
        rw [hx, ← hy.1]
        simp
  have hlen : t.toList.length = t'.toList.length := by
    have h1 := hshort t t' us vs ht' h
    have h2 := hshort t' t vs us ht h.symm
    omega
  obtain ⟨heq, hrest⟩ := List.append_inj h hlen
  simp only [List.cons.injEq, true_and, List.append_cancel_left_eq] at hrest
  exact ⟨String.toList_injective heq, hrest⟩

def behind (g : Guard) : List String → List Char
  | [] => []
  | part :: parts => '_' :: (part.toList ++ '_' :: (run g.size ++ behind g parts))

theorem toList_wrap (parts : List String) :
    (g.wrap parts).toList = run g.size ++ g.behind parts := by
  have hfold (acc : String) :
      (parts.foldl (fun name part => name ++ "_" ++ part ++ "_" ++ g.text) acc).toList
        = acc.toList ++ g.behind parts := by
    induction parts generalizing acc with
    | nil => simp [behind]
    | cons part parts ih =>
      rw [List.foldl_cons, ih]
      simp [behind, text]
  rw [wrap, hfold, text, String.toList_ofList]

theorem behind_inj_of_apart {t t' p p' : String} {ps ps' : List String} (ht : g.Apart t)
    (ht' : g.Apart t') (h : g.behind (t :: p :: ps) = g.behind (t' :: p' :: ps')) :
    t = t' ∧ g.behind (p :: ps) = g.behind (p' :: ps') := by
  simp only [behind, List.cons.injEq, true_and] at h ⊢
  exact ht.eq_of_append ht' h

theorem behind_inj_last {t t' : String} (h : g.behind [t] = g.behind [t']) : t = t' := by
  simp only [behind, List.cons.injEq, true_and] at h
  exact String.toList_injective (List.append_cancel_right h)

end Guard

namespace Move

theorem toList_toString (n : Nat) : (toString n).toList = Nat.toDigits 10 n := by
  have : toString n = n.repr := rfl
  rw [this, Nat.toList_repr]

theorem toString_injective {n n' : Nat} (h : toString n = toString n') : n = n' := by
  have hdigits := congrArg String.toList h
  rw [toList_toString, toList_toString] at hdigits
  have := congrArg (Nat.ofDigitChars 10 · 0) hdigits
  simpa [Nat.ofDigitChars_toDigits] using this

theorem display_of_ne_stay {m : Move} (h : m ≠ stay) :
    m.display.toList = Nat.toDigits 10 m.distance ++ [if m.offset < 0 then 'L' else 'R'] := by
  rw [display, if_neg h, String.toList_append, toList_toString]
  split <;> rfl

theorem display_injective {m m' : Move} (h : m.display = m'.display) : m = m' := by
  have hlist := congrArg String.toList h
  have hstay : stay.display.toList = [] ++ ['N'] := rfl
  have hlast : ∀ k : Int, (if k < 0 then 'L' else 'R') ≠ 'N' := by
    intro k
    split <;> decide
  by_cases hm : m = stay
  . by_cases hm' : m' = stay
    . rw [hm, hm']
    . rw [hm, hstay, display_of_ne_stay hm'] at hlist
      exact absurd (List.append_inj' hlist rfl).2 (by simp [Ne.symm (hlast _)])
  . by_cases hm' : m' = stay
    . rw [hm', hstay, display_of_ne_stay hm] at hlist
      exact absurd (List.append_inj' hlist rfl).2 (by simp [hlast _])
    . rw [display_of_ne_stay hm, display_of_ne_stay hm'] at hlist
      obtain ⟨hdigits, hsign⟩ := List.append_inj' hlist rfl
      have hdistance : m.distance = m'.distance := by
        apply toString_injective
        apply String.toList_injective
        rw [toList_toString, toList_toString, hdigits]
      have hneg : m.offset < 0 ↔ m'.offset < 0 := by
        grind
      unfold distance at hdistance
      cases m
      cases m'
      simp only [mk.injEq]
      dsimp only at hdistance hneg
      omega

theorem mem_display {m : Move} {c : Char} (h : c ∈ m.display.toList) :
    c.isDigit = true ∨ c ∈ ['N', 'L', 'R'] := by
  by_cases hm : m = stay
  . rw [hm] at h
    have hstay : stay.display.toList = ['N'] := rfl
    rw [hstay] at h
    rw [List.mem_singleton.mp h]
    decide
  . rw [display_of_ne_stay hm, List.mem_append] at h
    rcases h with h | h
    . exact .inl (Nat.isDigit_of_mem_toDigits (by decide) (by decide) h)
    . rw [List.mem_singleton.mp h]
      split <;> decide

end Move

namespace ChainKey

abbrev continuation (m : Move) (next : String) : ChainKey := ⟨.continuation, [m.display, next]⟩

abbrev paste (c : Cell) (m : Move) (next : String) : ChainKey :=
  ⟨.paste, [c.display, m.display, next]⟩

abbrev markFirst (origin : String) (read : Pattern) (marker : Cell) (next : String) : ChainKey :=
  ⟨.markFirst, [origin, read.display, marker.display, next]⟩

abbrev insertAfter (origin : String) (read : Pattern) (marker insert : Cell) (next : String) :
    ChainKey :=
  ⟨.insertAfter, [origin, read.display, marker.display, insert.display, next]⟩

def nameParts : ChainKey → List String
  | ⟨.paste, symbol :: parts⟩ => ("paste" ++ symbol) :: parts
  | ⟨.markFirst, origin :: read :: _⟩ => ["firstCellMarker", origin, read]
  | ⟨.insertAfter, origin :: read :: _⟩ => ["afterCellMarker", origin, read]
  | ⟨_, parts⟩ => parts

inductive Formed (g : Guard) : ChainKey → Prop where
  | continuation (m : Move) (next : String) : Formed g ⟨.continuation, [m.display, next]⟩
  | paste {symbol : String} (apart : g.Apart symbol) (m : Move) (next : String) :
    Formed g ⟨.paste, [symbol, m.display, next]⟩
  | markFirst (origin read marker next : String) :
    Formed g ⟨.markFirst, [origin, read, marker, next]⟩
  | insertAfter (origin read marker insert next : String) :
    Formed g ⟨.insertAfter, [origin, read, marker, insert, next]⟩

variable {g : Guard}

theorem Formed.exists_nameParts {k : ChainKey} (h : Formed g k) :
    ∃ part parts, k.nameParts = part :: parts := by
  cases h <;> exact ⟨_, _, rfl⟩

theorem display_append_ne {m : Move} {c : Char} (hc : c.isDigit = false)
    (hc' : c ∉ ['_', 'N', 'L', 'R']) {xs ys : List Char} :
    m.display.toList ++ '_' :: xs ≠ c :: ys := by
  intro h
  cases hm : m.display.toList with
  | nil =>
    rw [hm, List.nil_append, List.cons.injEq] at h
    simp [← h.1] at hc'
  | cons a as =>
    rw [hm, List.cons_append, List.cons.injEq] at h
    have ha := @Move.mem_display m a (by rw [hm]; exact List.mem_cons_self)
    rw [h.1] at ha
    rcases ha with ha | ha
    . rw [hc] at ha
      cases ha
    . exact hc' (List.mem_cons_of_mem _ ha)

theorem Formed.eq_of_wrap {k k' : ChainKey} (hk : Formed g k) (hk' : Formed g k')
    (hkind : k.kind = .continuation ∨ k.kind = .paste)
    (h : g.wrap k.nameParts = g.wrap k'.nameParts) : k = k' := by
  have hbehind : g.behind k.nameParts = g.behind k'.nameParts := by
    have := congrArg String.toList h
    rw [Guard.toList_wrap, Guard.toList_wrap] at this
    exact List.append_cancel_left this
  have happart (m : Move) : g.Apart m.display := .of_clean (Guard.clean_move m) g
  have hpaste : "paste".toList = ['p', 'a', 's', 't', 'e'] := rfl
  have hfirst : "firstCellMarker".toList = 'f' :: "irstCellMarker".toList := rfl
  have hafter : "afterCellMarker".toList = 'a' :: "fterCellMarker".toList := rfl
  cases hk with
  | continuation m next =>
    cases hk' with
    | continuation m' next' =>
      obtain ⟨hm, hnext⟩ := Guard.behind_inj_of_apart (happart m) (happart m') hbehind
      rw [hm, Guard.behind_inj_last hnext]
    | paste _ m' next' =>
      simp only [nameParts, Guard.behind, List.cons.injEq, true_and, String.toList_append, hpaste,
        List.cons_append] at hbehind
      exact absurd hbehind (display_append_ne (by decide) (by decide))
    | markFirst _ _ _ _ =>
      simp only [nameParts, Guard.behind, List.cons.injEq, true_and, hfirst,
        List.cons_append] at hbehind
      exact absurd hbehind (display_append_ne (by decide) (by decide))
    | insertAfter _ _ _ _ _ =>
      simp only [nameParts, Guard.behind, List.cons.injEq, true_and, hafter,
        List.cons_append] at hbehind
      exact absurd hbehind (display_append_ne (by decide) (by decide))
  | @paste symbol hsymbol m next =>
    cases hk' with
    | continuation m' next' =>
      simp only [nameParts, Guard.behind, List.cons.injEq, true_and, String.toList_append, hpaste,
        List.cons_append] at hbehind
      exact absurd hbehind.symm (display_append_ne (by decide) (by decide))
    | @paste symbol' hsymbol' m' next' =>
      have hrest : g.behind [symbol, m.display, next] = g.behind [symbol', m'.display, next'] := by
        simp only [nameParts, Guard.behind, List.cons.injEq, true_and, String.toList_append,
          List.append_assoc, List.append_cancel_left_eq] at hbehind ⊢
        exact hbehind
      obtain ⟨hs, hrest⟩ := Guard.behind_inj_of_apart hsymbol hsymbol' hrest
      obtain ⟨hm, hnext⟩ := Guard.behind_inj_of_apart (happart m) (happart m') hrest
      rw [hs, hm, Guard.behind_inj_last hnext]
    | markFirst _ _ _ _ =>
      simp only [nameParts, Guard.behind, List.cons.injEq, true_and, String.toList_append, hpaste,
        hfirst, List.cons_append] at hbehind
      exact absurd hbehind.1 (by decide)
    | insertAfter _ _ _ _ _ =>
      simp only [nameParts, Guard.behind, List.cons.injEq, true_and, String.toList_append, hpaste,
        hafter, List.cons_append] at hbehind
      exact absurd hbehind.1 (by decide)
  | markFirst _ _ _ _ => simp at hkind
  | insertAfter _ _ _ _ _ => simp at hkind

end ChainKey

end TuringLowering
