import Mathlib.Data.List.Induction
import TuringLowering.Proofs.Territory

/-!
This module contains the proof that requests for different states do not get in each other's way. What
they lead to is put together from what the requests for each state lead to if there are no others, so
that it does not matter in which order they are interleaved.
-/

namespace TuringLowering

namespace Request

/-- The requests among others that are made on behalf of one state. -/
def about (o : String) (rs : List Request) : List Request := rs.filter (·.origin? = some o)

structure Fits (b : Draft) (C : Cell → Prop) (r : Request) : Prop where
  origin : ∃ o, r.origin? = some o
  names : ∀ name ∈ r.names, b.guard.Free name
  reads : ∀ c ∈ r.reads, C c

variable {r : Request} {rs : List Request} {o : String}

theorem mem_names_of_origin? (h : r.origin? = some o) : o ∈ r.names := by
  cases r with
  | alphabets input extra => cases h
  | features features => cases h
  | tapes count first => cases h
  | joint t => cases h
  | state name =>
    cases h
    exact List.mem_singleton_self _
  | directive x =>
    cases h
    exact List.mem_cons_self

theorem about_concat_self (h : r.origin? = some o) : about o (rs ++ [r]) = about o rs ++ [r] := by
  rw [about, List.filter_append, List.filter_cons_of_pos, List.filter_nil, about]
  exact decide_eq_true h

theorem about_concat_of_ne {o' : String} (h : r.origin? = some o) (hne : o' ≠ o) :
    about o' (rs ++ [r]) = about o' rs := by
  rw [about, List.filter_append, List.filter_cons_of_neg, List.filter_nil, List.append_nil, about]
  rw [decide_eq_true_eq, h, Option.some.injEq]
  exact hne.symm

end Request

namespace Draft

open Request (about)

theorem answers_append (d : Draft) (rs rs' : List Request) :
    d.answers (rs ++ rs') = d.answers rs ++ (d.receive rs).answers rs' := by
  induction rs generalizing d with
  | nil => rfl
  | cons r rs ih =>
    rw [List.cons_append, answers, answers, ih, List.cons_append, receive_cons]

theorem answers_concat (d : Draft) (rs : List Request) (r : Request) :
    (∀ a ∈ d.answers (rs ++ [r]), a = true) ↔
      (∀ a ∈ d.answers rs, a = true) ∧ (Build.submit r).succeeds (d.receive rs) = true := by
  rw [answers_append, List.forall_mem_append]
  exact and_congr_right' List.forall_mem_singleton

theorem AgreeOn.of_grown {b d d' e x : Draft} {C : Cell → Prop} {o o' : String}
    (h : AgreeOn b o' d e) (hd' : Grown b C o d d' x) (ho : b.guard.Free o)
    (ho' : b.guard.Free o') (hne : o' ≠ o) : AgreeOn b o' d' e := by
  constructor
  . intro name hname
    rw [hd'.other name (fun hbelongs => hne (hname.eq ho' ho hbelongs))
      (fun s _ => hname.ne_relay ho' s), h.tables name hname]
  . intro k hk
    rw [← h.keys k hk]
    constructor
    . intro hmem
      rcases hd'.new k hmem with hmem | hbelongs | ⟨hstep, _⟩
      . exact hmem
      . exact absurd (hk.eq hbelongs) hne
      . exact absurd hstep hk.1
    . exact hd'.kept k

structure Placed (b : Draft) (C : Cell → Prop) (d : Draft) : Prop where
  stocked : d.Stocked b C fun _ => False
  tapes : ∀ n, d.tapes ≠ .multi n
  start : d.start = b.start

/--
What requests lead to is put together from what those for each state lead to, and they go through if
those for each state do.
-/
structure Splits (b : Draft) (C : Cell → Prop) (rs : List Request) : Prop where
  agree : ∀ o, b.guard.Free o → AgreeOn b o (b.receive rs) (b.receive (about o rs))
  keys : ∀ k : ChainKey, Build.IsStep k →
    (k ∈ (b.receive rs).keys ↔ ∃ o, b.guard.Free o ∧ k ∈ (b.receive (about o rs)).keys)
  absent : ∀ name, (∀ o, b.guard.Free o → ¬ b.guard.Belongs o name) →
    (∀ s : Relay, s.Within C → name ≠ s.name b.guard) → (b.receive rs).states.find? name = none
  answers : (∀ a ∈ b.answers rs, a = true) ↔
    ∀ o, b.guard.Free o → ∀ a ∈ b.answers (about o rs), a = true

section

variable {b d e : Draft} {C : Cell → Prop} {o : String} {r : Request} {rs : List Request}
  (hb : b.Grounds C)
include hb

theorem Grounds.keys : b.keys = [] := by rw [Draft.keys, hb.chains, List.map_nil]

theorem Grounds.find? (name : String) : b.states.find? name = none := by
  rw [hb.states]
  rfl

theorem Grounds.stocked : b.Stocked b C fun _ => False := by
  refine ⟨rfl, rfl, rfl, ?_, ?_, fun s _ _ => hb.find? _, ?_⟩
  . rw [hb.chains]
    nofun
  . rw [hb.keys]
    exact fun s _ hmem => absurd hmem List.not_mem_nil
  . rw [hb.keys]
    exact fun s _ hmem => absurd hmem List.not_mem_nil

variable (hsymbols : ∀ c ∈ b.alphabet.symbols, C c)
include hsymbols

theorem Placed.abreast (hd : Placed b C d) (he : Placed b C e) (h : AgreeOn b o d e)
    (hr : r.Fits b C) (horigin : r.origin? = some o) :
    Abreast b C o d e ((Build.submit r).after d) ((Build.submit r).after e)
      ∧ (Build.submit r).succeeds d = (Build.submit r).succeeds e := by
  have ho := hr.names o (Request.mem_names_of_origin? horigin)
  exact (Build.submit_coupled hb ho hsymbols horigin hr.names hr.reads d e
    ⟨.refl hd.stocked hd.tapes, .refl he.stocked he.tapes, h⟩).after

theorem Placed.submit (hd : Placed b C d) (hr : r.Fits b C) :
    Placed b C ((Build.submit r).after d) := by
  obtain ⟨o, horigin⟩ := hr.origin
  have hself : AgreeOn b o d d := ⟨fun _ _ => rfl, fun _ _ => Iff.rfl⟩
  have hgrown := (hd.abreast hb hsymbols hd hself hr horigin).1.left
  exact ⟨hgrown.stocked, hgrown.tapes, hgrown.start.trans hd.start⟩

variable (htapes : ∀ n, b.tapes ≠ .multi n)
include htapes

theorem Grounds.receive (hrs : ∀ r ∈ rs, r.Fits b C) : Placed b C (b.receive rs) := by
  induction rs using List.reverseRecOn with
  | nil => exact ⟨hb.stocked, htapes, rfl⟩
  | append_singleton rs r ih =>
    rw [List.forall_mem_append, List.forall_mem_singleton] at hrs
    rw [receive_append]
    exact (ih hrs.1).submit hb hsymbols hrs.2

theorem Splits.concat (h : Splits b C rs) (hrs : ∀ r ∈ rs, r.Fits b C) (hr : r.Fits b C) :
    Splits b C (rs ++ [r]) := by
  obtain ⟨o, horigin⟩ := hr.origin
  have ho := hr.names o (Request.mem_names_of_origin? horigin)
  have hplaced := hb.receive hsymbols htapes hrs
  have hplaced' := hb.receive hsymbols htapes fun r' (hr' : r' ∈ about o rs) =>
    hrs r' (List.mem_filter.mp hr').1
  -- The request is carried out on the whole and on the part of its own state; other parts stay.
  obtain ⟨habreast, hsucceeds⟩ :=
    hplaced.abreast hb hsymbols hplaced' (h.agree o ho) hr horigin
  have hreceive : b.receive (rs ++ [r]) = (Build.submit r).after (b.receive rs) := receive_append ..
  have hself : b.receive (about o (rs ++ [r])) = (Build.submit r).after (b.receive (about o rs)) := by
    rw [Request.about_concat_self horigin, receive_append]
    rfl
  have hother {o' : String} (hne : o' ≠ o) : about o' (rs ++ [r]) = about o' rs :=
    Request.about_concat_of_ne horigin hne
  refine ⟨?_, ?_, ?_, ?_⟩
  . intro o' ho'
    by_cases hne : o' = o
    . rw [hne, hreceive, hself]
      exact habreast.agree
    . rw [hother hne, hreceive]
      exact (h.agree o' ho').of_grown habreast.left ho ho' hne
  . intro k hk
    rw [hreceive]
    constructor
    . intro hmem
      rcases habreast.left.new k hmem with hmem | hbelongs | ⟨_, hmem⟩
      . obtain ⟨o', ho', hmem⟩ := (h.keys k hk).mp hmem
        by_cases hne : o' = o
        . exact ⟨o, ho, hself ▸ habreast.right.kept k (hne ▸ hmem)⟩
        . exact ⟨o', ho', by rwa [hother hne]⟩
      . exact absurd hk hbelongs.1
      . exact ⟨o, ho, hself ▸ hmem⟩
    . rintro ⟨o', ho', hmem⟩
      by_cases hne : o' = o
      . rw [hne, hself] at hmem
        rcases habreast.right.new k hmem with hmem | hbelongs | ⟨_, hmem⟩
        . exact habreast.left.kept k ((h.keys k hk).mpr ⟨o, ho, hmem⟩)
        . exact absurd hk hbelongs.1
        . exact hmem
      . rw [hother hne] at hmem
        exact habreast.left.kept k ((h.keys k hk).mpr ⟨o', ho', hmem⟩)
  . intro name hname hrelay
    rw [hreceive, habreast.left.other name (hname o ho) hrelay]
    exact h.absent name hname hrelay
  . rw [answers_concat, h.answers]
    constructor
    . rintro ⟨hall, hlast⟩ o' ho'
      by_cases hne : o' = o
      . rw [hne, Request.about_concat_self horigin, answers_concat, ← hsucceeds]
        exact ⟨hall o ho, hlast⟩
      . rw [hother hne]
        exact hall o' ho'
    . intro hall
      have hown := hall o ho
      rw [Request.about_concat_self horigin, answers_concat, ← hsucceeds] at hown
      refine ⟨?_, hown.2⟩
      intro o' ho'
      by_cases hne : o' = o
      . rw [hne]
        exact hown.1
      . have := hall o' ho'
        rwa [hother hne] at this

theorem Grounds.splits (hrs : ∀ r ∈ rs, r.Fits b C) : Splits b C rs := by
  induction rs using List.reverseRecOn with
  | nil =>
    refine ⟨fun _ _ => ⟨fun _ _ => rfl, fun _ _ => Iff.rfl⟩, ?_, fun name _ _ => hb.find? name, ?_⟩
    . simp [Request.about, hb.keys]
    . simp [Request.about, Draft.answers]
  | append_singleton rs r ih =>
    rw [List.forall_mem_append, List.forall_mem_singleton] at hrs
    exact (ih hrs.1).concat hb hsymbols htapes hrs.1 hrs.2

/-- The order of requests for different states does not matter if no two symbols are written alike. -/
theorem Splits.find?_eq {rs' : List Request} (h : Splits b C rs) (h' : Splits b C rs')
    (hrs : ∀ r ∈ rs, r.Fits b C) (hrs' : ∀ r ∈ rs', r.Fits b C)
    (hsame : ∀ o, about o rs = about o rs')
    (hwritten : ∀ c c', C c → C c' → c.display = c'.display → c = c') (name : String) :
    (b.receive rs).states.find? name = (b.receive rs').states.find? name := by
  have hstocked := (hb.receive hsymbols htapes hrs).stocked
  have hstocked' := (hb.receive hsymbols htapes hrs').stocked
  -- The state belongs to one of an author's states, or it is a relay, or there is no such state.
  by_cases hbelongs : ∃ o, b.guard.Free o ∧ b.guard.Belongs o name
  . obtain ⟨o, ho, hbelongs⟩ := hbelongs
    rw [(h.agree o ho).tables name hbelongs, (h'.agree o ho).tables name hbelongs, hsame]
  by_cases hrelay : ∃ s : Relay, s.Within C ∧ name = s.name b.guard
  . obtain ⟨s, hs, rfl⟩ := hrelay
    have hkeys : s.key ∈ (b.receive rs).keys ↔ s.key ∈ (b.receive rs').keys := by
      rw [h.keys _ s.isStep_key, h'.keys _ s.isStep_key]
      simp only [hsame]
    by_cases hmem : s.key ∈ (b.receive rs).keys
    . obtain ⟨r, hr, hkey, htable⟩ := hstocked.stocked s hs hmem not_false
      obtain ⟨r', hr', hkey', htable'⟩ := hstocked'.stocked s hs (hkeys.mp hmem) not_false
      rw [htable, htable', Relay.eq_of_key hwritten hr hr' (hkey.trans hkey'.symm)]
    . rw [hstocked.fresh s hs (.inl hmem), hstocked'.fresh s hs (.inl (mt hkeys.mpr hmem))]
  . simp only [not_exists, not_and] at hbelongs hrelay
    rw [h.absent name hbelongs hrelay, h'.absent name hbelongs hrelay]

end

end Draft

end TuringLowering
