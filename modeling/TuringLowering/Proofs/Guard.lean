import TuringLowering.Guard

/-!
This module contains the lemmas about widening the guard inside names: it can be undone, it is done
in any number of stages alike, and it turns a name made with the old guard into the one made with the
new guard.
-/

namespace TuringLowering.Guard

theorem eq_of_size {g g' : Guard} (h : g.size = g'.size) : g = g' := by
  obtain ⟨size, hpos⟩ := g
  obtain ⟨size', hpos'⟩ := g'
  rwa [Guard.mk.injEq]

theorem run_append (m n : Nat) : run m ++ run n = run (m + n) := by
  simp [run]

theorem widened_zero (a b : Nat) : widened a b 0 = 0 := by
  simp [widened]

theorem widened_add {a : Nat} (ha : 0 < a) (b n : Nat) :
    widened a b (n + a) = widened a b n + b := by
  unfold widened
  rw [Nat.add_div_right n ha, Nat.add_mod_right, Nat.succ_mul]
  omega

theorem widened_of_lt {a n : Nat} (b : Nat) (h : n < a) : widened a b n = n := by
  simp [widened, Nat.div_eq_of_lt h, Nat.mod_eq_of_lt h]

theorem widened_self (a n : Nat) : widened a a n = n := by
  unfold widened
  rw [Nat.mul_comm]
  exact Nat.div_add_mod n a

theorem widened_widened {a b : Nat} (ha : 0 < a) (hab : a ≤ b) (c n : Nat) :
    widened b c (widened a b n) = widened a c n := by
  have hmod : n % a < b := Nat.lt_of_lt_of_le (Nat.mod_lt n ha) hab
  have hb : 0 < b := Nat.lt_of_lt_of_le ha hab
  unfold widened
  rw [Nat.mul_comm (n / a) b, Nat.mul_add_div hb, Nat.div_eq_of_lt hmod, Nat.mul_add_mod,
    Nat.mod_eq_of_lt hmod, Nat.add_zero]

section

variable (a b : Nat)

theorem stretch_go_run (current n : Nat) (cs : List Char) :
    stretch.go a b current (run n ++ cs) = stretch.go a b (current + n) cs := by
  induction n generalizing current with
  | zero => rfl
  | succ n ih =>
    rw [run, List.replicate_succ, List.cons_append, stretch.go, if_pos rfl]
    rw [run] at ih
    rw [ih]
    congr 1
    omega

theorem stretch_go_append_cons (current : Nat) (xs : List Char) {c : Char} (hc : c ≠ mark)
    (cs : List Char) :
    stretch.go a b current (xs ++ c :: cs)
      =
    stretch.go a b current xs ++ c :: stretch.go a b 0 cs := by
  induction xs generalizing current with
  | nil => simp [stretch.go, hc]
  | cons x xs ih =>
    simp only [List.cons_append, stretch.go]
    split
    . rw [ih]
    . rw [ih]
      simp

theorem stretch_go_append_run {a : Nat} (ha : 0 < a) (current : Nat) (xs : List Char) :
    stretch.go a b current (xs ++ run a) = stretch.go a b current xs ++ run b := by
  induction xs generalizing current with
  | nil =>
    have := stretch_go_run a b current a []
    simp only [List.append_nil] at this
    rw [List.nil_append, this]
    simp only [stretch.go]
    rw [widened_add ha, run_append]
  | cons x xs ih =>
    simp only [List.cons_append, stretch.go]
    split
    . rw [ih]
    . rw [ih]
      simp

theorem stretch_go_of_longestRun_lt {a : Nat} (b current : Nat) {xs : List Char}
    (h : longestRun.go current xs < a) : stretch.go a b current xs = run current ++ xs := by
  induction xs generalizing current with
  | nil =>
    simp only [longestRun.go] at h
    simp [stretch.go, widened_of_lt b h]
  | cons x xs ih =>
    simp only [longestRun.go] at h
    simp only [stretch.go]
    split at h
    . next hx =>
      rw [if_pos hx, ih _ h, ← run_append, hx]
      simp [run]
    . next hx =>
      rw [if_neg hx, ih 0 (by omega), widened_of_lt b (by omega)]
      rfl

end

theorem stretch_append_cons (a b : Nat) (xs : List Char) {c : Char} (hc : c ≠ mark)
    (cs : List Char) :
    stretch a b (xs ++ c :: cs) = stretch a b xs ++ c :: stretch a b cs :=
  stretch_go_append_cons a b 0 xs hc cs

theorem stretch_append_run {a : Nat} (ha : 0 < a) (b : Nat) (xs : List Char) :
    stretch a b (xs ++ run a) = stretch a b xs ++ run b :=
  stretch_go_append_run b ha 0 xs

theorem stretch_run {a : Nat} (ha : 0 < a) (b : Nat) : stretch a b (run a) = run b := by
  have := stretch_append_run ha b []
  simpa [stretch, stretch.go, widened_zero, run] using this

theorem stretch_of_longestRun_lt {a : Nat} (b : Nat) {xs : List Char} (h : longestRun xs < a) :
    stretch a b xs = xs :=
  stretch_go_of_longestRun_lt b 0 h

theorem stretch_go_stretch {a b : Nat} (ha : 0 < a) (hab : a ≤ b) (c current : Nat)
    (xs : List Char) :
    stretch b c (stretch.go a b current xs) = stretch.go a c current xs := by
  induction xs generalizing current with
  | nil =>
    have := stretch_go_run b c 0 (widened a b current) []
    simp only [List.append_nil, Nat.zero_add] at this
    simp only [stretch, stretch.go, this]
    rw [widened_widened ha hab]
  | cons x xs ih =>
    simp only [stretch.go]
    split
    . rw [ih]
    . next hx =>
      have := stretch_go_run b c 0 (widened a b current) []
      simp only [List.append_nil, Nat.zero_add] at this
      rw [stretch_append_cons b c _ hx, ih, stretch, this]
      simp only [stretch.go]
      rw [widened_widened ha hab]

theorem stretch_stretch {a b : Nat} (ha : 0 < a) (hab : a ≤ b) (c : Nat) (xs : List Char) :
    stretch b c (stretch a b xs) = stretch a c xs :=
  stretch_go_stretch ha hab c 0 xs

theorem stretch_go_self (a current : Nat) (xs : List Char) :
    stretch.go a a current xs = run current ++ xs := by
  induction xs generalizing current with
  | nil => simp [stretch.go, widened_self]
  | cons x xs ih =>
    simp only [stretch.go, widened_self]
    split
    . next hx =>
      rw [ih, ← run_append, hx]
      simp [run]
    . rw [ih]
      rfl

theorem stretch_self (a : Nat) (xs : List Char) : stretch a a xs = xs := stretch_go_self a 0 xs

theorem stretch_append_of_clean (a b : Nat) {xs : List Char} (hxs : mark ∉ xs)
    (ys : List Char) : stretch a b (xs ++ ys) = xs ++ stretch a b ys := by
  induction xs with
  | nil => rfl
  | cons x xs ih =>
    rw [List.mem_cons, not_or] at hxs
    have := stretch_append_cons a b [] (Ne.symm hxs.1) (xs ++ ys)
    rw [List.nil_append] at this
    rw [List.cons_append, this, ih hxs.2]
    simp [stretch, stretch.go, widened_zero, run]

/-- A text without guard characters. -/
def Clean (text : String) : Prop := mark ∉ text.toList

instance (text : String) : Decidable (Clean text) := inferInstanceAs (Decidable (mark ∉ _))

variable {g g' : Guard}

/-- A text in which the guard does not occur. -/
def Free (g : Guard) (text : String) : Prop := longestRun text.toList < g.size

theorem free_iff_not_occursIn {text : String} : g.Free text ↔ g.occursIn text = false := by
  simp [Free, occursIn]

theorem longestRun_go_of_clean {xs : List Char} (h : mark ∉ xs) (current : Nat) :
    longestRun.go current xs = current := by
  induction xs generalizing current with
  | nil => rfl
  | cons x xs ih =>
    rw [List.mem_cons, not_or] at h
    rw [longestRun.go, if_neg (Ne.symm h.1), ih h.2]
    omega

theorem Clean.free {text : String} (h : Clean text) (g : Guard) : g.Free text := by
  unfold Free longestRun
  rw [longestRun_go_of_clean h]
  exact g.size_pos

theorem Free.mono {text : String} (h : g.Free text) (hle : g.size ≤ g'.size) : g'.Free text :=
  Nat.lt_of_lt_of_le h hle

theorem free_avoiding (text : String) : (avoiding text).Free text := Nat.lt_succ_self _

theorem rename_of_free {text : String} (h : g.Free text) (g' : Guard) :
    g.rename g' text = text := by
  rw [rename, stretch_of_longestRun_lt g'.size h, String.ofList_toList]

theorem rename_of_clean {text : String} (h : Clean text) (g g' : Guard) :
    g.rename g' text = text := rename_of_free (h.free g) g'

theorem rename_self (g : Guard) (text : String) : g.rename g text = text := by
  rw [rename, stretch_self, String.ofList_toList]

theorem rename_rename (h : g.size ≤ g'.size) (g'' : Guard) (text : String) :
    g'.rename g'' (g.rename g' text) = g.rename g'' text := by
  simp only [rename, String.toList_ofList]
  rw [stretch_stretch g.size_pos h]

theorem rename_injective (h : g.size ≤ g'.size) {s t : String}
    (hst : g.rename g' s = g.rename g' t) : s = t := by
  have := congrArg (g'.rename g) hst
  rwa [rename_rename h, rename_rename h, rename_self, rename_self] at this

theorem rename_text : g.rename g' g.text = g'.text := by
  simp only [rename, text, String.toList_ofList]
  rw [stretch_run g.size_pos]

theorem rename_append_text (x : String) :
    g.rename g' (x ++ g.text) = g.rename g' x ++ g'.text := by
  simp only [rename, text, String.toList_append, String.toList_ofList]
  rw [stretch_append_run g.size_pos, String.ofList_append]

/-- A text without guard characters keeps apart what stands before and after it. -/
theorem rename_append_append (x y : String) {sep : String} (hne : sep.toList ≠ [])
    (hsep : Clean sep) :
    g.rename g' (x ++ sep ++ y) = g.rename g' x ++ sep ++ g.rename g' y := by
  unfold Clean at hsep
  apply String.toList_injective
  simp only [rename, String.toList_append, String.toList_ofList]
  cases hlist : sep.toList with
  | nil => exact absurd hlist hne
  | cons c cs =>
    rw [hlist, List.mem_cons, not_or] at hsep
    rw [List.append_assoc, List.cons_append, stretch_append_cons _ _ _ (Ne.symm hsep.1),
      stretch_append_of_clean _ _ hsep.2]
    simp

theorem rename_append_of_clean (x : String) {y : String} (hy : Clean y) :
    g.rename g' (x ++ y) = g.rename g' x ++ y := by
  by_cases hne : y.toList = []
  . have : y = "" := String.toList_injective hne
    simp [this]
  . have hempty : g.rename g' "" = "" := rename_of_clean (by decide) g g'
    have : g.rename g' (x ++ y ++ "") = g.rename g' x ++ y ++ g.rename g' "" :=
      rename_append_append x "" hne hy
    rwa [hempty, String.append_empty, String.append_empty] at this

theorem rename_clean_append {x : String} (hx : Clean x) (y : String) :
    g.rename g' (x ++ y) = x ++ g.rename g' y := by
  apply String.toList_injective
  simp only [rename, String.toList_append, String.toList_ofList]
  rw [stretch_append_of_clean _ _ hx]

theorem rename_wrap (parts : List String) :
    g.rename g' (g.wrap parts) = g'.wrap (parts.map (g.rename g')) := by
  have hfold (acc : String) :
      g.rename g' (parts.foldl (fun name part => name ++ "_" ++ part ++ "_" ++ g.text) acc)
        =
      (parts.map (g.rename g')).foldl (fun name part => name ++ "_" ++ part ++ "_" ++ g'.text)
        (g.rename g' acc) := by
    induction parts generalizing acc with
    | nil => rfl
    | cons part parts ih =>
      rw [List.foldl_cons, ih, List.map_cons, List.foldl_cons]
      rw [rename_append_text, rename_append_of_clean _ (by decide),
        rename_append_append _ _ (by decide) (by decide)]
  unfold wrap
  rw [hfold, rename_text]

end TuringLowering.Guard
