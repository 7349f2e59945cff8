import TuringLowering.Proofs.Interleaving
import TuringLowering.Proofs.JointAdmission

/-!
This module contains what an author can rely on when requests on a single tape are submitted one by one:
the names of states are kept, and the order of requests for different states does not matter.
-/

namespace TuringLowering

theorem Guard.exists_wide (n : Nat) (names : List String) :
    ∃ k : Guard, n ≤ k.size ∧ ∀ name ∈ names, k.Free name := by
  induction names generalizing n with
  | nil => exact ⟨⟨n + 1, n.succ_pos⟩, n.le_succ, List.forall_mem_nil _⟩
  | cons name names ih =>
    obtain ⟨k, hk, hfree⟩ := ih (max n (longestRun name.toList + 1))
    refine ⟨k, Nat.le_trans (Nat.le_max_left _ _) hk, ?_⟩
    rw [List.forall_mem_cons]
    exact ⟨Nat.le_trans (Nat.le_max_right _ _) hk, hfree⟩

structure Request.Suits (C : Cell → Prop) (r : Request) : Prop where
  origin : ∃ o, r.origin? = some o
  clean : ∀ c ∈ r.mentioned, Guard.Clean c.display
  reads : ∀ c ∈ r.reads, C c

namespace Draft

structure Lays (input extra : List Cell) (C : Cell → Prop) : Prop where
  clean : ∀ c, C c → Guard.Clean c.display
  symbols : ∀ c ∈ (Alphabet.declare input extra).symbols, C c
  accepts : ∀ c ∈ (Alphabet.declare input extra).symbols,
    (Alphabet.declare input extra).accepts c = true

/-- A draft of which no more than the alphabet and the features were chosen. -/
def opened (start : String) (input extra : List Cell) (F : FeatureSet) (guard : Guard) : Draft :=
  { start, features := F, alphabet := .declare input extra, guard }

theorem size_avoidBoth_le_iff (d : Draft) (a b : String) (k : Guard) :
    (d.avoidBoth a b).guard.size ≤ k.size ↔ d.guard.size ≤ k.size ∧ k.Free a ∧ k.Free b := by
  rw [avoidBoth, size_avoid_le_iff, size_avoid_le_iff, and_assoc]

section

variable {d : Draft} {r : Request}

theorem guard_directive {x : Directive} (hx : ∀ c ∈ x.mentioned, Guard.Clean c.display)
    (hd : d.IsPlain) : ((Build.directive x).after d).guard = d.guard := by
  have hclean : x.Clean := by
    cases x with
    | transition origin read w m next => trivial
    | gadget origin read x next =>
      simp only [Directive.mentioned, List.forall_mem_append] at hx
      exact ⟨Pattern.clean_of_mentioned hx.1, Gadget.clean_of_mentioned hx.2⟩
  exact (Build.directive_follows (Nat.le_refl _) hclean d hd).2.guard

theorem size_submit_le_iff {o : String} (horigin : r.origin? = some o)
    (hr : ∀ c ∈ r.mentioned, Guard.Clean c.display) (hd : d.IsPlain)
    (htapes : ∀ n, d.tapes ≠ .multi n) (k : Guard) :
    ((Build.submit r).after d).guard.size ≤ k.size ↔
      d.guard.size ≤ k.size ∧ ∀ name ∈ r.names, k.Free name := by
  cases r with
  | alphabets input extra => cases horigin
  | features features => cases horigin
  | tapes count first => cases horigin
  | joint t => cases horigin
  | state name =>
    rw [Request.names, List.forall_mem_singleton]
    exact d.size_avoid_le_iff name k
  | directive x =>
    obtain ⟨a, b, hnames, hsubmit⟩ := d.submit_directive x htapes
    have hplain : IsPlain { d with tapes := .single } :=
      ⟨hd.guard, hd.declared, hd.heads, hd.symbols⟩
    have hguard := guard_directive hr (avoidBoth_plain hplain a b)
    rw [Build.after, hsubmit]
    change ((Build.directive x).after _).guard.size ≤ k.size ↔ _
    rw [hguard, size_avoidBoth_le_iff, hnames]
    rfl

end

section

variable {start : String} {input extra : List Cell} {C : Cell → Prop} {rs : List Request}
  (hstart : Guard.Clean start) (h : Lays input extra C) (F : FeatureSet)

include h

theorem opened_plain : (opened start input extra F .single).IsPlain :=
  ⟨rfl, fun c hc => h.clean c (h.symbols c hc), nofun, fun c hc => .inl (h.clean c (h.symbols c hc))⟩

theorem opened_grounds (k : Guard) : Grounds (opened start input extra F k) C :=
  ⟨rfl, rfl, fun _ => ⟨Alphabet.nodup_foldl_addNew List.nodup_nil _, h.accepts⟩,
    fun c hc => .of_clean (h.clean c hc) k⟩

include hstart

theorem opened_withGuard (k : Guard) :
    (opened start input extra F .single).withGuard k = opened start input extra F k := by
  have hname : Guard.single.rename k start = start := Guard.rename_of_clean hstart _ _
  have hsymbols : (Alphabet.declare input extra).symbols.map (Cell.mapNames (Guard.single.rename k))
      = (Alphabet.declare input extra).symbols :=
    Cell.map_mapNames_of_clean fun c hc => h.clean c (h.symbols c hc)
  simp only [withGuard, mapNames, opened, hname, Alphabet.mapNames, hsymbols]
  rfl

variable (hrs : ∀ r ∈ rs, r.Suits C)
include hrs

theorem tapes_receive (n : Nat) : ((opened start input extra F .single).receive rs).tapes ≠ .multi n := by
  have hclean : ∀ r ∈ rs, ∀ c ∈ r.mentioned, Guard.Clean c.display := fun r hr => (hrs r hr).clean
  -- With a guard that is wide enough from the beginning, no name has to be avoided.
  obtain ⟨k, hk, hfree⟩ := Guard.exists_wide ((opened start input extra F .single).receive rs).guard.size
    (rs.flatMap Request.names)
  have hfits : ∀ r ∈ rs, r.Fits (opened start input extra F k) C := by
    intro r hr
    exact ⟨(hrs r hr).origin, fun name hname => hfree name (List.mem_flatMap.mpr ⟨r, hr, hname⟩),
      (hrs r hr).reads⟩
  have hplaced := (opened_grounds h F k).receive h.symbols nofun hfits
  have hwide := (receive_withGuard hclean (opened_plain h F) hk).1
  rw [← opened_withGuard hstart h, hwide] at hplaced
  exact hplaced.tapes n

theorem size_receive_le_iff (k : Guard) :
    ((opened start input extra F .single).receive rs).guard.size ≤ k.size ↔
      ∀ r ∈ rs, ∀ name ∈ r.names, k.Free name := by
  induction rs using List.reverseRecOn with
  | nil =>
    exact iff_of_true k.size_pos (List.forall_mem_nil _)
  | append_singleton rs r ih =>
    rw [List.forall_mem_append, List.forall_mem_singleton] at hrs
    have hclean : ∀ r ∈ rs, ∀ c ∈ r.mentioned, Guard.Clean c.display := fun r hr => (hrs.1 r hr).clean
    obtain ⟨o, horigin⟩ := hrs.2.origin
    rw [receive_append, List.forall_mem_append, List.forall_mem_singleton, ← ih hrs.1]
    exact size_submit_le_iff horigin hrs.2.clean
      (receive_plain hclean (opened_plain h F)) (tapes_receive hstart h F hrs.1) k

theorem guard_receive_le {rs' : List Request} (hrs' : ∀ r ∈ rs', r.Suits C)
    (hsub : ∀ r ∈ rs, r ∈ rs') : ((opened start input extra F .single).receive rs).guard.size
      ≤ ((opened start input extra F .single).receive rs').guard.size := by
  rw [size_receive_le_iff hstart h F hrs]
  intro r hr
  exact (size_receive_le_iff hstart h F hrs' _).mp (Nat.le_refl _) r (hsub r hr)

theorem receive_opened :
    let d := (opened start input extra F .single).receive rs
    let b := opened start input extra F d.guard
    b.receive rs = d ∧ b.answers rs = (opened start input extra F .single).answers rs
      ∧ ∀ r ∈ rs, r.Fits b C := by
  intro d b
  have hclean : ∀ r ∈ rs, ∀ c ∈ r.mentioned, Guard.Clean c.display := fun r hr => (hrs r hr).clean
  obtain ⟨hreceive, hanswers⟩ :=
    receive_withGuard hclean (opened_plain h F) (Nat.le_refl d.guard.size)
  rw [opened_withGuard hstart h] at hreceive hanswers
  have hfree := (size_receive_le_iff hstart h F hrs d.guard).mp (Nat.le_refl _)
  exact ⟨hreceive.trans d.withGuard_guard, hanswers,
    fun r hr => ⟨(hrs r hr).origin, hfree r hr, (hrs r hr).reads⟩⟩

end

theorem exists_opened (start : String) (input extra : List Cell) (fs : List Feature) :
    ∃ (F : FeatureSet) (a : Bool), ∀ rs,
      (new start).receive (.alphabets input extra :: .features fs :: rs)
        = (opened start input extra F .single).receive rs
      ∧ (new start).answers (.alphabets input extra :: .features fs :: rs)
        = true :: a :: (opened start input extra F .single).answers rs := by
  have hfeatures : Build.Maintains (fun d => ∃ F, d = opened start input extra F .single)
      (Build.enableFeatures fs) := by
    apply Build.Maintains.bind
    . apply Build.Maintains.get_bind
      intro d _
      split
      . exact .throw _
      . exact .pure ()
    . intro _
      apply Build.forM_enable_maintains
      rintro _ s ⟨F, rfl⟩
      exact ⟨s, rfl⟩
  obtain ⟨F, hF⟩ := hfeatures _ ⟨.none, rfl⟩
  refine ⟨F, (Build.enableFeatures fs).succeeds (opened start input extra .none .single), fun rs => ⟨?_, ?_⟩⟩
  . rw [← hF]
    rfl
  . rw [← hF]
    rfl

end Draft

open Request (about) in
theorem Request.about_map (o : String) (xs : List Directive) :
    about o (xs.map .directive) = (xs.filter (·.origin = o)).map .directive := by
  rw [about, List.filter_map]
  congr 2
  funext x
  simp only [Function.comp, origin?, Option.some.injEq]

/-- A symbol of the alphabet, or one that directives name to be read. -/
def Directive.Readable (A : Alphabet) (xs : List Directive) (c : Cell) : Prop :=
  c ∈ A.declared ∨ ∃ x ∈ xs, c ∈ x.read.cells []

namespace Directive

variable {input extra : List Char} {xs ys : List Directive}

theorem mem_of_order (h : ∀ o, xs.filter (·.origin = o) = ys.filter (·.origin = o)) {x : Directive}
    (hx : x ∈ ys) : x ∈ xs := by
  have hmem : x ∈ ys.filter (·.origin = x.origin) :=
    List.mem_filter.mpr ⟨hx, decide_eq_true rfl⟩
  rw [← h] at hmem
  exact List.mem_of_mem_filter hmem

theorem mem_mentioned_of_read {x : Directive} {c : Cell} (h : c ∈ x.read.cells []) :
    c ∈ x.mentioned := by
  cases x with
  | transition origin read w m next => exact List.mem_append_left _ h
  | gadget origin read x next => exact List.mem_append_left _ h

variable (hcells : ∀ x ∈ xs, ∀ c ∈ x.mentioned, Guard.Clean c.display)
include hcells

theorem lays (hinput : ∀ char ∈ input ++ extra, char ≠ Guard.mark) :
    Draft.Lays (input.map .ofChar) (extra.map .ofChar) (Readable (.ofChars input extra) xs) := by
  refine ⟨?_, fun c => .inl, fun c => (Alphabet.isLettered_ofChars input extra).accepts⟩
  rintro c (hc | ⟨x, hx, hc⟩)
  . exact Build.clean_ofChars hinput c hc
  . exact hcells x hx c (mem_mentioned_of_read hc)

theorem suits (A : Alphabet) (hys : ∀ x ∈ ys, x ∈ xs) :
    ∀ r ∈ ys.map Request.directive, r.Suits (Readable A xs) := by
  rw [List.forall_mem_map]
  intro x hx
  exact ⟨⟨_, rfl⟩, hcells x (hys x hx), fun c hc => .inr ⟨x, hys x hx, hc⟩⟩

end Directive

theorem Directive.Readable.isLetter {input extra : List Char} {xs : List Directive} {c : Cell}
    (h : Readable (.ofChars input extra) xs c)
    (hxs : ∀ x ∈ xs, ∀ c ∈ x.read.cells [], c ∈ (Alphabet.ofChars input extra).declared) :
    c.IsLetter := by
  apply (Alphabet.isLettered_ofChars input extra).letters
  rcases h with h | ⟨x, hx, hc⟩
  . exact h
  . exact hxs x hx c hc

/--
The order of directives for different states does not matter: they go through in one order if they do in
another one, the guard is the same in the end, and there are the same states with the same rules. Guard
characters stand in names of states only, and no two symbols that are read are written alike.
-/
theorem order_across_states_immaterial {start : String} {input extra : List Char} {F : List Feature}
    {xs ys : List Directive} (hstart : Guard.Clean start)
    (hinput : ∀ char ∈ input ++ extra, char ≠ Guard.mark)
    (hcells : ∀ x ∈ xs, ∀ c ∈ x.mentioned, Guard.Clean c.display)
    (hwritten : ∀ c c', Directive.Readable (.ofChars input extra) xs c →
      Directive.Readable (.ofChars input extra) xs c' → c.display = c'.display → c = c')
    (horder : ∀ o, xs.filter (·.origin = o) = ys.filter (·.origin = o)) :
    let build (zs : List Directive) := Request.all input extra F zs
    let d := (Draft.new start).receive (build xs)
    let e := (Draft.new start).receive (build ys)
    ((∀ a ∈ (Draft.new start).answers (build xs), a = true) ↔
        ∀ a ∈ (Draft.new start).answers (build ys), a = true)
      ∧ d.guard = e.guard
      ∧ ∀ name, d.states.find? name = e.states.find? name := by
  intro build d e
  obtain ⟨G, a, hopened⟩ :=
    Draft.exists_opened start (input.map .ofChar) (extra.map .ofChar) F
  have hd : d = (Draft.opened start _ _ G .single).receive (xs.map .directive) := (hopened _).1
  have he : e = (Draft.opened start _ _ G .single).receive (ys.map .directive) := (hopened _).1
  have hlays := Directive.lays hcells hinput
  have hxs := Directive.suits hcells (.ofChars input extra) fun x hx => hx
  have hys := Directive.suits hcells (.ofChars input extra) fun x hx => Directive.mem_of_order horder hx
  have hsame (o : String) : Request.about o (xs.map .directive) = Request.about o (ys.map .directive) := by
    rw [Request.about_map, Request.about_map, horder]
  -- Both orders give the same names, so they widen the guard alike.
  have hguard : d.guard = e.guard := by
    have hxy : ∀ r ∈ xs.map Request.directive, r ∈ ys.map Request.directive :=
      List.map_subset _ fun x hx => Directive.mem_of_order (fun o => (horder o).symm) hx
    have hyx : ∀ r ∈ ys.map Request.directive, r ∈ xs.map Request.directive :=
      List.map_subset _ fun x hx => Directive.mem_of_order horder hx
    rw [hd, he, Guard.mk.injEq]
    exact Nat.le_antisymm (Draft.guard_receive_le hstart hlays G hxs hys hxy)
      (Draft.guard_receive_le hstart hlays G hys hxs hyx)
  obtain ⟨hreceive, hanswers, hfits⟩ := Draft.receive_opened hstart hlays G hxs
  obtain ⟨hreceive', hanswers', hfits'⟩ := Draft.receive_opened hstart hlays G hys
  rw [← hd] at hreceive hanswers hfits
  rw [← he, ← hguard] at hreceive' hanswers' hfits'
  have hgrounds := @Draft.opened_grounds start _ _ _ hlays G d.guard
  have hsplits := hgrounds.splits hlays.symbols nofun hfits
  have hsplits' := hgrounds.splits hlays.symbols nofun hfits'
  refine ⟨?_, hguard, ?_⟩
  . have hx : (Draft.new start).answers (build xs) = true :: a :: _ := (hopened _).2
    have hy : (Draft.new start).answers (build ys) = true :: a :: _ := (hopened _).2
    rw [hx, hy, ← hanswers, ← hanswers']
    simp only [List.forall_mem_cons, hsplits.answers, hsplits'.answers, hsame]
  . intro name
    rw [← hreceive, ← hreceive']
    exact hsplits.find?_eq hgrounds hlays.symbols nofun hsplits' hfits hfits' hsame hwritten name

theorem order_across_states_immaterial_shared :
    let xs : List Directive :=
      [ .pass "p" .any (.rightBy 2) "r",
        .gadget "qΩ" (.cell (.ofChar 'a')) (.shift (.rightBy 2)) "r" ]
    let build (zs : List Directive) := Request.all ['a'] [] [] zs
    let d := (Draft.new "p").receive (build xs)
    let e := (Draft.new "p").receive (build xs.reverse)
    (∀ a ∈ (Draft.new "p").answers (build xs), a = true)
      ∧ d.chains ≠ e.chains
      ∧ ((∀ a ∈ (Draft.new "p").answers (build xs), a = true) ↔
        ∀ a ∈ (Draft.new "p").answers (build xs.reverse), a = true)
      ∧ d.guard = e.guard
      ∧ ∀ name, d.states.find? name = e.states.find? name := by
  intro xs build d e
  have hreads : ∀ x ∈ xs, ∀ c ∈ x.read.cells [], c ∈ (Alphabet.ofChars ['a'] []).declared := by
    decide
  refine ⟨by decide +kernel, by decide +kernel, ?_⟩
  apply order_across_states_immaterial (by decide) (forall_mem_of_all (by decide)) (by decide)
  . exact fun c c' hc hc' => (hc.isLetter hreads).eq_of_display (hc'.isLetter hreads)
  . intro o
    by_cases hp : "p" = o
    . subst hp
      decide
    by_cases hq : "qΩ" = o
    . subst hq
      decide
    . simp [xs, List.filter, Directive.origin, hp, hq]

/--
Combinations of cells that are written alike share the state that pastes them. It pastes the one that
was asked for first, so that for the other one, a cell is exchanged while it is carried.
-/
theorem order_across_states_material_written_alike :
    let pair := Cell.joint [.ofChar '<', .ofChar '>']
    let nested := Cell.joint [.joint [.ofChar ',']]
    let p := Directive.gadget "p" (.cell pair) (.shift .stay) "r"
    let q := Directive.gadget "q" (.cell nested) (.shift .stay) "r"
    let draft (zs : List Directive) :=
      (Draft.new "p").receive (Request.all ['<', '>', ','] [] [.moveNone] zs)
    let paste := Guard.single.wrap ["paste<<,>>", "N", "r"]
    (∀ a ∈ (Draft.new "p").answers (Request.all ['<', '>', ','] [] [.moveNone] [p, q]), a = true)
      ∧ (∀ a ∈ (Draft.new "p").answers (Request.all ['<', '>', ','] [] [.moveNone] [q, p]), a = true)
      ∧ (draft [p, q]).states.lookup paste .blank = some (.single (.write pair .stay) "r")
      ∧ (draft [q, p]).states.lookup paste .blank = some (.single (.write nested .stay) "r") := by
  decide +kernel

theorem Request.mem_mentioned_of_reads {r : Request} {c : Cell} (h : c ∈ r.reads) :
    c ∈ r.mentioned := by
  cases r with
  | directive x => exact Directive.mem_mentioned_of_read h
  | _ => cases h

/--
The names that an author chooses are kept. The machine starts in the same state, no name that a request
gave contains the guard, and the rules of a state are those that the requests for this state alone lead
to. The start and the symbols contain no guard character, and the symbols of the alphabet are accepted.
-/
theorem author_names_kept {start : String} {input extra : List Cell} {F : List Feature}
    {rs : List Request} (hstart : Guard.Clean start)
    (hcells : ∀ c ∈ input ++ extra, Guard.Clean c.display)
    (haccepts : ∀ c ∈ (Alphabet.declare input extra).symbols,
      (Alphabet.declare input extra).accepts c = true)
    (hrs : ∀ r ∈ rs, ∃ o, r.origin? = some o)
    (hmentioned : ∀ r ∈ rs, ∀ c ∈ r.mentioned, Guard.Clean c.display) :
    let opening := (Draft.new start).receive [.alphabets input extra, .features F]
    let d := opening.receive rs
    d.start = start
      ∧ d.guard.Free start
      ∧ (∀ r ∈ rs, ∀ name ∈ r.names, d.guard.Free name)
      ∧ ∀ q, d.guard.Free q → d.states.find? q
        = (({ opening with guard := d.guard }).receive (Request.about q rs)).states.find? q := by
  intro opening d
  obtain ⟨G, _, hopened⟩ := Draft.exists_opened start input extra F
  have hopening : opening = Draft.opened start input extra G .single := (hopened []).1
  have hlays : Draft.Lays input extra fun c => Guard.Clean c.display :=
    ⟨fun _ => id, Build.clean_declare hcells, haccepts⟩
  have hsuits : ∀ r ∈ rs, r.Suits fun c => Guard.Clean c.display := by
    intro r hr
    exact ⟨hrs r hr, hmentioned r hr, fun c hc => hmentioned r hr c (Request.mem_mentioned_of_reads hc)⟩
  have hd : d = (Draft.opened start input extra G .single).receive rs := by rw [← hopening]
  obtain ⟨hreceive, -, hfits⟩ := Draft.receive_opened hstart hlays G hsuits
  rw [← hd] at hreceive hfits
  have hgrounds := @Draft.opened_grounds start _ _ _ hlays G d.guard
  have hplaced := hgrounds.receive hlays.symbols nofun hfits
  have hsplits := hgrounds.splits hlays.symbols nofun hfits
  rw [hreceive] at hplaced
  refine ⟨hplaced.start, hstart.free _, fun r hr => (hfits r hr).names, ?_⟩
  intro q hq
  rw [hopening]
  have htables := (hsplits.agree q hq).tables q .self
  rw [hreceive] at htables
  exact htables

theorem author_names_kept_guarded :
    let rs : List Request :=
      [ .directive (.gadget "p" (.cell (.ofChar 'a')) (.shift .left) "Ωr"),
        .state "ΩΩ",
        .directive (.pass "p" (.cell (.ofChar 'a')) .right "Ωr"),
        .directive (.pass "Ωr" (.cell (.ofChar 'a')) (.rightBy 2) "p") ]
    let opening := (Draft.new "p").receive [.alphabets [.ofChar 'a'] [], .features []]
    let d := opening.receive rs
    opening.answers rs = [true, true, false, true]
      ∧ d.guard.size = 3
      ∧ d.start = "p"
      ∧ d.guard.Free "p"
      ∧ (∀ r ∈ rs, ∀ name ∈ r.names, d.guard.Free name)
      ∧ ∀ q, d.guard.Free q → d.states.find? q
        = (({ opening with guard := d.guard }).receive (Request.about q rs)).states.find? q := by
  intro rs opening d
  refine ⟨by decide +kernel, by decide +kernel, ?_⟩
  exact author_names_kept (by decide) (by decide) (by decide) (by simp [rs, Request.origin?])
    (by decide)

/-- A start that contains the guard is renamed when the guard is widened, and is left without rules. -/
theorem guarded_start_renamed :
    let rs : List Request :=
      [ .alphabets [.ofChar 'a'] [], .features [],
        .directive (.pass "sΩ" (.cell (.ofChar 'a')) .right "ACCEPT") ]
    let d := (Draft.new "sΩ").receive rs
    (Draft.new "sΩ").answers rs = [true, true, true] ∧ d.start = "sΩΩ"
      ∧ (d.states.find? d.start).isNone = true ∧ (d.states.find? "sΩ").isSome = true := by
  decide +kernel

end TuringLowering
