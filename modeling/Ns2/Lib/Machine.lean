import Mathlib

/-! Deterministic machines that may stop, their runs over a list of inputs, and the
rules that carry an invariant or a simulation from one step to a whole run. -/

namespace Machine

variable {σ σ' ι ο : Type*}

/-- The outputs and the last state of a run; `none` if some step stops the machine. -/
def run (step : σ → ι → Option (σ × ο)) : σ → List ι → Option (σ × List ο)
  | s, [] => some (s, [])
  | s, i :: is =>
    match step s i with
    | none => none
    | some (s', o) => (run step s' is).map fun r => (r.1, o :: r.2)

/-- Every input of the run is admitted in the state that it meets. -/
def Admits (step : σ → ι → Option (σ × ο)) (ok : σ → ι → Prop) : σ → List ι → Prop
  | _, [] => True
  | s, i :: is => ok s i ∧ ∀ s' o, step s i = some (s', o) → Admits step ok s' is

theorem admits_of_forall {step : σ → ι → Option (σ × ο)} {p : ι → Prop} {is : List ι}
    (h : ∀ i ∈ is, p i) (s : σ) : Admits step (fun _ i => p i) s is := by
  induction is generalizing s with
  | nil => trivial
  | cons i is ih =>
    exact ⟨h i (by simp), fun s' _ _ => ih (fun j hj => h j (List.mem_cons_of_mem i hj)) s'⟩

theorem admits_true (step : σ → ι → Option (σ × ο)) (s : σ) (is : List ι) :
    Admits step (fun _ _ => True) s is :=
  admits_of_forall (fun _ _ => trivial) s

theorem admits_cons {step : σ → ι → Option (σ × ο)} {ok : σ → ι → Prop} {s s' : σ} {i : ι} {o : ο}
    {is : List ι} (hi : ok s i) (hs : step s i = some (s', o)) (his : Admits step ok s' is) :
    Admits step ok s (i :: is) := by
  refine ⟨hi, fun t o' ht => ?_⟩
  obtain ⟨rfl, -⟩ := Prod.mk.inj (Option.some.inj (hs.symm.trans ht))
  exact his

theorem Admits.imp {step : σ → ι → Option (σ × ο)} {ok ok' : σ → ι → Prop} {s : σ} {is : List ι}
    (h : Admits step ok s is) (hok : ∀ s i, ok s i → ok' s i) : Admits step ok' s is := by
  induction is generalizing s with
  | nil => trivial
  | cons i is ih => exact ⟨hok s i h.1, fun s' o hs => ih (h.2 s' o hs)⟩

/-- Two conditions that agree wherever an invariant holds admit the same runs. -/
theorem admits_iff {step : σ → ι → Option (σ × ο)} {ok ok' : σ → ι → Prop} {I : σ → Prop}
    (hstep : ∀ s i s' o, I s → step s i = some (s', o) → I s')
    (hok : ∀ s i, I s → (ok s i ↔ ok' s i)) {s : σ} (hs : I s) (is : List ι) :
    Admits step ok s is ↔ Admits step ok' s is := by
  induction is generalizing s with
  | nil => exact Iff.rfl
  | cons i is ih =>
    exact and_congr (hok s i hs) (forall_congr' fun s' => forall_congr' fun o =>
      imp_congr_right fun h => ih (hstep s i s' o hs h))

@[simp] theorem run_nil (step : σ → ι → Option (σ × ο)) (s : σ) : run step s [] = some (s, []) := rfl

instance decidableAdmits (step : σ → ι → Option (σ × ο)) (ok : σ → ι → Prop)
    [∀ s i, Decidable (ok s i)] : ∀ s is, Decidable (Admits step ok s is)
  | _, [] => .isTrue trivial
  | s, i :: is =>
    match h : step s i with
    | none => decidable_of_iff (ok s i) ⟨fun hi => ⟨hi, fun _ _ hs => nomatch h.symm.trans hs⟩,
        fun hi => hi.1⟩
    | some (s', o) =>
      have := decidableAdmits step ok s' is
      decidable_of_iff (ok s i ∧ Admits step ok s' is)
        ⟨fun hi => admits_cons hi.1 h hi.2, fun hi => ⟨hi.1, hi.2 s' o h⟩⟩

theorem run_cons_some {step : σ → ι → Option (σ × ο)} {s s' : σ} {i : ι} {o : ο}
    (h : step s i = some (s', o)) (is : List ι) :
    run step s (i :: is) = (run step s' is).map fun r => (r.1, o :: r.2) := by
  simp [run, h]

theorem run_cons_none {step : σ → ι → Option (σ × ο)} {s : σ} {i : ι}
    (h : step s i = none) (is : List ι) : run step s (i :: is) = none := by
  simp [run, h]

theorem run_cons_eq_some {step : σ → ι → Option (σ × ο)} {s t : σ} {i : ι} {is : List ι}
    {os : List ο} (h : run step s (i :: is) = some (t, os)) :
    ∃ s' o os', step s i = some (s', o) ∧ run step s' is = some (t, os') ∧ os = o :: os' := by
  cases hs : step s i with
  | none => simp [run_cons_none hs] at h
  | some r =>
    obtain ⟨s', o⟩ := r
    rw [run_cons_some hs] at h
    obtain ⟨⟨t', os'⟩, hr, he⟩ := Option.map_eq_some_iff.mp h
    cases he
    exact ⟨s', o, os', rfl, hr, rfl⟩

theorem run_append (step : σ → ι → Option (σ × ο)) (s : σ) (is js : List ι) :
    run step s (is ++ js) =
      (run step s is).bind fun r => (run step r.1 js).map fun q => (q.1, r.2 ++ q.2) := by
  induction is generalizing s with
  | nil => simp
  | cons i is ih =>
    cases hs : step s i with
    | none => simp [run_cons_none hs]
    | some r =>
      simp only [List.cons_append, run_cons_some hs, ih]
      cases run step r.1 is with
      | none => rfl
      | some q => simp [Option.map_map, Function.comp_def]

theorem run_length {step : σ → ι → Option (σ × ο)} {s t : σ} {is : List ι} {os : List ο}
    (h : run step s is = some (t, os)) : os.length = is.length := by
  induction is generalizing s os with
  | nil =>
    obtain ⟨-, rfl⟩ := Prod.mk.inj (Option.some.inj h)
    rfl
  | cons i is ih =>
    obtain ⟨s', o, os', -, h2, rfl⟩ := run_cons_eq_some h
    rw [List.length_cons, List.length_cons, ih h2]

theorem run_take {step : σ → ι → Option (σ × ο)} {s t : σ} {is js : List ι} {os : List ο}
    (h : run step s (is ++ js) = some (t, os)) :
    ∃ u, run step s is = some (u, os.take is.length) := by
  rw [run_append] at h
  obtain ⟨⟨u, os'⟩, hu, h⟩ := Option.bind_eq_some_iff.mp h
  obtain ⟨⟨v, os''⟩, -, he⟩ := Option.map_eq_some_iff.mp h
  obtain ⟨-, rfl⟩ := Prod.mk.inj he
  exact ⟨u, by rw [hu, List.take_left' (run_length hu)]⟩

/-- What one admitted step preserves, a whole run preserves. -/
theorem run_invariant {step : σ → ι → Option (σ × ο)} {ok : σ → ι → Prop} {I : σ → Prop}
    (hstep : ∀ s i s' o, I s → ok s i → step s i = some (s', o) → I s')
    {is : List ι} {s t : σ} {os : List ο} (hs : I s) (hok : Admits step ok s is)
    (h : run step s is = some (t, os)) : I t := by
  induction is generalizing s os with
  | nil =>
    obtain ⟨rfl, -⟩ := Prod.mk.inj (Option.some.inj h)
    exact hs
  | cons i is ih =>
    obtain ⟨s', o, os', h1, h2, -⟩ := run_cons_eq_some h
    exact ih (hstep s i s' o hs hok.1 h1) (hok.2 s' o h1) h2

/-- A machine that can take every admitted step completes every admitted run. -/
theorem run_total {step : σ → ι → Option (σ × ο)} {ok : σ → ι → Prop} {I : σ → Prop}
    (hstep : ∀ s i, I s → ok s i → ∃ s' o, step s i = some (s', o) ∧ I s')
    {is : List ι} {s : σ} (hs : I s) (hok : Admits step ok s is) :
    ∃ t os, run step s is = some (t, os) ∧ I t := by
  induction is generalizing s with
  | nil => exact ⟨s, [], rfl, hs⟩
  | cons i is ih =>
    obtain ⟨s', o, h1, hI⟩ := hstep s i hs hok.1
    obtain ⟨t, os, h2, ht⟩ := ih hI (hok.2 s' o h1)
    exact ⟨t, o :: os, by simp [run_cons_some h1, h2], ht⟩

/-- Every step of the run is taken and every state has `P`. -/
def Always (step : σ → ι → Option (σ × ο)) (P : σ → Prop) : σ → List ι → Prop
  | s, [] => P s
  | s, i :: is => P s ∧ ∃ s' o, step s i = some (s', o) ∧ Always step P s' is

instance decidableAlways (step : σ → ι → Option (σ × ο)) (P : σ → Prop) [DecidablePred P] :
    ∀ s is, Decidable (Always step P s is)
  | s, [] => inferInstanceAs (Decidable (P s))
  | s, i :: is =>
    match h : step s i with
    | none => .isFalse fun ⟨_, _, _, hs, _⟩ => by simp [h] at hs
    | some (s', o) =>
      have := decidableAlways step P s' is
      decidable_of_iff (P s ∧ Always step P s' is)
        ⟨fun hP => ⟨hP.1, s', o, h, hP.2⟩, fun hP => ⟨hP.1, by
          obtain ⟨t, o', hs, ht⟩ := hP.2
          obtain ⟨rfl, -⟩ := Prod.mk.inj (Option.some.inj (h.symm.trans hs))
          exact ht⟩⟩

theorem Always.start {step : σ → ι → Option (σ × ο)} {P : σ → Prop} {s : σ} {is : List ι}
    (h : Always step P s is) : P s := by
  cases is with
  | nil => exact h
  | cons i is => exact h.1

theorem Always.run {step : σ → ι → Option (σ × ο)} {P : σ → Prop} {s : σ} {is : List ι}
    (h : Always step P s is) : ∃ t os, run step s is = some (t, os) ∧ P t := by
  induction is generalizing s with
  | nil => exact ⟨s, [], rfl, h⟩
  | cons i is ih =>
    obtain ⟨-, s', o, hs, hrest⟩ := h
    obtain ⟨t, os, ht, hP⟩ := ih hrest
    exact ⟨t, o :: os, by rw [run_cons_some hs, ht]; rfl, hP⟩

theorem always_of_admits {step : σ → ι → Option (σ × ο)} {dom ok : σ → ι → Prop} {I P : σ → Prop}
    (hI : ∀ s, I s → P s)
    (hstep : ∀ s i, I s → dom s i → ok s i → ∃ s' o, step s i = some (s', o) ∧ I s')
    {s : σ} (hs : I s) {is : List ι} (hdom : Admits step dom s is) (hok : Admits step ok s is) :
    Always step P s is := by
  induction is generalizing s with
  | nil => exact hI s hs
  | cons i is ih =>
    obtain ⟨s', o, h1, hs'⟩ := hstep s i hs hdom.1 hok.1
    exact ⟨hI s hs, s', o, h1, ih hs' (hdom.2 s' o h1) (hok.2 s' o h1)⟩

/-- If, among the inputs of a domain, exactly the admitted steps keep an invariant, exactly the
admitted runs over the domain do. -/
theorem always_iff_of_admits {step : σ → ι → Option (σ × ο)} {dom ok : σ → ι → Prop} {I P : σ → Prop}
    (hI : ∀ s, I s → P s)
    (hstep : ∀ s i, I s → dom s i → ok s i → ∃ s' o, step s i = some (s', o) ∧ I s')
    (hbreak : ∀ s i s' o, I s → dom s i → ¬ ok s i → step s i = some (s', o) → ¬ P s')
    {s : σ} (hs : I s) {is : List ι} (hdom : Admits step dom s is) :
    Always step P s is ↔ Admits step ok s is := by
  refine ⟨fun h => ?_, always_of_admits hI hstep hs hdom⟩
  induction is generalizing s with
  | nil => trivial
  | cons i is ih =>
    obtain ⟨-, s', o, h1, hrest⟩ := h
    have hok : ok s i := by
      by_contra hno
      exact hbreak s i s' o hs hdom.1 hno h1 hrest.start
    obtain ⟨t, o', h2, ht⟩ := hstep s i hs hdom.1 hok
    obtain ⟨rfl, -⟩ := Prod.mk.inj (Option.some.inj (h1.symm.trans h2))
    refine ⟨hok, fun u o'' hu => ?_⟩
    obtain ⟨rfl, -⟩ := Prod.mk.inj (Option.some.inj (h1.symm.trans hu))
    exact ih ht (hdom.2 _ _ h1) hrest

/-- If exactly the admitted steps keep an invariant, exactly the admitted runs do. -/
theorem always_iff {step : σ → ι → Option (σ × ο)} {ok : σ → ι → Prop} {I P : σ → Prop}
    (hI : ∀ s, I s → P s)
    (hstep : ∀ s i, I s → ok s i → ∃ s' o, step s i = some (s', o) ∧ I s')
    (hbreak : ∀ s i s' o, I s → ¬ ok s i → step s i = some (s', o) → ¬ P s')
    {s : σ} (hs : I s) (is : List ι) : Always step P s is ↔ Admits step ok s is :=
  always_iff_of_admits hI (fun s i h _ => hstep s i h) (fun s i s' o h _ => hbreak s i s' o h) hs
    (admits_true step s is)

/-- Every step of the run is taken, and does what `K` says. -/
def Each (step : σ → ι → Option (σ × ο)) (K : σ → ι → ο → σ → Prop) : σ → List ι → Prop
  | _, [] => True
  | s, i :: is => ∃ s' o, step s i = some (s', o) ∧ K s i o s' ∧ Each step K s' is

theorem Each.run {step : σ → ι → Option (σ × ο)} {K : σ → ι → ο → σ → Prop} {s : σ} {is : List ι}
    (h : Each step K s is) : ∃ t os, run step s is = some (t, os) := by
  induction is generalizing s with
  | nil => exact ⟨s, [], rfl⟩
  | cons i is ih =>
    obtain ⟨s', o, hs, -, hrest⟩ := h
    obtain ⟨t, os, ht⟩ := ih hrest
    exact ⟨t, o :: os, by rw [run_cons_some hs, ht]; rfl⟩

/-- If the admitted steps keep an invariant and do what they should, the admitted runs do. -/
theorem each_of_admits {step : σ → ι → Option (σ × ο)} {ok : σ → ι → Prop} {I : σ → Prop}
    {K : σ → ι → ο → σ → Prop}
    (hstep : ∀ s i, I s → ok s i → ∃ s' o, step s i = some (s', o) ∧ K s i o s' ∧ I s')
    {s : σ} (hs : I s) {is : List ι} (hok : Admits step ok s is) : Each step K s is := by
  induction is generalizing s with
  | nil => trivial
  | cons i is ih =>
    obtain ⟨s', o, h1, hK, hI⟩ := hstep s i hs hok.1
    exact ⟨s', o, h1, hK, ih hI (hok.2 s' o h1)⟩

/-- If, where an invariant holds, exactly the admitted steps do what they should, exactly the
admitted runs do. -/
theorem each_iff {step : σ → ι → Option (σ × ο)} {ok : σ → ι → Prop} {I : σ → Prop}
    {K : σ → ι → ο → σ → Prop}
    (hstep : ∀ s i, I s → ok s i → ∃ s' o, step s i = some (s', o) ∧ K s i o s' ∧ I s')
    (hbreak : ∀ s i s' o, I s → ¬ ok s i → step s i = some (s', o) → ¬ K s i o s')
    {s : σ} (hs : I s) (is : List ι) : Each step K s is ↔ Admits step ok s is := by
  induction is generalizing s with
  | nil => exact Iff.rfl
  | cons i is ih =>
    by_cases hok : ok s i
    · obtain ⟨s', o, h1, hK, hI⟩ := hstep s i hs hok
      constructor
      · rintro ⟨t, o', h2, -, hrest⟩
        obtain ⟨rfl, -⟩ := Prod.mk.inj (Option.some.inj (h1.symm.trans h2))
        exact admits_cons hok h1 ((ih hI).mp hrest)
      · intro h
        exact ⟨s', o, h1, hK, (ih hI).mpr (h.2 s' o h1)⟩
    · refine iff_of_false ?_ fun h => hok h.1
      rintro ⟨s', o, h1, hK, -⟩
      exact hbreak s i s' o hs hok h1 hK

/-- The last step of an admitted run starts from a state with the invariant. -/
theorem run_concat {step : σ → ι → Option (σ × ο)} {ok : σ → ι → Prop} {I : σ → Prop}
    (hstep : ∀ s i, I s → ok s i → ∃ s' o, step s i = some (s', o) ∧ I s') {is : List ι} {i : ι}
    {s : σ} (hs : I s) (hok : Admits step ok s (is ++ [i])) :
    ∃ t os, run step s is = some (t, os) ∧ I t ∧ ok t i := by
  induction is generalizing s with
  | nil => exact ⟨s, [], rfl, hs, hok.1⟩
  | cons j is ih =>
    obtain ⟨s', o, h1, hI⟩ := hstep s j hs hok.1
    obtain ⟨t, os, h2, ht⟩ := ih hI (hok.2 s' o h1)
    exact ⟨t, o :: os, by simp [run_cons_some h1, h2], ht⟩

/-- The machine with a record of its inputs, which no step reads. -/
def ghost {γ : Type*} (step : σ → ι → Option (σ × ο)) (record : σ → γ → ι → γ) (p : σ × γ) (i : ι) :
    Option ((σ × γ) × ο) :=
  (step p.1 i).map fun r => ((r.1, record p.1 p.2 i), r.2)

theorem ghost_eq_some {γ : Type*} {step : σ → ι → Option (σ × ο)} {s s' : σ} {i : ι} {o : ο}
    (h : step s i = some (s', o)) (record : σ → γ → ι → γ) (g : γ) :
    ghost step record (s, g) i = some ((s', record s g i), o) := by
  simp [ghost, h]

/-- An invariant of the inputs and outputs so far and the state, on every admitted run. -/
theorem run_history {step : σ → ι → Option (σ × ο)} {ok : σ → ι → Prop}
    {I : List ι → List ο → σ → Prop}
    (hstep : ∀ is os s i, I is os s → ok s i →
      ∃ s' o, step s i = some (s', o) ∧ I (is ++ [i]) (os ++ [o]) s')
    {is : List ι} {s : σ} (h : I [] [] s) (hok : Admits step ok s is) :
    ∃ t os, run step s is = some (t, os) ∧ I is os t := by
  suffices hgen : ∀ hs os s, I hs os s → Admits step ok s is →
      ∃ t os', run step s is = some (t, os') ∧ I (hs ++ is) (os ++ os') t from hgen [] [] s h hok
  clear h hok
  induction is with
  | nil => exact fun hs os s h _ => ⟨s, [], rfl, by simpa using h⟩
  | cons i is ih =>
    intro hs os s h hok
    obtain ⟨s', o, h1, h'⟩ := hstep hs os s i h hok.1
    obtain ⟨t, os', h2, ht⟩ := ih _ _ s' h' (hok.2 s' o h1)
    exact ⟨t, o :: os', by rw [run_cons_some h1, h2]; rfl, by simpa using ht⟩

/-- Two results agree when both machines stop, or both go on with one output to related states. -/
abbrev Agree (R : σ → σ' → Prop) : Option (σ × ο) → Option (σ' × ο) → Prop :=
  Option.Rel fun a b => R a.1 b.1 ∧ a.2 = b.2

theorem agree_map {ρ ρ' : Type*} {Q : ρ → ρ' → Prop} {R : σ → σ' → Prop} {a : Option ρ}
    {b : Option ρ'} {f : ρ → σ × ο} {g : ρ' → σ' × ο} (h : Option.Rel Q a b)
    (hf : ∀ x y, Q x y → R (f x).1 (g y).1 ∧ (f x).2 = (g y).2) :
    Agree R (a.map f) (b.map g) := by
  cases h with
  | none => exact .none
  | some h => exact .some (hf _ _ h)

/-- Machines that agree on every admitted step agree on every admitted run. -/
theorem run_simulation {step : σ → ι → Option (σ × ο)} {step' : σ' → ι → Option (σ' × ο)}
    {ok : σ' → ι → Prop} {R : σ → σ' → Prop}
    (hstep : ∀ s t i, R s t → ok t i → Agree R (step s i) (step' t i))
    {is : List ι} {s : σ} {t : σ'} (h : R s t) (hok : Admits step' ok t is) :
    Agree R (run step s is) (run step' t is) := by
  induction is generalizing s t with
  | nil => exact .some ⟨h, rfl⟩
  | cons i is ih =>
    have hi := hstep s t i h hok.1
    cases hs : step s i with
    | none =>
      cases ht : step' t i with
      | none => rw [run_cons_none hs, run_cons_none ht]; exact .none
      | some b => rw [hs, ht] at hi; cases hi
    | some a =>
      cases ht : step' t i with
      | none => rw [hs, ht] at hi; cases hi
      | some b =>
        rw [hs, ht] at hi
        obtain ⟨a₁, o⟩ := a
        obtain ⟨b₁, o'⟩ := b
        cases hi with
        | some hab =>
          obtain ⟨hR, rfl⟩ := hab
          rw [run_cons_some hs, run_cons_some ht]
          have hr := ih hR (hok.2 b₁ o ht)
          revert hr
          cases run step a₁ is <;> cases run step' b₁ is <;> intro hr
          · exact .none
          · cases hr
          · cases hr
          · cases hr with
            | some hq => exact .some ⟨hq.1, by simp [hq.2]⟩

/-- A machine that takes every admitted step of another takes every admitted run of it. -/
theorem run_refines {step : σ → ι → Option (σ × ο)} {step' : σ' → ι → Option (σ' × ο)}
    {ok : σ' → ι → Prop} {R : σ → σ' → Prop}
    (hstep : ∀ s t i s' o, R s t → ok t i → step s i = some (s', o) →
      ∃ t', step' t i = some (t', o) ∧ R s' t')
    {is : List ι} {s s' : σ} {t : σ'} {os : List ο} (h : R s t) (hok : Admits step' ok t is)
    (hrun : run step s is = some (s', os)) : ∃ t', run step' t is = some (t', os) ∧ R s' t' := by
  induction is generalizing s t os with
  | nil =>
    obtain ⟨rfl, rfl⟩ := Prod.mk.inj (Option.some.inj hrun)
    exact ⟨t, rfl, h⟩
  | cons i is ih =>
    obtain ⟨s₁, o, os', h1, h2, rfl⟩ := run_cons_eq_some hrun
    obtain ⟨t₁, h3, h4⟩ := hstep s t i s₁ o h hok.1 h1
    obtain ⟨t', h5, h6⟩ := ih h4 (hok.2 t₁ o h3) h2
    exact ⟨t', by rw [run_cons_some h3, h5]; rfl, h6⟩

theorem Agree.of_some {R : σ → σ' → Prop} {s : σ} {o : ο} {b : Option (σ' × ο)}
    (h : Agree R (some (s, o)) b) : ∃ t, b = some (t, o) ∧ R s t := by
  cases h with
  | @some _ b hab =>
    obtain ⟨t, o'⟩ := b
    obtain ⟨hR, rfl⟩ := hab
    exact ⟨t, rfl, hR⟩

theorem Agree.of_some_right {R : σ → σ' → Prop} {t : σ'} {o : ο} {a : Option (σ × ο)}
    (h : Agree R a (some (t, o))) : ∃ s, a = some (s, o) ∧ R s t := by
  cases h with
  | @some a _ hab =>
    obtain ⟨s, o'⟩ := a
    obtain ⟨hR, rfl⟩ := hab
    exact ⟨s, rfl, hR⟩

theorem Agree.outputs {R : σ → σ' → Prop} {a : Option (σ × ο)} {b : Option (σ' × ο)}
    (h : Agree R a b) : a.map Prod.snd = b.map Prod.snd := by
  cases h with
  | none => rfl
  | some h => simp [h.2]

end Machine
