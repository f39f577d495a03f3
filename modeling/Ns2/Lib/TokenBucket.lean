import Mathlib
import Ns2.Lib.Machine

/-! Arrivals that stay below a burst and a rate, and the token buckets that measure them. -/

namespace TokenBucket

variable {K : Type*}

/-- The time of the last arrival, or `t`. -/
def lastTime (t : K) : List (K × K) → K
  | [] => t
  | p :: l => lastTime p.1 l

@[simp] theorem lastTime_nil (t : K) : lastTime t [] = t := rfl

@[simp] theorem lastTime_cons (t : K) (p : K × K) (l : List (K × K)) :
    lastTime t (p :: l) = lastTime p.1 l := rfl

variable [Field K]

/-- The amount of a list of arrivals, each with its time and its amount. -/
def total (l : List (K × K)) : K := (l.map Prod.snd).sum

@[simp] theorem total_nil : total ([] : List (K × K)) = 0 := rfl

@[simp] theorem total_cons (p : K × K) (l : List (K × K)) : total (p :: l) = p.2 + total l :=
  List.sum_cons

variable [LinearOrder K]

/-- Every stretch of arrivals amounts to at most the burst and the rate times its length. -/
def Conforms (burst rate : K) (l : List (K × K)) : Prop :=
  ∀ p w, p :: w <:+: l → total (p :: w) ≤ burst + rate * (lastTime p.1 w - p.1)

/-- The same from the start of the list, with a level at a time instead of the burst. -/
def Within (level last rate : K) (l : List (K × K)) : Prop :=
  ∀ p w, p :: w <+: l → total (p :: w) ≤ level + rate * (lastTime p.1 w - last)

theorem conforms_nil (burst rate : K) : Conforms burst rate [] := fun p w h => by simp at h

theorem conforms_cons {burst rate : K} {p : K × K} {l : List (K × K)} :
    Conforms burst rate (p :: l) ↔ Within burst p.1 rate (p :: l) ∧ Conforms burst rate l := by
  constructor
  · intro h
    refine ⟨fun q w hw => ?_, fun q w hw => h q w (hw.trans (List.suffix_cons p l).isInfix)⟩
    obtain ⟨rfl, -⟩ := List.cons_prefix_cons.mp hw
    exact h q w hw.isInfix
  · rintro ⟨hw, hl⟩ q w hqw
    rcases List.infix_cons_iff.mp hqw with hpre | hin
    · obtain ⟨rfl, -⟩ := List.cons_prefix_cons.mp hpre
      exact hw q w hpre
    · exact hl q w hin

/-- What is in the bucket at a time, when it was filled up to a level at another. -/
def refill (burst rate level last now : K) : K := min (level + rate * (now - last)) burst

theorem refill_le (burst rate level last now : K) : refill burst rate level last now ≤ burst :=
  min_le_right _ _

/-- Every arrival finds its amount in the bucket, and takes it out. -/
def Fits (burst rate : K) : K → K → List (K × K) → Prop
  | _, _, [] => True
  | level, last, p :: l =>
    p.2 ≤ refill burst rate level last p.1 ∧
      Fits burst rate (refill burst rate level last p.1 - p.2) p.1 l

theorem within_shift {level last t rate : K} {l : List (K × K)} :
    Within (level + rate * (t - last)) t rate l ↔ Within level last rate l :=
  forall₃_congr fun p w _ => by
    rw [show level + rate * (t - last) + rate * (lastTime p.1 w - t) =
      level + rate * (lastTime p.1 w - last) by ring]

variable [IsStrictOrderedRing K]

theorem refill_nonneg {burst rate level last now : K} (hrate : 0 ≤ rate) (hlast : last ≤ now)
    (hlevel : 0 ≤ level) (hburst : level ≤ burst) : 0 ≤ refill burst rate level last now :=
  le_min (add_nonneg hlevel (mul_nonneg hrate (sub_nonneg.mpr hlast))) (hlevel.trans hburst)

theorem within_cons {level last rate : K} {p : K × K} {l : List (K × K)} :
    Within level last rate (p :: l) ↔ p.2 ≤ level + rate * (p.1 - last) ∧
      Within (level + rate * (p.1 - last) - p.2) p.1 rate l := by
  constructor
  · intro h
    refine ⟨?_, fun q w hw => ?_⟩
    · simpa using h p [] (by simp)
    · have hq := h p (q :: w) (List.cons_prefix_cons.mpr ⟨rfl, hw⟩)
      simp only [total_cons, lastTime_cons] at hq ⊢
      linarith
  · rintro ⟨hp, h⟩ q w hw
    obtain ⟨rfl, hw'⟩ := List.cons_prefix_cons.mp hw
    cases w with
    | nil => simpa using hp
    | cons r w =>
      have hr := h r w hw'
      simp only [total_cons, lastTime_cons] at hr ⊢
      linarith

theorem within_min {a b last rate : K} {l : List (K × K)} :
    Within (min a b) last rate l ↔ Within a last rate l ∧ Within b last rate l := by
  simp only [Within, ← forall_and, min_add, le_min_iff]

theorem Within.mono {a b last rate : K} {l : List (K × K)} (h : Within a last rate l)
    (hab : a ≤ b) : Within b last rate l := fun p w hw => by
  have := h p w hw
  linarith

theorem fits_iff {burst rate level last : K} {l : List (K × K)} :
    Fits burst rate level last l ↔ Within level last rate l ∧ Conforms burst rate l := by
  induction l generalizing level last with
  | nil => exact iff_of_true trivial ⟨fun p w h => by simp at h, conforms_nil burst rate⟩
  | cons p l ih =>
    have hmin : refill burst rate level last p.1 - p.2 =
        min (level + rate * (p.1 - last) - p.2) (burst - p.2) := (min_sub_sub_right _ _ _).symm
    rw [Fits, ih, hmin, within_min, conforms_cons, within_cons, within_cons, refill, le_min_iff]
    simp only [sub_self, mul_zero, add_zero]
    tauto

/-- From a full bucket exactly the conforming arrivals fit. -/
theorem fits_full_iff {burst rate last : K} {l : List (K × K)} (hrate : 0 ≤ rate)
    (hl : ∀ p ∈ l.head?, last ≤ p.1) :
    Fits burst rate burst last l ↔ Conforms burst rate l := by
  rw [fits_iff, and_iff_right_iff_imp]
  intro h p w hw
  have hp : l.head? = some p := by
    obtain ⟨l', rfl⟩ := hw
    rfl
  have hle := mul_le_mul_of_nonneg_left (hl p hp) hrate
  have := h p w hw.isInfix
  linarith

/-- A bucket that could have as much by then serves as well. -/
theorem Fits.earlier {burst rate level level' last last' : K} {l : List (K × K)}
    (h : Fits burst rate level' last' l) (hle : level' ≤ level + rate * (last' - last)) :
    Fits burst rate level last l := by
  obtain ⟨hwithin, hconforms⟩ := fits_iff.mp h
  exact fits_iff.mpr ⟨within_shift.mp (hwithin.mono hle), hconforms⟩

section Runs

variable {σ ι ο : Type*} {step : σ → ι → Option (σ × ο)} {ok : σ → ι → Prop} {I : σ → Prop}
  {burst rate : K} {s t : σ} {is : List ι} {os : List ο}

/-- What a run spends fits, when each step pays for it from a level that is never below zero. -/
theorem fits_of_pays (level last : σ → K) (sel : ι → ο → Option (K × K))
    (hpos : ∀ s, I s → 0 ≤ level s)
    (hstep : ∀ s i s' o, I s → ok s i → step s i = some (s', o) → I s' ∧
      (sel i o = none → level s' ≤ level s + rate * (last s' - last s)) ∧
      ∀ p, sel i o = some p → last s' = p.1 ∧
        p.2 + level s' ≤ refill burst rate (level s) (last s) p.1)
    (hs : I s) (hok : Machine.Admits step ok s is) (h : Machine.run step s is = some (t, os)) :
    Fits burst rate (level s) (last s) ((is.zip os).filterMap fun x => sel x.1 x.2) := by
  induction is generalizing s os with
  | nil => exact trivial
  | cons i is ih =>
    obtain ⟨s', o, os', h1, h2, rfl⟩ := Machine.run_cons_eq_some h
    obtain ⟨hs', hnone, hsome⟩ := hstep s i s' o hs hok.1 h1
    have hrest := ih hs' (hok.2 s' o h1) h2
    rw [List.zip_cons_cons, List.filterMap_cons]
    cases hsel : sel i o with
    | none => exact hrest.earlier (hnone hsel)
    | some p =>
      obtain ⟨hlast, hpays⟩ := hsome p hsel
      rw [hlast] at hrest
      have := hpos s' hs'
      refine ⟨by linarith, hrest.earlier ?_⟩
      rw [sub_self, mul_zero, add_zero]
      linarith

/-- All is well with a run if and only if what it asks for fits. -/
theorem all_good_iff_fits (burst rate : K) (level last : σ → K) (sel : ι → ο → Option (K × K))
    (good : ι → ο → Prop)
    (hstep : ∀ s i s' o, I s → ok s i → step s i = some (s', o) → I s' ∧
      (sel i o = none → level s' = level s ∧ last s' = last s) ∧
      ∀ p, sel i o = some p → last s' = p.1 ∧
        (good i o → p.2 + level s' = refill burst rate (level s) (last s) p.1 ∧ 0 ≤ level s') ∧
        (¬ good i o → refill burst rate (level s) (last s) p.1 < p.2))
    (hs : I s) (hok : Machine.Admits step ok s is) (h : Machine.run step s is = some (t, os)) :
    (∀ x ∈ is.zip os, sel x.1 x.2 ≠ none → good x.1 x.2) ↔
      Fits burst rate (level s) (last s) ((is.zip os).filterMap fun x => sel x.1 x.2) := by
  induction is generalizing s os with
  | nil => exact iff_of_true (fun x hx => absurd hx List.not_mem_nil) trivial
  | cons i is ih =>
    obtain ⟨s', o, os', h1, h2, rfl⟩ := Machine.run_cons_eq_some h
    obtain ⟨hs', hnone, hsome⟩ := hstep s i s' o hs hok.1 h1
    have hrest := ih hs' (hok.2 s' o h1) h2
    rw [List.zip_cons_cons, List.forall_mem_cons, List.filterMap_cons]
    cases hsel : sel i o with
    | none =>
      obtain ⟨hlevel, hlast⟩ := hnone hsel
      rw [hlevel, hlast] at hrest
      rw [← hrest]
      exact and_iff_right fun hne => absurd rfl hne
    | some p =>
      obtain ⟨hlast, hgood, hbad⟩ := hsome p hsel
      by_cases hg : good i o
      · obtain ⟨hlevel, hpos⟩ := hgood hg
        have hrefill : level s' = refill burst rate (level s) (last s) p.1 - p.2 := by linarith
        rw [hlast, hrefill] at hrest
        rw [Fits, ← hrest]
        exact and_congr_left fun _ => iff_of_true (fun _ => hg) (by linarith)
      · refine iff_of_false (fun hall => hg (hall.1 (Option.some_ne_none p))) ?_
        exact fun hf => absurd hf.1 (not_le.mpr (hbad hg))

end Runs

end TokenBucket
