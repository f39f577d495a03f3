import Ns2.Common.CalendarBuckets

/-! The search of `head`. The day of a time is its quotient by the bucket width; the search
looks at the buckets in the order of the days that begin with the day of the clock. -/

namespace Ns2.CalendarScheduler

open StableOrder

/-- The number of days from the day of the clock to the day of `t`. -/
def day (s : CalendarScheduler) (t : ℚ) : ℤ := ⌊t / s.width_⌋ - ⌊s.cal_clock_ / s.width_⌋

/-- The bucket at distance `j` behind the last bucket. -/
def bucketAt (s : CalendarScheduler) (j : ℕ) : ℕ := (s.lastbucket_ + j) % s.nbuckets_

theorem day_nonneg {s : CalendarScheduler} {t : ℚ} (h : s.cal_clock_ ≤ t) : 0 ≤ s.day t := by
  have := Int.floor_le_floor (div_le_div_of_nonneg_right h s.width_.2.le)
  unfold day
  omega

theorem lt_of_day_lt {s : CalendarScheduler} {t u : ℚ} (h : s.day t < s.day u) : t < u := by
  by_contra hle
  have := Int.floor_le_floor (div_le_div_of_nonneg_right (not_lt.mp hle) s.width_.2.le)
  unfold day at h
  omega

/-- A time is less than a day and its days after the clock. -/
theorem sub_lt_of_day (s : CalendarScheduler) (t : ℚ) :
    t - s.cal_clock_ < ((s.day t : ℚ) + 1) * s.width_ := by
  have h1 := Int.lt_floor_add_one (t / s.width_)
  have h2 := Int.floor_le (s.cal_clock_ / s.width_)
  have h3 : t / s.width_ - s.cal_clock_ / s.width_ < (s.day t + 1 : ℤ) := by
    unfold day
    push_cast
    linarith
  rw [← sub_div, div_lt_iff₀ s.width_.2] at h3
  exact_mod_cast h3

theorem day_lt_of_sub (s : CalendarScheduler) (t : ℚ) :
    ((s.day t : ℚ) - 1) * s.width_ < t - s.cal_clock_ := by
  have h1 := Int.floor_le (t / s.width_)
  have h2 := Int.lt_floor_add_one (s.cal_clock_ / s.width_)
  have h3 : (s.day t - 1 : ℤ) < t / s.width_ - s.cal_clock_ / s.width_ := by
    unfold day
    push_cast
    linarith
  rw [← sub_div, lt_div_iff₀ s.width_.2] at h3
  exact_mod_cast h3

theorem hash_eq_bucketAt {s : CalendarScheduler} (hg : Geometry s) {t : ℚ} {j : ℕ} :
    s.hash t = s.bucketAt j ↔ ∃ m : ℤ, s.day t = j + m * s.nbuckets_ := by
  have hn : (0 : ℤ) < s.nbuckets_ := by have := hg.four_le; omega
  have hlast := hg.last
  have hc := Int.emod_nonneg ⌊s.cal_clock_ / s.width_⌋ hn.ne'
  have ht := Int.emod_nonneg ⌊t / s.width_⌋ hn.ne'
  have hkey : s.hash t = s.bucketAt j ↔
      ⌊t / s.width_⌋ % (s.nbuckets_ : ℤ) = (⌊s.cal_clock_ / s.width_⌋ + j) % s.nbuckets_ := by
    rw [bucketAt, hlast, ← Int.emod_add_emod]
    unfold hash calendarHash
    rw [← Int.natCast_inj]
    push_cast [Int.toNat_of_nonneg hc, Int.toNat_of_nonneg ht]
    rfl
  rw [hkey, Int.emod_eq_emod_iff_emod_sub_eq_zero, ← Int.dvd_iff_emod_eq_zero]
  unfold day
  constructor
  · rintro ⟨m, hm⟩
    exact ⟨m, by linarith⟩
  · rintro ⟨m, hm⟩
    exact ⟨m, by linarith⟩

/-- Every time has its bucket at one distance. -/
theorem exists_bucketAt {s : CalendarScheduler} (hg : Geometry s) (t : ℚ) :
    ∃ j < s.nbuckets_, s.hash t = s.bucketAt j := by
  have hn : (0 : ℤ) < s.nbuckets_ := by have := hg.four_le; omega
  have h1 := Int.emod_nonneg (s.day t) hn.ne'
  have h2 := Int.emod_lt_of_pos (s.day t) hn
  refine ⟨(s.day t % s.nbuckets_).toNat, by omega, ?_⟩
  rw [hash_eq_bucketAt hg]
  refine ⟨s.day t / s.nbuckets_, ?_⟩
  rw [Int.toNat_of_nonneg h1]
  have := Int.emod_add_mul_ediv (s.day t) s.nbuckets_
  linarith

/-- The threshold that `head` uses at distance `j`. -/
def diffAt (s : CalendarScheduler) : ℕ → ℚ
  | 0 => s.diff0_
  | 1 => s.diff1_
  | _ + 2 => s.diff2_

/-- Within a year of the clock, the threshold at distance `j` admits the events of day `j`... -/
theorem le_diffAt {s : CalendarScheduler} (hg : Geometry s) {j : ℕ} (hj : j < s.nbuckets_) :
    ((j : ℚ) + 1) * s.width_ ≤ s.diffAt j := by
  have hw : (0 : ℚ) < s.width_ := s.width_.2
  have h4 : (4 : ℚ) ≤ s.nbuckets_ := by exact_mod_cast hg.four_le
  have hj' : (j : ℚ) + 1 ≤ s.nbuckets_ := by exact_mod_cast hj
  match j with
  | 0 => rw [diffAt, hg.diff0]; norm_num; nlinarith
  | 1 => rw [diffAt, hg.diff1]; norm_num; nlinarith
  | j + 2 => rw [diffAt, hg.diff2]; nlinarith

/-- ... and no event of a later year. -/
theorem diffAt_le {s : CalendarScheduler} (hg : Geometry s) (j : ℕ) :
    s.diffAt j ≤ ((j : ℚ) + s.nbuckets_ - 1) * s.width_ := by
  have hw : (0 : ℚ) < s.width_ := s.width_.2
  have h4 : (4 : ℚ) ≤ s.nbuckets_ := by exact_mod_cast hg.four_le
  match j with
  | 0 => rw [diffAt, hg.diff0]; norm_num; nlinarith
  | 1 => rw [diffAt, hg.diff1]; norm_num; nlinarith
  | j + 2 =>
    have hj : (0 : ℚ) ≤ j := Nat.cast_nonneg j
    rw [diffAt, hg.diff2]
    push_cast
    nlinarith

/-- An event at distance `j` that is within the threshold is of day `j`. -/
theorem day_eq_of_near {s : CalendarScheduler} (hg : Geometry s) {t : ℚ} {j : ℕ}
    (hj : j < s.nbuckets_) (hh : s.hash t = s.bucketAt j) (hc : s.cal_clock_ ≤ t)
    (hd : t - s.cal_clock_ < s.diffAt j) : s.day t = j := by
  obtain ⟨m, hm⟩ := (hash_eq_bucketAt hg).mp hh
  have h0 := day_nonneg hc
  have hn : (0 : ℤ) < s.nbuckets_ := by have := hg.four_le; omega
  have hlt : ((s.day t : ℚ) - 1) * s.width_ < ((j : ℚ) + s.nbuckets_ - 1) * s.width_ :=
    (s.day_lt_of_sub t).trans (hd.trans_le (diffAt_le hg j))
  have hlt' : s.day t < j + s.nbuckets_ := by
    have := lt_of_mul_lt_mul_right hlt s.width_.2.le
    have : (s.day t : ℚ) < j + s.nbuckets_ := by linarith
    exact_mod_cast this
  have hm1 : m < 1 := by
    by_contra hge
    nlinarith
  have hm0 : -1 < m := by
    by_contra hle
    nlinarith
  have : m = 0 := by omega
  simp [hm, this]

/-- An event at distance `j` that is not within the threshold is of a later year. -/
theorem day_ge_of_far {s : CalendarScheduler} (hg : Geometry s) {t : ℚ} {j : ℕ}
    (hj : j < s.nbuckets_) (hh : s.hash t = s.bucketAt j) (hc : s.cal_clock_ ≤ t)
    (hd : s.diffAt j ≤ t - s.cal_clock_) : s.nbuckets_ ≤ s.day t := by
  obtain ⟨m, hm⟩ := (hash_eq_bucketAt hg).mp hh
  have h0 := day_nonneg hc
  have hn : (0 : ℤ) < s.nbuckets_ := by have := hg.four_le; omega
  have hlt : ((j : ℚ) + 1) * s.width_ < ((s.day t : ℚ) + 1) * s.width_ :=
    (le_diffAt hg hj).trans_lt (hd.trans_lt (s.sub_lt_of_day t))
  have hlt' : (j : ℤ) < s.day t := by
    have := lt_of_mul_lt_mul_right hlt s.width_.2.le
    have : (j : ℚ) < s.day t := by linarith
    exact_mod_cast this
  have hm1 : 0 < m := by
    by_contra hle
    nlinarith
  nlinarith

theorem bucketAt_lt {s : CalendarScheduler} (hg : Geometry s) (j : ℕ) :
    s.bucketAt j < s.nbuckets_ := Nat.mod_lt _ (by have := hg.four_le; omega)

theorem bucketAt_succ {s : CalendarScheduler} (hg : Geometry s) (j : ℕ) :
    s.bucketAt (j + 1) = if s.bucketAt j + 1 = s.nbuckets_ then 0 else s.bucketAt j + 1 := by
  have hlt := bucketAt_lt hg j
  rw [bucketAt, ← Nat.add_assoc, ← Nat.mod_add_mod]
  change (s.bucketAt j + 1) % s.nbuckets_ = _
  split_ifs with h
  · rw [h, Nat.mod_self]
  · exact Nat.mod_eq_of_lt (by omega)

theorem bucketAt_zero {s : CalendarScheduler} (hg : Geometry s) : s.bucketAt 0 = s.lastbucket_ := by
  rw [bucketAt, Nat.add_zero, hg.last]
  exact Nat.mod_eq_of_lt (hash_lt (by have := hg.four_le; omega) _)

theorem bucketAt_inj {s : CalendarScheduler} {j k : ℕ} (hj : j < s.nbuckets_)
    (hk : k < s.nbuckets_) (h : s.bucketAt j = s.bucketAt k) : j = k := by
  have hh : j % s.nbuckets_ = k % s.nbuckets_ := Nat.ModEq.add_left_cancel' s.lastbucket_ h
  rwa [Nat.mod_eq_of_lt hj, Nat.mod_eq_of_lt hk] at hh

theorem bucketAt_last {s : CalendarScheduler} (hg : Geometry s) :
    s.bucketAt (s.nbuckets_ - 1) =
      if s.lastbucket_ ≠ 0 then s.lastbucket_ - 1 else s.nbuckets_ - 1 := by
  have h4 := hg.four_le
  have hlt : s.lastbucket_ < s.nbuckets_ := hg.last ▸ hash_lt (by omega) _
  rw [bucketAt]
  split_ifs with h
  · rw [show s.lastbucket_ + (s.nbuckets_ - 1) = s.lastbucket_ - 1 + s.nbuckets_ by omega,
      Nat.add_mod_right, Nat.mod_eq_of_lt (by omega)]
  · rw [Nat.mod_eq_of_lt (by omega)]
    omega

/-! ### The search finds the earliest event -/

/-- `e` is the head of bucket `l`. -/
def HeadOf (s : CalendarScheduler) (e : Event ℚ) (l : ℕ) : Prop :=
  l < s.nbuckets_ ∧ (s.buckets_ l).list_.head? = some e

structure Earliest (q : List (Event ℚ)) (s : CalendarScheduler) (f : Found) : Prop where
  head : HeadOf s f.e f.l
  le : ∀ x ∈ q, f.e.time_ ≤ x.time_

/-- What is known after the first `j` buckets: their events are of a later year, and `min_e` is
the earliest of them. -/
structure Visited (q : List (Event ℚ)) (s : CalendarScheduler) (j : ℕ) (st : Search) : Prop where
  i : st.i = s.bucketAt j
  far : ∀ x ∈ q, ∀ k < j, s.hash x.time_ = s.bucketAt k → s.nbuckets_ ≤ s.day x.time_
  empty : st.min_e = none → ∀ x ∈ q, ∀ k < j, s.hash x.time_ ≠ s.bucketAt k
  min : ∀ m l, st.min_e = some (m, l) → HeadOf s m l ∧
    ∀ x ∈ q, ∀ k < j, s.hash x.time_ = s.bucketAt k → m.time_ ≤ x.time_

section search

variable {q : List (Event ℚ)} {s : CalendarScheduler} (hf : Filed q s) (hg : Geometry s)
  (hq : Ordered Event.time_ q) (hc : ∀ x ∈ q, s.cal_clock_ ≤ x.time_)

include hf in
theorem bucket_nil {l : ℕ} (hl : l < s.nbuckets_) (h : (s.buckets_ l).list_ = []) :
    ∀ x ∈ q, s.hash x.time_ ≠ l := by
  rw [hf.list l hl] at h
  simpa using List.filter_eq_nil_iff.mp h

include hf hq in
theorem bucket_cons {l : ℕ} {e : Event ℚ} {rest : List (Event ℚ)} (hl : l < s.nbuckets_)
    (h : (s.buckets_ l).list_ = e :: rest) :
    e ∈ q ∧ s.hash e.time_ = l ∧ ∀ x ∈ q, s.hash x.time_ = l → e.time_ ≤ x.time_ := by
  rw [hf.list l hl] at h
  have hord := hq.filter _ fun x => decide (s.hash x.time_ = l)
  rw [h] at hord
  have he := List.mem_filter.mp (h ▸ List.mem_cons_self (a := e))
  refine ⟨he.1, of_decide_eq_true he.2, fun x hx hxl => ?_⟩
  have hm : x ∈ e :: rest := h ▸ List.mem_filter.mpr ⟨hx, decide_eq_true hxl⟩
  rcases List.mem_cons.mp hm with rfl | hm
  · exact le_rfl
  · exact (List.pairwise_cons.mp hord).1 x hm

include hf hg hq hc in
theorem Visited.calDequeue {j : ℕ} {st : Search} (h : Visited q s j st) (hj : j < s.nbuckets_) :
    match calDequeue s (s.diffAt j) st with
    | .inl f => Earliest q s f
    | .inr st' => Visited q s (j + 1) st' := by
  have hi : st.i < s.nbuckets_ := h.i ▸ bucketAt_lt hg j
  have hnext : (if st.i + 1 = s.nbuckets_ then 0 else st.i + 1) = s.bucketAt (j + 1) := by
    rw [bucketAt_succ hg, h.i]
  unfold CalendarScheduler.calDequeue
  cases hl : (s.buckets_ st.i).list_ with
  | nil =>
    have hno := bucket_nil hf hi hl
    refine ⟨hnext, fun x hx k hk hxk => ?_, fun hm x hx k hk hxk => ?_, fun m l hm => ?_⟩
    · rcases Nat.lt_succ_iff_lt_or_eq.mp hk with hk | rfl
      · exact h.far x hx k hk hxk
      · exact absurd (hxk.trans h.i.symm) (hno x hx)
    · rcases Nat.lt_succ_iff_lt_or_eq.mp hk with hk | rfl
      · exact h.empty hm x hx k hk hxk
      · exact hno x hx (hxk.trans h.i.symm)
    · refine ⟨(h.min m l hm).1, fun x hx k hk hxk => ?_⟩
      rcases Nat.lt_succ_iff_lt_or_eq.mp hk with hk | rfl
      · exact (h.min m l hm).2 x hx k hk hxk
      · exact absurd (hxk.trans h.i.symm) (hno x hx)
  | cons e rest =>
    obtain ⟨heq, heh, hele⟩ := bucket_cons hf hq hi hl
    have hhead : HeadOf s e st.i := ⟨hi, by rw [hl]; rfl⟩
    rw [h.i] at heh
    by_cases hd : e.time_ - s.cal_clock_ < s.diffAt j
    · -- found: every other event is of the same day and bucket, or of a later day
      simp only [hd, if_true]
      refine ⟨hhead, fun x hx => ?_⟩
      have hday := day_eq_of_near hg hj heh (hc e heq) hd
      obtain ⟨k, hk, hxk⟩ := exists_bucketAt hg x.time_
      obtain ⟨m, hm⟩ := (hash_eq_bucketAt hg).mp hxk
      have h0 := day_nonneg (hc x hx)
      by_cases hkj : k < j
      · have := h.far x hx k hkj hxk
        exact (lt_of_day_lt (s := s) (t := e.time_) (by omega)).le
      · have hm0 : 0 ≤ m := by
          by_contra hneg
          have : m * (s.nbuckets_ : ℤ) ≤ -1 * s.nbuckets_ := by
            apply mul_le_mul_of_nonneg_right <;> omega
          omega
        have hmn : 0 ≤ m * (s.nbuckets_ : ℤ) := by positivity
        by_cases hje : k = j
        · exact hele x hx (by rw [hxk, hje, h.i])
        · exact (lt_of_day_lt (s := s) (t := e.time_) (by omega)).le
    · simp only [hd, if_false]
      have hfar : ∀ x ∈ q, ∀ k < j + 1, s.hash x.time_ = s.bucketAt k →
          s.nbuckets_ ≤ s.day x.time_ := fun x hx k hk hxk => by
        rcases Nat.lt_succ_iff_lt_or_eq.mp hk with hk | rfl
        · exact h.far x hx k hk hxk
        · have hex := hele x hx (by rw [hxk, h.i])
          exact day_ge_of_far hg hj hxk (hc x hx) (by linarith)
      have hlast : ∀ x ∈ q, s.hash x.time_ = s.bucketAt j → e.time_ ≤ x.time_ :=
        fun x hx hxj => hele x hx (by rw [hxj, h.i])
      cases hm : st.min_e with
      | none =>
        refine ⟨hnext, hfar, by simp, fun m l hml => ?_⟩
        obtain ⟨rfl, rfl⟩ := Prod.mk.inj (Option.some.inj hml)
        refine ⟨hhead, fun x hx k hk hxk => ?_⟩
        rcases Nat.lt_succ_iff_lt_or_eq.mp hk with hk | rfl
        · exact absurd hxk (h.empty hm x hx k hk)
        · exact hlast x hx hxk
      | some p =>
        obtain ⟨m, l⟩ := p
        obtain ⟨hmh, hmle⟩ := h.min m l hm
        by_cases hgt : m.time_ > e.time_
        · simp only [hgt, if_true]
          refine ⟨hnext, hfar, by simp, fun m' l' hml => ?_⟩
          obtain ⟨rfl, rfl⟩ := Prod.mk.inj (Option.some.inj hml)
          refine ⟨hhead, fun x hx k hk hxk => ?_⟩
          rcases Nat.lt_succ_iff_lt_or_eq.mp hk with hk | rfl
          · exact hgt.le.trans (hmle x hx k hk hxk)
          · exact hlast x hx hxk
        · simp only [hgt, if_false]
          refine ⟨hnext, hfar, by simp, fun m' l' hml => ?_⟩
          obtain ⟨rfl, rfl⟩ := Prod.mk.inj (Option.some.inj hml)
          refine ⟨hmh, fun x hx k hk hxk => ?_⟩
          rcases Nat.lt_succ_iff_lt_or_eq.mp hk with hk | rfl
          · exact hmle x hx k hk hxk
          · exact (not_lt.mp hgt).trans (hlast x hx hxk)

include hf hg hq hc in
theorem Visited.scanYear {j fuel : ℕ} {st : Search} (h : Visited q s j st) (hj2 : 2 ≤ j)
    (hj : j < s.nbuckets_) (hfuel : s.nbuckets_ ≤ fuel + j) :
    ∃ r, scanYear s (s.bucketAt (s.nbuckets_ - 1)) fuel st = some r ∧
      match r with
      | .inl f => Earliest q s f
      | .inr st' => Visited q s (s.nbuckets_ - 1) st' := by
  induction fuel generalizing j st with
  | zero => omega
  | succ fuel ih =>
    by_cases hlast : j = s.nbuckets_ - 1
    · have hi : st.i = s.bucketAt (s.nbuckets_ - 1) := by rw [h.i, hlast]
      exact ⟨.inr st, by simp [CalendarScheduler.scanYear, hi], hlast ▸ h⟩
    · have hi : st.i ≠ s.bucketAt (s.nbuckets_ - 1) := fun hh =>
        hlast (bucketAt_inj hj (by omega) (h.i.symm.trans hh))
      obtain ⟨k, rfl⟩ : ∃ k, j = k + 2 := ⟨j - 2, by omega⟩
      have hstep := h.calDequeue hf hg hq hc hj
      simp only [CalendarScheduler.scanYear, hi, if_false]
      rw [diffAt] at hstep
      cases hd : CalendarScheduler.calDequeue s s.diff2_ st with
      | inl f =>
        rw [hd] at hstep
        exact ⟨.inl f, rfl, hstep⟩
      | inr st' =>
        rw [hd] at hstep
        exact ih hstep (by omega) (by omega) (by omega)

include hf hg hq in
theorem Visited.lastBucket {st : Search} (h : Visited q s (s.nbuckets_ - 1) st) (hne : q ≠ []) :
    ∃ f, lastBucket s st = some f ∧ Earliest q s f := by
  have h4 := hg.four_le
  have hi : st.i < s.nbuckets_ := h.i ▸ bucketAt_lt hg _
  have hwhere : ∀ x ∈ q, s.hash x.time_ = st.i ∨
      ∃ k < s.nbuckets_ - 1, s.hash x.time_ = s.bucketAt k := fun x _ => by
    obtain ⟨k, hk, hxk⟩ := exists_bucketAt hg x.time_
    by_cases hkl : k = s.nbuckets_ - 1
    · exact .inl (by rw [hxk, hkl, h.i])
    · exact .inr ⟨k, by omega, hxk⟩
  unfold CalendarScheduler.lastBucket
  cases hl : (s.buckets_ st.i).list_ with
  | nil =>
    have hno := bucket_nil hf hi hl
    cases hm : st.min_e with
    | none =>
      obtain ⟨x, hx⟩ := List.exists_mem_of_ne_nil q hne
      rcases hwhere x hx with hh | ⟨k, hk, hxk⟩
      · exact absurd hh (hno x hx)
      · exact absurd hxk (h.empty hm x hx k hk)
    | some p =>
      obtain ⟨m, l⟩ := p
      obtain ⟨hmh, hmle⟩ := h.min m l hm
      refine ⟨_, rfl, hmh, fun x hx => ?_⟩
      rcases hwhere x hx with hh | ⟨k, hk, hxk⟩
      · exact absurd hh (hno x hx)
      · exact hmle x hx k hk hxk
  | cons e rest =>
    obtain ⟨-, -, hele⟩ := bucket_cons hf hq hi hl
    have hhead : HeadOf s e st.i := ⟨hi, by rw [hl]; rfl⟩
    cases hm : st.min_e with
    | none =>
      refine ⟨_, rfl, hhead, fun x hx => ?_⟩
      rcases hwhere x hx with hh | ⟨k, hk, hxk⟩
      · exact hele x hx hh
      · exact absurd hxk (h.empty hm x hx k hk)
    | some p =>
      obtain ⟨m, l⟩ := p
      obtain ⟨hmh, hmle⟩ := h.min m l hm
      by_cases hlt : m.time_ < e.time_
      · simp only [hlt, if_true]
        refine ⟨_, rfl, hmh, fun x hx => ?_⟩
        rcases hwhere x hx with hh | ⟨k, hk, hxk⟩
        · exact hlt.le.trans (hele x hx hh)
        · exact hmle x hx k hk hxk
      · simp only [hlt, if_false]
        refine ⟨_, rfl, hhead, fun x hx => ?_⟩
        rcases hwhere x hx with hh | ⟨k, hk, hxk⟩
        · exact hele x hx hh
        · exact (not_lt.mp hlt).trans (hmle x hx k hk hxk)

include hf hg hq hc in
/-- The search of a queue that is not empty ends, at the earliest event. -/
theorem search_earliest (hne : q ≠ []) : ∃ f, search s = some f ∧ Earliest q s f := by
  have h4 := hg.four_le
  have h0 : Visited q s 0 ⟨s.lastbucket_, none, s.head_search_⟩ :=
    ⟨(bucketAt_zero hg).symm, by simp, by simp, by simp⟩
  have hs0 := h0.calDequeue hf hg hq hc (by omega)
  rw [diffAt] at hs0
  unfold search
  rw [← bucketAt_last hg]
  cases hd0 : CalendarScheduler.calDequeue s s.diff0_ ⟨s.lastbucket_, none, s.head_search_⟩ with
  | inl f =>
    rw [hd0] at hs0
    exact ⟨f, rfl, hs0⟩
  | inr st1 =>
    rw [hd0] at hs0
    have hs1 := Visited.calDequeue hf hg hq hc hs0 (by omega)
    rw [diffAt] at hs1
    cases hd1 : CalendarScheduler.calDequeue s s.diff1_ st1 with
    | inl f =>
      rw [hd1] at hs1
      exact ⟨f, by simp [hd1], hs1⟩
    | inr st2 =>
      rw [hd1] at hs1
      obtain ⟨r, hr, hres⟩ := Visited.scanYear hf hg hq hc hs1 le_rfl (by omega)
        (show s.nbuckets_ ≤ s.nbuckets_ + 2 by omega)
      simp only [hd1, hr]
      cases r with
      | inl f => exact ⟨f, rfl, hres⟩
      | inr st3 => exact Visited.lastBucket hf hg hq hres hne

end search

end Ns2.CalendarScheduler
