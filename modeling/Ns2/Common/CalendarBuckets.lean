import Ns2.Common.CalendarScheduler

/-! The lists and counts of the buckets: what the two insertions and an unlinking do to
them, and that a rebuild files the same queue under the new width. -/

namespace Ns2.CalendarScheduler

open StableOrder

/-- The distinct times of a list of events. -/
def times (l : List (Event ℚ)) : Finset ℚ := (l.map Event.time_).toFinset

theorem mem_times {t : ℚ} {l : List (Event ℚ)} : t ∈ times l ↔ ∃ x ∈ l, x.time_ = t := by
  simp [times]

/-- `count_` grows by one exactly when the time is new. -/
theorem card_times_of_perm {e : Event ℚ} {l l' : List (Event ℚ)} (h : l'.Perm (e :: l)) :
    ((times l').card : ℤ) = (times l).card + if ∀ x ∈ l, x.time_ ≠ e.time_ then 1 else 0 := by
  have hl : times l' = Insert.insert e.time_ (times l) := by
    ext t
    simp only [mem_times, h.mem_iff, List.mem_cons, Finset.mem_insert, exists_eq_or_imp]
    exact or_congr_left eq_comm
  by_cases hn : ∀ x ∈ l, x.time_ ≠ e.time_
  · have hm : e.time_ ∉ times l := fun hm => by
      obtain ⟨x, hx, ht⟩ := mem_times.mp hm
      exact hn x hx ht
    rw [hl, Finset.card_insert_of_notMem hm, if_pos hn]
    simp
  · have hm : e.time_ ∈ times l := mem_times.mpr (by simpa using hn)
    rw [hl, Finset.insert_eq_of_mem hm, if_neg hn]
    simp

/-! ### The two insertions -/

theorem exists_suffix (p : Event ℚ → Bool) (l : List (Event ℚ)) :
    ∃ u v, l = u ++ v ∧ v.length = (l.reverse.takeWhile p).length ∧ (∀ x ∈ v, p x) ∧
      ∀ x ∈ u.getLast?, ¬ p x := by
  refine ⟨(l.reverse.dropWhile p).reverse, (l.reverse.takeWhile p).reverse, ?_, by simp, ?_, ?_⟩
  · rw [← List.reverse_append, List.takeWhile_append_dropWhile, List.reverse_reverse]
  · intro x hx
    exact List.mem_takeWhile_imp (List.mem_reverse.mp hx)
  · intro x hx
    rw [List.getLast?_reverse] at hx
    have hh := List.head?_dropWhile_not p l.reverse
    rw [Option.mem_def.mp hx] at hh
    simpa using hh

theorem ordered_le_last {u : List (Event ℚ)} {t : ℚ} (h : Ordered Event.time_ u)
    (hl : ∀ x ∈ u.getLast?, x.time_ ≤ t) : ∀ x ∈ u, x.time_ ≤ t := by
  induction u using List.reverseRecOn with
  | nil => simp
  | append_singleton u z _ =>
    have hz : z.time_ ≤ t := hl z (by simp)
    intro x hx
    rcases List.mem_append.mp hx with hx | hx
    · exact ((List.pairwise_append.mp h).2.2 x hx z (by simp)).trans hz
    · rwa [List.mem_singleton.mp hx]

theorem place_eq {e : Event ℚ} {l : List (Event ℚ)} (h : Ordered Event.time_ l) :
    (place e l).1 = insertLast Event.time_ e l ∧
      ((place e l).2.1 = true ↔ ∀ x ∈ l, x.time_ ≠ e.time_) := by
  cases l with
  | nil => simp [place, insertLast]
  | cons head rest =>
    by_cases hlt : e.time_ < head.time_
    · have hall : ∀ x ∈ head :: rest, e.time_ < x.time_ := fun x hx => by
        rcases List.mem_cons.mp hx with rfl | hx
        · exact hlt
        · exact hlt.trans_le ((List.pairwise_cons.mp h).1 x hx)
      simp only [place, hlt, if_true, insertLast, true_and, true_iff]
      exact fun x hx => (hall x hx).ne'
    · obtain ⟨u, v, he, hv, hp, hu⟩ :=
        exists_suffix (fun after => e.time_ < after.time_) (head :: rest)
      simp only [decide_eq_true_eq, not_lt] at hp hu
      have hsplit := h
      rw [he] at hsplit
      have hule := ordered_le_last (List.pairwise_append.mp hsplit).1 hu
      cases u using List.reverseRecOn with
      | nil =>
        rw [List.nil_append] at he
        exact absurd (hp head (by simp [← he])) hlt
      | append_singleton u z =>
        have htake : (head :: rest).take ((head :: rest).length - v.length) = u ++ [z] := by
          rw [he, List.take_left' (by simp; omega)]
        have hdrop : (head :: rest).drop ((head :: rest).length - v.length) = v := by
          rw [he, List.drop_left' (by simp; omega)]
        simp only [place, hlt, if_false, ← hv, htake, hdrop]
        refine ⟨by rw [he, insertLast_append _ hule hp], ?_⟩
        simp only [List.getLast?_append, List.getLast?_singleton, Option.some_or, Option.getD_some,
          decide_eq_true_eq]
        constructor
        · intro hz x hx
          rw [he] at hx
          rcases List.mem_append.mp hx with hx | hx
          · have := ordered_le_last (t := z.time_) (List.pairwise_append.mp hsplit).1 (by simp) x hx
            exact (this.trans_lt hz).ne
          · exact (hp x hx).ne'
        · intro hn
          exact lt_of_le_of_ne (hule z (by simp)) (hn z (by rw [he]; simp))

theorem place2_eq {e : Event ℚ} {l : List (Event ℚ)} (h : Ordered Event.time_ l) :
    (place2 e l).1 = insertFirst Event.time_ e l ∧
      ((place2 e l).2 = true ↔ ∀ x ∈ l, x.time_ ≠ e.time_) := by
  cases l with
  | nil => simp [place2, insertFirst]
  | cons head rest =>
    let p : Event ℚ → Bool := fun before => before.time_ < e.time_
    have hearlier : (if e.time_ > ((head :: rest).getLast?.getD head).time_ then head :: rest
        else (head :: rest).takeWhile fun before => e.time_ > before.time_) =
          (head :: rest).takeWhile p := by
      split_ifs with hgt
      · have hall := ordered_le_last (t := ((head :: rest).getLast?.getD head).time_) h (by
          intro x hx
          rw [Option.mem_def.mp hx]
          rfl)
        refine (List.takeWhile_eq_self_iff.mpr fun x hx => ?_).symm
        exact decide_eq_true ((hall x hx).trans_lt hgt)
      · rfl
    have hdrop : (head :: rest).drop ((head :: rest).takeWhile p).length =
        (head :: rest).dropWhile p := by
      conv_lhs => rw [← List.takeWhile_append_dropWhile (p := p) (l := head :: rest)]
      rw [List.drop_left' (by rw [List.takeWhile_append_dropWhile])]
    simp only [place2, hearlier, hdrop]
    refine ⟨(insertFirst_eq_takeWhile _ e (head :: rest)).symm, ?_⟩
    simp only [decide_eq_true_eq]
    have hsplit := List.takeWhile_append_dropWhile (p := p) (l := head :: rest)
    have htake : ∀ x ∈ (head :: rest).takeWhile p, x.time_ < e.time_ := fun x hx => by
      simpa [p] using List.mem_takeWhile_imp hx
    cases hd : (head :: rest).dropWhile p with
    | nil =>
      rw [hd, List.append_nil] at hsplit
      rw [hsplit] at htake
      simp only [List.head?_nil, Option.getD_none]
      exact ⟨fun _ x hx => (htake x hx).ne, fun hn => hn head (by simp)⟩
    | cons y ys =>
      have hy : e.time_ ≤ y.time_ := by
        have hh := List.head?_dropWhile_not p (head :: rest)
        rw [hd] at hh
        simpa [p] using hh
      have hord : Ordered Event.time_ (y :: ys) := by
        rw [← hd]
        exact List.Pairwise.sublist (List.dropWhile_sublist p) h
      rw [hd] at hsplit
      simp only [List.head?_cons, Option.getD_some]
      constructor
      · intro hne x hx
        rw [← hsplit] at hx
        rcases List.mem_append.mp hx with hx | hx
        · exact (htake x hx).ne
        · have hlt : e.time_ < y.time_ := lt_of_le_of_ne hy (Ne.symm hne)
          rcases List.mem_cons.mp hx with rfl | hx
          · exact hlt.ne'
          · exact (hlt.trans_le ((List.pairwise_cons.mp hord).1 x hx)).ne'
      · exact fun hn => hn y (by rw [← hsplit]; simp)

/-! ### Unlinking -/

theorem ring_head (e : Event ℚ) (rest : List (Event ℚ)) : ring e (e :: rest) = rest := by
  simp [ring]

theorem ring_of_append {e : Event ℚ} {u v : List (Event ℚ)} (h : e ∉ u) :
    ring e (u ++ e :: v) = v ++ u := by
  have hu : ∀ x ∈ u, decide (x ≠ e) = true := fun x hx =>
    decide_eq_true (fun he => h (he ▸ hx))
  rw [ring, List.dropWhile_append_of_pos hu, List.takeWhile_append_of_pos hu]
  simp

/-- The test of `deque`, where the event is the head of its bucket. -/
theorem dequeGone_head {e : Event ℚ} {rest : List (Event ℚ)}
    (h : Ordered Event.time_ (e :: rest)) (hnd : (e :: rest).Nodup) :
    dequeGone e (e :: rest) = if ∀ x ∈ rest, x.time_ ≠ e.time_ then 1 else 0 := by
  rw [dequeGone, next, ring_head]
  refine if_congr ?_ rfl rfl
  cases rest with
  | nil => simp
  | cons y ys =>
    have hye : y ≠ e := fun hh => (List.nodup_cons.mp hnd).1 (by simp [hh])
    have hord := List.pairwise_cons.mp h
    simp only [List.head?_cons, Option.getD_some, hye, false_or]
    constructor
    · intro hne x hx
      have hlt : e.time_ < y.time_ := lt_of_le_of_ne (hord.1 y (by simp)) (Ne.symm hne)
      rcases List.mem_cons.mp hx with rfl | hx
      · exact hne
      · exact (hlt.trans_le ((List.pairwise_cons.mp hord.2).1 x hx)).ne'
    · exact fun hn => hn y (by simp)

/-- The test of `cancel`, for any event of the bucket. -/
theorem cancelGone_append {e : Event ℚ} {u v : List (Event ℚ)}
    (h : Ordered Event.time_ (u ++ e :: v)) (hnd : (u ++ e :: v).Nodup) :
    cancelGone e (u ++ e :: v) = if ∀ x ∈ u ++ v, x.time_ ≠ e.time_ then 1 else 0 := by
  obtain ⟨hou, hov, huv⟩ := List.pairwise_append.mp h
  obtain ⟨hev, hov⟩ := List.pairwise_cons.mp hov
  have heu : e ∉ u := fun hm => (List.nodup_append.mp hnd).2.2 e hm e (by simp) rfl
  have hev' : e ∉ v := (List.nodup_cons.mp (List.nodup_append.mp hnd).2.1).1
  have hnot : e ∉ v ++ u := by simp [heu, hev']
  have hue : ∀ x ∈ u, x.time_ ≤ e.time_ := fun x hx => huv x hx e (by simp)
  rw [cancelGone, next, prev, ring_of_append heu]
  refine if_congr ?_ rfl rfl
  have hcomm : ∀ x, x ∈ u ++ v ↔ x ∈ v ++ u := fun x => List.perm_append_comm.mem_iff
  simp only [hcomm]
  constructor
  · rintro (hn | ⟨hn, hp⟩)
    · cases hr : v ++ u with
      | nil => simp
      | cons y ys =>
        rw [hr] at hn hnot
        exact absurd (by simpa using hn.symm) (fun hh : e = y => hnot (by simp [hh]))
    · have hv : ∀ x ∈ v, e.time_ < x.time_ := fun x hx => by
        cases v with
        | nil => simp at hx
        | cons y ys =>
          have hy : e.time_ < y.time_ := lt_of_le_of_ne (hev y (by simp)) (Ne.symm (by simpa using hn))
          rcases List.mem_cons.mp hx with rfl | hx
          · exact hy
          · exact hy.trans_le ((List.pairwise_cons.mp hov).1 x hx)
      have hu : ∀ x ∈ u, x.time_ < e.time_ := fun x hx => by
        cases u using List.reverseRecOn with
        | nil => simp at hx
        | append_singleton u z =>
          have hz : z.time_ < e.time_ := lt_of_le_of_ne (hue z (by simp)) (by
            rw [← List.append_assoc, List.getLast?_append, List.getLast?_singleton] at hp
            exact hp)
          exact (ordered_le_last (t := z.time_) hou (by simp) x hx).trans_lt hz
      intro x hx
      exact (List.mem_append.mp hx).elim (fun hx => (hv x hx).ne') (fun hx => (hu x hx).ne)
  · intro hn
    cases hr : v ++ u with
    | nil => exact .inl rfl
    | cons y ys =>
      rw [hr] at hn
      refine .inr ⟨hn y (by simp), ?_⟩
      cases hl : (y :: ys).getLast? with
      | none => simp at hl
      | some z => exact hn z (List.mem_of_mem_getLast? hl)

/-! ### Filed queues -/

/-- The buckets hold the queue `q`, each the events of its hash, and count its times. -/
structure Filed (q : List (Event ℚ)) (s : CalendarScheduler) : Prop where
  list : ∀ i < s.nbuckets_, (s.buckets_ i).list_ = q.filter fun x => s.hash x.time_ = i
  count : ∀ i < s.nbuckets_, (s.buckets_ i).count_ = (times (s.buckets_ i).list_).card
  stat : s.stat_qsize_ = ∑ i ∈ Finset.range s.nbuckets_, (s.buckets_ i).count_
  size : s.qsize_ = q.length

theorem hash_lt {s : CalendarScheduler} (h : 0 < s.nbuckets_) (t : ℚ) : s.hash t < s.nbuckets_ := by
  have h1 := Int.emod_lt_of_pos ⌊t / s.width_⌋ (Int.natCast_pos.mpr h)
  have h2 := Int.emod_nonneg ⌊t / s.width_⌋ (Int.natCast_pos.mpr h).ne'
  unfold hash calendarHash
  omega

/-- One bucket is replaced, and the rest of the queue is filed as before. -/
theorem Filed.replace {q q' : List (Event ℚ)} {s s' : CalendarScheduler} (h : Filed q s) {i : ℕ}
    {list' : List (Event ℚ)} {δ : ℤ} (hi : i < s.nbuckets_) (hw : s'.width_ = s.width_)
    (hn : s'.nbuckets_ = s.nbuckets_)
    (hb : s'.buckets_ = Function.update s.buckets_ i ⟨list', (s.buckets_ i).count_ + δ⟩)
    (hstat : s'.stat_qsize_ = s.stat_qsize_ + δ) (hsize : s'.qsize_ = q'.length)
    (hlist : list' = q'.filter fun x => s.hash x.time_ = i)
    (hother : ∀ j, j ≠ i → (q'.filter fun x => s.hash x.time_ = j) =
      q.filter fun x => s.hash x.time_ = j)
    (hcard : ((times list').card : ℤ) = (times (s.buckets_ i).list_).card + δ) : Filed q' s' where
  list j hj := by
    rw [hn] at hj
    simp only [hash, hw, hn, hb]
    by_cases hji : j = i
    · subst hji
      simpa using hlist
    · rw [Function.update_of_ne hji, h.list j hj]
      exact (hother j hji).symm
  count j hj := by
    rw [hn] at hj
    rw [hb]
    by_cases hji : j = i
    · subst hji
      simp [hcard, h.count j hj]
    · rw [Function.update_of_ne hji, h.count j hj]
  stat := by
    have hsum : ∑ j ∈ Finset.range s.nbuckets_,
        (Function.update s.buckets_ i ⟨list', (s.buckets_ i).count_ + δ⟩ j).count_ =
          ∑ j ∈ Finset.range s.nbuckets_, ((s.buckets_ j).count_ + if j = i then δ else 0) := by
      refine Finset.sum_congr rfl fun j _ => ?_
      by_cases hji : j = i
      · subst hji
        simp
      · simp [hji]
    rw [hstat, h.stat, hn, hb, hsum, Finset.sum_add_distrib, Finset.sum_ite_eq' _ i]
    simp [hi]
  size := hsize

theorem Filed.setBucket {q q' : List (Event ℚ)} {s : CalendarScheduler} {e : Event ℚ} {isNew : Bool}
    {list' : List (Event ℚ)} (h : Filed q s) (hn : 0 < s.nbuckets_) (hp : q'.Perm (e :: q))
    (hlist : list' = q'.filter fun x => s.hash x.time_ = s.hash e.time_)
    (hother : ∀ j, j ≠ s.hash e.time_ → (q'.filter fun x => s.hash x.time_ = j) =
      q.filter fun x => s.hash x.time_ = j)
    (hnew : isNew = true ↔ ∀ x ∈ (s.buckets_ (s.hash e.time_)).list_, x.time_ ≠ e.time_) :
    Filed q' (s.setBucket (s.hash e.time_) list' isNew) := by
  refine h.replace (hash_lt hn _) rfl rfl rfl rfl ?_ hlist hother ?_
  · simp [CalendarScheduler.setBucket, h.size, hp.length_eq]
  · have hperm : list'.Perm (e :: (s.buckets_ (s.hash e.time_)).list_) := by
      rw [hlist, h.list _ (hash_lt hn _)]
      simpa using hp.filter fun x => decide (s.hash x.time_ = s.hash e.time_)
    rw [card_times_of_perm hperm]
    simp only [← hnew]

theorem Filed.insertLast {q : List (Event ℚ)} {s : CalendarScheduler} (h : Filed q s)
    (hq : Ordered Event.time_ q) (hn : 0 < s.nbuckets_) (e : Event ℚ) :
    let p := place e (s.buckets_ (s.hash e.time_)).list_
    Filed (insertLast Event.time_ e q) (s.setBucket (s.hash e.time_) p.1 p.2.1) := by
  have hl := h.list _ (hash_lt hn e.time_)
  obtain ⟨h1, h2⟩ := place_eq (e := e) (hl ▸ hq.filter _ _ : Ordered _ (s.buckets_ _).list_)
  refine h.setBucket hn (insertLast_perm _ e q) ?_ (fun j hj => ?_) h2
  · rw [h1, hl, filter_insertLast _ hq fun t => decide (s.hash t = s.hash e.time_)]
    simp
  · rw [filter_insertLast _ hq fun t => decide (s.hash t = j)]
    simp [Ne.symm hj]

theorem Filed.insert2 {q : List (Event ℚ)} {s : CalendarScheduler} (h : Filed q s)
    (hq : Ordered Event.time_ q) (hn : 0 < s.nbuckets_) (e : Event ℚ) :
    Filed (insertFirst Event.time_ e q) (s.insert2 e) := by
  have hl := h.list _ (hash_lt hn e.time_)
  obtain ⟨h1, h2⟩ := place2_eq (e := e) (hl ▸ hq.filter _ _ : Ordered _ (s.buckets_ _).list_)
  refine h.setBucket hn (insertFirst_perm _ e q) ?_ (fun j hj => ?_) h2
  · rw [h1, hl, filter_insertFirst _ hq fun t => decide (s.hash t = s.hash e.time_)]
    simp
  · rw [filter_insertFirst _ hq fun t => decide (s.hash t = j)]
    simp [Ne.symm hj]

theorem Filed.foldl_insert2 {q l : List (Event ℚ)} {s : CalendarScheduler} (h : Filed q s)
    (hq : Ordered Event.time_ q) (hn : 0 < s.nbuckets_) :
    Filed (sortFirst Event.time_ l q) (l.foldl CalendarScheduler.insert2 s) := by
  induction l generalizing q s with
  | nil => exact h
  | cons e l ih => exact ih (h.insert2 hq hn e) (hq.insertFirst _) hn

/-! ### Rebuilding -/

/-- The thresholds of `head` belong to the width, and the last bucket to the clock. -/
structure Geometry (s : CalendarScheduler) : Prop where
  four_le : 4 ≤ s.nbuckets_
  diff0 : s.diff0_ = s.width_ * s.nbuckets_ / 2
  diff1 : s.diff1_ = s.width_ * s.nbuckets_ / 2 + s.width_
  diff2 : s.diff2_ = s.width_ * s.nbuckets_
  last : s.lastbucket_ = s.hash s.cal_clock_

theorem Geometry.foldl_insert2 {s : CalendarScheduler} (h : Geometry s) (l : List (Event ℚ)) :
    Geometry (l.foldl CalendarScheduler.insert2 s) ∧
      (l.foldl CalendarScheduler.insert2 s).cal_clock_ = s.cal_clock_ := by
  induction l generalizing s with
  | nil => exact ⟨h, rfl⟩
  | cons e l ih => exact ih (s := s.insert2 e) ⟨h.four_le, h.diff0, h.diff1, h.diff2, h.last⟩

theorem flatMap_range_ite {n k : ℕ} (hk : k < n) (l : List (Event ℚ)) :
    ((List.range n).flatMap fun i => if i = k then l else []) = l := by
  induction n with
  | zero => omega
  | succ n ih =>
    rw [List.range_succ, List.flatMap_append]
    by_cases hkn : k = n
    · subst hkn
      have hnil : ((List.range k).flatMap fun i => if i = k then l else []) = [] :=
        List.flatMap_eq_nil_iff.mpr fun i hi => by simp [(List.mem_range.mp hi).ne]
      simp [hnil]
    · simp [ih (by omega), Ne.symm hkn]

/-- The order in which `resize` empties the buckets turns each class of equal times around, and
`insert2` turns it back. -/
theorem sortFirst_emptied {q : List (Event ℚ)} {s : CalendarScheduler} (h : Filed q s)
    (hq : Ordered Event.time_ q) (hn : 0 < s.nbuckets_) :
    sortFirst Event.time_
      ((List.range s.nbuckets_).flatMap fun i => (s.buckets_ i).list_.reverse) [] = q := by
  have hnil : Ordered Event.time_ ([] : List (Event ℚ)) := List.Pairwise.nil
  refine eq_of_keyClass _ (hnil.sortFirst _) hq fun t => ?_
  have hclass : keyClass Event.time_ t
      ((List.range s.nbuckets_).flatMap fun i => (s.buckets_ i).list_.reverse) =
        (keyClass Event.time_ t q).reverse := by
    rw [keyClass, List.filter_flatMap]
    conv_rhs => rw [← flatMap_range_ite (hash_lt hn t) (keyClass Event.time_ t q).reverse]
    refine List.flatMap_congr fun i hi => ?_
    rw [List.filter_reverse, h.list i (List.mem_range.mp hi)]
    have hk := keyClass_filter Event.time_ (fun t => decide (s.hash t = i)) t q
    rw [keyClass] at hk
    rw [hk]
    by_cases hi' : i = s.hash t
    · simp [hi']
    · simp [hi', Ne.symm hi']
  rw [keyClass_sortFirst _ hnil, hclass]
  simp [keyClass]

theorem Filed.rebuild {q : List (Event ℚ)} {s : CalendarScheduler} (h : Filed q s)
    (hq : Ordered Event.time_ q) (hn : 0 < s.nbuckets_) {newsize : ℕ} (hnew : 4 ≤ newsize)
    (bwidth : Width) :
    let s' := CalendarScheduler.rebuild newsize bwidth s.cal_clock_ s
    Filed q s' ∧ Geometry s' ∧ s'.cal_clock_ = s.cal_clock_ := by
  let s₀ := reinit newsize bwidth s.cal_clock_ s
  have hempty : Filed [] s₀ :=
    ⟨fun _ _ => rfl, fun _ _ => rfl, by simp [s₀, reinit], rfl⟩
  have hgeo : Geometry s₀ := ⟨hnew, rfl, rfl, rfl, rfl⟩
  have hfiled := hempty.foldl_insert2
    (l := (List.range s.nbuckets_).flatMap fun i => (s.buckets_ i).list_.reverse) .nil (by
      change 0 < newsize
      omega)
  rw [sortFirst_emptied h hq hn] at hfiled
  obtain ⟨hg, hc⟩ := hgeo.foldl_insert2
    ((List.range s.nbuckets_).flatMap fun i => (s.buckets_ i).list_.reverse)
  exact ⟨⟨hfiled.list, hfiled.count, hfiled.stat, hfiled.size⟩,
    ⟨hg.four_le, hg.diff0, hg.diff1, hg.diff2, hg.last⟩, hc⟩

end Ns2.CalendarScheduler
