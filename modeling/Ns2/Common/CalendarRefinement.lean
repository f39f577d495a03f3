import Ns2.Common.CalendarSearch
import Ns2.Common.Agenda

/-! The calendar queue against the list scheduler: every operation keeps the filed queue, and
hence both return the same events on every run. -/

namespace Ns2.CalendarScheduler

open StableOrder

/-- The calendar holds the queue `q` of the list scheduler, none of it before the clock. -/
structure Holds (q : List (Event ℚ)) (s : CalendarScheduler) : Prop where
  ordered : Ordered Event.time_ q
  nodup : q.Nodup
  clock : ∀ x ∈ q, s.cal_clock_ ≤ x.time_
  geometry : Geometry s
  filed : Filed q s

theorem Holds.pos {q : List (Event ℚ)} {s : CalendarScheduler} (h : Holds q s) :
    0 < s.nbuckets_ := by
  have := h.geometry.four_le
  omega

/-- The statistics of the width control have no part in the invariant. -/
theorem Holds.counters {q : List (Event ℚ)} {s : CalendarScheduler} (h : Holds q s)
    (time_to_newwidth head_search_ insert_search_ : ℕ) (round_num_ gap_num_ : ℤ)
    (last_time_ avg_gap_ : ℚ) :
    Holds q { s with time_to_newwidth, head_search_, insert_search_, round_num_, gap_num_,
                     last_time_, avg_gap_ } :=
  ⟨h.ordered, h.nodup, h.clock,
    ⟨h.geometry.four_le, h.geometry.diff0, h.geometry.diff1, h.geometry.diff2, h.geometry.last⟩,
    ⟨h.filed.list, h.filed.count, h.filed.stat, h.filed.size⟩⟩

/-! ### Resizing -/

theorem Holds.rebuild {q : List (Event ℚ)} {s : CalendarScheduler} (h : Holds q s) {newsize : ℕ}
    (hnew : 4 ≤ newsize) (bwidth : Width) :
    Holds q (rebuild newsize bwidth s.cal_clock_ s) ∧
      (rebuild newsize bwidth s.cal_clock_ s).cal_clock_ = s.cal_clock_ := by
  obtain ⟨hf, hg, hc⟩ := h.filed.rebuild h.ordered h.pos hnew bwidth
  exact ⟨⟨h.ordered, h.nodup, fun x hx => hc.trans_le (h.clock x hx), hg, hf⟩, hc⟩

theorem Holds.callNewwidth {q : List (Event ℚ)} {s : CalendarScheduler} (h : Holds q s)
    (π : WidthPolicy) (newsize : ℕ) :
    Holds q (callNewwidth π newsize s).1 ∧
      (callNewwidth π newsize s).1.cal_clock_ = s.cal_clock_ := by
  unfold CalendarScheduler.callNewwidth
  split_ifs
  · exact ⟨h.counters _ _ _ _ _ _ _, rfl⟩
  · exact ⟨h, rfl⟩

theorem Holds.resize {q : List (Event ℚ)} {s : CalendarScheduler} (h : Holds q s)
    (π : WidthPolicy) (newsize : ℕ) :
    Holds q (resize π newsize s.cal_clock_ s) ∧
      (resize π newsize s.cal_clock_ s).cal_clock_ = s.cal_clock_ := by
  obtain ⟨hn, hc⟩ := h.callNewwidth π newsize
  unfold CalendarScheduler.resize
  dsimp only
  split_ifs with hsize hmin htime hfour
  · exact ⟨h.counters _ _ _ _ _ _ _, rfl⟩
  · rw [← hc]
    exact hn.rebuild (hsize ▸ h.geometry.four_le) _
  · exact h.rebuild (hsize ▸ h.geometry.four_le) _
  · rw [← hc]
    exact hn.rebuild le_rfl _
  · rw [← hc]
    exact hn.rebuild (not_lt.mp hfour) _

theorem Holds.adjustWidth {q : List (Event ℚ)} {s : CalendarScheduler} (h : Holds q s)
    (π : WidthPolicy) (e : Event ℚ) :
    Holds q (adjustWidth π e s) ∧ (adjustWidth π e s).cal_clock_ = s.cal_clock_ := by
  unfold CalendarScheduler.adjustWidth
  dsimp only
  split_ifs
  · exact ⟨h, rfl⟩
  · exact ⟨h.counters _ _ _ _ _ _ _, rfl⟩
  · have hr := (h.counters s.time_to_newwidth s.head_search_ s.insert_search_ (s.round_num_ + 1) 0
      e.time_ ((e.time_ - s.last_time_) / (s.gap_num_ + 1 : ℤ))).resize π s.nbuckets_
    exact ⟨hr.1.counters _ _ _ _ _ _ _, hr.2⟩
  all_goals exact ⟨h.counters _ _ _ _ _ _ _, rfl⟩

/-! ### The operations -/

/-- What `insert` does before it tests the size. -/
def placed (e : Event ℚ) (s : CalendarScheduler) : CalendarScheduler :=
  let s :=
    if s.cal_clock_ > e.time_ then
      { s with cal_clock_ := e.time_, lastbucket_ := s.hash e.time_ }
    else s
  let i := s.hash e.time_
  let p := place e (s.buckets_ i).list_
  setBucket { s with insert_search_ := s.insert_search_ + p.2.2 } i p.1 p.2.1

theorem insert_eq (π : WidthPolicy) (e : Event ℚ) (s : CalendarScheduler) :
    insert π e s = if (placed e s).stat_qsize_ > (placed e s).top_threshold_ then
      resize π ((placed e s).nbuckets_ * 2) (placed e s).cal_clock_ (placed e s)
    else placed e s := rfl

theorem Holds.placed {q : List (Event ℚ)} {s : CalendarScheduler} (h : Holds q s) {e : Event ℚ}
    (he : e ∉ q) : Holds (insertLast Event.time_ e q) (placed e s) := by
  have hback : ∃ s₁ : CalendarScheduler, s₁ = (if s.cal_clock_ > e.time_ then
      { s with cal_clock_ := e.time_, lastbucket_ := s.hash e.time_ } else s) ∧
      Holds q s₁ ∧ s₁.cal_clock_ ≤ e.time_ := by
    refine ⟨_, rfl, ?_⟩
    split_ifs with hlt
    · exact ⟨⟨h.ordered, h.nodup, fun x hx => hlt.le.trans (h.clock x hx),
        ⟨h.geometry.four_le, h.geometry.diff0, h.geometry.diff1, h.geometry.diff2, rfl⟩,
        ⟨h.filed.list, h.filed.count, h.filed.stat, h.filed.size⟩⟩, le_rfl⟩
    · exact ⟨h, not_lt.mp hlt⟩
  obtain ⟨s₁, hs₁, h₁, hc⟩ := hback
  have hput : ∀ n, Holds (insertLast Event.time_ e q)
      (setBucket { s₁ with insert_search_ := n } (s₁.hash e.time_)
        (place e (s₁.buckets_ (s₁.hash e.time_)).list_).1
        (place e (s₁.buckets_ (s₁.hash e.time_)).list_).2.1) := fun n => by
    have hn := h₁.counters s₁.time_to_newwidth s₁.head_search_ n s₁.round_num_ s₁.gap_num_
      s₁.last_time_ s₁.avg_gap_
    refine ⟨h.ordered.insertLast _, ?_, fun x hx => ?_, ?_, hn.filed.insertLast h.ordered hn.pos e⟩
    · exact (insertLast_perm _ e q).nodup_iff.mpr (List.nodup_cons.mpr ⟨he, h.nodup⟩)
    · rcases (mem_insertLast _).mp hx with rfl | hx
      · exact hc
      · exact h₁.clock x hx
    · exact ⟨h₁.geometry.four_le, h₁.geometry.diff0, h₁.geometry.diff1, h₁.geometry.diff2,
        h₁.geometry.last⟩
  unfold CalendarScheduler.placed
  rw [← hs₁]
  exact hput _

theorem Holds.insert {q : List (Event ℚ)} {s : CalendarScheduler} (h : Holds q s)
    (π : WidthPolicy) {e : Event ℚ} (he : e ∉ q) :
    Holds (insertLast Event.time_ e q) (insert π e s) := by
  rw [insert_eq]
  split_ifs
  · exact ((h.placed he).resize π _).1
  · exact h.placed he

/-- The search finds the head of the list scheduler's queue. -/
theorem Holds.head {e : Event ℚ} {q : List (Event ℚ)} {s : CalendarScheduler}
    (h : Holds (e :: q) s) :
    ∃ s', head s = some (s', some e) ∧ Holds (e :: q) s' ∧ s'.cal_clock_ = e.time_ := by
  obtain ⟨f, hf, hfirst⟩ := search_earliest h.filed h.geometry h.ordered h.clock (by simp)
  obtain ⟨hl, hhead⟩ := hfirst.head
  obtain ⟨rest, hrest⟩ := List.head?_eq_some_iff.mp hhead
  obtain ⟨hmem, hhash, -⟩ := bucket_cons h.filed h.ordered hl hrest
  have htime : e.time_ = f.e.time_ := by
    refine le_antisymm ?_ (hfirst.le e (by simp))
    rcases List.mem_cons.mp hmem with he | hm
    · exact (congrArg Event.time_ he).ge
    · exact (List.pairwise_cons.mp h.ordered).1 _ hm
  have he : f.e = e := by
    rw [h.filed.list _ hl, List.filter_cons_of_pos (by simp [htime, hhash])] at hrest
    exact (List.cons.inj hrest).1.symm
  refine ⟨{ s with lastbucket_ := f.l, cal_clock_ := f.e.time_, head_search_ := f.head_search_ },
    ?_, ?_, htime.symm⟩
  · have hsize : s.qsize_ ≠ 0 := by
      rw [h.filed.size, List.length_cons]
      omega
    simp [CalendarScheduler.head, hsize, hf, he]
  · exact ⟨h.ordered, h.nodup, hfirst.le,
      ⟨h.geometry.four_le, h.geometry.diff0, h.geometry.diff1, h.geometry.diff2, hhash.symm⟩,
      ⟨h.filed.list, h.filed.count, h.filed.stat, h.filed.size⟩⟩

/-- What `unlinkHead` does before it tests the size. -/
def unlinked (e : Event ℚ) (s : CalendarScheduler) : CalendarScheduler :=
  let l := s.lastbucket_
  let list := (s.buckets_ l).list_
  let gone := dequeGone e list
  { s with
    buckets_ := Function.update s.buckets_ l ⟨ring e list, (s.buckets_ l).count_ - gone⟩
    stat_qsize_ := s.stat_qsize_ - gone
    qsize_ := s.qsize_ - 1 }

theorem unlinkHead_eq (π : WidthPolicy) (e : Event ℚ) (s : CalendarScheduler) :
    unlinkHead π e s = if (unlinked e s).stat_qsize_ < (unlinked e s).bot_threshold_ then
      resize π ((unlinked e s).nbuckets_ / 2) (unlinked e s).cal_clock_ (unlinked e s)
    else unlinked e s := rfl

theorem Holds.unlinked {e : Event ℚ} {q : List (Event ℚ)} {s : CalendarScheduler}
    (h : Holds (e :: q) s) (hc : s.cal_clock_ = e.time_) : Holds q (unlinked e s) := by
  have hlast : s.lastbucket_ = s.hash e.time_ := by rw [h.geometry.last, hc]
  have hl : s.lastbucket_ < s.nbuckets_ := hlast ▸ hash_lt h.pos _
  have hlist : (s.buckets_ s.lastbucket_).list_ =
      e :: q.filter fun x => s.hash x.time_ = s.lastbucket_ := by
    rw [h.filed.list _ hl, List.filter_cons_of_pos (by simp [hlast])]
  have hord : Ordered Event.time_ (e :: q.filter fun x => s.hash x.time_ = s.lastbucket_) := by
    rw [← hlist, h.filed.list _ hl]
    exact h.ordered.filter _ _
  have hnd : (e :: q.filter fun x => s.hash x.time_ = s.lastbucket_).Nodup := by
    rw [← hlist, h.filed.list _ hl]
    exact h.nodup.filter _
  refine ⟨(List.pairwise_cons.mp h.ordered).2, (List.nodup_cons.mp h.nodup).2,
    fun x hx => h.clock x (List.mem_cons_of_mem _ hx),
    ⟨h.geometry.four_le, h.geometry.diff0, h.geometry.diff1, h.geometry.diff2, h.geometry.last⟩,
    h.filed.replace hl rfl rfl rfl rfl ?_ ?_ (fun j hj => ?_) ?_⟩
  · have hsize := h.filed.size
    rw [List.length_cons] at hsize
    change s.qsize_ - 1 = q.length
    omega
  · rw [hlist, ring_head]
  · rw [List.filter_cons_of_neg]
    simpa [← hlast] using Ne.symm hj
  · rw [hlist, ring_head, card_times_of_perm (List.Perm.refl _), dequeGone_head hord hnd]
    ring

theorem Holds.unlinkHead {e : Event ℚ} {q : List (Event ℚ)} {s : CalendarScheduler}
    (h : Holds (e :: q) s) (π : WidthPolicy) (hc : s.cal_clock_ = e.time_) :
    Holds q (unlinkHead π e s) := by
  rw [unlinkHead_eq]
  split_ifs
  · exact ((h.unlinked hc).resize π _).1
  · exact h.unlinked hc

theorem Holds.deque {q : List (Event ℚ)} {s : CalendarScheduler} (h : Holds q s)
    (π : WidthPolicy) : ∃ s', deque π s = some (s', q.head?) ∧ Holds q.tail s' := by
  cases q with
  | nil =>
    refine ⟨s, ?_, h⟩
    simp [CalendarScheduler.deque, CalendarScheduler.head, h.filed.size]
  | cons e q =>
    obtain ⟨s₁, hs₁, h₁, hc⟩ := h.head
    obtain ⟨h₂, hc₂⟩ := h₁.adjustWidth π e
    refine ⟨_, ?_, h₂.unlinkHead π (hc₂.trans hc)⟩
    simp [CalendarScheduler.deque, hs₁]

/-- The assertions on the counts hold where the event is queued. -/
theorem Holds.cancel {q : List (Event ℚ)} {s : CalendarScheduler} (h : Holds q s) {e : Event ℚ}
    (he : e ∈ q) (hu : 0 < e.uid_) : ∃ s', cancel e s = some s' ∧ Holds (q.erase e) s' := by
  have hi := hash_lt h.pos e.time_
  have hlist := h.filed.list _ hi
  have hmem : e ∈ (s.buckets_ (s.hash e.time_)).list_ := by
    rw [hlist]
    exact List.mem_filter.mpr ⟨he, by simp⟩
  obtain ⟨u, v, huv⟩ := List.append_of_mem hmem
  have hord : Ordered Event.time_ (u ++ e :: v) := by
    rw [← huv, hlist]
    exact h.ordered.filter _ _
  have hnd : (u ++ e :: v).Nodup := by
    rw [← huv, hlist]
    exact h.nodup.filter _
  have heu : e ∉ u := fun hm => (List.nodup_append.mp hnd).2.2 e hm e (by simp) rfl
  have herase : (u ++ e :: v).erase e = u ++ v := by
    rw [List.erase_append_right _ heu, List.erase_cons_head]
  have hcard := card_times_of_perm (@List.perm_middle _ e u v)
  rw [← cancelGone_append hord hnd, ← huv] at hcard
  have hcount := h.filed.count _ hi
  have hstat : (s.buckets_ (s.hash e.time_)).count_ ≤ s.stat_qsize_ := by
    rw [h.filed.stat]
    refine Finset.single_le_sum (f := fun i => (s.buckets_ i).count_) (fun i hm => ?_)
      (Finset.mem_range.mpr hi)
    simp [h.filed.count i (Finset.mem_range.mp hm)]
  rw [← huv] at herase
  have hzero : (times (u ++ v)).card = 0 → u ++ v = [] := fun hz => by
    by_contra hne
    obtain ⟨x, hx⟩ := List.exists_mem_of_ne_nil _ hne
    exact (Finset.card_pos.mpr ⟨x.time_, mem_times.mpr ⟨x, hx, rfl⟩⟩).ne' hz
  have hput : Holds (q.erase e)
      { s with
        buckets_ := Function.update s.buckets_ (s.hash e.time_)
          ⟨(s.buckets_ (s.hash e.time_)).list_.erase e, (s.buckets_ (s.hash e.time_)).count_ -
            cancelGone e (s.buckets_ (s.hash e.time_)).list_⟩
        stat_qsize_ := s.stat_qsize_ - cancelGone e (s.buckets_ (s.hash e.time_)).list_
        qsize_ := s.qsize_ - 1 } := by
    refine ⟨h.ordered.sublist List.erase_sublist, h.nodup.erase e,
      fun x hx => h.clock x (List.mem_of_mem_erase hx),
      ⟨h.geometry.four_le, h.geometry.diff0, h.geometry.diff1, h.geometry.diff2, h.geometry.last⟩,
      h.filed.replace hi rfl rfl rfl rfl ?_ ?_ (fun j hj => ?_) ?_⟩
    · have := List.length_pos_of_mem he
      simp only [h.filed.size, List.length_erase_of_mem he]
      omega
    · rw [hlist, List.erase_filter]
    · rw [← List.erase_filter, List.erase_of_not_mem]
      simp [Ne.symm hj]
    · rw [herase]
      linarith
  have hc0 := hput.filed.count _ hi
  refine ⟨_, ?_, hput⟩
  have hn1 : ¬ (cancelGone e (s.buckets_ (s.hash e.time_)).list_ = 1 ∧
      (s.stat_qsize_ - cancelGone e (s.buckets_ (s.hash e.time_)).list_ < 0 ∨
        (s.buckets_ (s.hash e.time_)).count_ -
          cancelGone e (s.buckets_ (s.hash e.time_)).list_ < 0)) := by
    omega
  have hn2 : ¬ ((s.buckets_ (s.hash e.time_)).count_ -
      cancelGone e (s.buckets_ (s.hash e.time_)).list_ = 0 ∧
        (s.buckets_ (s.hash e.time_)).list_.erase e ≠ []) := fun hz => by
    rw [herase] at hz
    exact hz.2 (hzero (by omega))
  simp only [CalendarScheduler.cancel, not_le.mpr hu, if_false, hmem, not_true_eq_false, hn1, hn2]

/-! ### The width of the code -/

theorem maxBucket_lt {s : CalendarScheduler} (hn : 0 < s.nbuckets_) : s.maxBucket < s.nbuckets_ := by
  suffices h : ∀ (l : List ℕ) (m : ℕ), (∀ i ∈ l, i < s.nbuckets_) → m < s.nbuckets_ →
      l.foldl (fun m i => if (s.buckets_ i).count_ > (s.buckets_ m).count_ then i else m) m <
        s.nbuckets_ by
    refine h _ 0 (fun i hi => ?_) hn
    have := List.mem_range'_1.mp hi
    omega
  intro l
  induction l with
  | nil => exact fun m _ hm => hm
  | cons i l ih =>
    intro m hl hm
    refine ih _ (fun j hj => hl j (List.mem_cons_of_mem _ hj)) ?_
    dsimp only
    split_ifs
    · exact hl i (by simp)
    · exact hm

/-- The assertion of `newwidth` holds: a bucket of several times spans a positive interval. -/
theorem Holds.newwidth {q : List (Event ℚ)} {s : CalendarScheduler} (h : Holds q s) {newsize : ℕ}
    (hnew : 0 < newsize) : ∃ w, newwidth newsize s = some w := by
  unfold CalendarScheduler.newwidth
  by_cases hgap : s.adjust_new_width_interval_ ≠ 0 ∧ s.avg_gap_ > 0
  · exact ⟨_, dif_pos hgap⟩
  · rw [dif_neg hgap]
    dsimp only
    by_cases hfew : (s.buckets_ s.maxBucket).count_ ≤ 4
    · exact ⟨_, if_pos hfew⟩
    · rw [if_neg hfew]
      have hm := maxBucket_lt h.pos
      have hlist := h.filed.list _ hm
      have hcount := h.filed.count _ hm
      have hord : Ordered Event.time_ (s.buckets_ s.maxBucket).list_ := by
        rw [hlist]
        exact h.ordered.filter _ _
      generalize (s.buckets_ s.maxBucket).count_ = nsamples at hfew hcount
      generalize (s.buckets_ s.maxBucket).list_ = list at hord hcount
      cases list with
      | nil => simp [times] at hcount; omega
      | cons head rest =>
        obtain ⟨tail, htail⟩ : ∃ tail, (head :: rest).getLast? = some tail :=
          Option.isSome_iff_exists.mp (by simp)
        have hlt : head.time_ < tail.time_ := by
          by_contra hle
          have hall := ordered_le_last (t := head.time_) hord
            (fun x hx => by rw [htail] at hx; cases hx; exact not_lt.mp hle)
          have hsub : times (head :: rest) ⊆ {head.time_} := fun t ht => by
            obtain ⟨x, hx, rfl⟩ := mem_times.mp ht
            rw [Finset.mem_singleton]
            refine (hall x hx).antisymm ?_
            rcases List.mem_cons.mp hx with rfl | hx
            · exact le_rfl
            · exact (List.pairwise_cons.mp hord).1 x hx
          have := Finset.card_le_card hsub
          simp only [Finset.card_singleton] at this
          omega
        have hsamples : (0 : ℚ) <
            ((if newsize < nsamples then (newsize : ℤ) else nsamples : ℤ) : ℚ) := by
          split_ifs
          · exact_mod_cast hnew
          · exact_mod_cast (by omega : 0 < nsamples)
        have hpos := mul_pos (div_pos (sub_pos.mpr hlt) hsamples) four_pos
        simp only [List.head?_cons, htail, dif_pos hpos]
        exact ⟨_, rfl⟩

/-! ### Runs -/

/-- One operation, with the widths that are taken while it runs. -/
def step (s : CalendarScheduler) (i : WidthPolicy × EventQueue.Op ℚ) :
    Option (CalendarScheduler × Option (Event ℚ)) := EventQueue.step (queue i.1) s i.2

def listStep (s : ListScheduler ℚ) (i : WidthPolicy × EventQueue.Op ℚ) :
    Option (ListScheduler ℚ × Option (Event ℚ)) := EventQueue.step ListScheduler.queue s i.2

def agendaStep (a : List (Event ℚ)) (i : WidthPolicy × EventQueue.Op ℚ) :
    Option (List (Event ℚ) × Option (Event ℚ)) := EventQueue.step Agenda.queue a i.2

/-- An event that is inserted is not queued already, and one that is cancelled is. -/
def Permitted (s : ListScheduler ℚ) (i : WidthPolicy × EventQueue.Op ℚ) : Prop :=
  match i.2 with
  | .insert e => 0 ≤ e.time_ ∧ e ∉ s.queue_
  | .cancel e => e ∈ s.queue_
  | .deque => True

theorem Holds.step {s : CalendarScheduler} {t : ListScheduler ℚ} (h : Holds t.queue_ s)
    {i : WidthPolicy × EventQueue.Op ℚ} (hi : Permitted t i) :
    Machine.Agree (fun s t => Holds t.queue_ s) (step s i) (listStep t i) := by
  obtain ⟨π, op⟩ := i
  cases op with
  | insert e => exact .some ⟨h.insert π hi.2, rfl⟩
  | cancel e =>
    have hm : e ∈ t.queue_ := hi
    refine Machine.agree_map (Q := fun s t => Holds t.queue_ s) ?_ fun _ _ hst => ⟨hst, rfl⟩
    by_cases hu : e.uid_ ≤ 0
    · simpa [queue, ListScheduler.queue, CalendarScheduler.cancel, ListScheduler.cancel, hu]
        using Option.Rel.some h
    · obtain ⟨s', hs', hh⟩ := h.cancel hm (not_le.mp hu)
      have ht : ListScheduler.cancel e t = some ⟨t.queue_.erase e⟩ := by
        simp [ListScheduler.cancel, hu, ListScheduler.unlink_of_mem hm]
      simp only [queue, ListScheduler.queue, hs', ht]
      exact .some hh
  | deque =>
    obtain ⟨s', hs', hh⟩ := h.deque π
    simp only [CalendarScheduler.step, listStep, EventQueue.step, queue, ListScheduler.queue, hs']
    refine .some ⟨?_, (ListScheduler.deque_event t).symm⟩
    change Holds (ListScheduler.deque t).1.queue_ s'
    rwa [ListScheduler.deque_queue]

theorem listStep_isSome {t : ListScheduler ℚ} {i : WidthPolicy × EventQueue.Op ℚ}
    (hi : Permitted t i) : ∃ t' o, listStep t i = some (t', o) := by
  obtain ⟨π, op⟩ := i
  cases op with
  | insert e => exact ⟨_, _, rfl⟩
  | cancel e =>
    have hm : e ∈ t.queue_ := hi
    by_cases hu : e.uid_ ≤ 0
    · refine ⟨t, none, ?_⟩
      simp [listStep, EventQueue.step, ListScheduler.queue, ListScheduler.cancel, hu]
    · refine ⟨⟨t.queue_.erase e⟩, none, ?_⟩
      simp [listStep, EventQueue.step, ListScheduler.queue, ListScheduler.cancel, hu,
        ListScheduler.unlink_of_mem hm]
  | deque => exact ⟨_, _, rfl⟩

theorem holds_new (adjust_new_width_interval : ℕ) (min_bin_width : ℚ) :
    Holds [] (new adjust_new_width_interval min_bin_width) :=
  ⟨.nil, .nil, by simp, ⟨le_rfl, rfl, rfl, rfl, rfl⟩,
    ⟨fun _ _ => rfl, fun _ _ => rfl, by simp [new, reinit], rfl⟩⟩

/-- The calendar queue never aborts, and returns the events of the list scheduler: the first of
the earliest ones, in the order of their insertion. -/
theorem calendar_returns_list (adjust_new_width_interval : ℕ) (min_bin_width : ℚ)
    (ops : List (WidthPolicy × EventQueue.Op ℚ))
    (hops : Machine.Admits listStep Permitted ⟨[]⟩ ops) :
    ∃ s t a os, Machine.run step (new adjust_new_width_interval min_bin_width) ops = some (s, os) ∧
      Machine.run listStep ⟨[]⟩ ops = some (t, os) ∧
      Machine.run agendaStep [] ops = some (a, os) ∧ Holds t.queue_ s := by
  obtain ⟨t, os, ht, -⟩ := Machine.run_total (I := fun _ => True)
    (fun t i _ hi => by
      obtain ⟨t', o, h⟩ := listStep_isSome hi
      exact ⟨t', o, h, trivial⟩) trivial hops
  have hcal : Machine.Agree (fun s t => Holds t.queue_ s)
      (Machine.run step (new adjust_new_width_interval min_bin_width) ops)
      (Machine.run listStep ⟨[]⟩ ops) :=
    Machine.run_simulation (fun _ _ _ h hi => h.step hi) (holds_new _ _) hops
  have hag : Machine.Agree Agenda.Sorts (Machine.run listStep ⟨[]⟩ ops)
      (Machine.run agendaStep [] ops) :=
    Machine.run_simulation (fun _ _ i h _ => h.step i.2) Agenda.sorts_nil
      (Machine.admits_true _ _ ops)
  rw [ht] at hcal hag
  obtain ⟨s, hs, hst⟩ := hcal.of_some_right
  obtain ⟨a, ha, -⟩ := hag.of_some
  exact ⟨s, t, a, os, hs, ht, ha, hst⟩

/-- Two events of one time are inserted, the earlier insertion is returned, and the other one is
cancelled, while the widths are halved. -/
theorem calendar_returns_list_ties :
    let π : WidthPolicy := ⟨fun s _ => ⟨s.width_ / 2, half_pos s.width_.2⟩, id⟩
    let ops := [.insert ⟨3, 1⟩, .insert ⟨3, 2⟩, .deque, .cancel ⟨3, 2⟩].map (Prod.mk π)
    ∃ s t a os, Machine.run step (new 10 1) ops = some (s, os) ∧
      Machine.run listStep ⟨[]⟩ ops = some (t, os) ∧
      Machine.run agendaStep [] ops = some (a, os) ∧ Holds t.queue_ s :=
  calendar_returns_list 10 1 _ (by
    simp [Machine.Admits, Permitted, listStep, EventQueue.step, ListScheduler.queue,
      ListScheduler.insert, ListScheduler.deque, insertLast])

end Ns2.CalendarScheduler
