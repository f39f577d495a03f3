import Ns2.Common.CalendarRefinement

/-! The counts of a calendar queue that takes its own widths: a failed assertion of `newwidth` ends
the program. -/

namespace Ns2.CalendarScheduler

open StableOrder

/-! ### The operations with the assertion -/

variable (sqrt : Width → Width)

/-- `resize`, with the assertion of `newwidth` where it is called. -/
def resizeAsserted (newsize : ℕ) (start : ℚ) (s : CalendarScheduler) : Option CalendarScheduler :=
  let written := if s.adjust_new_width_interval_ ≠ 0 then
      { s with time_to_newwidth := s.adjust_new_width_interval_ }
    else s
  if newsize = s.nbuckets_ then
    let bwidth : Width := ⟨sqrt s.searchRatio * s.width_, mul_pos (sqrt _).2 s.width_.2⟩
    if bwidth < s.min_bin_width_ then
      if s.time_to_newwidth > 0 then
        some { s with
          time_to_newwidth := s.time_to_newwidth - 1
          head_search_ := 0, insert_search_ := 0, round_num_ := 0 }
      else (newwidth newsize s).map fun w => rebuild newsize w start written
    else some (rebuild newsize bwidth start s)
  else (newwidth newsize s).map fun w =>
    rebuild (if newsize < 4 then 4 else newsize) w start written

def insertAsserted (e : Event ℚ) (s : CalendarScheduler) : Option CalendarScheduler :=
  let s := placed e s
  if s.stat_qsize_ > s.top_threshold_ then resizeAsserted sqrt (s.nbuckets_ * 2) s.cal_clock_ s
  else some s

def adjustWidthAsserted (e : Event ℚ) (s : CalendarScheduler) : Option CalendarScheduler :=
  if s.adjust_new_width_interval_ = 0 then some s
  else if s.last_time_ < 0 then some { s with last_time_ := e.time_ }
  else
    let s := { s with gap_num_ := s.gap_num_ + 1 }
    if s.gap_num_ ≥ s.qsize_ then
      let s :=
        { s with
          avg_gap_ := (e.time_ - s.last_time_) / s.gap_num_
          gap_num_ := 0
          last_time_ := e.time_
          round_num_ := s.round_num_ + 1 }
      if s.round_num_ > 20 ∧
          (s.head_search_ > 2 * s.insert_search_ ∨ s.insert_search_ > 2 * s.head_search_) then
        (resizeAsserted sqrt s.nbuckets_ s.cal_clock_ s).map fun s => { s with round_num_ := 0 }
      else if s.round_num_ > 100 then
        some { s with round_num_ := 0, head_search_ := 0, insert_search_ := 0 }
      else some s
    else some s

def unlinkHeadAsserted (e : Event ℚ) (s : CalendarScheduler) : Option CalendarScheduler :=
  let s := unlinked e s
  if s.stat_qsize_ < s.bot_threshold_ then resizeAsserted sqrt (s.nbuckets_ / 2) s.cal_clock_ s
  else some s

def dequeAsserted (s : CalendarScheduler) : Option (CalendarScheduler × Option (Event ℚ)) :=
  (head s).bind fun r =>
    match r.2 with
    | none => some (r.1, none)
    | some e => (adjustWidthAsserted sqrt e r.1).bind fun s =>
        (unlinkHeadAsserted sqrt e s).map fun s => (s, some e)

def assertedQueue : EventQueue ℚ CalendarScheduler where
  insert := insertAsserted sqrt
  cancel := cancel
  deque := dequeAsserted sqrt

/-! ### The assertion holds -/

variable {sqrt} {q : List (Event ℚ)} {s : CalendarScheduler}

theorem resizeAsserted_eq (h : Holds q s) {newsize : ℕ} (hnew : 0 < newsize) (start : ℚ) :
    resizeAsserted sqrt newsize start s = some (resize (ownWidths sqrt) newsize start s) := by
  obtain ⟨w, hw⟩ := h.newwidth hnew
  have hown : (ownWidths sqrt).newwidth s newsize = w := by
    change (CalendarScheduler.newwidth newsize s).getD s.width_ = w
    rw [hw, Option.getD_some]
  have hsqrt : (ownWidths sqrt).sqrt = sqrt := rfl
  simp only [resizeAsserted, resize, callNewwidth, hw, hown, hsqrt, Option.map_some]
  split_ifs <;> rfl

theorem insertAsserted_eq (h : Holds q s) {e : Event ℚ} (he : e ∉ q) :
    insertAsserted sqrt e s = some (insert (ownWidths sqrt) e s) := by
  have hp := h.placed he
  have hnew : 0 < (placed e s).nbuckets_ * 2 := by
    have := hp.pos
    omega
  rw [insertAsserted, insert_eq]
  rw [resizeAsserted_eq hp hnew]
  split_ifs <;> rfl

theorem adjustWidthAsserted_eq (h : Holds q s) (e : Event ℚ) :
    adjustWidthAsserted sqrt e s = some (adjustWidth (ownWidths sqrt) e s) := by
  have hr := @resizeAsserted_eq sqrt _ _ (h.counters s.time_to_newwidth s.head_search_
    s.insert_search_ (s.round_num_ + 1) 0 e.time_
    ((e.time_ - s.last_time_) / (s.gap_num_ + 1 : ℤ))) _ h.pos s.cal_clock_
  simp only [adjustWidthAsserted, adjustWidth, hr, Option.map_some]
  split_ifs <;> rfl

theorem unlinkHeadAsserted_eq {e : Event ℚ} (h : Holds (e :: q) s) (hc : s.cal_clock_ = e.time_) :
    unlinkHeadAsserted sqrt e s = some (unlinkHead (ownWidths sqrt) e s) := by
  have hu := h.unlinked hc
  have hnew : 0 < (unlinked e s).nbuckets_ / 2 := by
    have := hu.geometry.four_le
    omega
  rw [unlinkHeadAsserted, unlinkHead_eq]
  rw [resizeAsserted_eq hu hnew]
  split_ifs <;> rfl

theorem dequeAsserted_eq (h : Holds q s) :
    dequeAsserted sqrt s = deque (ownWidths sqrt) s := by
  cases q with
  | nil =>
    have hhead : head s = some (s, none) := by
      simp [head, h.filed.size]
    simp only [dequeAsserted, deque, hhead, Option.bind_some]
  | cons e q =>
    obtain ⟨s₁, hs₁, h₁, hc⟩ := h.head
    obtain ⟨h₂, hc₂⟩ := h₁.adjustWidth (ownWidths sqrt) e
    simp only [dequeAsserted, deque, hs₁, Option.bind_some,
      adjustWidthAsserted_eq h₁, unlinkHeadAsserted_eq h₂ (hc₂.trans hc), Option.map_some]

/-! ### Runs -/

def stepAsserted (sqrt : Width → Width) (s : CalendarScheduler) (op : EventQueue.Op ℚ) :
    Option (CalendarScheduler × Option (Event ℚ)) := EventQueue.step (assertedQueue sqrt) s op

def Queued (s : CalendarScheduler) (e : Event ℚ) : Prop :=
  ∃ i < s.nbuckets_, e ∈ (s.buckets_ i).list_

instance (s : CalendarScheduler) (e : Event ℚ) : Decidable (Queued s e) :=
  inferInstanceAs (Decidable (∃ i, i < s.nbuckets_ ∧ e ∈ (s.buckets_ i).list_))

/-- An event that is inserted is not queued already, and one that is cancelled is. -/
def Allowed (s : CalendarScheduler) : EventQueue.Op ℚ → Prop
  | .insert e => 0 ≤ e.time_ ∧ ¬ Queued s e
  | .cancel e => Queued s e
  | .deque => True

instance (s : CalendarScheduler) : DecidablePred (Allowed s)
  | .insert e => inferInstanceAs (Decidable (0 ≤ e.time_ ∧ ¬ Queued s e))
  | .cancel e => inferInstanceAs (Decidable (Queued s e))
  | .deque => inferInstanceAs (Decidable True)

/-- The counts are those of the distinct times, and there are at least as many buckets as at the
start. -/
structure CountsTimes (s : CalendarScheduler) : Prop where
  count : ∀ i < s.nbuckets_, (s.buckets_ i).count_ = (times (s.buckets_ i).list_).card
  stat : s.stat_qsize_ = ∑ i ∈ Finset.range s.nbuckets_, (s.buckets_ i).count_
  four_le : 4 ≤ s.nbuckets_

theorem Holds.queued_iff (h : Holds q s) (e : Event ℚ) : Queued s e ↔ e ∈ q := by
  constructor
  · rintro ⟨i, hi, hmem⟩
    rw [h.filed.list i hi] at hmem
    exact List.mem_of_mem_filter hmem
  · intro he
    have hi := hash_lt h.pos e.time_
    refine ⟨_, hi, ?_⟩
    rw [h.filed.list _ hi]
    exact List.mem_filter.mpr ⟨he, by simp⟩

theorem Holds.countsTimes (h : Holds q s) : CountsTimes s :=
  ⟨h.filed.count, h.filed.stat, h.geometry.four_le⟩

theorem exists_stepAsserted (h : Holds q s) {op : EventQueue.Op ℚ} (hop : Allowed s op) :
    ∃ s' o, stepAsserted sqrt s op = some (s', o) ∧ ∃ q', Holds q' s' := by
  cases op with
  | insert e =>
    have he : e ∉ q := (h.queued_iff e).not.mp hop.2
    refine ⟨_, none, ?_, _, h.insert (ownWidths sqrt) he⟩
    simp only [stepAsserted, EventQueue.step, assertedQueue, insertAsserted_eq h he,
      Option.map_some]
  | cancel e =>
    have he : e ∈ q := (h.queued_iff e).mp hop
    by_cases hu : e.uid_ ≤ 0
    · refine ⟨s, none, ?_, q, h⟩
      simp only [stepAsserted, EventQueue.step, assertedQueue,
        cancel, if_pos hu, Option.map_some]
    · obtain ⟨s', hs', h'⟩ := h.cancel he (not_le.mp hu)
      refine ⟨s', none, ?_, _, h'⟩
      simp only [stepAsserted, EventQueue.step, assertedQueue, hs',
        Option.map_some]
  | deque =>
    obtain ⟨s', hs', h'⟩ := h.deque (ownWidths sqrt)
    exact ⟨s', _, (dequeAsserted_eq h).trans hs', _, h'⟩

/-- No assertion fails and no search goes on for ever, and the counts are right in every state. -/
theorem calendar_counts_times (sqrt : Width → Width) (adjust_new_width_interval : ℕ)
    (min_bin_width : ℚ) {ops : List (EventQueue.Op ℚ)}
    (hops : Machine.Admits (stepAsserted sqrt) Allowed
      (new adjust_new_width_interval min_bin_width) ops) :
    Machine.Always (stepAsserted sqrt) CountsTimes (new adjust_new_width_interval min_bin_width)
      ops := by
  refine Machine.always_of_admits (I := fun s => ∃ q, Holds q s) ?_ ?_ ⟨[], holds_new _ _⟩ hops
    (Machine.admits_true _ _ _)
  · rintro s ⟨q, h⟩
    exact h.countsTimes
  · rintro s op ⟨q, h⟩ hop -
    exact exists_stepAsserted h hop

/-- Two events of one time; the first leaves, and the second is cancelled. -/
theorem calendar_counts_ties :
    Machine.Always (stepAsserted id) CountsTimes (new 10 1)
      [.insert ⟨3, 1⟩, .insert ⟨3, 2⟩, .deque, .cancel ⟨3, 2⟩] :=
  calendar_counts_times id 10 1 (by decide +kernel)

end Ns2.CalendarScheduler
