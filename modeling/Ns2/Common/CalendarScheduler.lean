import Ns2.Common.Scheduler

/-! The calendar queue scheduler over exact rational times. A bucket's circular list is
the list of its events from the head on. -/

namespace Ns2

open StableOrder

/-- A bucket width is positive. -/
abbrev Width : Type := { w : ℚ // 0 < w }

structure Bucket where
  list_ : List (Event ℚ)
  count_ : ℤ

structure CalendarScheduler where
  min_bin_width_ : ℚ
  adjust_new_width_interval_ : ℕ
  time_to_newwidth : ℕ
  head_search_ : ℕ
  insert_search_ : ℕ
  round_num_ : ℤ
  gap_num_ : ℤ
  last_time_ : ℚ
  avg_gap_ : ℚ
  width_ : Width
  diff0_ : ℚ
  diff1_ : ℚ
  diff2_ : ℚ
  stat_qsize_ : ℤ
  nbuckets_ : ℕ
  lastbucket_ : ℕ
  top_threshold_ : ℤ
  bot_threshold_ : ℤ
  buckets_ : ℕ → Bucket
  qsize_ : ℤ
  cal_clock_ : ℚ

namespace CalendarScheduler

/-- The two computations of a new bucket width: the virtual `newwidth`, and the square root that
`resize` takes to change the width alone. -/
structure WidthPolicy where
  newwidth : CalendarScheduler → ℕ → Width
  sqrt : Width → Width

/-- `(int)fmod(t / width_, nbuckets_)`, for times that are not negative. -/
def calendarHash (width : Width) (nbuckets : ℕ) (t : ℚ) : ℕ := (⌊t / width⌋ % nbuckets).toNat

abbrev hash (s : CalendarScheduler) (t : ℚ) : ℕ := calendarHash s.width_ s.nbuckets_ t

/-! ### Inserting into a bucket -/

/-- `insert` into a bucket's list: the new list, whether the time is new, and the search steps.
The scan for `after` runs from the tail to the head. -/
def place (e : Event ℚ) : List (Event ℚ) → List (Event ℚ) × Bool × ℕ
  | [] => ([e], true, 0)
  | head :: rest =>
    if e.time_ < head.time_ then (e :: head :: rest, true, 1)
    else
      let list := head :: rest
      let steps := (list.reverse.takeWhile fun after => e.time_ < after.time_).length
      let upto := list.take (list.length - steps)
      let after := upto.getLast?.getD head
      (upto ++ e :: list.drop (list.length - steps), after.time_ < e.time_, 1 + steps)

/-- `insert2` into a bucket's list: before the events of the same time. -/
def place2 (e : Event ℚ) : List (Event ℚ) → List (Event ℚ) × Bool
  | [] => ([e], true)
  | head :: rest =>
    let list := head :: rest
    let tail := list.getLast?.getD head
    let earlier :=
      if e.time_ > tail.time_ then list else list.takeWhile fun before => e.time_ > before.time_
    let later := list.drop earlier.length
    let next := later.head?.getD head
    (earlier ++ e :: later, next.time_ ≠ e.time_)

def setBucket (s : CalendarScheduler) (i : ℕ) (list : List (Event ℚ)) (isNew : Bool) :
    CalendarScheduler :=
  let fresh : ℤ := if isNew then 1 else 0
  { s with
    buckets_ := Function.update s.buckets_ i ⟨list, (s.buckets_ i).count_ + fresh⟩
    stat_qsize_ := s.stat_qsize_ + fresh
    qsize_ := s.qsize_ + 1 }

def insert2 (s : CalendarScheduler) (e : Event ℚ) : CalendarScheduler :=
  let i := s.hash e.time_
  let p := place2 e (s.buckets_ i).list_
  setBucket s i p.1 p.2

/-! ### Resizing -/

def reinit (nbuck : ℕ) (bwidth : Width) (start : ℚ) (s : CalendarScheduler) : CalendarScheduler :=
  { s with
    buckets_ := fun _ => ⟨[], 0⟩
    width_ := bwidth
    nbuckets_ := nbuck
    qsize_ := 0
    stat_qsize_ := 0
    lastbucket_ := calendarHash bwidth nbuck start
    diff0_ := bwidth * nbuck / 2
    diff1_ := bwidth * nbuck / 2 + bwidth
    diff2_ := bwidth * nbuck
    bot_threshold_ := (nbuck / 2 : ℕ) - 2
    top_threshold_ := 2 * nbuck }

/-- The second half of `resize`: every bucket is emptied from its tail on. -/
def rebuild (newsize : ℕ) (bwidth : Width) (start : ℚ) (s : CalendarScheduler) :
    CalendarScheduler :=
  let old := (List.range s.nbuckets_).flatMap fun i => (s.buckets_ i).list_.reverse
  let s' := old.foldl insert2 (reinit newsize bwidth start s)
  { s' with head_search_ := 0, insert_search_ := 0, round_num_ := 0 }

/-- The index of the fullest bucket, the first of them. -/
def maxBucket (s : CalendarScheduler) : ℕ :=
  (List.range' 1 (s.nbuckets_ - 1)).foldl
    (fun max_bucket i => if (s.buckets_ i).count_ > (s.buckets_ max_bucket).count_ then i
      else max_bucket) 0

/-- The width that `newwidth` returns; `none` is the failed assertion. -/
def newwidth (newsize : ℕ) (s : CalendarScheduler) : Option Width :=
  if h : s.adjust_new_width_interval_ ≠ 0 ∧ s.avg_gap_ > 0 then
    some ⟨s.avg_gap_ * 4, mul_pos h.2 four_pos⟩
  else
    let bucket := s.buckets_ s.maxBucket
    let nsamples := bucket.count_
    if nsamples ≤ 4 then some s.width_
    else
      match bucket.list_.head?, bucket.list_.getLast? with
      | some head, some tail =>
        let samples : ℤ := if newsize < nsamples then newsize else nsamples
        let nw := (tail.time_ - head.time_) / samples * 4
        if h : 0 < nw then some ⟨nw, h⟩ else none
      | _, _ => none

/-- The policy of the code; the square root of a rational is taken by `sqrt`. -/
def ownWidths (sqrt : Width → Width) : WidthPolicy where
  newwidth s newsize := (newwidth newsize s).getD s.width_
  sqrt := sqrt

/-- A call of `newwidth`, with the write it makes. -/
def callNewwidth (π : WidthPolicy) (newsize : ℕ) (s : CalendarScheduler) :
    CalendarScheduler × Width :=
  (if s.adjust_new_width_interval_ ≠ 0 then
      { s with time_to_newwidth := s.adjust_new_width_interval_ }
    else s, π.newwidth s newsize)

/-- `head_search_` over `insert_search_`, where zero counts as one. -/
def searchRatio (s : CalendarScheduler) : Width :=
  ⟨(if s.head_search_ ≠ 0 then (s.head_search_ : ℚ) else 1) /
      (if s.insert_search_ ≠ 0 then (s.insert_search_ : ℚ) else 1), by
    apply div_pos <;> split_ifs with h <;>
      first | exact one_pos | exact Nat.cast_pos.mpr (Nat.pos_of_ne_zero h)⟩

def resize (π : WidthPolicy) (newsize : ℕ) (start : ℚ) (s : CalendarScheduler) :
    CalendarScheduler :=
  if newsize = s.nbuckets_ then
    let bwidth : Width := ⟨π.sqrt s.searchRatio * s.width_, mul_pos (π.sqrt _).2 s.width_.2⟩
    if bwidth < s.min_bin_width_ then
      if s.time_to_newwidth > 0 then
        { s with
          time_to_newwidth := s.time_to_newwidth - 1
          head_search_ := 0, insert_search_ := 0, round_num_ := 0 }
      else
        let r := callNewwidth π newsize s
        rebuild newsize r.2 start r.1
    else rebuild newsize bwidth start s
  else
    let r := callNewwidth π newsize s
    rebuild (if newsize < 4 then 4 else newsize) r.2 start r.1

def insert (π : WidthPolicy) (e : Event ℚ) (s : CalendarScheduler) : CalendarScheduler :=
  let s :=
    if s.cal_clock_ > e.time_ then
      { s with cal_clock_ := e.time_, lastbucket_ := s.hash e.time_ }
    else s
  let i := s.hash e.time_
  let p := place e (s.buckets_ i).list_
  let s := setBucket { s with insert_search_ := s.insert_search_ + p.2.2 } i p.1 p.2.1
  if s.stat_qsize_ > s.top_threshold_ then resize π (s.nbuckets_ * 2) s.cal_clock_ s else s

/-! ### The head -/

/-- The locals of `head`: the next bucket, the earliest event seen with its bucket, and the
buckets counted so far. -/
structure Search where
  i : ℕ
  min_e : Option (Event ℚ × ℕ)
  head_search_ : ℕ

structure Found where
  e : Event ℚ
  l : ℕ
  head_search_ : ℕ

/-- `CAL_DEQUEUE`: an event within `diff` of the clock is found. -/
def calDequeue (s : CalendarScheduler) (diff : ℚ) (st : Search) : Found ⊕ Search :=
  let searches := st.head_search_ + 1
  let next := if st.i + 1 = s.nbuckets_ then 0 else st.i + 1
  match (s.buckets_ st.i).list_ with
  | [] => .inr ⟨next, st.min_e, searches⟩
  | e :: _ =>
    if e.time_ - s.cal_clock_ < diff then .inl ⟨e, st.i, searches⟩
    else
      match st.min_e with
      | none => .inr ⟨next, some (e, st.i), searches⟩
      | some (m, l) =>
        if m.time_ > e.time_ then .inr ⟨next, some (e, st.i), searches⟩
        else .inr ⟨next, some (m, l), searches⟩

/-- The loop of `head` up to bucket `dec`; `none` is a loop that does not end. -/
def scanYear (s : CalendarScheduler) (dec : ℕ) : ℕ → Search → Option (Found ⊕ Search)
  | 0, _ => none
  | fuel + 1, st =>
    if st.i = dec then some (.inr st)
    else
      match calDequeue s s.diff2_ st with
      | .inl found => some (.inl found)
      | .inr st => scanYear s dec fuel st

/-- The last bucket is compared with the minimum; `none` is the null event. -/
def lastBucket (s : CalendarScheduler) (st : Search) : Option Found :=
  match (s.buckets_ st.i).list_, st.min_e with
  | [], none => none
  | [], some (m, l) => some ⟨m, l, st.head_search_⟩
  | e :: _, none => some ⟨e, st.i, st.head_search_⟩
  | e :: _, some (m, l) =>
    if m.time_ < e.time_ then some ⟨m, l, st.head_search_⟩ else some ⟨e, st.i, st.head_search_⟩

def search (s : CalendarScheduler) : Option Found :=
  let dec := if s.lastbucket_ ≠ 0 then s.lastbucket_ - 1 else s.nbuckets_ - 1
  match calDequeue s s.diff0_ ⟨s.lastbucket_, none, s.head_search_⟩ with
  | .inl found => some found
  | .inr st =>
    match calDequeue s s.diff1_ st with
    | .inl found => some found
    | .inr st =>
      match scanYear s dec s.nbuckets_ st with
      | none => none
      | some (.inl found) => some found
      | some (.inr st) => lastBucket s st

/-- The clock and the last bucket move to the event found. -/
def head (s : CalendarScheduler) : Option (CalendarScheduler × Option (Event ℚ)) :=
  if s.qsize_ = 0 then some (s, none)
  else
    (search s).map fun f =>
      ({ s with lastbucket_ := f.l, cal_clock_ := f.e.time_, head_search_ := f.head_search_ },
        some f.e)

/-! ### Removing an event -/

/-- The events behind `e` on its circular list. -/
def ring (e : Event ℚ) (list : List (Event ℚ)) : List (Event ℚ) :=
  (list.dropWhile (· ≠ e)).tail ++ list.takeWhile (· ≠ e)

def next (e : Event ℚ) (list : List (Event ℚ)) : Event ℚ := (ring e list).head?.getD e

def prev (e : Event ℚ) (list : List (Event ℚ)) : Event ℚ := (ring e list).getLast?.getD e

/-- What `deque` takes from the counts of distinct times. -/
def dequeGone (e : Event ℚ) (list : List (Event ℚ)) : ℤ :=
  if next e list = e ∨ (next e list).time_ ≠ e.time_ then 1 else 0

/-- What `cancel` takes from them. -/
def cancelGone (e : Event ℚ) (list : List (Event ℚ)) : ℤ :=
  if next e list = e ∨ ((next e list).time_ ≠ e.time_ ∧ (prev e list).time_ ≠ e.time_) then 1
  else 0

/-- The width control of `deque`, between finding the event and unlinking it. -/
def adjustWidth (π : WidthPolicy) (e : Event ℚ) (s : CalendarScheduler) : CalendarScheduler :=
  if s.adjust_new_width_interval_ = 0 then s
  else if s.last_time_ < 0 then { s with last_time_ := e.time_ }
  else
    let s := { s with gap_num_ := s.gap_num_ + 1 }
    if s.gap_num_ ≥ s.qsize_ then
      let s :=
        { s with
          avg_gap_ := (e.time_ - s.last_time_) / s.gap_num_
          gap_num_ := 0
          last_time_ := e.time_
          round_num_ := s.round_num_ + 1 }
      if s.round_num_ > 20 ∧
          (s.head_search_ > 2 * s.insert_search_ ∨ s.insert_search_ > 2 * s.head_search_) then
        { resize π s.nbuckets_ s.cal_clock_ s with round_num_ := 0 }
      else if s.round_num_ > 100 then
        { s with round_num_ := 0, head_search_ := 0, insert_search_ := 0 }
      else s
    else s

/-- `deque` after the width control: `e` leaves the bucket `lastbucket_`. -/
def unlinkHead (π : WidthPolicy) (e : Event ℚ) (s : CalendarScheduler) : CalendarScheduler :=
  let l := s.lastbucket_
  let list := (s.buckets_ l).list_
  let gone := dequeGone e list
  let s :=
    { s with
      buckets_ := Function.update s.buckets_ l ⟨ring e list, (s.buckets_ l).count_ - gone⟩
      stat_qsize_ := s.stat_qsize_ - gone
      qsize_ := s.qsize_ - 1 }
  if s.stat_qsize_ < s.bot_threshold_ then resize π (s.nbuckets_ / 2) s.cal_clock_ s else s

def deque (π : WidthPolicy) (s : CalendarScheduler) :
    Option (CalendarScheduler × Option (Event ℚ)) :=
  match head s with
  | none => none
  | some (s, none) => some (s, none)
  | some (s, some e) => some (unlinkHead π e (adjustWidth π e s), some e)

/-- The assertions on the links hold of a list; a failed assertion on the counts is an abort,
and so is an event that is not in its bucket. -/
def cancel (e : Event ℚ) (s : CalendarScheduler) : Option CalendarScheduler :=
  if e.uid_ ≤ 0 then some s
  else
    let i := s.hash e.time_
    let list := (s.buckets_ i).list_
    if e ∉ list then none
    else
      let gone := cancelGone e list
      let count := (s.buckets_ i).count_ - gone
      let stat := s.stat_qsize_ - gone
      let list' := list.erase e
      if gone = 1 ∧ (stat < 0 ∨ count < 0) then none
      else if count = 0 ∧ list' ≠ [] then none
      else
        some { s with
          buckets_ := Function.update s.buckets_ i ⟨list', count⟩
          stat_qsize_ := stat
          qsize_ := s.qsize_ - 1 }

/-- The queue of a scheduler whose widths are computed by `π`. -/
def queue (π : WidthPolicy) : EventQueue ℚ CalendarScheduler where
  insert e s := some (insert π e s)
  cancel := cancel
  deque := deque π

/-- The constructor, with the two bound variables; the clock is at `SCHED_START`. -/
def new (adjust_new_width_interval : ℕ) (min_bin_width : ℚ) : CalendarScheduler :=
  reinit 4 ⟨1, one_pos⟩ 0
    { min_bin_width_ := min_bin_width
      adjust_new_width_interval_ := adjust_new_width_interval
      time_to_newwidth := adjust_new_width_interval
      head_search_ := 0, insert_search_ := 0, round_num_ := 0, gap_num_ := 0
      last_time_ := -2, avg_gap_ := -2
      width_ := ⟨1, one_pos⟩, diff0_ := 0, diff1_ := 0, diff2_ := 0
      stat_qsize_ := 0, nbuckets_ := 4, lastbucket_ := 0
      top_threshold_ := 0, bot_threshold_ := 0
      buckets_ := fun _ => ⟨[], 0⟩, qsize_ := 0, cal_clock_ := 0 }

end CalendarScheduler

end Ns2
