import Ns2.Link.LinkDelay

/-! What each step of a queue and its link does, and what every step keeps: the interrupt event
waits exactly while the queue is blocked, and a queue that is not blocked is empty. -/

namespace Ns2

namespace LinkDelay

variable {σ : Type*} {q : Discipline σ} {l l' : LinkDelay σ} {p : LinkPacket} {i : LinkInput}
  {o : List LinkOutput} {e : LinkEvent}

def tasks (l : LinkDelay σ) : List LinkTask := l.events.map LinkEvent.task

def arrivals (l : LinkDelay σ) : List LinkEvent := l.events.filter fun e => e.task ≠ .resume

/-- The packets between the two ends, as they were sent. -/
def transit (l : LinkDelay σ) : List LinkPacket := l.arrivals.filterMap fun e => e.task.packet

/-- The branch that keeps a packet behind those sent before it. -/
def late (l : LinkDelay σ) (p : LinkPacket) : Bool :=
  !l.dynamic_ && l.avoidReordering_ &&
    (l.txtime p + l.delay_ < l.latest_time_ - l.clock_ ∧ l.latest_time_ > 0)

/-- When a packet that is sent now comes to the far end. -/
def arrivalTime (l : LinkDelay σ) (p : LinkPacket) : ℚ :=
  if l.late p then l.latest_time_ + l.txtime p else l.clock_ + (l.txtime p + l.delay_)

/-- What the link notes of a packet that it takes. -/
def note (l : LinkDelay σ) (p : LinkPacket) : LinkDelay σ :=
  { l with
    latest_time_ :=
      if !l.dynamic_ && l.avoidReordering_ then l.arrivalTime p else l.latest_time_
    itq_ := if l.dynamic_ then l.itq_ ++ [⟨l.arrivalTime p, .arrival p⟩] else l.itq_ }

/-- The link after it took a packet. -/
def after (l : LinkDelay σ) (p : LinkPacket) : LinkDelay σ :=
  { l.note p with
    events := l.events ++ [⟨l.arrivalTime p, .arrival p⟩, ⟨l.clock_ + l.txtime p, .resume⟩] }

theorem schedule_of_not_mem {task : LinkTask} (h : task ∉ l.tasks) (delay : ℚ) :
    l.schedule task delay = some { l with events := l.events ++ [⟨l.clock_ + delay, task⟩] } :=
  if_neg h

theorem schedule_eq_some {task : LinkTask} {delay : ℚ} (h : l.schedule task delay = some l') :
    task ∉ l.tasks ∧ l' = { l with events := l.events ++ [⟨l.clock_ + delay, task⟩] } := by
  unfold schedule at h
  split_ifs at h with htask
  exact ⟨htask, (Option.some.inj h).symm⟩

/-- The branches schedule the arrival and differ in what they note. -/
theorem propagate_eq (l : LinkDelay σ) (p : LinkPacket) :
    l.propagate p = (l.note p).schedule (.arrival p) (l.arrivalTime p - l.clock_) := by
  unfold propagate
  cases hdyn : l.dynamic_ with
  | true =>
    have hlate : l.late p = false := by simp [late, hdyn]
    simp [note, arrivalTime, hdyn, hlate]
  | false =>
    cases havoid : l.avoidReordering_ with
    | false =>
      have hlate : l.late p = false := by simp [late, hdyn, havoid]
      have hnote : l.note p = l := by
        rw [note, if_neg (by simp [havoid]), if_neg (by simp [hdyn])]
      simp [hnote, arrivalTime, hlate]
    | true =>
      by_cases hcond : l.txtime p + l.delay_ < l.latest_time_ - l.clock_ ∧ l.latest_time_ > 0
      · have hlate : l.late p = true := by simp [late, hdyn, havoid, hcond]
        simp [note, arrivalTime, hdyn, hlate, havoid, hcond]
      · have hlate : l.late p = false := by simpa [late, hdyn, havoid] using hcond
        simp [note, arrivalTime, hdyn, hlate, havoid, hcond, add_assoc]

/-- A packet is taken if neither it nor the interrupt waits already. -/
theorem send_eq (hp : .arrival p ∉ l.tasks) (hresume : .resume ∉ l.tasks) :
    l.send p = some (l.after p) := by
  have hp' : .arrival p ∉ (l.note p).tasks := hp
  rw [send, propagate_eq, schedule_of_not_mem hp', Option.bind_some, schedule_of_not_mem]
  · simp [after, note]
  · simpa [tasks, note] using hresume

theorem send_eq_some (h : l.send p = some l') :
    .arrival p ∉ l.tasks ∧ .resume ∉ l.tasks ∧ l' = l.after p := by
  obtain ⟨m, hm, hres⟩ := Option.bind_eq_some_iff.mp h
  rw [propagate_eq] at hm
  obtain ⟨hp, rfl⟩ := schedule_eq_some hm
  obtain ⟨hresume, -⟩ := schedule_eq_some hres
  have hresume' : LinkTask.resume ∉ l.tasks := by simpa [tasks, note] using hresume
  have hp' : .arrival p ∉ l.tasks := hp
  exact ⟨hp', hresume', Option.some.inj (h.symm.trans (send_eq hp' hresume'))⟩

/-- The clock at the next event, which is taken out. -/
def advance (l : LinkDelay σ) (e : LinkEvent) : LinkDelay σ :=
  { l with clock_ := e.time_, events := l.events.erase e }

/-- What a step does. -/
inductive Move (q : Discipline σ) (l : LinkDelay σ) :
    LinkInput → LinkDelay σ → List LinkOutput → Prop
  | queued (p : LinkPacket) (now : ℚ)
      (hrest : l.blocked_ = true ∨ q.deque (q.enque p l.pq).1 = none) :
      Move q l (.recv p now) { l with clock_ := now, pq := (q.enque p l.pq).1 }
        ((q.enque p l.pq).2.map LinkOutput.dropped)
  | begun (p p' : LinkPacket) (now : ℚ) (pq : σ) (hidle : l.blocked_ = false)
      (hdeque : q.deque (q.enque p l.pq).1 = some (p', pq)) :
      Move q l (.recv p now) (after { l with clock_ := now, pq, blocked_ := true } p')
        ((q.enque p l.pq).2.map LinkOutput.dropped ++ [.sent p' now])
  | ended (e : LinkEvent) (hnext : next l.events = some e) (htask : e.task = .resume)
      (hdeque : q.deque l.pq = none) :
      Move q l .dispatch { l.advance e with blocked_ := !l.unblock_on_resume_ } []
  | resumed (e : LinkEvent) (p : LinkPacket) (pq : σ) (hnext : next l.events = some e)
      (htask : e.task = .resume) (hdeque : q.deque l.pq = some (p, pq)) :
      Move q l .dispatch (after { l.advance e with pq } p) [.sent p e.time_]
  | arrived (e : LinkEvent) (p : LinkPacket) (hnext : next l.events = some e)
      (htask : e.task = .arrival p) (hstatic : l.dynamic_ = false) :
      Move q l .dispatch (l.advance e) [.delivered p e.time_]
  | handled (e : LinkEvent) (p : LinkPacket) (itq_ : List LinkEvent)
      (hnext : next l.events = some e) (htask : e.task ≠ .resume) (hdynamic : l.dynamic_ = true)
      (hitq : l.itq_ = ⟨e.time_, .arrival p⟩ :: itq_) :
      Move q l .dispatch { l.advance e with itq_ } [.delivered p e.time_]
  | quiet (hnext : next l.events = none) : Move q l .dispatch l []
  | setBandwidth (b : ℚ) : Move q l (.setBandwidth b) { l with bandwidth_ := b } []
  | setDelay (d : ℚ) : Move q l (.setDelay d) { l with delay_ := d } []
  | reset (hdynamic : l.dynamic_ = true) :
      Move q l .reset { l with itq_ := [], events := l.events.filter (· ∉ l.itq_) }
        (l.itq_.filterMap fun e => e.task.packet.map LinkOutput.lost)
  | kept (hstatic : l.dynamic_ = false) : Move q l .reset l []

theorem start_eq_some (h : l.start p = some (l', o)) : l' = l.after p ∧ o = [.sent p l.clock_] := by
  obtain ⟨m, hm, he⟩ := Option.map_eq_some_iff.mp h
  obtain ⟨rfl, rfl⟩ := Prod.mk.inj he
  exact ⟨(send_eq_some hm).2.2, rfl⟩

theorem move_recv {now : ℚ} (h : recv q { l with clock_ := now } p = some (l', o)) :
    Move q l (.recv p now) l' o := by
  cases hb : l.blocked_ with
  | true =>
    rw [recv, if_pos hb] at h
    cases h
    exact .queued p now (.inl hb)
  | false =>
    rw [recv, if_neg (by simp [hb])] at h
    cases hd : q.deque (q.enque p l.pq).1 with
    | none =>
      simp only [hd] at h
      cases h
      exact .queued p now (.inr hd)
    | some r =>
      obtain ⟨p', pq⟩ := r
      simp only [hd] at h
      obtain ⟨⟨m, o'⟩, hm, he⟩ := Option.map_eq_some_iff.mp h
      obtain ⟨rfl, rfl⟩ := start_eq_some hm
      cases he
      exact .begun p p' now pq hb hd

theorem move_dispatch (h : dispatch q l = some (l', o)) : Move q l .dispatch l' o := by
  unfold dispatch at h
  cases hnext : next l.events with
  | none =>
    simp only [hnext] at h
    cases h
    exact .quiet hnext
  | some e =>
    simp only [hnext] at h
    cases htask : e.task with
    | resume =>
      simp only [htask, resume] at h
      cases hd : q.deque l.pq with
      | none =>
        simp only [hd] at h
        cases h
        exact .ended e hnext htask hd
      | some r =>
        obtain ⟨p, pq⟩ := r
        simp only [hd] at h
        obtain ⟨rfl, rfl⟩ := start_eq_some h
        exact .resumed e p pq hnext htask hd
    | arrival p =>
      simp only [htask] at h
      cases hdyn : l.dynamic_ with
      | false =>
        rw [if_neg (by simp [hdyn])] at h
        cases h
        exact .arrived e p hnext htask hdyn
      | true =>
        rw [if_pos hdyn, handle] at h
        cases hitq : l.itq_ with
        | nil => simp [hitq] at h
        | cons x itq_ =>
          obtain ⟨time_, task⟩ := x
          simp only [hitq] at h
          split_ifs at h with htime
          cases task with
          | resume => simp at h
          | arrival p' =>
            cases h
            rw [htime] at hitq
            exact .handled e p' itq_ hnext (by simp [htask]) hdyn hitq

/-- Every step is one of the moves. -/
theorem move_of_step (h : step q l i = some (l', o)) : Move q l i l' o := by
  cases i with
  | recv p now => exact move_recv h
  | dispatch => exact move_dispatch h
  | setBandwidth b =>
    cases h
    exact .setBandwidth b
  | setDelay d =>
    cases h
    exact .setDelay d
  | reset =>
    simp only [step, LinkDelay.reset] at h
    split_ifs at h with hdyn
    · cases h
      exact .reset hdyn
    · cases h
      exact .kept (by simpa using hdyn)

/-- What holds between events: the interrupt waits exactly while the queue is blocked, a queue
that is not blocked is empty, and no packet is in two places. -/
structure Inv (q : Discipline σ) (l : LinkDelay σ) : Prop where
  clocked : ∀ e ∈ l.events, l.clock_ ≤ e.time_
  resumes : l.tasks.count .resume = if l.blocked_ then 1 else 0
  distinct : (q.packets l.pq ++ l.transit).Nodup
  idle : l.blocked_ = false → q.packets l.pq = []
  unblocks : l.unblock_on_resume_ = true
  bandwidth : 0 < l.bandwidth_
  delay : 0 ≤ l.delay_
  itq : l.dynamic_ = true → l.itq_ = l.arrivals

/-- The clock does not pass an event that waits, and a packet that comes is not there yet. -/
def Timely (q : Discipline σ) (l : LinkDelay σ) : LinkInput → Prop
  | .recv p now => l.clock_ ≤ now ∧ (∀ e ∈ l.events, now ≤ e.time_) ∧
      p ∉ q.packets l.pq ++ l.transit
  | .setBandwidth b => 0 < b
  | .setDelay d => 0 ≤ d
  | .dispatch => True
  | .reset => True

theorem next_mem (h : next l.events = some e) : e ∈ l.events := List.mem_of_find?_eq_some h

theorem next_le (h : next l.events = some e) {x : LinkEvent} (hx : x ∈ l.events) :
    e.time_ ≤ x.time_ := by
  have hall := List.find?_some h
  simp only [List.all_eq_true, decide_eq_true_eq] at hall
  exact hall x hx

/-- Of events at one time, the first that was inserted is next. -/
theorem next_eq_head (h : next l.events = some e) (htask : e.task ≠ .resume) {x : LinkEvent}
    {rest : List LinkEvent} (hx : l.arrivals = x :: rest) (htime : x.time_ = e.time_) : e = x := by
  obtain ⟨-, as, bs, hsplit, hbefore⟩ := List.find?_eq_some_iff_append.mp h
  have harrivals : l.arrivals = as.filter (fun e => e.task ≠ .resume) ++
      e :: bs.filter (fun e => e.task ≠ .resume) := by
    rw [arrivals, hsplit, List.filter_append, List.filter_cons_of_pos (by simpa using htask)]
  rw [hx] at harrivals
  cases has : as.filter (fun e => e.task ≠ .resume) with
  | nil =>
    rw [has] at harrivals
    exact (List.cons.inj harrivals).1.symm
  | cons y ys =>
    rw [has] at harrivals
    obtain rfl : x = y := (List.cons.inj harrivals).1
    have hmem : x ∈ as := List.mem_of_mem_filter (has ▸ List.mem_cons_self)
    have hnot := hbefore x hmem
    simp only [htime, Bool.not_eq_true', List.all_eq_false, decide_eq_true_eq] at hnot
    obtain ⟨z, hz, hlt⟩ := hnot
    exact absurd (next_le h hz) hlt

theorem mem_arrivals : e ∈ l.arrivals ↔ e ∈ l.events ∧ e.task ≠ .resume := by
  simp [arrivals, List.mem_filter]

theorem mem_transit : p ∈ l.transit ↔ .arrival p ∈ l.tasks := by
  constructor
  · intro h
    obtain ⟨e, he, hp⟩ := List.mem_filterMap.mp h
    refine List.mem_map.mpr ⟨e, (mem_arrivals.mp he).1, ?_⟩
    cases htask : e.task with
    | resume => simp [htask, LinkTask.packet] at hp
    | arrival p' => simpa [htask, LinkTask.packet] using hp
  · intro h
    obtain ⟨e, he, htask⟩ := List.mem_map.mp h
    exact List.mem_filterMap.mpr ⟨e, mem_arrivals.mpr ⟨he, by simp [htask]⟩, by
      simp [htask, LinkTask.packet]⟩

theorem arrivals_after (l : LinkDelay σ) (p : LinkPacket) :
    (l.after p).arrivals = l.arrivals ++ [⟨l.arrivalTime p, .arrival p⟩] := by
  simp [arrivals, after]

theorem transit_after (l : LinkDelay σ) (p : LinkPacket) :
    (l.after p).transit = l.transit ++ [p] := by
  rw [transit, arrivals_after, List.filterMap_append]
  rfl

theorem tasks_after (l : LinkDelay σ) (p : LinkPacket) :
    (l.after p).tasks = l.tasks ++ [.arrival p, .resume] := by
  simp [tasks, after]

theorem arrivals_advance (l : LinkDelay σ) (e : LinkEvent) :
    (l.advance e).arrivals = l.arrivals.erase e :=
  (List.erase_filter ..).symm

theorem arrivals_advance_resume (htask : e.task = .resume) :
    (l.advance e).arrivals = l.arrivals := by
  rw [arrivals_advance, List.erase_of_not_mem]
  exact fun h => (mem_arrivals.mp h).2 htask

theorem tasks_advance (h : e ∈ l.events) : l.tasks.Perm (e.task :: (l.advance e).tasks) :=
  (List.perm_cons_erase h).map LinkEvent.task

/-- The first arrival is taken out. -/
theorem transit_advance {rest : List LinkEvent} (hx : l.arrivals = e :: rest)
    (htask : e.task = .arrival p) : l.transit = p :: (l.advance e).transit := by
  rw [transit, transit, arrivals_advance, hx, List.erase_cons_head, List.filterMap_cons, htask]
  rfl

end LinkDelay

end Ns2
