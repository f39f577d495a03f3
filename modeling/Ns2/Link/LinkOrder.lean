import Ns2.Link.LinkMoves
import Ns2.Lib.Machine

/-! The order of the packets on a link whose bandwidth and delay change: a link that avoids
reordering keeps it, and a dynamic link keeps it or ends the program. -/

namespace Ns2

def LinkInput.packet : LinkInput → Option LinkPacket
  | .recv p _ => some p
  | _ => none

def LinkOutput.sent? : LinkOutput → Option LinkPacket
  | .sent p _ => some p
  | _ => none

/-- The packet that comes out of the link, or is lost there. -/
def LinkOutput.left? : LinkOutput → Option LinkPacket
  | .delivered p _ => some p
  | .lost p => some p
  | _ => none

def LinkOutput.dropped? : LinkOutput → Option LinkPacket
  | .dropped p => some p
  | _ => none

namespace LinkDelay

variable {σ : Type*} {q : Discipline σ} {l l' : LinkDelay σ} {p : LinkPacket} {i : LinkInput}
  {o : List LinkOutput} {e : LinkEvent}

/-- Arrivals come in the order in which they were sent. -/
def Ordered (l : LinkDelay σ) : Prop := l.arrivals.Pairwise fun a b => a.time_ ≤ b.time_

theorem txtime_nonneg (hl : 0 < l.bandwidth_) (p : LinkPacket) : 0 ≤ l.txtime p := by
  unfold txtime
  positivity

theorem clock_le_arrivalTime (hb : 0 < l.bandwidth_) (hd : 0 ≤ l.delay_) (p : LinkPacket) :
    l.clock_ ≤ l.arrivalTime p := by
  have htx := txtime_nonneg hb p
  unfold arrivalTime
  split_ifs with hlate
  · simp only [late, Bool.and_eq_true, decide_eq_true_eq] at hlate
    linarith [hlate.2.1]
  · linarith

/-- The first of the arrivals is taken out, if they are in order or the link is dynamic. -/
theorem head_of_ordered (hord : l.Ordered) (hnext : next l.events = some e)
    (htask : e.task ≠ .resume) : ∃ rest, l.arrivals = e :: rest := by
  have he : e ∈ l.arrivals := mem_arrivals.mpr ⟨next_mem hnext, htask⟩
  cases harr : l.arrivals with
  | nil => simp [harr] at he
  | cons x rest =>
    have hx : x ∈ l.events := (mem_arrivals.mp (harr ▸ List.mem_cons_self)).1
    have hle : x.time_ ≤ e.time_ := by
      unfold Ordered at hord
      rw [harr] at hord he
      rcases List.mem_cons.mp he with rfl | hmem
      · exact le_rfl
      · exact (List.pairwise_cons.mp hord).1 e hmem
    obtain rfl := next_eq_head hnext htask harr (hle.antisymm (next_le hnext hx))
    exact ⟨rest, rfl⟩

theorem head_of_itq (hl : l.Inv q) (hdynamic : l.dynamic_ = true) (hnext : next l.events = some e)
    (htask : e.task ≠ .resume) {itq_ : List LinkEvent}
    (hitq : l.itq_ = ⟨e.time_, .arrival p⟩ :: itq_) :
    l.arrivals = e :: itq_ ∧ e.task = .arrival p := by
  rw [hl.itq hdynamic] at hitq
  have he : e = ⟨e.time_, .arrival p⟩ := next_eq_head hnext htask hitq rfl
  exact ⟨hitq.trans (congrArg (· :: itq_) he.symm), congrArg LinkEvent.task he⟩

theorem filterMap_dropped {β : Type*} {f : LinkOutput → Option β}
    (hf : ∀ p, f (.dropped p) = none) (ps : List LinkPacket) :
    (ps.map LinkOutput.dropped).filterMap f = [] := by
  rw [List.filterMap_map, List.filterMap_eq_nil_iff]
  exact fun p _ => hf p

theorem filterMap_drops (ps : List LinkPacket) :
    (ps.map LinkOutput.dropped).filterMap LinkOutput.dropped? = ps := by
  rw [List.filterMap_map]
  exact List.filterMap_some

theorem arrivals_reset (hl : l.Inv q) (hdynamic : l.dynamic_ = true) :
    arrivals { l with itq_ := [], events := l.events.filter (· ∉ l.itq_) } = [] := by
  rw [arrivals, List.filter_eq_nil_iff]
  intro e he htask
  obtain ⟨hmem, hnot⟩ := List.mem_filter.mp he
  rw [hl.itq hdynamic] at hnot
  exact of_decide_eq_true hnot (mem_arrivals.mpr ⟨hmem, of_decide_eq_true htask⟩)

theorem lost_reset (es : List LinkEvent) :
    (es.filterMap fun e => e.task.packet.map LinkOutput.lost).filterMap LinkOutput.left? =
      es.filterMap fun e => e.task.packet := by
  rw [List.filterMap_filterMap]
  refine List.filterMap_congr fun e _ => ?_
  cases e.task <;> rfl

/-- Packets leave the link in the order in which they were sent into it. -/
theorem Move.order (hl : l.Inv q) (hord : l.dynamic_ = true ∨ l.Ordered) (h : Move q l i l' o) :
    l.transit ++ o.filterMap LinkOutput.sent? = o.filterMap LinkOutput.left? ++ l'.transit := by
  cases h with
  | queued p now hrest =>
    rw [filterMap_dropped (fun _ => rfl), filterMap_dropped (fun _ => rfl), List.append_nil]
    rfl
  | begun p p' now pq hidle hdeque =>
    rw [List.filterMap_append, List.filterMap_append, filterMap_dropped (fun _ => rfl),
      filterMap_dropped (fun _ => rfl), transit_after]
    rfl
  | ended e hnext htask hdeque =>
    have harr := arrivals_advance_resume (l := l) htask
    rw [List.filterMap_nil, List.append_nil]
    exact congrArg (List.filterMap fun e => e.task.packet) harr.symm
  | resumed e p pq hnext htask hdeque =>
    have harr := arrivals_advance_resume (l := l) htask
    rw [transit_after]
    exact congrArg (List.filterMap (fun e => e.task.packet) · ++ [p]) harr.symm
  | arrived e p hnext htask hstatic =>
    obtain ⟨rest, hrest⟩ := head_of_ordered (hord.resolve_left (by simp [hstatic])) hnext
      (by simp [htask])
    rw [transit_advance hrest htask, List.filterMap_cons_none rfl, List.filterMap_nil,
      List.append_nil]
    rfl
  | handled e p itq_ hnext htask hdynamic hitq =>
    obtain ⟨hrest, htask'⟩ := head_of_itq hl hdynamic hnext htask hitq
    rw [transit_advance hrest htask', List.filterMap_cons_none rfl, List.filterMap_nil,
      List.append_nil]
    rfl
  | quiet hnext => rw [List.filterMap_nil, List.filterMap_nil, List.append_nil, List.nil_append]
  | setBandwidth b => exact List.append_nil _
  | setDelay d => exact List.append_nil _
  | reset hdynamic =>
    have hnone : (l.itq_.filterMap fun e => e.task.packet.map LinkOutput.lost).filterMap
        LinkOutput.sent? = [] := by
      rw [List.filterMap_filterMap, List.filterMap_eq_nil_iff]
      intro e _
      cases e.task <;> rfl
    rw [hnone, lost_reset, transit, transit, arrivals_reset hl hdynamic, hl.itq hdynamic]
    simp
  | kept hstatic => exact List.append_nil _

/-- What comes to the queue stays there, is sent or is dropped. -/
theorem Move.queues (h : Move q l i l' o) :
    (q.packets l.pq ++ i.packet.toList).Perm (q.packets l'.pq ++
      (o.filterMap LinkOutput.sent? ++ o.filterMap LinkOutput.dropped?)) := by
  cases h with
  | queued p now hrest =>
    rw [filterMap_dropped (fun _ => rfl), filterMap_drops, List.nil_append]
    exact (List.perm_append_singleton p _).trans (q.enque_packets p l.pq).symm
  | begun p p' now pq hidle hdeque =>
    rw [List.filterMap_append, List.filterMap_append, filterMap_dropped (fun _ => rfl),
      filterMap_drops]
    have hin := (List.perm_append_singleton p _).trans (q.enque_packets p l.pq).symm
    have hout := (q.deque_packets _ _ _ hdeque).append_right (q.enque p l.pq).2
    refine hin.trans (hout.trans ?_)
    show (p' :: (q.packets pq ++ (q.enque p l.pq).2)).Perm
      (q.packets pq ++ ([p'] ++ ((q.enque p l.pq).2 ++ [])))
    rw [List.append_nil]
    exact List.perm_middle.symm
  | ended e hnext htask hdeque => exact .refl _
  | resumed e p pq hnext htask hdeque =>
    rw [show LinkInput.dispatch.packet.toList = [] from rfl, List.append_nil]
    exact (q.deque_packets _ _ _ hdeque).trans (List.perm_append_singleton p _).symm
  | arrived e p hnext htask hstatic => exact .refl _
  | handled e p itq_ hnext htask hdynamic hitq => exact .refl _
  | quiet hnext => exact .refl _
  | setBandwidth b => exact .refl _
  | setDelay d => exact .refl _
  | reset hdynamic =>
    have hnone : ∀ f : LinkOutput → Option LinkPacket, (∀ p, f (.lost p) = none) →
        (l.itq_.filterMap fun e => e.task.packet.map LinkOutput.lost).filterMap f = [] := by
      intro f hf
      rw [List.filterMap_filterMap, List.filterMap_eq_nil_iff]
      intro e _
      cases e.task <;> simp [LinkTask.packet, hf]
    rw [hnone _ (fun _ => rfl), hnone _ (fun _ => rfl)]
    exact .refl _
  | kept hstatic => exact .refl _

/-- No packet is lost or doubled. -/
theorem Move.conserves (hl : l.Inv q) (hord : l.dynamic_ = true ∨ l.Ordered)
    (h : Move q l i l' o) :
    (q.packets l.pq ++ l.transit ++ i.packet.toList).Perm (q.packets l'.pq ++ l'.transit ++
      (o.filterMap LinkOutput.left? ++ o.filterMap LinkOutput.dropped?)) := by
  have hqueues := h.queues
  rw [List.perm_iff_count] at hqueues ⊢
  intro p
  have h1 := hqueues p
  have h2 := congrArg (List.count p) (h.order hl hord)
  simp only [List.count_append] at h1 h2 ⊢
  omega

theorem Inv.resume_not_mem (hl : l.Inv q) (hb : l.blocked_ = false) : .resume ∉ l.tasks := by
  have hcount := hl.resumes
  rw [hb] at hcount
  exact List.count_eq_zero.mp hcount

/-- The interrupt that is dispatched was the only one. -/
theorem Inv.resumed (hl : l.Inv q) (hnext : next l.events = some e) (htask : e.task = .resume) :
    l.blocked_ = true ∧ .resume ∉ (l.advance e).tasks := by
  have hcount := (tasks_advance (next_mem hnext)).count_eq .resume
  rw [hl.resumes, htask, List.count_cons_self] at hcount
  cases hb : l.blocked_ with
  | false => simp [hb] at hcount
  | true =>
    rw [hb, if_pos rfl] at hcount
    exact ⟨rfl, List.count_eq_zero.mp (by omega)⟩

theorem clocked_advance (hnext : next l.events = some e) :
    ∀ x ∈ (l.advance e).events, (l.advance e).clock_ ≤ x.time_ := fun _ hx =>
  next_le hnext (List.mem_of_mem_erase hx)

/-- A blocked queue whose interrupt does not wait may hand over a packet. -/
theorem inv_after (hclock : ∀ x ∈ l.events, l.clock_ ≤ x.time_) (hresume : .resume ∉ l.tasks)
    (hblocked : l.blocked_ = true) (hunblock : l.unblock_on_resume_ = true)
    (hb : 0 < l.bandwidth_) (hd : 0 ≤ l.delay_)
    (hitq : l.dynamic_ = true → l.itq_ = l.arrivals)
    (hdistinct : (q.packets (l.after p).pq ++ (l.after p).transit).Nodup) :
    (l.after p).Inv q := by
  refine ⟨fun x hx => ?_, ?_, hdistinct, fun hb => absurd (hblocked.symm.trans hb) (by simp),
    hunblock, hb, hd, fun hdynamic => ?_⟩
  · show l.clock_ ≤ x.time_
    simp only [after, List.mem_append, List.mem_cons, List.not_mem_nil, or_false] at hx
    rcases hx with hx | rfl | rfl
    · exact hclock x hx
    · exact clock_le_arrivalTime hb hd p
    · exact le_add_of_nonneg_right (txtime_nonneg hb p)
  · rw [tasks_after, List.count_append, List.count_eq_zero.mpr hresume]
    exact (if_pos hblocked).symm
  · rw [arrivals_after, ← hitq hdynamic]
    exact if_pos hdynamic

theorem Timely.distinct (hl : l.Inv q) (hi : l.Timely q i) :
    (q.packets l.pq ++ l.transit ++ i.packet.toList).Nodup := by
  cases i with
  | recv p now =>
    refine List.nodup_append.mpr ⟨hl.distinct, List.nodup_singleton p, fun x hx y hy hxy => ?_⟩
    obtain rfl : y = p := List.mem_singleton.mp hy
    exact hi.2.2 (hxy ▸ hx)
  | _ => simpa [LinkInput.packet] using hl.distinct

theorem Move.distinct (hl : l.Inv q) (hi : l.Timely q i) (hord : l.dynamic_ = true ∨ l.Ordered)
    (h : Move q l i l' o) : (q.packets l'.pq ++ l'.transit).Nodup :=
  ((h.conserves hl hord).nodup_iff.mp (hi.distinct hl)).of_append_left

/-- Every step keeps the invariant. -/
theorem Move.inv (hl : l.Inv q) (hi : l.Timely q i) (hord : l.dynamic_ = true ∨ l.Ordered)
    (h : Move q l i l' o) : l'.Inv q := by
  have hdistinct := h.distinct hl hi hord
  cases h with
  | queued p now hrest =>
    refine ⟨hi.2.1, hl.resumes, hdistinct, fun hb => ?_, hl.unblocks, hl.bandwidth, hl.delay,
      hl.itq⟩
    obtain hblocked | hnone := hrest
    · exact absurd (hblocked.symm.trans hb) (by simp)
    · exact q.deque_none _ hnone
  | begun p p' now pq hidle hdeque =>
    exact inv_after (l := { l with clock_ := now, pq, blocked_ := true }) hi.2.1
      (hl.resume_not_mem hidle) rfl hl.unblocks hl.bandwidth hl.delay hl.itq hdistinct
  | ended e hnext htask hdeque =>
    obtain ⟨-, hresume⟩ := hl.resumed hnext htask
    refine ⟨clocked_advance hnext, ?_, hdistinct, fun _ => q.deque_none _ hdeque, hl.unblocks,
      hl.bandwidth, hl.delay, fun hd => ?_⟩
    · show (l.advance e).tasks.count .resume = if !l.unblock_on_resume_ then 1 else 0
      rw [hl.unblocks, List.count_eq_zero.mpr hresume]
      rfl
    · exact (hl.itq hd).trans (arrivals_advance_resume htask).symm
  | resumed e p pq hnext htask hdeque =>
    obtain ⟨hblocked, hresume⟩ := hl.resumed hnext htask
    exact inv_after (l := { l.advance e with pq }) (clocked_advance hnext) hresume hblocked
      hl.unblocks hl.bandwidth hl.delay
      (fun hd => (hl.itq hd).trans (arrivals_advance_resume htask).symm) hdistinct
  | arrived e p hnext htask hstatic =>
    refine ⟨clocked_advance hnext, ?_, hdistinct, hl.idle, hl.unblocks, hl.bandwidth, hl.delay,
      fun hd => absurd (hstatic.symm.trans hd) (by simp)⟩
    have hcount := (tasks_advance (next_mem hnext)).count_eq .resume
    rw [hl.resumes, htask, List.count_cons_of_ne (by simp)] at hcount
    exact hcount.symm
  | handled e p itq_ hnext htask hdynamic hitq =>
    obtain ⟨hrest, htask'⟩ := head_of_itq hl hdynamic hnext htask hitq
    refine ⟨clocked_advance hnext, ?_, hdistinct, hl.idle, hl.unblocks, hl.bandwidth, hl.delay,
      fun _ => ?_⟩
    · have hcount := (tasks_advance (next_mem hnext)).count_eq .resume
      rw [hl.resumes, htask', List.count_cons_of_ne (by simp)] at hcount
      exact hcount.symm
    · show itq_ = (l.advance e).arrivals
      rw [arrivals_advance, hrest, List.erase_cons_head]
  | quiet hnext => exact hl
  | setBandwidth b => exact { hl with bandwidth := hi, distinct := hdistinct }
  | setDelay d => exact { hl with delay := hi, distinct := hdistinct }
  | reset hdynamic =>
    refine ⟨fun x hx => hl.clocked x (List.mem_of_mem_filter hx), ?_, hdistinct, hl.idle,
      hl.unblocks, hl.bandwidth, hl.delay, fun _ => (arrivals_reset hl hdynamic).symm⟩
    have hkept : ∀ x ∈ l.events, x.task = .resume → x ∉ l.itq_ := fun x _ htask hmem => by
      rw [hl.itq hdynamic] at hmem
      exact (mem_arrivals.mp hmem).2 htask
    rw [← hl.resumes]
    show List.count _ ((l.events.filter (· ∉ l.itq_)).map _) = List.count _ (l.events.map _)
    rw [List.count_eq_countP, List.count_eq_countP, List.countP_map, List.countP_map,
      List.countP_filter]
    refine List.countP_congr fun x hx => ?_
    simpa using hkept x hx
  | kept hstatic => exact hl

/-- The packet that is due was sent before the others. -/
def Turn (l : LinkDelay σ) : LinkInput → Prop
  | .dispatch => ∀ e, next l.events = some e → e.task ≠ .resume → l.arrivals.head? = some e
  | _ => True

theorem Ordered.turn (hord : l.Ordered) (i : LinkInput) : l.Turn i := by
  cases i with
  | dispatch =>
    intro e hnext htask
    obtain ⟨rest, hrest⟩ := head_of_ordered hord hnext htask
    rw [hrest]
    rfl
  | _ => trivial

theorem start_total (hp : p ∉ l.transit) (hresume : .resume ∉ l.tasks) :
    l.start p = some (l.after p, [.sent p l.clock_]) := by
  rw [start, send_eq (fun h => hp (mem_transit.mpr h)) hresume]
  rfl

theorem recv_total {now : ℚ} (hl : l.Inv q) (hi : l.Timely q (.recv p now)) :
    ∃ r, step q l (.recv p now) = some r := by
  rw [step, recv]
  by_cases hblocked : l.blocked_ = true
  · exact ⟨_, if_pos hblocked⟩
  · have hb : l.blocked_ = false := by simpa using hblocked
    rw [if_neg hblocked]
    cases hd : q.deque (q.enque p l.pq).1 with
    | none => exact ⟨_, rfl⟩
    | some r =>
      obtain ⟨p', pq⟩ := r
      have hp' : p' ∉ transit { l with clock_ := now, pq, blocked_ := true } := by
        intro hmem
        have hdistinct := hi.distinct hl
        have hperm := (q.enque_packets p l.pq).symm.trans
          ((q.deque_packets _ _ _ hd).append_right _)
        have hin : p' ∈ p :: q.packets l.pq := hperm.mem_iff.mpr (by simp)
        have hmem' : p' ∈ l.transit := hmem
        rcases List.mem_cons.mp hin with rfl | hin
        · exact hi.2.2 (List.mem_append_right _ hmem')
        · exact (List.disjoint_of_nodup_append hl.distinct) hin hmem'
      have hstart := start_total hp' (hl.resume_not_mem hb)
      exact ⟨_, congrArg (Option.map _) hstart⟩

theorem dispatch_total (hl : l.Inv q) (hturn : l.dynamic_ = true → l.Turn .dispatch) :
    ∃ r, step q l .dispatch = some r := by
  rw [step, dispatch]
  cases hnext : next l.events with
  | none => exact ⟨_, rfl⟩
  | some e =>
    cases htask : e.task with
    | resume =>
      simp only [htask, resume]
      cases hd : q.deque l.pq with
      | none => exact ⟨_, rfl⟩
      | some r =>
        obtain ⟨p, pq⟩ := r
        have hp : p ∉ transit { l.advance e with pq } := by
          intro hmem
          have hmem' : p ∈ (l.advance e).transit := hmem
          rw [transit, arrivals_advance_resume htask] at hmem'
          refine (List.disjoint_of_nodup_append hl.distinct) ?_ hmem'
          exact (q.deque_packets _ _ _ hd).mem_iff.mpr List.mem_cons_self
        exact ⟨_, start_total hp (hl.resumed hnext htask).2⟩
    | arrival p =>
      simp only [htask]
      by_cases hdyn : l.dynamic_ = true
      · have hhead := hturn hdyn e hnext (by simp [htask])
        rw [← hl.itq hdyn] at hhead
        obtain ⟨itq_, hitq⟩ := List.head?_eq_some_iff.mp hhead
        obtain ⟨time_, task⟩ := e
        obtain rfl : task = .arrival p := htask
        rw [if_pos hdyn, handle, hitq]
        exact ⟨_, if_pos rfl⟩
      · exact ⟨_, if_neg hdyn⟩

/-- The next event of a dynamic link whose turn has not come ends the program. -/
theorem Move.turn (hl : l.Inv q) (hdynamic : l.dynamic_ = true) (h : Move q l i l' o) :
    l.Turn i := by
  cases h with
  | ended e hnext htask hdeque =>
    intro e' hnext' htask'
    obtain rfl := Option.some.inj (hnext.symm.trans hnext')
    exact absurd htask htask'
  | resumed e p pq hnext htask hdeque =>
    intro e' hnext' htask'
    obtain rfl := Option.some.inj (hnext.symm.trans hnext')
    exact absurd htask htask'
  | arrived e p hnext htask hstatic => exact absurd (hstatic.symm.trans hdynamic) (by simp)
  | handled e p itq_ hnext htask _ hitq =>
    intro e' hnext' _
    obtain rfl := Option.some.inj (hnext.symm.trans hnext')
    rw [(head_of_itq hl hdynamic hnext htask hitq).1]
    rfl
  | quiet hnext =>
    intro e' hnext' _
    exact absurd (hnext.symm.trans hnext') (by simp)
  | _ => trivial

theorem step_total (hl : l.Inv q) (hi : l.Timely q i) (hturn : l.dynamic_ = true → l.Turn i) :
    ∃ r, step q l i = some r := by
  cases i with
  | recv p now => exact recv_total hl hi
  | dispatch => exact dispatch_total hl hturn
  | _ => exact ⟨_, rfl⟩

theorem ordered_after (hord : l.Ordered) (h : ∀ x ∈ l.arrivals, x.time_ ≤ l.arrivalTime p) :
    (l.after p).Ordered := by
  unfold Ordered
  rw [arrivals_after, List.pairwise_append]
  exact ⟨hord, List.pairwise_singleton _ _, fun x hx y hy => List.mem_singleton.mp hy ▸ h x hx⟩

theorem Ordered.advance (hord : l.Ordered) (e : LinkEvent) : (l.advance e).Ordered := by
  unfold Ordered
  rw [arrivals_advance]
  exact List.Pairwise.sublist List.erase_sublist hord

theorem mem_arrivals_advance {x : LinkEvent} (hx : x ∈ (l.advance e).arrivals) :
    x ∈ l.arrivals := by
  rw [arrivals_advance] at hx
  exact List.mem_of_mem_erase hx

/-- A static link that avoids reordering: nothing arrives after `latest_time_`. -/
structure Avoids (l : LinkDelay σ) : Prop where
  static : l.dynamic_ = false
  avoid : l.avoidReordering_ = true
  started : 0 ≤ l.clock_
  ordered : l.Ordered
  latest : ∀ x ∈ l.arrivals, x.time_ ≤ l.latest_time_

theorem Avoids.after (hv : l.Avoids) (hb : 0 < l.bandwidth_) (hd : 0 ≤ l.delay_)
    (p : LinkPacket) : (l.after p).Avoids := by
  have htx := txtime_nonneg hb p
  have hle : l.latest_time_ ≤ l.arrivalTime p ∨ l.latest_time_ ≤ 0 := by
    unfold arrivalTime
    split_ifs with hlate
    · left
      linarith
    · simp only [late, hv.static, hv.avoid, Bool.not_false, Bool.true_and, decide_eq_true_eq,
        not_and_or, not_lt] at hlate
      exact hlate.imp_left fun h => by linarith
  have hclock := clock_le_arrivalTime hb hd p
  have hall : ∀ x ∈ l.arrivals, x.time_ ≤ l.arrivalTime p := fun x hx => by
    rcases hle with hle | hle
    · exact (hv.latest x hx).trans hle
    · exact (hv.latest x hx).trans (hle.trans (hv.started.trans hclock))
  have hlatest : (l.after p).latest_time_ = l.arrivalTime p :=
    if_pos (by simp [hv.static, hv.avoid])
  refine ⟨hv.static, hv.avoid, hv.started, ordered_after hv.ordered hall, fun x hx => ?_⟩
  rw [hlatest]
  rw [arrivals_after] at hx
  rcases List.mem_append.mp hx with hx | hx
  · exact hall x hx
  · rw [List.mem_singleton.mp hx]

theorem Avoids.advance (hv : l.Avoids) (hl : l.Inv q) (hnext : next l.events = some e) :
    (l.advance e).Avoids :=
  ⟨hv.static, hv.avoid, hv.started.trans (hl.clocked e (next_mem hnext)), hv.ordered.advance e,
    fun x hx => hv.latest x (mem_arrivals_advance hx)⟩

theorem Move.avoids (hl : l.Inv q) (hi : l.Timely q i) (hv : l.Avoids) (h : Move q l i l' o) :
    l'.Avoids := by
  cases h with
  | queued p now hrest => exact { hv with started := hv.started.trans hi.1 }
  | begun p p' now pq hidle hdeque =>
    exact Avoids.after (l := { l with clock_ := now, pq, blocked_ := true })
      { hv with started := hv.started.trans hi.1 } hl.bandwidth hl.delay p'
  | ended e hnext htask hdeque => exact { hv.advance hl hnext with }
  | resumed e p pq hnext htask hdeque =>
    exact Avoids.after (l := { l.advance e with pq }) { hv.advance hl hnext with } hl.bandwidth
      hl.delay p
  | arrived e p hnext htask hstatic => exact hv.advance hl hnext
  | handled e p itq_ hnext htask hdynamic hitq =>
    exact absurd (hv.static.symm.trans hdynamic) (by simp)
  | quiet hnext => exact hv
  | setBandwidth b => exact { hv with }
  | setDelay d => exact { hv with }
  | reset hdynamic => exact absurd (hv.static.symm.trans hdynamic) (by simp)
  | kept hstatic => exact hv

/-- A link whose queue is empty and that nothing was sent into, at time 0. -/
def fresh (pq : σ) (bandwidth delay : ℚ) (dynamic avoid : Bool) : LinkDelay σ where
  pq
  blocked_ := false
  unblock_on_resume_ := true
  bandwidth_ := bandwidth
  delay_ := delay
  dynamic_ := dynamic
  avoidReordering_ := avoid
  latest_time_ := 0
  itq_ := []
  clock_ := 0
  events := []

theorem inv_fresh {pq : σ} {bandwidth delay : ℚ} (hpq : q.packets pq = []) (hb : 0 < bandwidth)
    (hd : 0 ≤ delay) (dynamic avoid : Bool) : (fresh pq bandwidth delay dynamic avoid).Inv q := by
  refine ⟨by simp [fresh], rfl, ?_, fun _ => hpq, rfl, hb, hd, fun _ => rfl⟩
  show (q.packets pq ++ []).Nodup
  rw [hpq]
  exact List.nodup_nil

/-- What a run keeps of its packets: those that left the link, with those in transit, are those
that were sent, in that order, and each packet that came is in one place. -/
structure Keeps (q : Discipline σ) (l : LinkDelay σ) (is : List LinkInput) (l' : LinkDelay σ)
    (out : List LinkOutput) : Prop where
  order : l.transit ++ out.filterMap LinkOutput.sent? =
    out.filterMap LinkOutput.left? ++ l'.transit
  places : (q.packets l.pq ++ l.transit ++ is.filterMap LinkInput.packet).Perm
    (q.packets l'.pq ++ l'.transit ++
      (out.filterMap LinkOutput.left? ++ out.filterMap LinkOutput.dropped?))

theorem Keeps.cons {l₁ l₂ l₃ : LinkDelay σ} {is : List LinkInput} {os : List LinkOutput}
    (hl : l₁.Inv q) (hord : l₁.dynamic_ = true ∨ l₁.Ordered) (h : Move q l₁ i l₂ o)
    (hrest : Keeps q l₂ is l₃ os) : Keeps q l₁ (i :: is) l₃ (o ++ os) := by
  constructor
  · rw [List.filterMap_append, List.filterMap_append, ← List.append_assoc, h.order hl hord,
      List.append_assoc, hrest.order, List.append_assoc]
  · have h1 := h.conserves hl hord
    have h2 := hrest.places
    have hcons : (i :: is).filterMap LinkInput.packet =
        i.packet.toList ++ is.filterMap LinkInput.packet := by
      cases hp : i.packet <;> simp [hp]
    rw [hcons, List.filterMap_append, List.filterMap_append]
    rw [List.perm_iff_count] at h1 h2 ⊢
    intro p
    have h1p := h1 p
    have h2p := h2 p
    simp only [List.count_append] at h1p h2p ⊢
    omega

theorem Keeps.nil (l : LinkDelay σ) : Keeps q l [] l [] :=
  ⟨List.append_nil _, .refl _⟩

theorem keeps_of_run {I : LinkDelay σ → Prop} (hI : ∀ l, I l → l.dynamic_ = true ∨ l.Ordered)
    (hstep : ∀ l i l' o, l.Inv q → l.Timely q i → I l → Move q l i l' o → I l')
    {is : List LinkInput} {l l' : LinkDelay σ} {os : List (List LinkOutput)} (hl : l.Inv q)
    (h0 : I l) (hok : Machine.Admits (step q) (Timely q) l is)
    (h : Machine.run (step q) l is = some (l', os)) : Keeps q l is l' os.flatten := by
  induction is generalizing l os with
  | nil =>
    cases h
    exact .nil _
  | cons i is ih =>
    obtain ⟨m, o, os', hs, hrun, rfl⟩ := Machine.run_cons_eq_some h
    have hmove := move_of_step hs
    exact .cons hl (hI _ h0) hmove
      (ih (hmove.inv hl hok.1 (hI _ h0)) (hstep _ i m o hl hok.1 h0 hmove) (hok.2 m o hs) hrun)

theorem Move.dynamic (h : Move q l i l' o) : l'.dynamic_ = l.dynamic_ := by
  cases h <;> rfl

theorem avoids_fresh (pq : σ) (bandwidth delay : ℚ) :
    (fresh pq bandwidth delay false true).Avoids :=
  ⟨rfl, rfl, le_rfl, .nil, by simp [fresh, arrivals]⟩

/-- Whatever happens to its bandwidth and delay, a link that avoids reordering never stops the
program, and its packets arrive in the order in which they were sent; none is lost or doubled. -/
theorem avoids_reordering {pq : σ} {bandwidth delay : ℚ} {is : List LinkInput}
    (hpq : q.packets pq = []) (hb : 0 < bandwidth) (hd : 0 ≤ delay)
    (hok : Machine.Admits (step q) (Timely q) (fresh pq bandwidth delay false true) is) :
    ∃ l os, Machine.run (step q) (fresh pq bandwidth delay false true) is = some (l, os) ∧
      os.flatten.filterMap LinkOutput.sent? =
        os.flatten.filterMap LinkOutput.left? ++ l.transit ∧
      (is.filterMap LinkInput.packet).Perm (q.packets l.pq ++ l.transit ++
        (os.flatten.filterMap LinkOutput.left? ++
          os.flatten.filterMap LinkOutput.dropped?)) := by
  have hinv := inv_fresh hpq hb hd false true
  have hstart := avoids_fresh pq bandwidth delay
  obtain ⟨l, os, hrun, -⟩ := Machine.run_total (I := fun l => l.Inv q ∧ l.Avoids)
    (fun l i hl hi => by
      obtain ⟨⟨m, o⟩, hs⟩ := step_total hl.1 hi fun hdyn =>
        absurd (hl.2.static.symm.trans hdyn) (by simp)
      have hmove := move_of_step hs
      exact ⟨m, o, hs, hmove.inv hl.1 hi (.inr hl.2.ordered), hmove.avoids hl.1 hi hl.2⟩)
    ⟨hinv, hstart⟩ hok
  have hkeeps := keeps_of_run (I := Avoids) (fun _ hv => .inr hv.ordered)
    (fun _ _ _ _ hl hi hv h => h.avoids hl hi hv) hinv hstart hok hrun
  have hplaces := hkeeps.places
  have hempty : q.packets (fresh pq bandwidth delay false true).pq = [] := hpq
  rw [hempty] at hplaces
  exact ⟨l, os, hrun, hkeeps.order, hplaces⟩

theorem run_iff_turn {is : List LinkInput} (hl : l.Inv q) (hdynamic : l.dynamic_ = true)
    (hok : Machine.Admits (step q) (Timely q) l is) :
    (∃ r, Machine.run (step q) l is = some r) ↔ Machine.Admits (step q) Turn l is := by
  induction is generalizing l with
  | nil => exact iff_of_true ⟨_, rfl⟩ trivial
  | cons i is ih =>
    have hnext : ∀ m o, step q l i = some (m, o) →
        ((∃ r, Machine.run (step q) m is = some r) ↔ Machine.Admits (step q) Turn m is) :=
      fun m o hs =>
        have hmove := move_of_step hs
        ih (hmove.inv hl hok.1 (.inl hdynamic)) (hmove.dynamic.trans hdynamic) (hok.2 m o hs)
    constructor
    · rintro ⟨⟨t, os⟩, h⟩
      obtain ⟨m, o, os', hs, hrun, -⟩ := Machine.run_cons_eq_some h
      exact Machine.admits_cons ((move_of_step hs).turn hl hdynamic) hs
        ((hnext m o hs).mp ⟨_, hrun⟩)
    · intro h
      obtain ⟨⟨m, o⟩, hs⟩ := step_total hl hok.1 fun _ => h.1
      obtain ⟨r, hrun⟩ := (hnext m o hs).mpr (h.2 m o hs)
      exact ⟨_, by rw [Machine.run_cons_some hs, hrun]; rfl⟩

/-- A dynamic link keeps the order too as long as it runs; it stops the program exactly when a
packet is due before one that was sent earlier. -/
theorem dynamic_in_order {pq : σ} {bandwidth delay : ℚ} {avoid : Bool} {is : List LinkInput}
    (hpq : q.packets pq = []) (hb : 0 < bandwidth) (hd : 0 ≤ delay)
    (hok : Machine.Admits (step q) (Timely q) (fresh pq bandwidth delay true avoid) is) :
    ((∃ r, Machine.run (step q) (fresh pq bandwidth delay true avoid) is = some r) ↔
      Machine.Admits (step q) Turn (fresh pq bandwidth delay true avoid) is) ∧
    ∀ l os, Machine.run (step q) (fresh pq bandwidth delay true avoid) is = some (l, os) →
      os.flatten.filterMap LinkOutput.sent? =
        os.flatten.filterMap LinkOutput.left? ++ l.transit ∧
      (is.filterMap LinkInput.packet).Perm (q.packets l.pq ++ l.transit ++
        (os.flatten.filterMap LinkOutput.left? ++
          os.flatten.filterMap LinkOutput.dropped?)) := by
  have hinv := inv_fresh hpq hb hd true avoid
  refine ⟨run_iff_turn hinv rfl hok, fun l os hrun => ?_⟩
  have hkeeps := keeps_of_run (I := fun l => l.dynamic_ = true) (fun _ h => .inl h)
    (fun _ _ _ _ _ _ hdynamic h => h.dynamic.trans hdynamic) hinv rfl hok hrun
  have hplaces := hkeeps.places
  have hempty : q.packets (fresh pq bandwidth delay true avoid).pq = [] := hpq
  rw [hempty] at hplaces
  exact ⟨hkeeps.order, hplaces⟩

/-- A drop-tail queue of ten packets. -/
def tenPackets : DropTail := ⟨10, 500, false, false, []⟩

/-- The delay falls while a packet is in transit, and the next packet would overtake it. -/
def shorterDelay : List LinkInput :=
  [.recv ⟨0, 125⟩ 0, .dispatch, .setDelay 0, .recv ⟨1, 125⟩ 1, .dispatch, .dispatch, .dispatch]

instance (q : Discipline DropTail) (l : LinkDelay DropTail) :
    ∀ i, Decidable (l.Timely q i)
  | .recv _ _ => inferInstanceAs (Decidable (_ ∧ _ ∧ _))
  | .setBandwidth _ => inferInstanceAs (Decidable (_ < _))
  | .setDelay _ => inferInstanceAs (Decidable (_ ≤ _))
  | .dispatch => inferInstanceAs (Decidable True)
  | .reset => inferInstanceAs (Decidable True)

theorem avoids_reordering_ten : ∃ l os,
    Machine.run (step DropTail.discipline) (fresh tenPackets 1000 10 false true) shorterDelay =
      some (l, os) ∧
      os.flatten.filterMap LinkOutput.sent? =
        os.flatten.filterMap LinkOutput.left? ++ l.transit ∧
      (shorterDelay.filterMap LinkInput.packet).Perm
        (DropTail.discipline.packets l.pq ++ l.transit ++
        (os.flatten.filterMap LinkOutput.left? ++
          os.flatten.filterMap LinkOutput.dropped?)) :=
  avoids_reordering rfl (by norm_num) (by norm_num) (by decide +kernel)

theorem dynamic_in_order_ten :
    ((∃ r, Machine.run (step DropTail.discipline) (fresh tenPackets 1000 10 true false)
      shorterDelay = some r) ↔
      Machine.Admits (step DropTail.discipline) Turn (fresh tenPackets 1000 10 true false)
        shorterDelay) ∧
    ∀ l os, Machine.run (step DropTail.discipline) (fresh tenPackets 1000 10 true false)
        shorterDelay = some (l, os) →
      os.flatten.filterMap LinkOutput.sent? =
        os.flatten.filterMap LinkOutput.left? ++ l.transit ∧
      (shorterDelay.filterMap LinkInput.packet).Perm
        (DropTail.discipline.packets l.pq ++ l.transit ++
        (os.flatten.filterMap LinkOutput.left? ++
          os.flatten.filterMap LinkOutput.dropped?)) :=
  dynamic_in_order rfl (by norm_num) (by norm_num) (by decide +kernel)

end LinkDelay

end Ns2
