import Ns2.Link.LinkOrder
import Ns2.Lib.SingleServer

/-! How long a packet takes through a queue and a link of fixed bandwidth and delay. -/

namespace Ns2

open SingleServer

def LinkInput.fixed : LinkInput → Prop
  | .setBandwidth _ => False
  | .setDelay _ => False
  | _ => True

/-- A packet and when its transmission began. -/
def LinkOutput.start? : LinkOutput → Option (LinkPacket × ℚ)
  | .sent p now => some (p, now)
  | _ => none

namespace LinkDelay

variable {σ : Type*} {q : Discipline σ} {l l' : LinkDelay σ} {p : LinkPacket} {i : LinkInput}
  {o : List LinkOutput} {e : LinkEvent}

/-- The line is free from `f` on: the interrupt is due then, or it is past. -/
def Free (l : LinkDelay σ) (f : ℚ) : Prop :=
  (∀ e ∈ l.events, e.task = .resume → e.time_ = f) ∧ (l.blocked_ = false → f ≤ l.clock_)

/-- Nothing in transit is due later than the delay after the line is free. -/
structure Steady (l : LinkDelay σ) (f : ℚ) : Prop where
  free : l.Free f
  ordered : l.Ordered
  due : ∀ x ∈ l.arrivals, x.time_ ≤ f + l.delay_
  latest : l.latest_time_ ≤ f + l.delay_

/-- The job that a packet is to the line. -/
def job (bandwidth : ℚ) (arrival : LinkPacket → ℚ) (p : LinkPacket) : Job ℚ :=
  ⟨arrival p, 8 * p.size / bandwidth⟩

def starts? (o : List LinkOutput) : List (LinkPacket × ℚ) := o.filterMap LinkOutput.start?

theorem starts?_dropped (ps : List LinkPacket) : starts? (ps.map LinkOutput.dropped) = [] :=
  filterMap_dropped (fun _ => rfl) ps

theorem starts?_sent (ps : List LinkPacket) (p : LinkPacket) (now : ℚ) :
    starts? (ps.map LinkOutput.dropped ++ [.sent p now]) = [(p, now)] := by
  rw [starts?, List.filterMap_append, filterMap_dropped (fun _ => rfl)]
  rfl

theorem starts?_lost (es : List LinkEvent) :
    starts? (es.filterMap fun e => e.task.packet.map LinkOutput.lost) = [] := by
  rw [starts?, List.filterMap_filterMap, List.filterMap_eq_nil_iff]
  intro e _
  cases e.task <;> rfl

theorem Steady.not_late {f : ℚ} (hs : l.Steady f) (hf : f ≤ l.clock_) (hb : 0 < l.bandwidth_)
    (p : LinkPacket) : l.late p = false := by
  have htx := txtime_nonneg hb p
  have hlatest := hs.latest
  simp only [late, Bool.and_eq_false_imp, decide_eq_false_iff_not, not_and_or, not_lt]
  intro _
  left
  linarith

theorem Steady.arrivalTime {f : ℚ} (hs : l.Steady f) (hf : f ≤ l.clock_) (hb : 0 < l.bandwidth_)
    (p : LinkPacket) : l.arrivalTime p = l.clock_ + (l.txtime p + l.delay_) := by
  rw [LinkDelay.arrivalTime, hs.not_late hf hb]
  rfl

/-- A packet that is sent when the line is free keeps it busy while it is transmitted. -/
theorem Steady.after {f : ℚ} (hs : l.Steady f) (hf : f ≤ l.clock_) (hb : 0 < l.bandwidth_)
    (hresume : .resume ∉ l.tasks) (hblocked : l.blocked_ = true) (p : LinkPacket) :
    (l.after p).Steady (l.clock_ + l.txtime p) := by
  have htx := txtime_nonneg hb p
  have htime := hs.arrivalTime hf hb p
  have hdue : ∀ x ∈ l.arrivals, x.time_ ≤ l.arrivalTime p := fun x hx => by
    have := hs.due x hx
    linarith
  refine ⟨⟨fun x hx htask => ?_, fun hfree => absurd (hblocked.symm.trans hfree) (by simp)⟩,
    ordered_after hs.ordered hdue, fun x hx => ?_, ?_⟩
  · simp only [LinkDelay.after, List.mem_append, List.mem_cons, List.not_mem_nil, or_false] at hx
    rcases hx with hx | rfl | rfl
    · exact absurd (List.mem_map.mpr ⟨x, hx, htask⟩) hresume
    · simp at htask
    · rfl
  · show x.time_ ≤ l.clock_ + l.txtime p + l.delay_
    rw [arrivals_after] at hx
    rcases List.mem_append.mp hx with hx | hx
    · have := hs.due x hx
      linarith
    · rw [List.mem_singleton.mp hx]
      linarith
  · have hlatest := hs.latest
    show (if !l.dynamic_ && l.avoidReordering_ then l.arrivalTime p else l.latest_time_) ≤
      l.clock_ + l.txtime p + l.delay_
    split_ifs
    · linarith
    · linarith

theorem Steady.advance {f : ℚ} (hs : l.Steady f) (hl : l.Inv q) (hnext : next l.events = some e) :
    (l.advance e).Steady f := by
  refine ⟨⟨fun x hx => hs.free.1 x (List.mem_of_mem_erase hx), fun hb => ?_⟩,
    hs.ordered.advance e, fun x hx => hs.due x (mem_arrivals_advance hx), hs.latest⟩
  exact (hs.free.2 hb).trans (hl.clocked e (next_mem hnext))

/-- Packets that wait came before now. -/
def Waiting (q : Discipline σ) (arrival : LinkPacket → ℚ) (l : LinkDelay σ) : Prop :=
  ∀ p ∈ q.packets l.pq, arrival p ≤ l.clock_

/-- Packets in transit are due a fixed time after their start. -/
def Dated (l : LinkDelay σ) (history : List (LinkPacket × ℚ)) : Prop :=
  ∀ x ∈ l.arrivals, ∀ p, x.task = .arrival p →
    (p, x.time_ - (l.txtime p + l.delay_)) ∈ history

/-- The state with what happened before, while the line is free from `f` on. -/
structure Served (q : Discipline σ) (arrival : LinkPacket → ℚ) (l : LinkDelay σ) (f : ℚ)
    (history : List (LinkPacket × ℚ)) : Prop where
  inv : l.Inv q
  steady : l.Steady f
  waiting : Waiting q arrival l
  dated : l.Dated history

/-- What a step serves: at most one packet, when the line is free. -/
structure Serves (q : Discipline σ) (arrival : LinkPacket → ℚ) (l : LinkDelay σ) (f : ℚ)
    (history : List (LinkPacket × ℚ)) (l' : LinkDelay σ) (o : List LinkOutput) : Prop where
  served : Served q arrival l' (finish f ((starts? o).map fun x => job l.bandwidth_ arrival x.1))
    (history ++ starts? o)
  times : (starts? o).map Prod.snd =
    starts f ((starts? o).map fun x => job l.bandwidth_ arrival x.1)
  delivered : ∀ p now, .delivered p now ∈ o →
    (p, now - (l.txtime p + l.delay_)) ∈ history ++ starts? o
  bandwidth : l'.bandwidth_ = l.bandwidth_
  delay : l'.delay_ = l.delay_

theorem Dated.after {f : ℚ} {history : List (LinkPacket × ℚ)} (hd : l.Dated history)
    (hs : l.Steady f) (hf : f ≤ l.clock_) (hb : 0 < l.bandwidth_) (p : LinkPacket) :
    (l.after p).Dated (history ++ [(p, l.clock_)]) := by
  intro x hx p' htask
  rw [arrivals_after] at hx
  rcases List.mem_append.mp hx with hx | hx
  · exact List.mem_append_left _ (hd x hx p' htask)
  · rw [List.mem_singleton.mp hx] at htask ⊢
    obtain rfl : p = p' := by simpa using htask
    refine List.mem_append_right _ (List.mem_singleton.mpr ?_)
    rw [hs.arrivalTime hf hb p]
    show (p, l.clock_ + (l.txtime p + l.delay_) - (l.txtime p + l.delay_)) = _
    rw [add_sub_cancel_right]

theorem Dated.advance {history : List (LinkPacket × ℚ)} (hd : l.Dated history) (e : LinkEvent) :
    (l.advance e).Dated history := fun x hx => hd x (mem_arrivals_advance hx)

/-- A packet that starts when the line is free. -/
theorem serves_after {arrival : LinkPacket → ℚ} {f : ℚ} {history : List (LinkPacket × ℚ)}
    (hinv : (l.after p).Inv q) (hs : l.Steady f) (hf : f ≤ l.clock_)
    (hmax : max f (arrival p) = l.clock_)
    (hb : 0 < l.bandwidth_) (hresume : .resume ∉ l.tasks) (hblocked : l.blocked_ = true)
    (hw : Waiting q arrival l) (hd : l.Dated history) (drops : List LinkPacket) :
    Serves q arrival l f history (l.after p)
      (drops.map LinkOutput.dropped ++ [.sent p l.clock_]) := by
  have hstarts :
      starts? (drops.map LinkOutput.dropped ++ [.sent p l.clock_]) = [(p, l.clock_)] :=
    starts?_sent drops p l.clock_
  constructor
  · rw [hstarts]
    refine ⟨hinv, ?_, hw, hd.after hs hf hb p⟩
    show (l.after p).Steady (max f (arrival p) + l.txtime p)
    rw [hmax]
    exact hs.after hf hb hresume hblocked p
  · rw [hstarts]
    show [l.clock_] = [max f (arrival p)]
    rw [hmax]
  · intro p' now hmem
    simp at hmem
  · rfl
  · rfl

/-- A step that sends nothing. -/
theorem serves_idle {arrival : LinkPacket → ℚ} {f : ℚ} {history : List (LinkPacket × ℚ)}
    (h : Served q arrival l' f history) (hnone : starts? o = [])
    (hdel : ∀ p now, .delivered p now ∈ o → (p, now - (l.txtime p + l.delay_)) ∈ history)
    (hb : l'.bandwidth_ = l.bandwidth_) (hd : l'.delay_ = l.delay_) :
    Serves q arrival l f history l' o := by
  refine ⟨?_, ?_, fun p now hmem => List.mem_append_left _ (hdel p now hmem), hb, hd⟩
  · rw [hnone, List.append_nil]
    exact h
  · rw [hnone]
    rfl

/-- A packet that starts at once was alone in the queue. -/
theorem begun_alone {p' : LinkPacket} {pq : σ} (hl : l.Inv q) (hidle : l.blocked_ = false)
    (hdeque : q.deque (q.enque p l.pq).1 = some (p', pq)) : p = p' ∧ q.packets pq = [] := by
  have hperm := (q.enque_packets p l.pq).symm.trans
    ((q.deque_packets _ _ _ hdeque).append_right _)
  rw [hl.idle hidle] at hperm
  obtain ⟨hp, hrest⟩ := List.cons.inj (List.singleton_perm.mp hperm)
  exact ⟨hp, (List.append_eq_nil_iff.mp hrest.symm).1⟩

theorem Move.serves {arrival : LinkPacket → ℚ} {f : ℚ} {history : List (LinkPacket × ℚ)}
    (h : Served q arrival l f history) (hi : l.Timely q i) (hfixed : i.fixed)
    (harrival : ∀ p now, i = .recv p now → now = arrival p) (hmove : Move q l i l' o) :
    Serves q arrival l f history l' o := by
  have hinv := hmove.inv h.inv hi (.inr h.steady.ordered)
  cases hmove with
  | queued p now hrest =>
    have hnow := harrival p now rfl
    refine serves_idle ⟨hinv, ⟨⟨h.steady.free.1, fun hb => (h.steady.free.2 hb).trans hi.1⟩,
      h.steady.ordered, h.steady.due, h.steady.latest⟩, ?_, h.dated⟩ (starts?_dropped _)
      (fun p now hmem => by simp at hmem) rfl rfl
    intro p' hp'
    have hin : p' ∈ p :: q.packets l.pq :=
      (q.enque_packets p l.pq).mem_iff.mp (List.mem_append_left _ hp')
    rcases List.mem_cons.mp hin with rfl | hin
    · exact hnow.ge
    · exact (h.waiting p' hin).trans hi.1
  | begun p p' now pq hidle hdeque =>
    have hnow := harrival p now rfl
    obtain ⟨rfl, hpq⟩ := begun_alone h.inv hidle hdeque
    have hf : f ≤ now := (h.steady.free.2 hidle).trans hi.1
    have hmax : max f (arrival p) = now := by
      rw [← hnow]
      exact max_eq_right hf
    have hwaiting : Waiting q arrival { l with clock_ := now, pq, blocked_ := true } := by
      intro p' hp'
      have hnil : p' ∈ q.packets pq := hp'
      rw [hpq] at hnil
      simp at hnil
    obtain ⟨h1, h2, h3, h4, h5⟩ := serves_after
      (l := { l with clock_ := now, pq, blocked_ := true }) hinv
      ⟨⟨h.steady.free.1, fun _ => hf⟩, h.steady.ordered, h.steady.due, h.steady.latest⟩ hf hmax
      h.inv.bandwidth (h.inv.resume_not_mem hidle) rfl hwaiting h.dated (q.enque p l.pq).2
    exact ⟨h1, h2, h3, h4, h5⟩
  | ended e hnext htask hdeque =>
    have hadvance := h.steady.advance h.inv hnext
    have hf : e.time_ = f := h.steady.free.1 e (next_mem hnext) htask
    refine serves_idle ⟨hinv, ⟨⟨hadvance.free.1, fun _ => hf.ge⟩, hadvance.ordered, hadvance.due,
      hadvance.latest⟩, ?_, h.dated.advance e⟩ rfl (fun p now hmem => by simp at hmem) rfl rfl
    intro p hp
    have hp' : p ∈ q.packets l.pq := hp
    rw [q.deque_none _ hdeque] at hp'
    simp at hp'
  | resumed e p pq hnext htask hdeque =>
    have hf : e.time_ = f := h.steady.free.1 e (next_mem hnext) htask
    have hclock := h.inv.clocked e (next_mem hnext)
    obtain ⟨hblocked, hresume⟩ := h.inv.resumed hnext htask
    have hadvance := h.steady.advance h.inv hnext
    have hpackets := q.deque_packets _ _ _ hdeque
    have hp : arrival p ≤ e.time_ :=
      (h.waiting p (hpackets.mem_iff.mpr List.mem_cons_self)).trans hclock
    have hmax : max f (arrival p) = e.time_ := by
      rw [← hf]
      exact max_eq_left hp
    have hwaiting : Waiting q arrival { l.advance e with pq } := fun p' hp' =>
      (h.waiting p' (hpackets.mem_iff.mpr (List.mem_cons_of_mem p hp'))).trans hclock
    obtain ⟨h1, h2, h3, h4, h5⟩ := serves_after (l := { l.advance e with pq }) hinv
      ⟨hadvance.free, hadvance.ordered, hadvance.due, hadvance.latest⟩ hf.ge hmax h.inv.bandwidth
      hresume hblocked hwaiting (h.dated.advance e) []
    exact ⟨h1, h2, h3, h4, h5⟩
  | arrived e p hnext htask hstatic =>
    refine serves_idle ⟨hinv, h.steady.advance h.inv hnext, fun p' hp' =>
      (h.waiting p' hp').trans (h.inv.clocked e (next_mem hnext)), h.dated.advance e⟩ rfl
      (fun p' now hmem => ?_) rfl rfl
    obtain ⟨rfl, rfl⟩ : p' = p ∧ now = e.time_ := by simpa using hmem
    exact h.dated e (mem_arrivals.mpr ⟨next_mem hnext, by simp [htask]⟩) p' htask
  | handled e p itq_ hnext htask hdynamic hitq =>
    obtain ⟨hrest, htask'⟩ := head_of_itq h.inv hdynamic hnext htask hitq
    have hadvance := h.steady.advance h.inv hnext
    refine serves_idle ⟨hinv, ⟨hadvance.free, hadvance.ordered, hadvance.due, hadvance.latest⟩,
      fun p' hp' => (h.waiting p' hp').trans (h.inv.clocked e (next_mem hnext)),
      h.dated.advance e⟩ rfl (fun p' now hmem => ?_) rfl rfl
    obtain ⟨rfl, rfl⟩ : p' = p ∧ now = e.time_ := by simpa using hmem
    exact h.dated e (mem_arrivals.mpr ⟨next_mem hnext, htask⟩) p' htask'
  | quiet hnext => exact serves_idle h rfl (fun p now hmem => by simp at hmem) rfl rfl
  | setBandwidth b => exact hfixed.elim
  | setDelay d => exact hfixed.elim
  | reset hdynamic =>
    have harr := arrivals_reset h.inv hdynamic
    refine serves_idle ⟨hinv, ⟨⟨fun x hx => h.steady.free.1 x (List.mem_of_mem_filter hx),
      h.steady.free.2⟩, ?_, ?_, h.steady.latest⟩, h.waiting, ?_⟩ (starts?_lost _)
      (fun p now hmem => ?_) rfl rfl
    · unfold Ordered
      rw [harr]
      exact .nil
    · rw [harr]
      simp
    · unfold Dated
      rw [harr]
      simp
    · obtain ⟨x, -, hx⟩ := List.mem_filterMap.mp hmem
      cases htask : x.task <;> simp [htask, LinkTask.packet] at hx
  | kept hstatic => exact serves_idle h rfl (fun p now hmem => by simp at hmem) rfl rfl

theorem Serves.trans {arrival : LinkPacket → ℚ} {f : ℚ} {history : List (LinkPacket × ℚ)}
    {m : LinkDelay σ} {os : List LinkOutput} (h : Serves q arrival l f history m o)
    (hrest : Serves q arrival m (finish f ((starts? o).map fun x => job l.bandwidth_ arrival x.1))
      (history ++ starts? o) l' os) : Serves q arrival l f history l' (o ++ os) := by
  have hstarts : starts? (o ++ os) = starts? o ++ starts? os := List.filterMap_append
  obtain ⟨hserved, htimes, hdelivered, hb, hd⟩ := hrest
  rw [h.bandwidth] at hserved htimes
  refine ⟨?_, ?_, fun p now hmem => ?_, hb.trans h.bandwidth, hd.trans h.delay⟩
  · rw [hstarts, List.map_append, finish_append, ← List.append_assoc]
    exact hserved
  · rw [hstarts, List.map_append, List.map_append, starts_append, h.times, htimes]
  · rw [hstarts, ← List.append_assoc]
    rcases List.mem_append.mp hmem with hmem | hmem
    · exact List.mem_append_left _ (h.delivered p now hmem)
    · have := hdelivered p now hmem
      rwa [txtime, h.bandwidth, h.delay] at this

/-- What the inputs of a run at fixed bandwidth and delay are, with the time each packet comes. -/
structure Fixed (arrival : LinkPacket → ℚ) (is : List LinkInput) : Prop where
  fixed : ∀ i ∈ is, i.fixed
  arrival : ∀ p now, .recv p now ∈ is → now = arrival p

theorem serves_run {arrival : LinkPacket → ℚ} {f : ℚ} {history : List (LinkPacket × ℚ)}
    {is : List LinkInput} (h : Served q arrival l f history) (hfixed : Fixed arrival is)
    (hok : Machine.Admits (step q) (Timely q) l is) :
    ∃ l' os, Machine.run (step q) l is = some (l', os) ∧
      Serves q arrival l f history l' os.flatten := by
  induction is generalizing l f history with
  | nil => exact ⟨l, [], rfl, serves_idle h rfl (fun p now hmem => by simp at hmem) rfl rfl⟩
  | cons i is ih =>
    obtain ⟨⟨m, o⟩, hs⟩ := step_total h.inv hok.1 fun _ => h.steady.ordered.turn i
    have hserves := (move_of_step hs).serves h hok.1 (hfixed.fixed i List.mem_cons_self)
      fun p now hi => hfixed.arrival p now (hi ▸ List.mem_cons_self)
    obtain ⟨l', os, hrun, hrest⟩ := ih hserves.served
      ⟨fun j hj => hfixed.fixed j (List.mem_cons_of_mem i hj),
        fun p now hj => hfixed.arrival p now (List.mem_cons_of_mem i hj)⟩ (hok.2 m o hs)
    exact ⟨l', o :: os, by rw [Machine.run_cons_some hs, hrun]; rfl, hserves.trans hrest⟩

theorem served_fresh {pq : σ} {bandwidth delay : ℚ} (hpq : q.packets pq = []) (hb : 0 < bandwidth)
    (hd : 0 ≤ delay) (dynamic avoid : Bool) (arrival : LinkPacket → ℚ) :
    Served q arrival (fresh pq bandwidth delay dynamic avoid) 0 [] := by
  refine ⟨inv_fresh hpq hb hd dynamic avoid, ⟨⟨fun e he => by simp [fresh] at he, fun _ => le_rfl⟩,
    .nil, fun x hx => by simp [fresh, arrivals] at hx, ?_⟩, fun p hp => ?_,
    fun x hx => by simp [fresh, arrivals] at hx⟩
  · show (0 : ℚ) ≤ 0 + delay
    linarith
  · have hp' : p ∈ q.packets pq := hp
    simp [hpq] at hp'

/-- Any queue that is not idle while packets wait, on a link of fixed bandwidth and delay: in the
order in which the queue serves them, packets start when a single server would start them, and
arrive their transmission time and the delay later. -/
theorem served_in_turn {pq : σ} {bandwidth delay : ℚ} {dynamic avoid : Bool}
    {arrival : LinkPacket → ℚ} {is : List LinkInput} (hpq : q.packets pq = [])
    (hb : 0 < bandwidth) (hd : 0 ≤ delay) (hfixed : Fixed arrival is)
    (hok : Machine.Admits (step q) (Timely q) (fresh pq bandwidth delay dynamic avoid) is) :
    ∃ l os, Machine.run (step q) (fresh pq bandwidth delay dynamic avoid) is = some (l, os) ∧
      (starts? os.flatten).map Prod.snd =
        starts 0 ((starts? os.flatten).map fun x => job bandwidth arrival x.1) ∧
      ∀ p now, .delivered p now ∈ os.flatten →
        (p, now - (8 * p.size / bandwidth + delay)) ∈ starts? os.flatten := by
  obtain ⟨l, os, hrun, hserves⟩ :=
    serves_run (served_fresh hpq hb hd dynamic avoid arrival) hfixed hok
  exact ⟨l, os, hrun, hserves.times, hserves.delivered⟩

/-- Two packets of a second each come at once. -/
def twoAtOnce : List LinkInput :=
  [.recv ⟨0, 125⟩ 0, .recv ⟨1, 125⟩ 0, .dispatch, .dispatch, .dispatch, .dispatch]

instance : ∀ i : LinkInput, Decidable i.fixed
  | .setBandwidth _ => inferInstanceAs (Decidable False)
  | .setDelay _ => inferInstanceAs (Decidable False)
  | .recv _ _ => inferInstanceAs (Decidable True)
  | .dispatch => inferInstanceAs (Decidable True)
  | .reset => inferInstanceAs (Decidable True)

theorem fixed_twoAtOnce : Fixed (fun _ => 0) twoAtOnce := by
  refine ⟨by decide, fun p now h => ?_⟩
  simp only [twoAtOnce, List.mem_cons, LinkInput.recv.injEq, reduceCtorEq, List.not_mem_nil,
    or_false] at h
  rcases h with ⟨-, h⟩ | ⟨-, h⟩ <;> exact h

theorem served_in_turn_two : ∃ l os,
    Machine.run (step DropTail.discipline) (fresh tenPackets 1000 10 false false) twoAtOnce =
      some (l, os) ∧
      (starts? os.flatten).map Prod.snd =
        starts 0 ((starts? os.flatten).map fun x => job 1000 (fun _ => 0) x.1) ∧
      ∀ p now, .delivered p now ∈ os.flatten →
        (p, now - (8 * p.size / 1000 + 10)) ∈ starts? os.flatten :=
  served_in_turn rfl (by norm_num) (by norm_num) fixed_twoAtOnce (by decide +kernel)

end LinkDelay

end Ns2
