import Ns2.Link.LinkService

/-! How long a drop-tail queue and its link keep a packet at most. -/

namespace Ns2

open SingleServer

namespace LinkDelay

variable {p : LinkPacket} {l l' : LinkDelay DropTail} {i : LinkInput} {o : List LinkOutput}
  {arrival : LinkPacket → ℚ} {f : ℚ} {longest : ℕ} {history : List (LinkPacket × ℚ)}

/-- The bytes that may wait, if no packet is longer than `longest`. -/
def room (s : DropTail) (longest : ℕ) : ℚ :=
  if s.qib_ then s.qlimBytes else (s.qlim_ - 1) * longest

def bytes (ps : List LinkPacket) : ℚ := (ps.map fun p => (p.size : ℚ)).sum

/-- A queue in bytes drops the packet that comes; the sizes of what waits fit. -/
structure Fits (s : DropTail) (longest : ℕ) : Prop where
  front : s.qib_ = true → s.drop_front_ = false
  sizes : ∀ p ∈ s.q_, p.size ≤ longest
  fits : s.q_ ≠ [] →
    if s.qib_ then DropTail.byteLength s.q_ < s.qlimBytes else (s.q_.length : ℤ) < s.qlim_

theorem bytes_append (ps qs : List LinkPacket) : bytes (ps ++ qs) = bytes ps + bytes qs := by
  simp [bytes]

theorem bytes_cons (p : LinkPacket) (ps : List LinkPacket) :
    bytes (p :: ps) = p.size + bytes ps := by
  simp [bytes]

theorem bytes_nonneg (ps : List LinkPacket) : 0 ≤ bytes ps := by
  induction ps with
  | nil => exact le_rfl
  | cons p ps ih =>
    rw [bytes_cons]
    positivity

theorem bytes_le {ps : List LinkPacket} {longest : ℕ} (h : ∀ p ∈ ps, p.size ≤ longest) :
    bytes ps ≤ ps.length * longest := by
  induction ps with
  | nil => simp [bytes]
  | cons p ps ih =>
    have hp : (p.size : ℚ) ≤ longest := by exact_mod_cast h p List.mem_cons_self
    have hps := ih fun x hx => h x (List.mem_cons_of_mem p hx)
    rw [bytes_cons, List.length_cons]
    push_cast
    linarith

theorem bytes_eq (ps : List LinkPacket) : bytes ps = (DropTail.byteLength ps : ℚ) := by
  induction ps with
  | nil => rfl
  | cons p ps ih =>
    rw [bytes_cons, ih, DropTail.byteLength, DropTail.byteLength, List.map_cons, List.sum_cons]
    push_cast
    rfl

theorem Fits.bytes_le {s : DropTail} {longest : ℕ} (h : Fits s longest) (hne : s.q_ ≠ []) :
    bytes s.q_ ≤ room s longest := by
  have hfits := h.fits hne
  unfold room
  split_ifs at hfits ⊢ with hqib
  · rw [bytes_eq]
    exact_mod_cast hfits.le
  · have hlen : (s.q_.length : ℚ) ≤ s.qlim_ - 1 := by
      have : (s.q_.length : ℤ) ≤ s.qlim_ - 1 := by omega
      exact_mod_cast this
    exact (LinkDelay.bytes_le h.sizes).trans (mul_le_mul_of_nonneg_right hlen (Nat.cast_nonneg _))

theorem Fits.room_nonneg {s : DropTail} {longest : ℕ} (h : Fits s longest) (hne : s.q_ ≠ []) :
    0 ≤ room s longest := (bytes_nonneg _).trans (h.bytes_le hne)

/-- A packet that is taken leaves the queue within its bounds. -/
theorem Fits.enque {s : DropTail} {longest : ℕ} (h : Fits s longest) (hp : p.size ≤ longest) :
    Fits (s.enque p).1 longest := by
  obtain ⟨-, -, he⟩ | ⟨pp, q, hfull, hfront, hq, he⟩ | ⟨hfull, he⟩ := s.enque_cases p
  · rw [he]
    exact h
  · have hqib : s.qib_ = false := by
      cases hb : s.qib_ with
      | false => rfl
      | true => exact absurd (hfront.symm.trans (h.front hb)) (by simp)
    have hlen : s.q_.length = q.length := by simpa using congrArg List.length hq
    rw [he]
    refine ⟨h.front, fun x hx => ?_, fun hne => ?_⟩
    · have hmem : x ∈ s.q_ ++ [p] := hq ▸ List.mem_cons_of_mem pp hx
      rcases List.mem_append.mp hmem with hmem | hmem
      · exact h.sizes x hmem
      · exact List.mem_singleton.mp hmem ▸ hp
    · have hne' : s.q_ ≠ [] := fun hnil => hne (List.length_eq_zero_iff.mp (by simp [← hlen, hnil]))
      have hfits := h.fits hne'
      simp only [hqib, Bool.false_eq_true, if_false] at hfits ⊢
      omega
  · rw [he]
    refine ⟨h.front, fun x hx => ?_, fun _ => ?_⟩
    · rcases List.mem_append.mp hx with hx | hx
      · exact h.sizes x hx
      · exact List.mem_singleton.mp hx ▸ hp
    · cases hb : s.qib_ with
      | false =>
        simp only [DropTail.full, hb, Bool.not_false, Bool.true_and, Bool.false_and, Bool.or_false,
          decide_eq_false_iff_not] at hfull
        simp only [Bool.false_eq_true, if_false, List.length_append, List.length_singleton]
        push_cast
        omega
      | true =>
        simp only [DropTail.full, hb, Bool.not_true, Bool.true_and, Bool.false_and, Bool.false_or,
          decide_eq_false_iff_not] at hfull
        simp only [if_true, DropTail.byteLength, List.map_append, List.sum_append, List.map_cons,
          List.map_nil, List.sum_singleton]
        simp only [DropTail.byteLength] at hfull
        exact not_le.mp hfull

/-- The new packet is the last, behind what is left of the others. -/
theorem enque_suffix (p : LinkPacket) (s : DropTail) :
    (s.enque p).1.q_ = s.q_ ∨ ∃ front, s.q_ ++ [p] = front ++ (s.enque p).1.q_ := by
  obtain ⟨-, -, he⟩ | ⟨pp, q, -, -, hq, he⟩ | ⟨-, he⟩ := s.enque_cases p
  · exact .inl (by rw [he])
  · exact .inr ⟨[pp], by rw [he]; exact hq⟩
  · exact .inr ⟨[], by rw [he]; rfl⟩

theorem room_enque (p : LinkPacket) (s : DropTail) (longest : ℕ) :
    room (s.enque p).1 longest = room s longest := by
  obtain ⟨-, -, he⟩ | ⟨pp, q, -, -, hq, he⟩ | ⟨-, he⟩ := s.enque_cases p <;> rw [he] <;> rfl

/-- When a packet is through the line at the latest. -/
def deadline (arrival : LinkPacket → ℚ) (longest : ℕ) (l : LinkDelay DropTail) (p : LinkPacket) :
    ℚ :=
  arrival p + 8 * (longest + room l.pq longest) / l.bandwidth_

/-- Each packet that waits will meet its deadline, with those before it. -/
structure Prompt (arrival : LinkPacket → ℚ) (longest : ℕ) (l : LinkDelay DropTail) (f : ℚ) :
    Prop where
  fits : Fits l.pq longest
  soon : f ≤ l.clock_ + 8 * longest / l.bandwidth_
  waits : ∀ as p bs, l.pq.q_ = as ++ p :: bs →
    f + 8 * (bytes as + p.size) / l.bandwidth_ ≤ deadline arrival longest l p

theorem bytes_mono {x y : ℚ} (hb : 0 < l.bandwidth_) (h : x ≤ y) :
    8 * x / l.bandwidth_ ≤ 8 * y / l.bandwidth_ := by
  have h8 : 8 * x ≤ 8 * y := by linarith
  exact div_le_div_of_nonneg_right h8 hb.le

/-- A packet that comes while the line is busy. -/
theorem Prompt.enque (h : Prompt arrival longest l f) (hb : 0 < l.bandwidth_) {now : ℚ}
    (hclock : l.clock_ ≤ now) (hnow : now = arrival p) (hp : p.size ≤ longest) :
    Prompt arrival longest { l with clock_ := now, pq := (l.pq.enque p).1 } f := by
  have hfits := h.fits.enque hp
  have hroom := room_enque p l.pq longest
  have hsoon : f ≤ now + 8 * longest / l.bandwidth_ := by
    have := h.soon
    linarith
  refine ⟨hfits, hsoon, fun as x bs hq => ?_⟩
  have hq' : (l.pq.enque p).1.q_ = as ++ x :: bs := hq
  show f + 8 * (bytes as + x.size) / l.bandwidth_ ≤
    arrival x + 8 * (longest + room (l.pq.enque p).1 longest) / l.bandwidth_
  rw [hroom]
  obtain hsame | ⟨front, hfront⟩ := enque_suffix p l.pq
  · exact h.waits as x bs (hsame.symm.trans hq')
  · rw [hq', ← List.append_assoc] at hfront
    rcases bs.eq_nil_or_concat with rfl | ⟨bs, y, rfl⟩
    · -- the packet itself: the line is free soon, and the others and it fit
      obtain ⟨-, hx⟩ := List.append_inj' hfront rfl
      obtain rfl : p = x := (List.cons.inj hx).1
      have hall : bytes as + p.size ≤ room l.pq longest := by
        have hle := hfits.bytes_le (by rw [hq']; simp)
        rw [hq', hroom, bytes_append, bytes_cons] at hle
        simpa [bytes] using hle
      have hwork := bytes_mono hb hall
      have hsplit : 8 * ((longest : ℚ) + room l.pq longest) / l.bandwidth_ =
          8 * longest / l.bandwidth_ + 8 * room l.pq longest / l.bandwidth_ := by
        rw [mul_add, add_div]
      rw [hsplit, ← hnow]
      linarith
    · have hold : l.pq.q_ = (front ++ as) ++ x :: bs := by
        rw [List.concat_eq_append, ← List.cons_append, ← List.append_assoc] at hfront
        exact (List.append_inj' hfront rfl).1
      have hwait := h.waits _ x bs hold
      have hless : bytes as + x.size ≤ bytes (front ++ as) + x.size := by
        have := bytes_nonneg front
        rw [bytes_append]
        linarith
      have hmono := bytes_mono hb hless
      exact (by linarith : f + 8 * (bytes as + x.size) / l.bandwidth_ ≤
        f + 8 * (bytes (front ++ as) + x.size) / l.bandwidth_).trans hwait

/-- What a step does to the deadlines: what starts is in time, and the rest stays so. -/
structure Meets (arrival : LinkPacket → ℚ) (longest : ℕ) (l : LinkDelay DropTail) (f : ℚ)
    (l' : LinkDelay DropTail) (o : List LinkOutput) : Prop where
  prompt : Prompt arrival longest l'
    (finish f ((starts? o).map fun x => job l.bandwidth_ arrival x.1))
  inTime : ∀ x ∈ starts? o, x.2 + 8 * x.1.size / l.bandwidth_ ≤ deadline arrival longest l x.1
  room : room l'.pq longest = room l.pq longest

theorem meets_idle (h : Prompt arrival longest l' f) (hnone : starts? o = [])
    (hroom : room l'.pq longest = room l.pq longest) : Meets arrival longest l f l' o := by
  refine ⟨?_, ?_, hroom⟩
  · rw [hnone]
    exact h
  · rw [hnone]
    simp

theorem Prompt.advance (h : Prompt arrival longest l f) (hl : l.Inv DropTail.discipline)
    {e : LinkEvent} (hnext : next l.events = some e) :
    Prompt arrival longest (l.advance e) f := by
  have hclock := hl.clocked e (next_mem hnext)
  have hsoon := h.soon
  refine ⟨h.fits, ?_, h.waits⟩
  show f ≤ e.time_ + 8 * longest / l.bandwidth_
  linarith

/-- An empty queue hands on the packet that comes. -/
theorem deque_enque_nil {s t : DropTail} {p p' : LinkPacket} (hnil : s.q_ = [])
    (h : (s.enque p).1.deque = some (p', t)) :
    p' = p ∧ t.q_ = [] ∧ (s.enque p).1.q_ = [p] ∧ t = { s with q_ := [] } := by
  obtain ⟨q, hq, rfl⟩ := DropTail.deque_eq_some h
  obtain ⟨-, -, he⟩ | ⟨pp, q', -, -, hq', he⟩ | ⟨-, he⟩ := s.enque_cases p
  · rw [he, hnil] at hq
    simp at hq
  · rw [hnil] at hq'
    obtain ⟨-, rfl⟩ := List.cons.inj hq'
    rw [he] at hq
    simp at hq
  · rw [he] at hq ⊢
    have hq' : s.q_ ++ [p] = p' :: q := hq
    rw [hnil] at hq'
    obtain ⟨rfl, rfl⟩ := List.cons.inj hq'
    exact ⟨rfl, rfl, by simp [hnil], rfl⟩

/-- A packet that starts at once leaves the queue empty. -/
theorem Prompt.begun (h : Prompt arrival longest l f) (hb : 0 < l.bandwidth_)
    (hp : p.size ≤ longest) (now : ℚ) :
    Prompt arrival longest
      (after { l with clock_ := now, pq := { l.pq with q_ := [] }, blocked_ := true } p)
      (now + 8 * p.size / l.bandwidth_) := by
  have htx := bytes_mono hb (by exact_mod_cast hp : (p.size : ℚ) ≤ longest)
  refine ⟨⟨h.fits.front, fun x hx => (List.not_mem_nil hx).elim, fun hne => absurd rfl hne⟩,
    ?_, fun as x bs hq => ?_⟩
  · show now + 8 * p.size / l.bandwidth_ ≤ now + 8 * longest / l.bandwidth_
    linarith
  · have hnil : ([] : List LinkPacket) = as ++ x :: bs := hq
    simp at hnil

/-- The first of the packets that wait starts when the line is free, and the others stay in time. -/
theorem Prompt.resumed (h : Prompt arrival longest l f) (hb : 0 < l.bandwidth_) {e : LinkEvent}
    {q : List LinkPacket} (hq : l.pq.q_ = p :: q) (hf : e.time_ = f) :
    Prompt arrival longest (after { l.advance e with pq := { l.pq with q_ := q } } p)
      (e.time_ + 8 * p.size / l.bandwidth_) := by
  have hlong : (p.size : ℚ) ≤ longest := by
    exact_mod_cast h.fits.sizes p (hq ▸ List.mem_cons_self)
  have htx := bytes_mono hb hlong
  refine ⟨⟨h.fits.front, fun x hx => h.fits.sizes x (hq ▸ List.mem_cons_of_mem p hx),
    fun hne => ?_⟩, ?_, fun as x bs hq' => ?_⟩
  · have hfits := h.fits.fits (by rw [hq]; simp)
    rw [hq] at hfits
    show if l.pq.qib_ then DropTail.byteLength q < l.pq.qlimBytes else
      (q.length : ℤ) < l.pq.qlim_
    split_ifs at hfits ⊢
    · simp only [DropTail.byteLength, List.map_cons, List.sum_cons] at hfits ⊢
      omega
    · simp only [List.length_cons] at hfits
      omega
  · show e.time_ + 8 * p.size / l.bandwidth_ ≤ e.time_ + 8 * longest / l.bandwidth_
    linarith
  · have hq'' : q = as ++ x :: bs := hq'
    have hwait := h.waits (p :: as) x bs (by rw [hq, hq'']; rfl)
    rw [bytes_cons, ← hf] at hwait
    show e.time_ + 8 * p.size / l.bandwidth_ + 8 * (bytes as + x.size) / l.bandwidth_ ≤
      deadline arrival longest l x
    have hsplit : 8 * ((p.size : ℚ) + bytes as + x.size) / l.bandwidth_ =
        8 * p.size / l.bandwidth_ + 8 * (bytes as + x.size) / l.bandwidth_ := by
      rw [← add_div]
      ring
    linarith

theorem Move.meets (hs : Served DropTail.discipline arrival l f history)
    (h : Prompt arrival longest l f) (hi : l.Timely DropTail.discipline i)
    (harrival : ∀ p now, i = .recv p now → now = arrival p ∧ p.size ≤ longest) (hfixed : i.fixed)
    (hmove : Move DropTail.discipline l i l' o) : Meets arrival longest l f l' o := by
  have hb := hs.inv.bandwidth
  cases hmove with
  | queued p now hrest =>
    obtain ⟨hnow, hsize⟩ := harrival p now rfl
    exact meets_idle (h.enque hb hi.1 hnow hsize) (starts?_dropped _) (room_enque p l.pq longest)
  | begun p p' now pq hidle hdeque =>
    obtain ⟨hnow, hsize⟩ := harrival p now rfl
    have henque := h.enque hb hi.1 hnow hsize
    obtain ⟨rfl, hpq, hone, rfl⟩ := deque_enque_nil (hs.inv.idle hidle) hdeque
    have hf : f ≤ now := (hs.steady.free.2 hidle).trans hi.1
    have hmax : max f (arrival p') = now := by
      rw [← hnow]
      exact max_eq_right hf
    refine ⟨?_, fun x hx => ?_, rfl⟩
    · show Prompt arrival longest _ (finish f ((starts? ((l.pq.enque p').2.map LinkOutput.dropped ++
        [.sent p' now])).map fun x => job l.bandwidth_ arrival x.1))
      rw [starts?_sent]
      show Prompt arrival longest _ (max f (arrival p') + 8 * p'.size / l.bandwidth_)
      rw [hmax]
      exact h.begun hb hsize now
    · have hx' : x ∈ starts? ((l.pq.enque p').2.map LinkOutput.dropped ++ [.sent p' now]) := hx
      rw [starts?_sent] at hx'
      obtain rfl := List.mem_singleton.mp hx'
      have hroom : 0 ≤ room l.pq longest := by
        rw [← room_enque p' l.pq longest]
        exact henque.fits.room_nonneg (by show (l.pq.enque p').1.q_ ≠ []; rw [hone]; simp)
      have htx := bytes_mono hb (by exact_mod_cast hsize : (p'.size : ℚ) ≤ longest)
      have hmono := bytes_mono hb (le_add_of_nonneg_right hroom : (longest : ℚ) ≤ _)
      show now + 8 * p'.size / l.bandwidth_ ≤
        arrival p' + 8 * (longest + room l.pq longest) / l.bandwidth_
      rw [← hnow]
      linarith
  | ended e hnext htask hdeque =>
    have hadvance := h.advance hs.inv hnext
    exact meets_idle ⟨hadvance.fits, hadvance.soon, hadvance.waits⟩ rfl rfl
  | resumed e p pq hnext htask hdeque =>
    obtain ⟨q, hq, rfl⟩ := DropTail.deque_eq_some hdeque
    have hf : e.time_ = f := hs.steady.free.1 e (next_mem hnext) htask
    have hclock := hs.inv.clocked e (next_mem hnext)
    have hmem : p ∈ l.pq.q_ := hq ▸ List.mem_cons_self
    have hp : arrival p ≤ e.time_ := (hs.waiting p hmem).trans hclock
    have hmax : max f (arrival p) = e.time_ := by
      rw [← hf]
      exact max_eq_left hp
    refine ⟨?_, fun x hx => ?_, rfl⟩
    · show Prompt arrival longest _ (max f (arrival p) + 8 * p.size / l.bandwidth_)
      rw [hmax]
      exact h.resumed hb hq hf
    · obtain rfl : x = (p, e.time_) := List.mem_singleton.mp hx
      have hwait := h.waits [] p q hq
      rw [← hf] at hwait
      simpa [bytes] using hwait
  | arrived e p hnext htask hstatic =>
    have hadvance := h.advance hs.inv hnext
    exact meets_idle ⟨hadvance.fits, hadvance.soon, hadvance.waits⟩ rfl rfl
  | handled e p itq_ hnext htask hdynamic hitq =>
    have hadvance := h.advance hs.inv hnext
    exact meets_idle ⟨hadvance.fits, hadvance.soon, hadvance.waits⟩ rfl rfl
  | quiet hnext => exact meets_idle h rfl rfl
  | setBandwidth b => exact hfixed.elim
  | setDelay d => exact hfixed.elim
  | reset hdynamic =>
    exact meets_idle ⟨h.fits, h.soon, h.waits⟩ (starts?_lost _) rfl
  | kept hstatic => exact meets_idle h rfl rfl

/-- Every transmission of a run ends before the packet's deadline. -/
theorem meets_run {is : List LinkInput} (hs : Served DropTail.discipline arrival l f history)
    (h : Prompt arrival longest l f) (hfixed : Fixed arrival is)
    (hsize : ∀ p now, .recv p now ∈ is → p.size ≤ longest)
    (hok : Machine.Admits (step DropTail.discipline) (Timely DropTail.discipline) l is)
    {os : List (List LinkOutput)}
    (hrun : Machine.run (step DropTail.discipline) l is = some (l', os)) :
    ∀ x ∈ starts? os.flatten,
      x.2 + 8 * x.1.size / l.bandwidth_ ≤ deadline arrival longest l x.1 := by
  induction is generalizing l f history os with
  | nil =>
    cases hrun
    simp [starts?]
  | cons i is ih =>
    obtain ⟨m, o, os', hstep, hrest, rfl⟩ := Machine.run_cons_eq_some hrun
    have hmove := move_of_step hstep
    have hthis := hfixed.fixed i List.mem_cons_self
    have hserves := hmove.serves hs hok.1 hthis
      fun p now hi => hfixed.arrival p now (hi ▸ List.mem_cons_self)
    have hmeets := hmove.meets hs h hok.1 (fun p now hi =>
      ⟨hfixed.arrival p now (hi ▸ List.mem_cons_self), hsize p now (hi ▸ List.mem_cons_self)⟩) hthis
    have hlater := ih hserves.served hmeets.prompt
      ⟨fun j hj => hfixed.fixed j (List.mem_cons_of_mem i hj),
        fun p now hj => hfixed.arrival p now (List.mem_cons_of_mem i hj)⟩
      (fun p now hj => hsize p now (List.mem_cons_of_mem i hj)) (hok.2 m o hstep) hrest
    intro x hx
    rw [List.flatten_cons, starts?, List.filterMap_append] at hx
    rcases List.mem_append.mp hx with hx | hx
    · exact hmeets.inTime x hx
    · have := hlater x hx
      rwa [deadline, hmeets.room, hserves.bandwidth] at this

/-- A drop-tail queue bounds the delay: whatever arrives was at most the time of a full queue and
of the packet in transmission on the way, and the delay of the link. -/
theorem droptail_latency {pq : DropTail} {bandwidth delay : ℚ} {dynamic avoid : Bool}
    {is : List LinkInput} (hpq : pq.q_ = []) (hfront : pq.qib_ = true → pq.drop_front_ = false)
    (hb : 0 < bandwidth) (hd : 0 ≤ delay) (hfixed : Fixed arrival is)
    (hsize : ∀ p now, .recv p now ∈ is → p.size ≤ longest)
    (hok : Machine.Admits (step DropTail.discipline) (Timely DropTail.discipline)
      (fresh pq bandwidth delay dynamic avoid) is) :
    ∃ l os, Machine.run (step DropTail.discipline) (fresh pq bandwidth delay dynamic avoid) is =
        some (l, os) ∧
      ∀ p now, .delivered p now ∈ os.flatten →
        now ≤ arrival p + 8 * (longest + room pq longest) / bandwidth + delay := by
  have hs := served_fresh (q := DropTail.discipline) hpq hb hd dynamic avoid arrival
  obtain ⟨l, os, hrun, hserves⟩ := serves_run hs hfixed hok
  have hprompt : Prompt arrival longest (fresh pq bandwidth delay dynamic avoid) 0 := by
    refine ⟨⟨hfront, fun p hp => ?_, fun hne => absurd hpq hne⟩, ?_, fun as p bs hq => ?_⟩
    · have hp' : p ∈ pq.q_ := hp
      simp [hpq] at hp'
    · show (0 : ℚ) ≤ 0 + 8 * longest / bandwidth
      positivity
    · have hq' : pq.q_ = as ++ p :: bs := hq
      simp [hpq] at hq'
  refine ⟨l, os, hrun, fun p now hmem => ?_⟩
  have hstarted := hserves.delivered p now hmem
  have htime := meets_run hs hprompt hfixed hsize hok hrun _ hstarted
  have htime' : now - (8 * p.size / bandwidth + delay) + 8 * p.size / bandwidth ≤
      arrival p + 8 * (longest + room pq longest) / bandwidth := htime
  linarith

theorem droptail_latency_two : ∃ l os,
    Machine.run (step DropTail.discipline) (fresh tenPackets 1000 10 false false) twoAtOnce =
        some (l, os) ∧
      ∀ p now, .delivered p now ∈ os.flatten →
        now ≤ (fun _ => 0) p + 8 * (((125 : ℕ) : ℚ) + room tenPackets 125) / 1000 + 10 :=
  droptail_latency rfl (by decide) (by norm_num) (by norm_num) fixed_twoAtOnce
    (fun p now h => by
      simp only [twoAtOnce, List.mem_cons, LinkInput.recv.injEq, reduceCtorEq, List.not_mem_nil,
        or_false] at h
      rcases h with ⟨rfl, -⟩ | ⟨rfl, -⟩ <;> exact le_rfl) (by decide +kernel)

end LinkDelay

end Ns2
