import Mathlib

/-! Random early detection: the average queue, the drop probability and the queue itself. Numbers
are taken in any ordered field, and the random numbers come with the packets. -/

namespace Ns2

structure RedPacket where
  uid : ℕ
  size : ℕ
  ect : Bool
  ce : Bool
  deriving DecidableEq

/-- Early drop parameters, and those of the queue. -/
structure Edp (𝕜 : Type*) where
  mean_pktsize : ℕ
  idle_pktsize : ℕ
  bytes : Bool
  wait : Bool
  setbit : Bool
  gentle : Bool
  th_min : 𝕜
  th_max : 𝕜
  max_p_inv : 𝕜
  mark_p : 𝕜
  use_mark_p : Bool
  q_w : 𝕜
  adaptive : Bool
  cautious : ℕ
  alpha : 𝕜
  beta : 𝕜
  interval : 𝕜
  top : 𝕜
  bottom : 𝕜
  feng_adaptive : Bool
  ptc : 𝕜
  /-- `pow(1 - q_w, ptc * 0.05)` -/
  fraction : 𝕜
  qlim_ : ℕ
  qib_ : Bool
  drop_front_ : Bool
  drop_rand_ : Bool
  ns1_compat_ : Bool

inductive RedStatus
  | Above
  | Below
  | Between
  deriving DecidableEq

/-- Early drop variables. -/
structure Edv (𝕜 : Type*) where
  v_ave : 𝕜
  v_prob1 : 𝕜
  v_prob : 𝕜
  v_a : 𝕜
  v_b : 𝕜
  v_c : 𝕜
  v_d : 𝕜
  count : ℕ
  count_bytes : ℕ
  old : Bool
  cur_max_p : 𝕜
  lastset : 𝕜
  status : RedStatus

structure REDQueue (𝕜 : Type*) where
  edv_ : Edv 𝕜
  idle_ : Bool
  idletime_ : 𝕜
  q_ : List RedPacket

namespace REDQueue

/-! The numerals of the source, in any field. -/

scoped instance atLeastTwo_two : Nat.AtLeastTwo 2 := ⟨by decide⟩

scoped instance atLeastTwo_four : Nat.AtLeastTwo 4 := ⟨by decide⟩

scoped instance atLeastTwo_five : Nat.AtLeastTwo 5 := ⟨by decide⟩

scoped instance atLeastTwo_ten : Nat.AtLeastTwo 10 := ⟨by decide⟩

variable {𝕜 : Type*} [Field 𝕜] [LinearOrder 𝕜]

def byteLength (q : List RedPacket) : ℕ := (q.map RedPacket.size).sum

/-- The queue in the unit in which it is measured. -/
def qlen (c : Edp 𝕜) (q : List RedPacket) : ℕ := if c.qib_ then byteLength q else q.length

def qlim (c : Edp 𝕜) : ℕ := if c.qib_ then c.qlim_ * c.mean_pktsize else c.qlim_

/-- The queue after `reset`. The status is never initialized. -/
def reset (c : Edp 𝕜) (status : RedStatus) (now : 𝕜) : REDQueue 𝕜 :=
  let th_diff := if c.th_max - c.th_min = 0 then 1 else c.th_max - c.th_min
  let cur_max_p := 1 / c.max_p_inv
  { edv_ :=
      { v_ave := 0
        v_prob1 := 0
        v_prob := 0
        v_a := 1 / th_diff
        v_b := -c.th_min / th_diff
        v_c := if c.gentle then (1 - cur_max_p) / c.th_max else 0
        v_d := if c.gentle then 2 * cur_max_p - 1 else 0
        count := 0
        count_bytes := 0
        old := false
        cur_max_p
        lastset := 0
        status }
    idle_ := true
    idletime_ := now
    q_ := [] }

def updateMaxPFeng (c : Edp 𝕜) (v : Edv 𝕜) (new_ave : 𝕜) : Edv 𝕜 :=
  let v := if c.th_min < new_ave ∧ new_ave < c.th_max then { v with status := .Between } else v
  let v :=
    if new_ave < c.th_min ∧ v.status ≠ .Below then
      { v with status := .Below, cur_max_p := v.cur_max_p / c.alpha }
    else v
  if new_ave > c.th_max ∧ v.status ≠ .Above then
    { v with status := .Above, cur_max_p := v.cur_max_p * c.beta }
  else v

def updateMaxP (c : Edp 𝕜) (v : Edv 𝕜) (new_ave now : 𝕜) : Edv 𝕜 :=
  let part := 2 / 5 * (c.th_max - c.th_min)
  if new_ave < c.th_min + part ∧ v.cur_max_p > c.bottom then
    { v with cur_max_p := v.cur_max_p * c.beta, lastset := now }
  else if new_ave > c.th_max - part ∧ c.top > v.cur_max_p then
    let alpha := if c.alpha > 1 / 4 * v.cur_max_p then 1 / 4 * v.cur_max_p else c.alpha
    { v with cur_max_p := v.cur_max_p + alpha, lastset := now }
  else v

/-- The loop `while (--m >= 1) new_ave *= 1.0 - q_w`, that many times. -/
def decay (q_w : 𝕜) : ℕ → 𝕜 → 𝕜
  | 0, ave => ave
  | m + 1, ave => decay q_w m (ave * (1 - q_w))

def average (c : Edp 𝕜) (nqueued : ℕ) (m : ℤ) (ave : 𝕜) : 𝕜 :=
  decay c.q_w (m - 1).toNat ave * (1 - c.q_w) + c.q_w * nqueued

/-- `edv_.v_ave = estimator(...)` -/
def estimator (c : Edp 𝕜) (v : Edv 𝕜) (nqueued : ℕ) (m : ℤ) (now : 𝕜) : Edv 𝕜 :=
  let new_ave := average c nqueued m v.v_ave
  let v :=
    if c.adaptive then
      if c.feng_adaptive then updateMaxPFeng c v new_ave
      else if now > v.lastset + c.interval then updateMaxP c v new_ave now
      else v
    else v
  { v with v_ave := new_ave }

def deque (s : REDQueue 𝕜) (now : 𝕜) : REDQueue 𝕜 × Option RedPacket :=
  match s.q_ with
  | [] => ({ s with idle_ := true, idletime_ := now }, none)
  | p :: q_ => ({ s with idle_ := false, q_ }, some p)

def calculate_p_new (c : Edp 𝕜) (v : Edv 𝕜) : 𝕜 :=
  let p :=
    if c.gentle ∧ v.v_ave ≥ c.th_max then v.v_c * v.v_ave + v.v_d
    else if ¬c.gentle ∧ v.v_ave ≥ c.th_max then 1
    else (v.v_a * v.v_ave + v.v_b) * v.cur_max_p
  if p > 1 then 1 else p

def modify_p (c : Edp 𝕜) (p : 𝕜) (count count_bytes size : ℕ) : 𝕜 :=
  let count1 : 𝕜 := if c.bytes then ((count_bytes / c.mean_pktsize : ℕ) : 𝕜) else count
  let p :=
    if c.wait then
      if count1 * p < 1 then 0
      else if count1 * p < 2 then p / (2 - count1 * p)
      else 1
    else if count1 * p < 1 then p / (1 - count1 * p)
    else 1
  let p := if c.bytes ∧ p < 1 then p * size / c.mean_pktsize else p
  if p > 1 then 1 else p

/-- What becomes of a packet at the drop test. -/
inductive Early
  | pass
  | mark
  | drop
  deriving DecidableEq

/-- The end of `drop_early`, with the random number `u`. -/
def hit (c : Edp 𝕜) (v : Edv 𝕜) (pkt : RedPacket) (u : 𝕜) : Edv 𝕜 × Early :=
  if u ≤ v.v_prob then
    ({ v with count := 0, count_bytes := 0 },
      if c.setbit ∧ pkt.ect ∧ (¬c.use_mark_p ∨ v.v_prob1 < c.mark_p) then .mark else .drop)
  else (v, .pass)

def drop_early (c : Edp 𝕜) (v : Edv 𝕜) (q : List RedPacket) (pkt : RedPacket) (u : 𝕜) :
    Edv 𝕜 × Early :=
  let v := { v with v_prob1 := calculate_p_new c v }
  let v := { v with v_prob := modify_p c v.v_prob1 v.count v.count_bytes pkt.size }
  if c.cautious = 1 ∧ (qlen c q : 𝕜) < c.fraction * v.v_ave then (v, .pass)
  else
    let ratio := (qlen c q : 𝕜) / (c.fraction * v.v_ave)
    hit c v pkt (if c.cautious = 2 ∧ ratio < 1 then u * (1 / ratio) else u)

/-- The place of the packet that is dropped when the queue is full; `r` is random. -/
def pickPacketToDrop (c : Edp 𝕜) (q : List RedPacket) (r : ℕ) : ℕ :=
  if c.drop_front_ then min 1 (q.length - 1)
  else if c.drop_rand_ then r % q.length
  else q.length - 1

structure RedOutput where
  /-- the result of the drop test, where it was made -/
  early : Option Early
  victim : Option RedPacket
  deriving DecidableEq

/-- The drop test, if the average calls for one, and whether the drop is forced. -/
def test (c : Edp 𝕜) (v : Edv 𝕜) (q : List RedPacket) (pkt : RedPacket) (u : 𝕜) :
    Edv 𝕜 × Option Early × Bool :=
  if v.v_ave ≥ c.th_min ∧ qlen c q > 1 then
    if ¬c.use_mark_p ∧
        (¬c.gentle ∧ v.v_ave ≥ c.th_max ∨ c.gentle ∧ v.v_ave ≥ 2 * c.th_max) then
      (v, none, true)
    else if v.old = false then
      ({ v with count := 1, count_bytes := pkt.size, old := true }, none, false)
    else
      let r := drop_early c v q pkt u
      (r.1, some r.2, false)
  else ({ v with v_prob := 0, old := false }, none, false)

/-- `enque`, once the average is known. -/
def place (c : Edp 𝕜) (s : REDQueue 𝕜) (pkt : RedPacket) (u : 𝕜) (r : ℕ) :
    REDQueue 𝕜 × RedOutput :=
  let t := test c s.edv_ s.q_ pkt u
  let pkt := if t.2.1 = some .mark then { pkt with ce := true } else pkt
  if t.2.2 ∨ qlen c s.q_ ≥ qlim c then
    let q := s.q_ ++ [pkt]
    let i := pickPacketToDrop c q r
    ({ s with
        edv_ := if c.ns1_compat_ then t.1 else { t.1 with count := 0, count_bytes := 0 }
        q_ := q.eraseIdx i }, ⟨t.2.1, q[i]?⟩)
  else if t.2.1 = some .drop then ({ s with edv_ := t.1 }, ⟨t.2.1, some pkt⟩)
  else ({ s with edv_ := t.1, q_ := s.q_ ++ [pkt] }, ⟨t.2.1, none⟩)

variable [FloorRing 𝕜]

/-- The packets that are taken to have come while the queue was idle. -/
def idlePackets (c : Edp 𝕜) (s : REDQueue 𝕜) (now : 𝕜) : ℤ :=
  if s.idle_ then
    if c.cautious = 3 then ⌊c.ptc * c.mean_pktsize / c.idle_pktsize * (now - s.idletime_)⌋
    else ⌊c.ptc * (now - s.idletime_)⌋
  else 0

def enque (c : Edp 𝕜) (s : REDQueue 𝕜) (pkt : RedPacket) (now u : 𝕜) (r : ℕ) :
    REDQueue 𝕜 × RedOutput :=
  let v := estimator c s.edv_ (qlen c s.q_) (idlePackets c s now + 1) now
  let v := { v with count := v.count + 1, count_bytes := v.count_bytes + pkt.size }
  place c { s with edv_ := v, idle_ := false } pkt u r

inductive Input (𝕜 : Type*)
  | enque (pkt : RedPacket) (now u : 𝕜) (r : ℕ)
  | deque (now : 𝕜)

/-- A step always succeeds; a departure tests nothing. -/
def step (c : Edp 𝕜) (s : REDQueue 𝕜) : Input 𝕜 → Option (REDQueue 𝕜 × RedOutput)
  | .enque pkt now u r => some (enque c s pkt now u r)
  | .deque now => some ((deque s now).1, ⟨none, none⟩)

end REDQueue

end Ns2
