import Ns2.Lib.ByteRecords
import Ns2.Lib.RingWindow

/-! The ack vector of a DCCP receiver: runs of packet states, one byte each, in a ring that is
doubled when it is full. -/

namespace Ns2

open ByteRecords RingWindow

/-- `dccp_packet_state` -/
inductive PacketState where
  | recv
  | ecn
  | reserved
  | notRecv
  deriving DecidableEq

namespace PacketState

def num : PacketState → ℕ
  | recv => 0
  | ecn => 1
  | reserved => 2
  | notRecv => 3

/-- The state as it stands in the high bits of a byte. -/
def bits (s : PacketState) : Byte := BitVec.ofNat 8 s.num <<< 6

def ofNum : ℕ → PacketState
  | 0 => recv
  | 1 => ecn
  | 2 => reserved
  | _ => notRecv

/-- `ackv_cons_`, as the constructor fills it -/
def cons : PacketState → PacketState → PacketState
  | recv, recv => recv
  | recv, ecn => recv
  | recv, reserved => reserved
  | recv, notRecv => recv
  | ecn, recv => ecn
  | ecn, ecn => ecn
  | ecn, reserved => reserved
  | ecn, notRecv => ecn
  | reserved, recv => reserved
  | reserved, ecn => reserved
  | reserved, reserved => reserved
  | reserved, notRecv => reserved
  | notRecv, recv => recv
  | notRecv, ecn => ecn
  | notRecv, reserved => reserved
  | notRecv, notRecv => notRecv

end PacketState

/-- `DCCP_RUN_LENGTH_MASK` -/
def runLengthMask : Byte := 0x3F

def runLength (b : Byte) : ℕ := (b &&& runLengthMask).toNat

def packetState (b : Byte) : PacketState := .ofNum (b >>> 6).toNat

/-- `DCCP_MAX_ACKV_SIZE` -/
def maxAckvSize : ℕ := 0xFFFF

/-- The difference of two sequence numbers as an `int`. -/
def seqDist (a b : ℕ) : ℤ := ((a : ℤ) - b).bmod (2 ^ 32)

/-- The difference of two sequence numbers. -/
def seqSub (a b : ℕ) : ℕ := (a + (2 ^ 32 - b)) % 2 ^ 32

structure AckHistEntry where
  seq_sent_ : ℕ
  ack_num_ : ℕ
  ene_ : Byte
  deriving DecidableEq

/-- `DCCPAckVector` -/
structure AckVector where
  vector_ : Memory
  size_ : ℕ
  max_size_ : ℕ
  head_ : ℕ
  tail_ : ℕ
  seq_head_ : ℕ
  seq_tail_ : ℕ
  ene_ : Byte
  ack_hist_ : List AckHistEntry

namespace AckVector

/-- The constructor. -/
def ofSize (initialSize : ℕ) : AckVector := ⟨fun _ => 0, 0, initialSize, 0, 0, 0, 0, 0, []⟩

def doubleMaxSize (v : AckVector) : Option AckVector :=
  if v.max_size_ = maxAckvSize then none
  else some { v with
    vector_ := fun i => if i < v.size_ then v.vector_ ((v.head_ + i) % v.max_size_) else 0
    max_size_ := if v.max_size_ * 2 > maxAckvSize then maxAckvSize else v.max_size_ * 2
    head_ := if v.size_ > 0 then 0 else v.head_
    tail_ := if v.size_ > 0 then v.size_ - 1 else v.tail_ }

/-- `doubleMaxSize() && f()` -/
def doubleAnd (f : AckVector → AckVector × Bool) (v : AckVector) : AckVector × Bool :=
  match v.doubleMaxSize with
  | none => (v, false)
  | some v => f v

/-- The loop of `addItems`. -/
def fillLoop (n : ℕ) (item : Byte) (head : ℕ) : ℕ → Memory → ℕ → Memory
  | 0, a, _ => a
  | f + 1, a, walker =>
    if walker ≠ head then fillLoop n item head f (Function.update a walker item) ((walker + 1) % n)
    else a

/-- `addItems`, which calls itself as long as the vector is too small and can be doubled. -/
def addItems (state : PacketState) (runlen count : ℕ) : ℕ → AckVector → AckVector × Bool
  | 0, v => (v, false)
  | tries + 1, v =>
    let item := state.bits ||| (BitVec.ofNat 8 runlen &&& runLengthMask)
    if v.size_ + count > v.max_size_ then v.doubleAnd (addItems state runlen count tries)
    else
      let new_head := (v.head_ + v.max_size_ - count) % v.max_size_
      ({ v with
        vector_ := fillLoop v.max_size_ item v.head_ v.max_size_ v.vector_ new_head
        size_ := v.size_ + count
        head_ := new_head
        seq_head_ := if v.size_ ≠ 0 then (v.seq_head_ + (runlen + 1) * count) % 2 ^ 32
          else v.seq_head_ }, true)

/-- The loop of `findSeqNum`. -/
def findLoop (v : AckVector) (seqnum stop : ℕ) : ℕ → ℕ → ℕ → Option (ℕ × ℕ × ℕ)
  | 0, _, _ => none
  | f + 1, at_, seq_start =>
    let seq_end := seqSub seq_start (runLength (v.vector_ at_))
    if seq_end ≤ seqnum ∧ seq_start ≥ seqnum then some (at_, seq_start, seq_end)
    else if (at_ + 1) % v.max_size_ ≠ stop then
      findLoop v seqnum stop f ((at_ + 1) % v.max_size_) (seqSub seq_end 1)
    else none

/-- Where a packet is found, with the sequence numbers of the run there. -/
def findSeqNum (v : AckVector) (seqnum : ℕ) : Option (ℕ × ℕ × ℕ) :=
  if v.size_ = 0 ∨ seqnum > v.seq_head_ ∨ seqnum < v.seq_tail_ then none
  else v.findLoop seqnum ((v.tail_ + 1) % v.max_size_) v.max_size_ v.head_ v.seq_head_

def getState (v : AckVector) (seqnum : ℕ) : Option PacketState :=
  if v.size_ = 0 ∨ seqnum > v.seq_head_ ∨ seqnum < v.seq_tail_ then none
  else (v.findSeqNum seqnum).map fun r => packetState (v.vector_ r.1)

/-- The end of `alterState`: the run at `at_` becomes two or three. -/
def replaceItem (v : AckVector) (at_ : ℕ) (items : List Byte) : AckVector :=
  let more := items.length - 1
  let moved := (v.head_ + v.max_size_ - more) % v.max_size_
  if at_ = v.tail_ then
    { v with
      tail_ := (v.tail_ + more) % v.max_size_
      vector_ := put v.max_size_ items at_ v.vector_
      size_ := v.size_ + more }
  else if at_ = v.head_ then
    { v with
      head_ := moved
      vector_ := put v.max_size_ items moved v.vector_
      size_ := v.size_ + more }
  else
    { v with
      head_ := moved
      vector_ := put v.max_size_ items ((at_ + v.max_size_ - more) % v.max_size_)
        (copyLoop v.max_size_ at_ v.max_size_ v.vector_ v.head_ moved)
      size_ := v.size_ + more }

def alterState (seqnum : ℕ) (newstate : PacketState) : ℕ → AckVector → AckVector × Bool
  | 0, v => (v, false)
  | tries + 1, v =>
    match v.findSeqNum seqnum with
    | none => (v, false)
    | some (at_, seq_start, seq_end) =>
      let old_state := packetState (v.vector_ at_)
      let old_runlen := runLength (v.vector_ at_)
      if old_state ≠ newstate then
        if old_runlen = 0 then
          ({ v with vector_ := Function.update v.vector_ at_ newstate.bits }, true)
        else if seqnum = seq_start ∨ seqnum = seq_end then
          if v.size_ + 1 > v.max_size_ then v.doubleAnd (alterState seqnum newstate tries)
          else if seqnum = seq_start then
            (v.replaceItem at_ [newstate.bits, old_state.bits + BitVec.ofNat 8 (old_runlen - 1)],
              true)
          else
            (v.replaceItem at_ [old_state.bits + BitVec.ofNat 8 (old_runlen - 1), newstate.bits],
              true)
        else if v.size_ + 2 > v.max_size_ then v.doubleAnd (alterState seqnum newstate tries)
        else
          (v.replaceItem at_
            [old_state.bits + BitVec.ofNat 8 (old_runlen - 1 - (seqnum - seq_end)), newstate.bits,
              old_state.bits + BitVec.ofNat 8 (old_runlen - 1 - (seq_start - seqnum))], true)
      else (v, true)

/-- A vector can be doubled at most sixteen times. -/
def tries : ℕ := 17

/-- `addPacket` with a state -/
def addState (seqnum : ℕ) (state : PacketState) : ℕ → AckVector → AckVector × Bool
  | 0, v => (v, false)
  | t + 1, v =>
    let dist := seqDist seqnum v.seq_head_
    if v.size_ = 0 then
      addItems state 0 1 tries { v with
        seq_head_ := seqnum
        seq_tail_ := seqnum
        head_ := 0
        tail_ := v.max_size_ - 1 }
    else if dist > 1 then
      let num_fulls := (dist - 2).toNat / 64
      let last_runlen := (dist - 2).toNat % 64
      if v.size_ + num_fulls + 1 + 1 > v.max_size_ then v.doubleAnd (addState seqnum state t)
      else
        let v := if num_fulls > 0 then (addItems .notRecv 63 num_fulls tries v).1 else v
        let v := (addItems .notRecv last_runlen 1 tries v).1
        addItems state 0 1 tries v
    else if dist = 1 then
      let last := v.vector_ v.head_
      if runLength last < 63 ∧ packetState last = state then
        ({ v with vector_ := Function.update v.vector_ v.head_ (last + 1), seq_head_ := seqnum },
          true)
      else addItems state 0 1 tries v
    else
      match v.getState seqnum with
      | none => (v, false)
      | some curr_state => alterState seqnum (curr_state.cons state) tries v

def addPacket (v : AckVector) (seqnum : ℕ) (state : PacketState) : AckVector × Bool :=
  addState seqnum state tries v

def removePackets (v : AckVector) (seqnum : ℕ) : AckVector :=
  if v.size_ = 0 ∨ seqnum < v.seq_tail_ then v
  else if seqnum > v.seq_head_ then
    { v with size_ := 0, seq_tail_ := v.seq_head_, tail_ := v.head_, ene_ := 0 }
  else
    match v.findSeqNum seqnum with
    | none => v
    | some (at_, seq_start, seq_end) =>
      if seq_start - seq_end > 0 ∧ seq_start ≠ seqnum then
        { v with
          vector_ := Function.update v.vector_ at_
            (v.vector_ at_ - BitVec.ofNat 8 (seqnum - seq_end + 1))
          size_ := (at_ + v.max_size_ - v.head_) % v.max_size_ + 1
          tail_ := at_
          seq_tail_ := seqnum + 1 }
      else if at_ = v.head_ then
        { v with size_ := 0, seq_tail_ := v.seq_head_, tail_ := v.head_, ene_ := 0 }
      else
        let at_ := (at_ + v.max_size_ - 1) % v.max_size_
        { v with
          size_ := (at_ + v.max_size_ - v.head_) % v.max_size_ + 1
          tail_ := at_
          seq_tail_ := seqnum + 1 }

/-- The variables of a walk over the packets. -/
structure PacketWalk where
  p_walk_ : ℕ
  seq_p_walk_ : ℕ
  delta_p_walk_ : ℕ
  p_walking_ : Bool
  p_reverse_ : Bool

def startPacketWalk (v : AckVector) : PacketWalk := ⟨v.head_, v.seq_head_, 0, v.size_ ≠ 0, false⟩

def nextPacket (v : AckVector) (w : PacketWalk) : Option ((ℕ × PacketState) × PacketWalk) :=
  if ¬ w.p_walking_ ∨ w.p_reverse_ then none
  else
    let past := w.delta_p_walk_ > runLength (v.vector_ w.p_walk_)
    let p_walk := if past then (w.p_walk_ + 1) % v.max_size_ else w.p_walk_
    let delta := if past then 0 else w.delta_p_walk_
    some ((w.seq_p_walk_, packetState (v.vector_ p_walk)),
      ⟨p_walk, seqSub w.seq_p_walk_ 1, delta + 1, w.seq_p_walk_ ≠ v.seq_tail_, w.p_reverse_⟩)

def startReversePacketWalk (v : AckVector) : PacketWalk :=
  ⟨v.tail_, v.seq_tail_, 0, v.size_ ≠ 0, true⟩

def prevPacket (v : AckVector) (w : PacketWalk) : Option ((ℕ × PacketState) × PacketWalk) :=
  if ¬ w.p_walking_ ∨ ¬ w.p_reverse_ then none
  else
    let past := w.delta_p_walk_ > runLength (v.vector_ w.p_walk_)
    let p_walk := if past then (w.p_walk_ + v.max_size_ - 1) % v.max_size_ else w.p_walk_
    let delta := if past then 0 else w.delta_p_walk_
    some ((w.seq_p_walk_, packetState (v.vector_ p_walk)),
      ⟨p_walk, (w.seq_p_walk_ + 1) % 2 ^ 32, delta + 1, w.seq_p_walk_ ≠ v.seq_head_, w.p_reverse_⟩)

structure IntervalWalk where
  i_walk_ : ℕ
  seq_i_walk_ : ℕ
  i_walking_ : Bool

def startIntervalWalk (v : AckVector) : IntervalWalk := ⟨v.head_, v.seq_head_, v.size_ ≠ 0⟩

/-- What `nextInterval` returns. -/
structure Interval where
  interval : Byte
  seq_start : ℕ
  seq_end : ℕ
  state : PacketState

def nextInterval (v : AckVector) (w : IntervalWalk) : Option (Interval × IntervalWalk) :=
  if ¬ w.i_walking_ then none
  else
    let interval := v.vector_ w.i_walk_
    let seq_end := seqSub w.seq_i_walk_ (runLength interval)
    some (⟨interval, w.seq_i_walk_, seq_end, packetState interval⟩,
      ⟨(w.i_walk_ + 1) % v.max_size_, seqSub seq_end 1, w.i_walk_ ≠ v.tail_⟩)

end AckVector

end Ns2
