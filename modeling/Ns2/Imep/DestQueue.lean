import Ns2.Imep.ImepPacket
import Ns2.Lib.Machine

/-! The delivery of object blocks in order: the resequencing queues of a node, one for each
neighbour, and the numbers of the last blocks that it handed up. -/

namespace Ns2

open ByteRecords (Byte)

/-- `ILLEGAL_SEQ` -/
def illegalSeq : ℕ := 257

/-- `MAX_RETRANS_TIME` -/
def maxRetransTime : ℚ≥0 := 3 / 2

/-- A copy of a packet whose object block is the `number`-th that its sender made. -/
structure ObjectPacket where
  saddr : ImepAddr
  number : ℕ
  deriving DecidableEq

/-- `controlSequence & 0xFF` when the block was made -/
def ObjectPacket.ob_sequence (p : ObjectPacket) : Byte := BitVec.ofNat 8 p.number

/-- `SEQ_GT` -/
def seqGt (a b : Byte) : Prop := 0 < (a - b).toInt

instance (a b : Byte) : Decidable (seqGt a b) := inferInstanceAs (Decidable (_ < _))

structure Txent where
  expire_ : ℚ≥0
  seqno_ : ℕ
  pkt_ : ObjectPacket

structure Dstent where
  ipaddr_ : ImepAddr
  txents : List Txent
  seqno_ : ℕ

namespace Dstent

/-- `expire`; zero stands for no entry. -/
def expire (d : Dstent) : ℚ≥0 :=
  d.txents.foldl (fun min t =>
    if min = 0 ∨ t.expire_ ≠ 0 ∧ t.expire_ < min then t.expire_ else min) 0

def insertEntry (t : Txent) : List Txent → List Txent
  | [] => [t]
  | u :: us =>
    if seqGt (BitVec.ofNat 8 u.seqno_) (BitVec.ofNat 8 t.seqno_) then t :: u :: us
    else u :: insertEntry t us

/-- A packet that is there already is dropped. -/
def addEntry (d : Dstent) (e : ℚ≥0) (s : ℕ) (p : ObjectPacket) : Dstent :=
  if (d.txents.find? fun t => t.seqno_ = s).isSome then d
  else { d with txents := insertEntry ⟨e, s, p⟩ d.txents }

end Dstent

abbrev DstQueue := List Dstent

namespace DstQueue

def findEntry (q : DstQueue) (dst : ImepAddr) : Option Dstent := q.find? fun d => d.ipaddr_ = dst

/-- The entry with the address of `d` becomes `d`. -/
def setEntry (d : Dstent) : DstQueue → DstQueue
  | [] => []
  | e :: q => if e.ipaddr_ = d.ipaddr_ then d :: q else e :: setEntry d q

def addEntry (q : DstQueue) (dst : ImepAddr) (e : ℚ≥0) (s : ℕ) (p : ObjectPacket) : DstQueue :=
  match findEntry q dst with
  | some d => setEntry (d.addEntry e s p) q
  | none => Dstent.addEntry ⟨dst, [], illegalSeq⟩ e s p :: q

def getPacket (q : DstQueue) (dst : ImepAddr) (seqno : ℕ) : Option (ObjectPacket × DstQueue) :=
  (findEntry q dst).bind fun d =>
    (d.txents.find? fun t => t.seqno_ = seqno).map fun t =>
      (t.pkt_, setEntry { d with txents := d.txents.eraseP fun t => t.seqno_ = seqno } q)

/-- The marks of the queues that are passed over change along the way. -/
def getNextPacket (now : ℚ≥0) : DstQueue → DstQueue × Option Txent
  | [] => ([], none)
  | d :: q =>
    let r := getNextPacket now q
    match d.txents with
    | [] => ({ d with seqno_ := illegalSeq } :: r.1, r.2)
    | t :: ts =>
      if d.expire > now ∧ d.seqno_ = illegalSeq then (d :: r.1, r.2)
      else if t.expire_ ≤ now then ({ d with seqno_ := t.seqno_, txents := ts } :: q, some t)
      else if d.seqno_ ≠ illegalSeq ∧ t.seqno_ ≠ (d.seqno_ + 1) % 256 then
        ({ d with seqno_ := illegalSeq } :: r.1, r.2)
      else
        ({ d with
          seqno_ := if d.seqno_ ≠ illegalSeq then t.seqno_ else d.seqno_
          txents := ts } :: q, some t)

def getNextExpire (q : DstQueue) : ℚ≥0 :=
  q.foldl (fun min d =>
    if min = 0 ∨ d.expire ≠ 0 ∧ d.expire < min then d.expire else min) 0

def size (q : DstQueue) : ℕ := (q.map fun d => d.txents.length).sum

end DstQueue

/-- `links` holds `last_seq_`, which is `lastSeq()` and `lastSeqValid()` at once, and `delivered`
what the upper layer got. -/
structure ImepNode where
  links : ImepAddr → Option Byte
  incomingQ : DstQueue
  delivered : List ObjectPacket

namespace ImepNode

def init : ImepNode := ⟨fun _ => none, [], []⟩

/-- `imep_object_process`, with the number of the block as the new `lastSeq()` -/
def handUp (w : ImepNode) (src : ImepAddr) (seq : Byte) (p : ObjectPacket) : ImepNode :=
  { w with links := Function.update w.links src (some seq), delivered := w.delivered ++ [p] }

/-- The loops that hand up what is next in sequence; every round takes a packet from the queue. -/
def chain (src : ImepAddr) : ℕ → ImepNode → ImepNode
  | 0, w => w
  | fuel + 1, w =>
    match w.links src with
    | none => w
    | some last =>
      match w.incomingQ.getPacket src (last.toNat + 1) with
      | none => w
      | some (p, q) => chain src fuel ({ w with incomingQ := q }.handUp src (last + 1) p)

/-- A link for a neighbour that is new, as `imepSetLinkInStatus` makes it. -/
def newLink (w : ImepNode) (src : ImepAddr) : ImepNode :=
  { w with links := Function.update w.links src (some ((w.links src).getD 0)) }

/-- Zero is no valid `lastSeq()`; the block then counts as the first one of its sender. -/
def imepObjectInput (w : ImepNode) (now : ℚ≥0) (p : ObjectPacket) : Option ImepNode :=
  (w.links p.saddr).map fun last =>
    let last := if last = 0 then p.ob_sequence - 1 else last
    let w := { w with links := Function.update w.links p.saddr (some last) }
    let reg := (p.ob_sequence - last).toInt
    if reg ≤ 0 then w
    else
      let w := if reg = 1 then w.handUp p.saddr p.ob_sequence p
        else { w with incomingQ :=
          w.incomingQ.addEntry p.saddr (now + maxRetransTime) p.ob_sequence.toNat p }
      chain p.saddr (w.incomingQ.size + 1) w

/-- `recv_incoming` of a packet with an object block -/
def recvIncoming (w : ImepNode) (now : ℚ≥0) (p : ObjectPacket) : Option ImepNode :=
  (w.newLink p.saddr).imepObjectInput now p

def incomingLoop (now : ℚ≥0) : ℕ → ImepNode → ImepNode
  | 0, w => w
  | fuel + 1, w =>
    match w.incomingQ.getNextPacket now with
    | (q, none) => { w with incomingQ := q }
    | (q, some t) =>
      let src := t.pkt_.saddr
      let w := { w with incomingQ := q }.handUp src (BitVec.ofNat 8 t.seqno_) t.pkt_
      incomingLoop now fuel (chain src (w.incomingQ.size + 1) w)

/-- `none` is a failed assertion. -/
def handlerIncomingTimer (w : ImepNode) (now : ℚ≥0) : Option ImepNode :=
  let w := incomingLoop now (w.incomingQ.size + 1) w
  if w.incomingQ.getNextExpire ≠ 0 ∧ w.incomingQ.getNextExpire ≤ now then none else some w

end ImepNode

/-- A node and its neighbours, each with the number of the object blocks that it has made. Packets
are never used up, so that each may arrive any number of times, at any time, or never. -/
structure ImepNet where
  controlSequence : ImepAddr → ℕ
  node : ImepNode

inductive ImepOp where
  | send (src : ImepAddr)
  | recv (src : ImepAddr) (number : ℕ) (now : ℚ≥0)
  | timer (now : ℚ≥0)

namespace ImepNet

def init : ImepNet := ⟨fun _ => 0, .init⟩

def step (w : ImepNet) : ImepOp → Option (ImepNet × Unit)
  | .send src =>
    some ({ w with
      controlSequence := Function.update w.controlSequence src (w.controlSequence src + 1) }, ())
  | .recv src number now =>
    if 0 < number ∧ number ≤ w.controlSequence src then
      (w.node.recvIncoming now ⟨src, number⟩).map fun n => ({ w with node := n }, ())
    else none
  | .timer now => (w.node.handlerIncomingTimer now).map fun n => ({ w with node := n }, ())

end ImepNet

end Ns2
