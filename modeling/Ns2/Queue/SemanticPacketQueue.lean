import Ns2.Lib.DList
import Ns2.Lib.Machine

/-! Packet queues linked through the packets, and the queue that knows acknowledgements from data,
counts the packets of each kind and filters old acknowledgements. -/

namespace Ns2

structure PacketHeader where
  ptype_ : ℤ
  size : ℤ
  saddr : ℤ
  sport : ℤ
  daddr : ℤ
  dport : ℤ
  seqno : ℤ
  fs_ : ℕ

def PT_ACK : ℤ := 5

/-- The packets that are given back may not be read or written any more. -/
structure PacketQueue (π : Type*) where
  next_ : π → Option π
  head_ : Option π
  tail_ : Option π
  len_ : ℤ
  bytes_ : ℤ
  freed : List π

namespace PacketQueue

variable {π : Type*} [DecidableEq π]

def new : PacketQueue π := ⟨fun _ => none, none, none, 0, 0, []⟩

/-- `p->next_` -/
def follow (q : PacketQueue π) (p : π) : Option (Option π) :=
  if p ∈ q.freed then none else some (q.next_ p)

/-- `p->next_ = x` -/
def setNext (q : PacketQueue π) (p : π) (x : Option π) : Option (PacketQueue π) :=
  if p ∈ q.freed then none else some { q with next_ := Function.update q.next_ p x }

variable (hdr : π → PacketHeader)

/-- Also returns the previous tail. -/
def enque (q : PacketQueue π) (p : π) : Option (PacketQueue π × Option π) :=
  let linked : Option (PacketQueue π) := match q.tail_ with
    | none => some { q with head_ := some p, tail_ := some p }
    | some t => (q.setNext t (some p)).map fun q => { q with tail_ := some p }
  linked.bind fun r => (r.setNext p none).map fun r =>
    ({ r with len_ := r.len_ + 1, bytes_ := r.bytes_ + (hdr p).size }, q.tail_)

def deque (q : PacketQueue π) : Option (PacketQueue π × Option π) :=
  match q.head_ with
  | none => some (q, none)
  | some p =>
    (q.follow p).map fun n =>
      let q := { q with head_ := n }
      let q := if q.tail_ = some p then { q with head_ := none, tail_ := none } else q
      ({ q with len_ := q.len_ - 1, bytes_ := q.bytes_ - (hdr p).size }, some p)

/-- `pp->next_ = p->next_`, with the counters. -/
def unlink (q : PacketQueue π) (pp p : π) : Option (PacketQueue π) :=
  (q.follow p).bind fun n => (q.setNext pp n).map fun q =>
    { q with
      tail_ := if q.tail_ = some p then some pp else q.tail_
      len_ := q.len_ - 1
      bytes_ := q.bytes_ - (hdr p).size }

/-- `remove(Packet*, Packet*)` -/
def removeAfter (q : PacketQueue π) (pkt prev : Option π) : Option (PacketQueue π) :=
  match pkt with
  | none => some q
  | some p =>
    if q.head_ = some p then (deque hdr q).map Prod.fst
    else prev.bind fun pp => unlink hdr q pp p

/-- The loop of `remove(Packet*)`: what `pp` is when the target is found. -/
def findPrev (q : PacketQueue π) (target : π) : ℕ → Option π → Option π → Option (Option π)
  | 0, _, _ => none
  | _ + 1, _, none => none
  | fuel + 1, pp, some p =>
    if p = target then some pp else (q.follow p).bind fun n => findPrev q target fuel (some p) n

/-- `Packet::free` -/
def free (q : PacketQueue π) (p : π) : PacketQueue π := { q with freed := p :: q.freed }

end PacketQueue

structure SemanticPacketQueue (π : Type*) extends PacketQueue π where
  ack_count : ℤ
  data_count : ℤ
  marked_count_ : ℤ
  unmarked_count_ : ℤ
  acksfirst_ : Bool
  filteracks_ : Bool
  reconsAcks_ : Bool
  replace_head_ : Bool

namespace SemanticPacketQueue

variable {π : Type*} [DecidableEq π]

def new (acksfirst filteracks reconsAcks replaceHead : Bool) : SemanticPacketQueue π where
  toPacketQueue := PacketQueue.new
  ack_count := 0
  data_count := 0
  marked_count_ := 0
  unmarked_count_ := 0
  acksfirst_ := acksfirst
  filteracks_ := filteracks
  reconsAcks_ := reconsAcks
  replace_head_ := replaceHead

variable (hdr : π → PacketHeader)

def isAck (p : π) : Bool := decide ((hdr p).ptype_ = PT_ACK)

def isMarked (p : π) : Bool := decide ((hdr p).fs_ ≠ 0)

def compareFlows (p q : π) : Bool :=
  decide ((hdr p).saddr = (hdr q).saddr) && decide ((hdr p).sport = (hdr q).sport) &&
    decide ((hdr p).daddr = (hdr q).daddr) && decide ((hdr p).dport = (hdr q).dport)

/-- The four counters after a packet came (`1`) or left (`-1`). -/
def count (s : SemanticPacketQueue π) (p : π) (d : ℤ) : SemanticPacketQueue π :=
  let s := if isAck hdr p then { s with ack_count := s.ack_count + d }
    else { s with data_count := s.data_count + d }
  if isMarked hdr p then { s with marked_count_ := s.marked_count_ + d }
  else { s with unmarked_count_ := s.unmarked_count_ + d }

/-- The loop of `deque_acksfirst`: `p` and `pp` at its end. -/
def findAck (q : PacketQueue π) : ℕ → Option π → Option π → Option (Option π × Option π)
  | 0, _, _ => none
  | _ + 1, pp, none => some (none, pp)
  | fuel + 1, pp, some p =>
    (q.follow p).bind fun n =>
      if isAck hdr p then some (some p, pp) else findAck q fuel (some p) n

def dequeAcksfirst (fuel : ℕ) (s : SemanticPacketQueue π) :
    Option (SemanticPacketQueue π × Option π) :=
  if s.ack_count > 0 then
    (findAck hdr s.toPacketQueue fuel none s.head_).bind fun (p, pp) =>
      (s.removeAfter hdr p pp).map fun q => ({ s with toPacketQueue := q }, p)
  else (s.toPacketQueue.deque hdr).map fun (q, p) => ({ s with toPacketQueue := q }, p)

def deque (fuel : ℕ) (s : SemanticPacketQueue π) : Option (SemanticPacketQueue π × Option π) :=
  let got := if s.acksfirst_ then dequeAcksfirst hdr fuel s
    else (s.toPacketQueue.deque hdr).map fun (q, p) => ({ s with toPacketQueue := q }, p)
  got.map fun (s, p) => match p with
    | none => (s, none)
    | some p => (count hdr s p (-1), some p)

/-- `PacketQueue::remove(Packet*)` of such a queue: its `deque` is called for the first packet. -/
def unqueue (fuel : ℕ) (s : SemanticPacketQueue π) (target : π) : Option (SemanticPacketQueue π) :=
  (s.findPrev target fuel none s.head_).bind fun pp => match pp with
    | none => (deque hdr fuel s).map Prod.fst
    | some pp => (s.unlink hdr pp target).map fun q => { s with toPacketQueue := q }

def remove (fuel : ℕ) (s : SemanticPacketQueue π) (pkt : π) : Option (SemanticPacketQueue π) :=
  (unqueue hdr fuel s pkt).map fun s => count hdr s pkt (-1)

/-- The acknowledgements that `filterAcks` looks for. -/
def older (pkt : π) (replaceHead : Bool) (p : π) : Bool :=
  compareFlows hdr p pkt && isAck hdr p &&
    (decide ((hdr p).seqno < (hdr pkt).seqno) ||
      replaceHead && decide ((hdr p).seqno = (hdr pkt).seqno))

/-- The loop of `filterAcks`. -/
def filterLoop (fuel : ℕ) (pkt : π) (replaceHead : Bool) :
    ℕ → SemanticPacketQueue π → Option π → Option π → Bool → Option (SemanticPacketQueue π)
  | 0, _, _, _, _ => none
  | _ + 1, s, none, _, _ => some s
  | k + 1, s, some p, pp, doneReplacement =>
    if pkt ∈ s.freed then none
    else
      (s.follow p).bind fun n =>
        if older hdr pkt replaceHead p && (replaceHead && pkt ≠ p && !doneReplacement) then
          (unqueue hdr fuel s pkt).bind fun s =>
            (s.setNext pkt (some p)).bind fun q =>
              (match pp with
                | none => some q
                | some pp => q.setNext pp (some pkt)).bind fun q =>
                  filterLoop fuel pkt replaceHead k
                    { s with toPacketQueue := q, ack_count := s.ack_count - 1 }
                    (some p) (some pkt) true
        else if older hdr pkt replaceHead p && (doneReplacement || pkt ≠ p) then
          (s.removeAfter hdr (some p) pp).bind fun q =>
            filterLoop fuel pkt replaceHead k
              { s with toPacketQueue := q.free p, ack_count := s.ack_count - 1 } n pp
              doneReplacement
        else filterLoop fuel pkt replaceHead k s n (some p) doneReplacement

def filterAcks (fuel : ℕ) (s : SemanticPacketQueue π) (pkt : π) (replaceHead : Bool) :
    Option (SemanticPacketQueue π) :=
  filterLoop hdr fuel pkt replaceHead fuel s s.head_ s.head_ false

/-- An acknowledgement is handed over when it is to be reconstructed. -/
def enque (fuel : ℕ) (s : SemanticPacketQueue π) (pkt : π) :
    Option (SemanticPacketQueue π × Option π) :=
  if s.reconsAcks_ && isAck hdr pkt then some (s, none)
  else
    let s := count hdr s pkt 1
    (PacketQueue.enque hdr s.toPacketQueue pkt).bind fun (q, pt) =>
      let s := { s with toPacketQueue := q }
      if s.filteracks_ && isAck hdr pkt then
        (filterAcks hdr fuel s pkt s.replace_head_).map fun s => (s, pt)
      else some (s, pt)

/-- The modes are variables that may be set at any time. -/
inductive Op (π : Type*) where
  | enque (p : π)
  | deque
  | remove (p : π)
  | modes (acksfirst filteracks reconsAcks replaceHead : Bool)

def step (fuel : ℕ) (s : SemanticPacketQueue π) : Op π → Option (SemanticPacketQueue π × Option π)
  | .enque p => enque hdr fuel s p
  | .deque => deque hdr fuel s
  | .remove p => (remove hdr fuel s p).map fun s => (s, none)
  | .modes a f r h =>
    some ({ s with acksfirst_ := a, filteracks_ := f, reconsAcks_ := r, replace_head_ := h }, none)

end SemanticPacketQueue

end Ns2
