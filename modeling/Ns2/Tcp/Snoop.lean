import Ns2.Lib.Machine
import Ns2.Lib.OptionRing

/-! The snoop agent of a base station: it keeps the packets on the way to a mobile host in a ring, and
sends them again when they get lost. -/

namespace Ns2

open OptionRing

def SNOOP_CLOSED : BitVec 16 := 0x02
def SNOOP_NOACK : BitVec 16 := 0x04
def SNOOP_FULL : BitVec 16 := 0x08
def SNOOP_ALIVE : BitVec 16 := 0x20

def SNOOP_MAXWIND : ℕ := 100
def SNOOP_MAX_RXMIT : ℤ := 10

def RTX_THRESH : ℤ := 1

/-- A packet of the cache, and the number of the object that holds it. -/
structure SnoopPacket where
  id : ℕ
  seqno : ℤ
  numRxmit : ℤ
  senderRxmit : ℤ
  sndTime : ℚ
  deriving DecidableEq

/-- The pending event is a packet, by its number; the numbers from `fresh` on are not in use. -/
structure Snoop where
  maxbufs_ : ℕ
  lru_ : Bool
  fstate_ : BitVec 16
  lastSeen_ : ℤ
  lastAck_ : ℤ
  expNextAck_ : ℤ
  expDupacks_ : ℤ
  bufhead_ : ℕ
  buftail_ : ℕ
  toutPending_ : Option ℕ
  pkts_ : ℕ → Option SnoopPacket
  fresh : ℕ

/-- What becomes of the packet at hand, and a packet that is sent again. -/
inductive SnoopAction
  | propagate
  | suppress
  | rxmit (seqno : ℤ)
  deriving DecidableEq

namespace Snoop

def new (maxbufs : ℕ) (lru : Bool) : Snoop where
  maxbufs_ := if maxbufs = 0 then SNOOP_MAXWIND else maxbufs
  lru_ := lru
  fstate_ := 0
  lastSeen_ := -1
  lastAck_ := -1
  expNextAck_ := 0
  expDupacks_ := 0
  bufhead_ := 0
  buftail_ := 0
  toutPending_ := none
  pkts_ := fun _ => none
  fresh := 0

def is (s : Snoop) (flag : BitVec 16) : Bool := s.fstate_ &&& flag != 0

def setFlag (s : Snoop) (flag : BitVec 16) : Snoop := { s with fstate_ := s.fstate_ ||| flag }

def clearFlag (s : Snoop) (flag : BitVec 16) : Snoop := { s with fstate_ := s.fstate_ &&& ~~~flag }

def empty_ (s : Snoop) : Bool := s.bufhead_ == s.buftail_ && !s.is SNOOP_FULL

def reset (s : Snoop) : Snoop :=
  { s with
    fstate_ := 0
    lastSeen_ := -1
    lastAck_ := -1
    expNextAck_ := 0
    expDupacks_ := 0
    bufhead_ := 0
    buftail_ := 0
    toutPending_ := none
    pkts_ := fun _ => none }

/-- The tail is freed; the flags are or-ed with all the others. -/
def makeRoom (s : Snoop) : Snoop :=
  { s with
    pkts_ := Function.update s.pkts_ s.buftail_ none
    buftail_ := next s.maxbufs_ s.buftail_
    fstate_ := s.fstate_ ||| ~~~SNOOP_FULL }

/-- Where the search for a sequence number ends. -/
inductive Place
  | cached (i : ℕ)
  | middle (i : ℕ)
  | behind (i : ℕ)
  deriving DecidableEq

/-- The loop over the ring; `none` is a null packet in it, or more rounds than the first argument. -/
def search (s : Snoop) (seq : ℤ) : ℕ → ℕ → Option Place
  | 0, _ => none
  | f + 1, i =>
    if i = s.bufhead_ then some (.behind i)
    else
      match s.pkts_ i with
      | none => none
      | some p =>
        if p.seqno = seq then some (.cached i)
        else if p.seqno > seq then some (.middle i)
        else search s seq f (next s.maxbufs_ i)

/-- `pkts_[i]`, if there is one, with other header fields -/
def modify (s : Snoop) (i : ℕ) (f : SnoopPacket → SnoopPacket) : Snoop :=
  { s with pkts_ := Function.update s.pkts_ i ((s.pkts_ i).map f) }

def savepkt_ (s : Snoop) (now : ℚ) (seq : ℤ) (i : ℕ) : Snoop :=
  { s with
    pkts_ := Function.update s.pkts_ i (some ⟨s.fresh, seq, 0, 0, now⟩)
    fresh := s.fresh + 1 }

/-- The packet goes to slot `i`. The second component is `SNOOP_TAIL`. -/
def save (s : Snoop) (now : ℚ) (seq : ℤ) (i : ℕ) : Snoop × Bool :=
  let s := s.savepkt_ now seq i
  let s := if s.bufhead_ = s.buftail_ then s.setFlag SNOOP_FULL else s
  if seq < s.lastSeen_ then
    let s := if s.buftail_ = i then
        s.modify i fun p => { p with senderRxmit := 1, numRxmit := 0 }
      else s
    ({ s with expNextAck_ := s.buftail_ }, true)
  else ({ s with lastSeen_ := seq }, false)

/-- The packets in front of slot `i` move one slot down, and the slot in front of it is taken. -/
def openSlot (s : Snoop) (i : ℕ) : Snoop :=
  let temp := s.pkts_ (prev s.maxbufs_ s.buftail_)
  let a := shift s.maxbufs_ i (s.maxbufs_ + 1) s.buftail_ s.pkts_
  { s with
    pkts_ := Function.update a (prev s.maxbufs_ i) temp
    buftail_ := prev s.maxbufs_ s.buftail_ }

/-- `if (i == bufhead_) bufhead_ = next(bufhead_)` -/
def extend (s : Snoop) (i : ℕ) : Snoop :=
  if i = s.bufhead_ then { s with bufhead_ := next s.maxbufs_ s.bufhead_ } else s

/-- `none` is the use of a null pointer. -/
def snoop_insert (s : Snoop) (now : ℚ) (seq : ℤ) : Option (Snoop × Bool) :=
  if seq ≤ s.lastAck_ then some (s, false)
  else
    let s := if s.is SNOOP_FULL then s.makeRoom else s
    if seq > s.lastSeen_ ∨ s.pkts_ s.buftail_ = none then
      some ({ s with bufhead_ := next s.maxbufs_ s.bufhead_ }.save now seq s.bufhead_)
    else
      match s.pkts_ s.buftail_ with
      | none => none
      | some p =>
        if seq < p.seqno then
          let i := prev s.maxbufs_ s.buftail_
          some ({ s with buftail_ := i }.save now seq i)
        else
          match s.search seq (s.maxbufs_ + 1) s.buftail_ with
          | none => none
          | some (.cached i) =>
            some (s.modify i fun p => { p with numRxmit := 0, senderRxmit := 1, sndTime := now }, true)
          | some (.middle i) =>
            let j := prev s.maxbufs_ i
            some (((s.openSlot i).extend j).save now seq j)
          | some (.behind i) => some ((s.extend i).save now seq i)

/-- The tail becomes the pending event, if there is none and the ring is not empty. -/
def schedule (s : Snoop) : Snoop :=
  if s.toutPending_ = none ∧ s.empty_ = false then
    { s with toutPending_ := (s.pkts_ s.buftail_).map (·.id) }
  else s

/-- `room` says that the interface queue is not full. -/
def insertIf (s : Snoop) (now : ℚ) (seq : ℤ) (room : Bool) : Option (Snoop × Bool) :=
  if room then s.snoop_insert now seq else some (s, false)

def snoop_data (s : Snoop) (now : ℚ) (seq : ℤ) (room : Bool) : Option Snoop :=
  let s := if s.is SNOOP_ALIVE && seq == 0 then s.reset else s
  let s := s.setFlag SNOOP_ALIVE
  if s.is SNOOP_FULL && !s.lru_ then
    some (if seq > s.lastSeen_ then { s with lastSeen_ := seq } else s)
  else do
    let (s, tail) ← s.insertIf now seq room
    let s := if tail then { s with toutPending_ := none } else s
    some s.schedule

/-- The packet at the tail is sent again. -/
def snoop_rxmit (s : Snoop) (now : ℚ) (p : SnoopPacket) : Snoop × List SnoopAction :=
  if p.numRxmit < SNOOP_MAX_RXMIT then
    let s := s.modify s.buftail_ fun p => { p with sndTime := now, numRxmit := p.numRxmit + 1 }
    ({ s with toutPending_ := some p.id }, [.rxmit p.seqno, .suppress])
  else (s, [.propagate])

/-- The loop that frees what is acknowledged, from slot `i` on; it ends at the slot of the first packet
that stays, or at the head. -/
def cleanLoop (s : Snoop) (ack : ℤ) : ℕ → ℕ → Option (Snoop × ℕ)
  | 0, _ => none
  | f + 1, i =>
    match s.pkts_ i with
    | none => none
    | some p =>
      if p.seqno ≤ ack then
        let s := { s.clearFlag SNOOP_FULL with pkts_ := Function.update s.pkts_ i none }
        let i := next s.maxbufs_ i
        if i ≠ s.bufhead_ then cleanLoop s ack f i else some (s, i)
      else some (s, i)

def snoop_cleanbufs_ (s : Snoop) (ack : ℤ) : Option Snoop :=
  let s := { s with toutPending_ := none }
  if s.empty_ then some s
  else do
    let (s, i) ← s.cleanLoop ack (s.maxbufs_ + 1) s.buftail_
    let s := if i ≠ s.buftail_ ∨ s.bufhead_ ≠ s.buftail_ then
        { s.clearFlag SNOOP_FULL with buftail_ := i }
      else s
    some s.schedule

/-- `thresh` is the counter that all agents share. -/
def snoop_ack (s : Snoop) (now : ℚ) (thresh ack : ℤ) : Option (Snoop × List SnoopAction) :=
  if s.is SNOOP_CLOSED || s.lastAck_ > ack then some (s, [.propagate])
  else if s.lastAck_ = ack then
    match s.pkts_ s.buftail_ with
    | none => some (s, [.propagate])
    | some p =>
      if p.seqno > ack + 1 then some (s, [.propagate])
      else if s.expDupacks_ = 0 then
        if thresh < RTX_THRESH then some (s, [.propagate])
        else if p.senderRxmit ≠ 0 then some (s, [.propagate])
        else
          let exp := s.bufhead_ - s.expNextAck_
          let exp := if exp < 0 then exp + SNOOP_MAXWIND else exp
          let s := { s with
            expDupacks_ := exp - (RTX_THRESH + 1)
            expNextAck_ := next s.maxbufs_ s.buftail_ }
          if p.numRxmit = 0 then some (s.snoop_rxmit now p) else some (s, [.propagate])
      else if s.expDupacks_ > 0 then
        some ({ s with expDupacks_ := s.expDupacks_ - 1 }, [.suppress])
      else if s.expDupacks_ = -1 ∧ p.numRxmit < 2 then some (s.snoop_rxmit now p)
      else some (s, [.propagate])
  else do
    let s ← (s.clearFlag SNOOP_NOACK).snoop_cleanbufs_ ack
    some ({ s with expDupacks_ := 0, expNextAck_ := s.buftail_, lastAck_ := ack }, [.propagate])

/-- The timer of the pending event. -/
def timeout (s : Snoop) (now : ℚ) : Snoop × List SnoopAction :=
  let s := { s with toutPending_ := none }
  match s.pkts_ s.buftail_ with
  | none => (s, [])
  | some p =>
    if p.seqno ≠ s.lastAck_ + 1 then (s, [])
    else if s.bufhead_ ≠ s.buftail_ ∨ s.is SNOOP_FULL then
      let r := s.snoop_rxmit now p
      if .suppress ∈ r.2 then
        ({ r.1 with expNextAck_ := next s.maxbufs_ s.buftail_ }, r.2)
      else (r.1, r.2)
    else (s, [])

/-- The command `check-rxmit` -/
def check_rxmit (s : Snoop) (now bound : ℚ) : Option (Snoop × List SnoopAction) :=
  if s.empty_ then some (s, [.propagate])
  else
    match s.pkts_ s.buftail_ with
    | none => none
    | some p =>
      if p.sndTime ≠ -1 ∧ p.sndTime < bound ∧ p.numRxmit = 0 then some (s.snoop_rxmit now p)
      else some (s, [.propagate])

/-- What happens to the agent; `thresh` is the shared counter as it stands. -/
inductive Event
  | data (now : ℚ) (seq : ℤ) (room : Bool)
  | ack (now : ℚ) (thresh ack : ℤ)
  | timeout (now : ℚ)
  | check (now bound : ℚ)

def step (s : Snoop) : Event → Option (Snoop × List SnoopAction)
  | .data now seq room => (s.snoop_data now seq room).map fun s => (s, [])
  | .ack now thresh ack => s.snoop_ack now thresh ack
  | .timeout now => some (s.timeout now)
  | .check now bound => s.check_rxmit now bound

end Snoop

end Ns2
