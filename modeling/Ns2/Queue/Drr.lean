import Ns2.Lib.LinkRing
import Ns2.Lib.Machine

/-! Deficit round robin: buckets with packet queues, the active ones in a ring. -/

namespace Ns2

structure PacketDRR (π : Type*) where
  queue : List π
  pkts : ℤ
  src : ℤ
  bcount : ℤ
  prev : Option ℕ
  next : Option ℕ
  deficitCounter : ℤ
  turn : Bool

/-- The bound variables, and what is read from the headers of a packet. -/
structure DRRConfig (π : Type*) where
  buckets_ : ℤ
  blimit_ : ℤ
  quantum_ : ℤ
  mask_ : ℤ
  saddr : π → ℤ
  size : π → ℤ

structure DRR (π : Type*) where
  drr : ℕ → PacketDRR π
  bytecnt : ℤ
  pktcnt : ℤ
  flwcnt : ℤ
  curr : Option ℕ

namespace DRR

variable {π : Type*}

def new : DRR π where
  drr _ := ⟨[], 0, -1, 0, none, none, 0, false⟩
  bytecnt := 0
  pktcnt := 0
  flwcnt := 0
  curr := none

abbrev nexts (drr : ℕ → PacketDRR π) (b : ℕ) : Option ℕ := (drr b).next

abbrev prevs (drr : ℕ → PacketDRR π) (b : ℕ) : Option ℕ := (drr b).prev

def setNext (drr : ℕ → PacketDRR π) (b : ℕ) (x : Option ℕ) : ℕ → PacketDRR π :=
  Function.update drr b { drr b with next := x }

def setPrev (drr : ℕ → PacketDRR π) (b : ℕ) (x : Option ℕ) : ℕ → PacketDRR π :=
  Function.update drr b { drr b with prev := x }

/-- The ring with a new bucket, and its entry; `none` where a null pointer is followed. -/
def activate (drr : ℕ → PacketDRR π) (this : ℕ) (head : Option ℕ) : Option ((ℕ → PacketDRR π) × ℕ) :=
  match head with
  | some h =>
    let drr := setNext (setPrev drr this (drr h).prev) this (some h)
    (drr h).prev.map fun p => (setPrev (setNext drr p (some this)) h (some this), h)
  | none => some (setNext (setPrev drr this (some this)) this (some this), this)

def relink (drr : ℕ → PacketDRR π) (this : ℕ) : Option (ℕ → PacketDRR π) :=
  (drr this).next.bind fun n =>
    let drr := setPrev drr n (drr this).prev
    (drr this).prev.map fun p => setNext drr p (drr this).next

/-- The ring without a bucket, and its entry. -/
def idle (drr : ℕ → PacketDRR π) (this head : ℕ) : Option ((ℕ → PacketDRR π) × Option ℕ) :=
  if head = this then
    if (drr this).next = some this then some (drr, none)
    else (relink drr this).map fun drr => (drr, (drr this).next)
  else (relink drr this).map fun drr => (drr, some head)

/-- The loop of `getMaxflow`. -/
def maxLoop (drr : ℕ → PacketDRR π) : ℕ → ℕ → ℕ → Option ℕ
  | 0, _, maxflow => some maxflow
  | n + 1, tmp, maxflow =>
    let maxflow := if (drr maxflow).bcount < (drr tmp).bcount then tmp else maxflow
    (drr tmp).next.bind fun tmp => maxLoop drr n tmp maxflow

/-- `none` also where the source returns null, which `enque` follows. -/
def getMaxflow (s : DRR π) : Option ℕ := s.curr.bind fun c => maxLoop s.drr s.flwcnt.toNat c c

variable (c : DRRConfig π)

/-- `saddr() & 0xfff0` -/
def masked (i : ℤ) : ℤ := i % 2 ^ 16 - i % 2 ^ 4

/-- `none` where the first sum overflows. -/
def hash (p : π) : Option ℤ :=
  let i := if c.mask_ ≠ 0 then masked (c.saddr p) else c.saddr p
  let sum := i + i / 2 ^ 8
  if -2 ^ 31 ≤ sum ∧ sum < 2 ^ 31 then some ((sum + (-(i / 2 ^ 4) - 1)).tmod (2 ^ 24 - 1) + 1)
  else none

/-- The index `which` of a packet's bucket; `none` where it is outside of the array. -/
def bucket (p : π) : Option ℕ :=
  (hash c p).bind fun i =>
    let which := i.tmod c.buckets_
    if c.buckets_ ≤ 0 ∨ which < 0 then none else some which.toNat

def modify (s : DRR π) (b : ℕ) (f : PacketDRR π → PacketDRR π) : DRR π :=
  { s with drr := Function.update s.drr b (f (s.drr b)) }

/-- One packet of the longest flow is dropped; the queue goes idle with its last one. -/
def dropOne (s : DRR π) (remq : ℕ) : Option (DRR π × π) :=
  match (s.drr remq).queue with
  | [] => none
  | p :: rest =>
    let s := s.modify remq fun q =>
      { q with queue := rest, bcount := q.bcount - c.size p, pkts := q.pkts - 1 }
    let s := { s with bytecnt := s.bytecnt - c.size p, pktcnt := s.pktcnt - 1 }
    if (s.drr remq).pkts = 0 then
      s.curr.bind fun head => (idle s.drr remq head).map fun r =>
        ({ s with drr := r.1, curr := r.2, flwcnt := s.flwcnt - 1 }, p)
    else some (s, p)

/-- The loop of `enque` that drops packets from the longest flow. -/
def dropLoop : ℕ → DRR π → Option (DRR π × List π)
  | 0, _ => none
  | fuel + 1, s =>
    if s.bytecnt > c.blimit_ then
      (getMaxflow s).bind fun remq => (dropOne c s remq).bind fun r =>
        (dropLoop fuel r.1).map fun t => (t.1, r.2 :: t.2)
    else some (s, [])

/-- A collision only gives a warning. -/
def setSrc (p : π) (q : PacketDRR π) : PacketDRR π :=
  let compare := if c.mask_ = 0 then c.saddr p else masked (c.saddr p)
  if q.src = -1 then { q with src := compare } else q

/-- The packet in its bucket, which becomes active with its first one. -/
def store (s : DRR π) (p : π) (b : ℕ) : Option (DRR π) :=
  let s := s.modify b fun q =>
    let q := setSrc c p q
    { q with queue := q.queue ++ [p], pkts := q.pkts + 1, bcount := q.bcount + c.size p }
  let s := { s with pktcnt := s.pktcnt + 1, bytecnt := s.bytecnt + c.size p }
  if (s.drr b).pkts = 1 then
    (activate s.drr b s.curr).map fun r =>
      { s with drr := r.1, curr := some r.2, flwcnt := s.flwcnt + 1 }.modify b fun q =>
        { q with deficitCounter := 0 }
  else some s

/-- Also returns the packets that are dropped. -/
def enque (s : DRR π) (p : π) : Option (DRR π × List π) :=
  (bucket c p).bind fun b => (store c s p b).bind fun s => dropLoop c (s.pktcnt.toNat + 1) s

/-- A bucket gets its quantum when its turn begins. -/
def beginTurn (q : PacketDRR π) : PacketDRR π :=
  if q.turn then q else { q with deficitCounter := q.deficitCounter + c.quantum_, turn := true }

/-- The loop of `deque`. -/
def dequeLoop : ℕ → DRR π → Option (DRR π × π)
  | 0, _ => none
  | fuel + 1, s =>
    s.curr.bind fun b =>
      let s := s.modify b (beginTurn c)
      match (s.drr b).queue with
      | [] => none
      | p :: rest =>
        if (s.drr b).deficitCounter ≥ c.size p then
          let s := s.modify b fun q =>
            { q with
              deficitCounter := q.deficitCounter - c.size p
              queue := rest
              bcount := q.bcount - c.size p
              pkts := q.pkts - 1 }
          let s := { s with pktcnt := s.pktcnt - 1, bytecnt := s.bytecnt - c.size p }
          if (s.drr b).pkts = 0 then
            let s := s.modify b fun q => { q with turn := false, deficitCounter := 0 }
            (idle s.drr b b).map fun r =>
              ({ s with drr := r.1, curr := r.2, flwcnt := s.flwcnt - 1 }, p)
          else some (s, p)
        else
          let s := s.modify b fun q => { q with turn := false }
          dequeLoop fuel { s with curr := (s.drr b).next }

def deque (s : DRR π) : Option (DRR π × Option π) :=
  if s.bytecnt = 0 then some (s, none)
  else (dequeLoop c (s.bytecnt + c.buckets_ + 1).toNat s).map fun r => (r.1, some r.2)

inductive Op (π : Type*) where
  | enque (p : π)
  | deque

/-- One operation, with the packets that it drops and the one that it returns. -/
def step (s : DRR π) : Op π → Option (DRR π × (List π × Option π))
  | .enque p => (enque c s p).map fun r => (r.1, (r.2, none))
  | .deque => (deque c s).map fun r => (r.1, ([], r.2))

end DRR

end Ns2
