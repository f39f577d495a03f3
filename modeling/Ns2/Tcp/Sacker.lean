import Ns2.Tcp.Acker

/-! The acker that reports blocks of received packets, with the sink around it: the blocks of
an ACK come from the ring and from a stack of earlier blocks. -/

namespace Ns2

/-- `NSA` -/
def nsa : ℕ := 3

/-- The entries in use; every other entry of the source's array is -1. -/
structure SackStack where
  size_ : ℕ
  SFE_ : List (ℤ × ℤ)

namespace SackStack

def new (sz : ℕ) : SackStack := ⟨sz, []⟩

def cnt (f : SackStack) : ℕ := f.SFE_.length

def reset (f : SackStack) : SackStack := { f with SFE_ := [] }

/-- `push`, and the two edges that are then stored at the top. -/
def push (f : SackStack) (left right : ℤ) : SackStack :=
  { f with SFE_ := (left, right) :: (if f.cnt ≥ f.size_ then f.SFE_.take (f.size_ - 1) else f.SFE_) }

end SackStack

structure Sacker extends Acker where
  base_nblocks_ : ℕ
  sf_ : SackStack

namespace Sacker

open Acker

/-- `trace`, where the number of blocks has changed; `configure` does the same. -/
def trace (newval : ℕ) (s : Sacker) : Sacker :=
  { s with base_nblocks_ := min newval nsa, sf_ := .new (min newval nsa) }

/-- The first hole from `i` on, of at most `n` packets up to `maxseen_`. -/
def rightEdge (s : Sacker) : ℕ → ℤ → ℤ
  | 0, _ => s.maxseen_ + 1
  | n + 1, i => if s.seen_ (slot s.wndmask_ i) = 0 then i else rightEdge s n (i + 1)

/-- The packet behind the first hole from `i` down, of at most `n` packets. -/
def leftEdge (s : Sacker) : ℕ → ℤ → ℤ
  | 0, _ => -1
  | n + 1, i => if s.seen_ (slot s.wndmask_ i) = 0 then i + 1 else leftEdge s n (i - 1)

/-- The loop over the stack, with room for some more blocks: the entries that stay, and the blocks.
The newest block covers up what it contains. -/
def history (maxseen left right : ℤ) : List (ℤ × ℤ) → ℕ → List (ℤ × ℤ) × List (ℤ × ℤ)
  | l, 0 => (l, [])
  | [], _ + 1 => ([], [])
  | e :: l, room + 1 =>
    if e.1 < 0 ∨ e.2 < 0 ∨ e.2 > maxseen + 1 then (e :: l, [])
    else if left ≤ e.1 ∧ right ≥ e.2 then history maxseen left right l (room + 1)
    else
      let r := history maxseen left right l room
      (e :: r.1, e :: r.2)

/-- The block for a duplicate. -/
def dsack (generate_dsacks : Bool) (s : Sacker) (old_seqno : ℤ) : List (ℤ × ℤ) :=
  if generate_dsacks ∧ s.is_dup_ then [(old_seqno, old_seqno + 1)] else []

/-- The blocks of the ACK for the packet `old_seqno`. -/
def appendAck (generate_dsacks : Bool) (s : Sacker) (old_seqno : ℤ) : Sacker × List (ℤ × ℤ) :=
  if old_seqno < 0 then (s, [])
  else if s.Seqno ≥ s.maxseen_ ∧ s.sf_.cnt ≠ 0 then ({ s with sf_ := s.sf_.reset }, [])
  else if (s.Seqno < s.maxseen_ ∨ s.is_dup_) ∧ s.base_nblocks_ > 0 then
    let dsack := dsack generate_dsacks s old_seqno
    if dsack.length ≥ s.base_nblocks_ then (s, dsack)
    else
      let sack_right := rightEdge s (s.maxseen_ + 1 - old_seqno).toNat old_seqno
      if old_seqno ≤ s.Seqno then
        let r := history s.maxseen_ 0 sack_right s.sf_.SFE_ (s.base_nblocks_ - dsack.length)
        ({ s with sf_ := { s.sf_ with SFE_ := r.1 } }, dsack ++ r.2)
      else
        let sack_left := leftEdge s (sack_right - 1 - s.Seqno).toNat (sack_right - 1)
        let r := history s.maxseen_ sack_left sack_right s.sf_.SFE_
          (s.base_nblocks_ - (dsack.length + 1))
        ({ s with sf_ := SackStack.push { s.sf_ with SFE_ := r.1 } sack_left sack_right },
          dsack ++ (sack_left, sack_right) :: r.2)
  else (s, [])

end Sacker

/-- A sink with a `Sacker`. The packet `save_` is that of a delayed ACK, while the timer is
pending. -/
structure SackSink extends Sacker where
  generate_dsacks_ : Bool
  save_ : Option ℤ

namespace SackSink

open Acker Sacker

inductive Op where
  | recv (seqno numBytes : ℤ) (delay : Bool)
  | timeout
  | setMaxSackBlocks (nblocks : ℕ)
  | setGenerateDSacks (b : Bool)

/-- The ACK for a packet, with its blocks. -/
def ack (s : SackSink) (seqno : ℤ) : SackSink × Option (ℤ × List (ℤ × ℤ)) :=
  let r := appendAck s.generate_dsacks_ s.toSacker seqno
  ({ s with toSacker := r.1, save_ := none }, some (seqno, r.2))

/-- One event at the sink. The ACK of a packet in order may be delayed if none is pending, as the
sink and its settings decide. -/
def step (s : SackSink) : Op → Option (SackSink × Option (ℤ × List (ℤ × ℤ)))
  | .recv seqno numBytes delay =>
    (update s.toAcker seqno numBytes).map fun r =>
      let s' := { s with toAcker := r.1 }
      if delay ∧ s.save_ = none ∧ seqno = s'.Seqno then ({ s' with save_ := some seqno }, none)
      else ack s' seqno
  | .timeout =>
    match s.save_ with
    | none => some (s, none)
    | some seqno => some (ack s seqno)
  | .setMaxSackBlocks nblocks => some ({ s with toSacker := trace nblocks s.toSacker }, none)
  | .setGenerateDSacks b => some ({ s with generate_dsacks_ := b }, none)

/-- A new sink with its settings. -/
def new (nblocks : ℕ) (generate_dsacks : Bool) : SackSink where
  next_ := 0
  maxseen_ := 0
  wndmask_ := 63
  seen_ _ := 0
  is_dup_ := false
  base_nblocks_ := min nblocks nsa
  sf_ := .new (min nblocks nsa)
  generate_dsacks_ := generate_dsacks
  save_ := none

end SackSink

end Ns2
