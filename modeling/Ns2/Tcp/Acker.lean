import Ns2.Lib.RingBuffer
import Ns2.Lib.Machine

/-! The receive window of a TCP sink: a ring of byte counts, indexed by the sequence number
and a mask, that is doubled on demand. -/

namespace Ns2

open RingBuffer

structure Acker where
  next_ : ℤ
  maxseen_ : ℤ
  wndmask_ : ℕ
  seen_ : ℕ → ℤ
  is_dup_ : Bool

namespace Acker

/-- `i & wndmask_`; the sequence numbers that index the ring are not negative. -/
def slot (wndmask : ℕ) (i : ℤ) : ℕ := i.toNat &&& wndmask

def Seqno (s : Acker) : ℤ := s.next_ - 1

def reset (s : Acker) : Acker := { s with next_ := 0, maxseen_ := 0, seen_ := fun _ => 0 }

def resizeBuffers (sz : ℕ) (s : Acker) : Acker :=
  { s with
    seen_ := fill (slot (sz - 1)) (fun i => s.seen_ (slot s.wndmask_ i)) s.next_
      (s.maxseen_ + 2 - s.next_).toNat fun _ => 0
    wndmask_ := sz - 1 }

/-- The loop that resizes the ring until `seq` fits. -/
def grow (seq : ℤ) (s : Acker) : Acker :=
  if seq + 1 - s.next_ ≥ s.wndmask_ then grow seq (resizeBuffers ((s.wndmask_ + 1) * 2) s) else s
  termination_by (seq + 2 - s.next_ - s.wndmask_).toNat
  decreasing_by
    simp only [resizeBuffers]
    omega

/-- The slots up to `seq` become unseen, and `seq` is recorded. -/
def advance (seq numBytes : ℤ) (s : Acker) : Acker :=
  let seen := fill (slot s.wndmask_) (fun _ => 0) (s.maxseen_ + 1) (seq - (s.maxseen_ + 1)).toNat
    s.seen_
  let seen := Function.update seen (slot s.wndmask_ seq) numBytes
  { s with
    maxseen_ := seq
    seen_ := Function.update seen (slot s.wndmask_ (seq + 1)) 0 }

/-- The loop over the packets in order; `none` if it does not end. -/
def deliver (s : Acker) : ℕ → ℤ → ℤ → Option (ℤ × ℤ)
  | 0, _, _ => none
  | fuel + 1, next, numToDeliver =>
    if s.seen_ (slot s.wndmask_ next) ≠ 0 then
      deliver s fuel (next + 1) (numToDeliver + s.seen_ (slot s.wndmask_ next))
    else some (next, numToDeliver)

/-- The packet is recorded in the window; `just` if it was marked as seen by `advance`. -/
def record (seq numBytes : ℤ) (just : Bool) (s : Acker) : Acker :=
  { s with
    is_dup_ := s.seen_ (slot s.wndmask_ seq) ≠ 0 ∧ just = false
    seen_ := Function.update s.seen_ (slot s.wndmask_ seq) numBytes }

/-- The number of bytes that can be delivered. The loop over the packets meets every slot of the
ring before it meets one twice. -/
def update (s : Acker) (seq numBytes : ℤ) : Option (Acker × ℤ) :=
  let s := grow seq { s with is_dup_ := false }
  let just_marked_as_seen := decide (seq > s.maxseen_)
  let s := if just_marked_as_seen then advance seq numBytes s else s
  let s := { s with is_dup_ := decide (seq < s.next_) }
  if seq ≥ s.next_ ∧ seq ≤ s.maxseen_ then
    let s := record seq numBytes just_marked_as_seen s
    (deliver s (s.wndmask_ + 2) s.next_ 0).map fun r => ({ s with next_ := r.1 }, r.2)
  else some (s, 0)

/-- An arrival of a sequence number with a number of bytes, and what it returns. -/
def step (s : Acker) (a : ℤ × ℤ) : Option (Acker × (ℤ × Bool)) :=
  (update s a.1 a.2).map fun r => (r.1, (r.2, r.1.is_dup_))

end Acker

end Ns2
