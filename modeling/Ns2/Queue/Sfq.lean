import Ns2.Lib.LinkRing
import Ns2.Lib.Machine

/-! Stochastic fair queueing: buckets with packet queues, the active ones in a ring. -/

namespace Ns2

/-- The bound variables, and what is read from the headers of a packet. -/
structure SFQConfig (π : Type) where
  maxqueue_ : ℤ
  buckets_ : ℤ
  saddr : π → ℤ
  daddr : π → ℤ

/-- The fields of the buckets are functions of their index; `bucket` is false until the array is
allocated. -/
structure SFQ (π : Type) where
  bucket : Bool
  queue : ℕ → List π
  pkts : ℕ → ℤ
  prev : ℕ → Option ℕ
  next : ℕ → Option ℕ
  active : Option ℕ
  occupied : ℤ
  fairshare : ℤ

namespace SFQ

variable {π : Type}

/-- The ring with `this` before its head, and its entry. -/
def activate (s : SFQ π) (this : ℕ) : Option (SFQ π) :=
  match s.active with
  | some head =>
    let s := { s with
      prev := Function.update s.prev this (s.prev head)
      next := Function.update s.next this (some head) }
    (s.prev head).map fun p => { s with
      next := Function.update s.next p (some this)
      prev := Function.update s.prev head (some this) }
  | none => some { s with
      prev := Function.update s.prev this (some this)
      next := Function.update s.next this (some this)
      active := some this }

/-- The ring without its head `this`. -/
def idle (s : SFQ π) (this : ℕ) : Option (SFQ π) :=
  if s.next this = some this then some { s with active := none }
  else (s.next this).bind fun n =>
    let s := { s with prev := Function.update s.prev n (s.prev this) }
    (s.prev this).map fun p =>
      let s := { s with next := Function.update s.next p (s.next this) }
      { s with active := s.next this }

variable (c : SFQConfig π)

/-- A null array pointer where the constructor leaves it. -/
def new : SFQ π := ⟨false, fun _ => [], fun _ => 0, fun _ => none, fun _ => none, none, 0, 0⟩

/-- `none` where the array cannot be allocated or `fairshare` divides by 0. -/
def initsfq (s : SFQ π) : Option (SFQ π) :=
  if 0 < c.buckets_ then
    some { s with
      bucket := true
      queue := fun _ => []
      pkts := fun _ => 0
      prev := fun _ => none
      next := fun _ => none
      active := none
      occupied := 0
      fairshare := c.maxqueue_.tdiv c.buckets_ }
  else none

/-- `if (!bucket) initsfq()` -/
def ready (s : SFQ π) : Option (SFQ π) := if s.bucket then some s else initsfq c s

def isInt (i : ℤ) : Bool := -2 ^ 31 ≤ i ∧ i < 2 ^ 31

/-- `none` where a sum overflows. -/
def hash (p : π) : Option ℤ :=
  let k := c.saddr p + c.daddr p
  if isInt k ∧ isInt (k + k / 2 ^ 8) then
    some ((k + k / 2 ^ 8 + (-(k / 2 ^ 4) - 1)).tmod (2 ^ 20 - 1))
  else none

/-- The index `which`; `none` where it is outside of the array. -/
def which (p : π) : Option ℕ :=
  (hash c p).bind fun h =>
    let i := h.tmod c.buckets_
    if i < 0 then none else some i.toNat

/-- The packet in its bucket, which becomes active with its first one. -/
def store (s : SFQ π) (p : π) (q : ℕ) : Option (SFQ π) :=
  let s := { s with
    queue := Function.update s.queue q (s.queue q ++ [p])
    occupied := s.occupied + 1
    pkts := Function.update s.pkts q (s.pkts q + 1) }
  if s.pkts q = 1 then s.activate q else some s

/-- Also tells whether the packet is dropped. -/
def enque (s : SFQ π) (p : π) : Option (SFQ π × Bool) :=
  (ready c s).bind fun s => (which c p).bind fun q =>
    let used := s.pkts q
    let left := c.maxqueue_ - s.occupied
    if used ≥ left / 2 ∨ left < c.buckets_ ∧ used > s.fairshare ∨ left ≤ 0 then some (s, true)
    else (s.store p q).map fun s => (s, false)

/-- The first packet of the active bucket, which goes to the end of the ring or leaves it. -/
def serve (s : SFQ π) (a : ℕ) : Option (SFQ π × Option π) :=
  let pkt := (s.queue a).head?
  let s := { s with
    pkts := Function.update s.pkts a (s.pkts a - 1)
    occupied := s.occupied - 1
    queue := Function.update s.queue a (s.queue a).tail }
  if s.pkts a = 0 then (s.idle a).map fun s => (s, pkt)
  else some ({ s with active := s.next a }, pkt)

def deque (s : SFQ π) : Option (SFQ π × Option π) :=
  (ready c s).bind fun s =>
    match s.active with
    | none => some (s, none)
    | some a => s.serve a

inductive Op (π : Type) where
  | enque (p : π)
  | deque

end SFQ

end Ns2
