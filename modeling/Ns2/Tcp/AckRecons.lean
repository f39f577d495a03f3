import Ns2.Lib.Machine

/-! The reconstruction of acks behind a constrained link (ack-recons.cc). Acks are released in any
order, so the times of the events are left out. -/

namespace Ns2

structure AckRecons where
  ackPending_ : ℤ
  lastAck_ : ℤ
  lastRealAck_ : ℤ
  dupacks_ : ℤ
  deltaAckThresh_ : ℤ
  delack_ : ℤ
  /-- The acks of the scheduled events. -/
  scheduled : List ℤ
  deriving DecidableEq

namespace AckRecons

/-- `lastAck_` and `lastRealAck_` start at one bound value, `dupacks_` anywhere. -/
def new (last dupacks thresh delack : ℤ) : AckRecons := ⟨0, last, last, dupacks, thresh, delack, []⟩

def sendack (r : AckRecons) (ack : ℤ) : AckRecons :=
  { r with
    scheduled := r.scheduled ++ [ack]
    ackPending_ := r.ackPending_ + 1 }

/-- `for (; a <= ack; a += delack_) sendack(a)`, with the last `a`. -/
def sendLoop (ack : ℤ) : ℕ → ℤ → AckRecons → Option (ℤ × AckRecons)
  | 0, _, _ => none
  | n + 1, a, r => if a ≤ ack then sendLoop ack n (a + r.delack_) (r.sendack a) else some (a, r)

/-- Acks interspersed between the last and this one. -/
def intersperse (r : AckRecons) (ack : ℤ) : Option AckRecons :=
  (sendLoop ack ((ack - r.lastAck_).toNat + 1) (r.lastAck_ + r.delack_) r).map fun q =>
    if (q.1 - ack).tmod r.delack_ ≠ 0 then q.2.sendack ack else q.2

def immediate (r : AckRecons) (ack : ℤ) : Bool :=
  (decide (r.ackPending_ = 0) && decide (ack - r.lastAck_ ≤ r.deltaAckThresh_)) ||
    decide (r.dupacks_ ≠ 0)

def pass (r : AckRecons) (ack : ℤ) : AckRecons :=
  if ack = r.lastRealAck_ then { r with dupacks_ := r.dupacks_ + 1 }
  else if ack > r.lastAck_ then { r with
    dupacks_ := 0
    lastAck_ := ack }
  else r

def noteReal (r : AckRecons) (ack : ℤ) : AckRecons :=
  if ack ≥ r.lastRealAck_ then { r with lastRealAck_ := ack } else r

/-- The ack that is passed on at once, if any. -/
def recv (r : AckRecons) (ack : ℤ) : Option (AckRecons × Option ℤ) :=
  if r.immediate ack then some ((r.pass ack).noteReal ack, some ack)
  else
    ((if ack = r.lastRealAck_ then { r with dupacks_ := r.dupacks_ + 1 } else r).intersperse
      ack).map fun r' => (r'.noteReal ack, none)

/-- The event at place `k` of the scheduled ones fires. -/
def handle (r : AckRecons) (k : ℕ) : Option (AckRecons × Option ℤ) :=
  r.scheduled[k]?.map fun a =>
    if r.lastAck_ < a then
      ({ r with
        scheduled := r.scheduled.eraseIdx k
        ackPending_ := r.ackPending_ - 1
        lastAck_ := a }, some a)
    else
      ({ r with
        scheduled := r.scheduled.eraseIdx k
        ackPending_ := r.ackPending_ - 1 }, none)

end AckRecons

inductive AckOp where
  | recv (ack : ℤ)
  | handle (k : ℕ)

/-- A reconstructor with the acks that have arrived and those that it has passed on. -/
structure AckTrace where
  recons : AckRecons
  arrived : List ℤ
  passed : List ℤ

namespace AckTrace

def new (last dupacks thresh delack : ℤ) : AckTrace := ⟨.new last dupacks thresh delack, [], []⟩

def step (t : AckTrace) : AckOp → Option (AckTrace × Option ℤ)
  | .recv ack =>
    (t.recons.recv ack).map fun q => (⟨q.1, t.arrived ++ [ack], t.passed ++ q.2.toList⟩, q.2)
  | .handle k =>
    (t.recons.handle k).map fun q => (⟨q.1, t.arrived, t.passed ++ q.2.toList⟩, q.2)

/-- The acks passed on never decrease, whichever scheduled ack is released next; every new ack is
passed on, scheduled or superseded; and the pending acks are counted. -/
structure Right (last : ℤ) (t : AckTrace) : Prop where
  sorted : t.passed.Pairwise (· ≤ ·)
  release : ∀ k t' o, t.step (.handle k) = some (t', o) → t'.passed.Pairwise (· ≤ ·)
  covered : ∀ a ∈ t.arrived, last < a →
    a ∈ t.passed ∨ a ∈ t.recons.scheduled ∨ ∃ b ∈ t.passed, a < b
  pending : t.recons.ackPending_ = t.recons.scheduled.length

/-- The incoming acks never decrease, and the events that fire are scheduled. -/
def Rising (t : AckTrace) : AckOp → Prop
  | .recv ack => ∀ a ∈ t.arrived, a ≤ ack
  | .handle k => k < t.recons.scheduled.length

instance (t : AckTrace) : (o : AckOp) → Decidable (t.Rising o)
  | .recv ack => inferInstanceAs (Decidable (∀ a ∈ t.arrived, a ≤ ack))
  | .handle k => inferInstanceAs (Decidable (k < t.recons.scheduled.length))

/-- A duplicate is passed on at once only when no smaller ack is still to be released. -/
def Ok (t : AckTrace) : AckOp → Prop
  | .recv ack => t.recons.immediate ack = true → ack = t.recons.lastRealAck_ →
    ∀ a ∈ t.recons.scheduled, t.recons.lastAck_ < a → ack ≤ a
  | .handle _ => True

end AckTrace

end Ns2
