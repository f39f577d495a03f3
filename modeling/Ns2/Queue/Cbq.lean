import Ns2.Lib.NextPointers

/-! Class-based queueing: the classes of a link, how they are inserted, and which of them sends. Classes
are numbered, and a packet is its size. -/

namespace Ns2

inductive CbqAlgorithm where
  | NONE
  | FORMAL
  | ANCESTORS
  | TOPLEVEL
  deriving DecidableEq

/-- The queue `q_` is `none` for a class without one; `pkts` is the count of its monitor. -/
structure CBQClass where
  peer_ : Option ℕ
  level_peer_ : Option ℕ
  lender_ : Option ℕ
  q_ : Option (List ℤ)
  pkts : ℤ
  allotment_ : ℚ
  maxidle_ : ℚ
  maxrate_ : ℚ
  extradelay_ : ℚ
  last_time_ : ℚ
  undertime_ : ℚ
  avgidle_ : ℚ
  pri_ : ℤ
  level_ : ℤ
  delayed_ : Bool
  bytes_alloc_ : ℤ
  permit_borrowing_ : Bool
  deriving DecidableEq

/-- The link is its bandwidth. The last three fields are those of a queue with weights, which `wrr`
distinguishes. -/
structure CBQueue where
  cls : ℕ → CBQClass
  last_lender_ : Option ℕ
  pending_pkt_ : Option ℤ
  link_ : Option ℚ
  active_ : ℤ → Option ℕ
  levels_ : ℤ → Option ℕ
  maxprio_ : ℤ
  maxpkt_ : ℤ
  maxlevel_ : ℤ
  toplevel_ : ℤ
  eligible_ : CbqAlgorithm
  wrr : Bool
  alloc_ : ℤ → ℚ
  M_ : ℤ → ℚ
  cnt_ : ℤ → ℤ

namespace CBQClass

/-- The constructor, before the configuration of a class. -/
def new : CBQClass where
  peer_ := none
  level_peer_ := none
  lender_ := none
  q_ := none
  pkts := 0
  allotment_ := 0
  maxidle_ := -1
  maxrate_ := 0
  extradelay_ := 0
  last_time_ := 0
  undertime_ := 0
  avgidle_ := 0
  pri_ := 0
  level_ := 1
  delayed_ := false
  bytes_alloc_ := 0
  permit_borrowing_ := true

def demand (c : CBQClass) : Bool := c.pkts > 0

def leaf (c : CBQClass) : Bool := c.level_ = 1

/-- `delayed` -/
def delayed (c : CBQClass) (now : ℚ) : CBQClass :=
  if c.undertime_ - now + c.extradelay_ > 0 ∧ c.delayed_ = false then
    { c with
      undertime_ := c.undertime_ + c.extradelay_ - (1 - 16) * c.avgidle_
      delayed_ := true }
  else c

/-- `update`, for one class of the chain. -/
def update (c : CBQClass) (pktsize : ℤ) (tx_time now : ℚ) : CBQClass :=
  let fin_time := now + tx_time
  let idle := fin_time - c.last_time_ - pktsize / c.maxrate_
  let avgidle := c.avgidle_ + (idle - c.avgidle_) / 16
  let avgidle := if ¬ c.maxidle_ < 0 ∧ avgidle > c.maxidle_ then c.maxidle_ else avgidle
  { c with
    avgidle_ := avgidle
    undertime_ :=
      if avgidle ≤ 0 then fin_time + tx_time * (1 / c.allotment_ - 1) + (1 - 16) * avgidle
      else c.undertime_
    last_time_ := fin_time }

end CBQClass

namespace CBQueue

open NextPointers

def new (wrr : Bool) (maxpkt : ℤ) : CBQueue where
  cls := fun _ => .new
  last_lender_ := none
  pending_pkt_ := none
  link_ := none
  active_ := fun _ => none
  levels_ := fun _ => none
  maxprio_ := -1
  maxpkt_ := maxpkt
  maxlevel_ := -1
  toplevel_ := 32
  eligible_ := .NONE
  wrr := wrr
  alloc_ := fun _ => 0
  M_ := fun _ => 0
  cnt_ := fun _ => 0

def setClass (s : CBQueue) (c : ℕ) (x : CBQClass) : CBQueue :=
  { s with cls := Function.update s.cls c x }

def setPeer (s : CBQueue) (c : ℕ) (p : Option ℕ) : CBQueue :=
  s.setClass c { s.cls c with peer_ := p }

def setLevelPeer (s : CBQueue) (c : ℕ) (p : Option ℕ) : CBQueue :=
  s.setClass c { s.cls c with level_peer_ := p }

theorem setClass_map {β : Type*} (f : CBQClass → β) (s : CBQueue) (c : ℕ) (x : CBQClass) :
    (fun d => f ((s.setClass c x).cls d)) = Function.update (fun d => f (s.cls d)) c (f x) := by
  funext d
  change f (Function.update s.cls c x d) = _
  by_cases h : d = c
  · rw [h, Function.update_self, Function.update_self]
  · rw [Function.update_of_ne h, Function.update_of_ne h]

theorem setClass_same {β : Type*} (f : CBQClass → β) (s : CBQueue) {c : ℕ} {x : CBQClass}
    (h : f x = f (s.cls c)) : (fun d => f ((s.setClass c x).cls d)) = fun d => f (s.cls d) := by
  rw [setClass_map, h, Function.update_eq_self]

/-! ### The insertion of a class -/

/-- `setM`; `none` is the abort. -/
def setM (s : CBQueue) : Option CBQueue :=
  let M : ℤ → ℚ := fun i =>
    if 0 ≤ i ∧ i ≤ s.maxprio_ then
      if s.alloc_ i > 0 then s.cnt_ i * s.maxpkt_ / s.alloc_ i else 0
    else s.M_ i
  if (List.range (s.maxprio_ + 1).toNat).any fun i => M i < 0 then none else some { s with M_ := M }

/-- `addallot`, which does nothing without weights. -/
def addallot (s : CBQueue) (prio : ℤ) (diff : ℚ) : Option CBQueue :=
  if s.wrr then
    setM { s with alloc_ := Function.update s.alloc_ prio (s.alloc_ prio + diff) }
  else some s

/-- A class joins the ring of its priority. -/
def insertPeer (s : CBQueue) (p : ℕ) : CBQueue :=
  let pri := (s.cls p).pri_
  let s :=
    match s.active_ pri with
    | some a => (s.setPeer p (s.cls a).peer_).setPeer a (some p)
    | none =>
      let s := s.setPeer p (some p)
      { s with active_ := Function.update s.active_ pri (some p) }
  { s with maxprio_ := if pri > s.maxprio_ then pri else s.maxprio_ }

/-- A class joins the list of its level. -/
def insertLevel (s : CBQueue) (p : ℕ) : CBQueue :=
  let level := (s.cls p).level_
  let s := s.setLevelPeer p (s.levels_ level)
  { s with
    levels_ := Function.update s.levels_ level (some p)
    maxlevel_ := if level > s.maxlevel_ then level else s.maxlevel_ }

/-- `CBQueue::insert_class`, and whether the class is accepted. -/
def insertClass (s : CBQueue) (p : ℕ) : Option (CBQueue × Bool) :=
  let c := s.cls p
  if c.pri_ < 0 ∨ c.pri_ > 9 then some (s, false)
  else
    let s := if c.q_ = none then s else s.insertPeer p
    if c.allotment_ < 0 ∨ c.allotment_ > 1 then some (s, false)
    else
      match s.link_ with
      | none => some (s, false)
      | some bandwidth =>
        if bandwidth ≤ 0 then some (s, false)
        else
          let s := s.setClass p { s.cls p with maxrate_ := c.allotment_ * (bandwidth / 8) }
          (s.addallot c.pri_ c.allotment_).map fun s =>
            if c.level_ ≤ 0 ∨ c.level_ > 32 then (s, false) else (s.insertLevel p, true)

/-- `insert_class` of either kind of queue; `none` is the abort. -/
def insert_class (s : CBQueue) (p : ℕ) : Option (CBQueue × Bool) :=
  (s.insertClass p).bind fun r =>
    if s.wrr ∧ r.2 then
      let pri := (r.1.cls p).pri_
      (setM { r.1 with cnt_ := Function.update r.1.cnt_ pri (r.1.cnt_ pri + 1) }).map fun t =>
        (t, true)
    else some r

end CBQueue

end Ns2
