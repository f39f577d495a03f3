import Ns2.Queue.Cbq

/-! The scan of a class-based queue for the class that sends next. Loops over pointers carry fuel;
`none` is an abort, a null pointer or a loop that runs out of it. -/

namespace Ns2

namespace CBQueue

open NextPointers

/-! ### Who lends -/

/-- `ancestor`: is the class `a` an ancestor of a class? -/
def ancestor (s : CBQueue) (a : ℕ) : ℕ → ℕ → Option Bool
  | 0, _ => none
  | fuel + 1, p =>
    match (s.cls p).lender_ with
    | none => some false
    | some l =>
      if (s.cls p).permit_borrowing_ = false then some false
      else if l = a then some true
      else ancestor s a fuel l

/-- The classes of a level, from its head. -/
def level (s : CBQueue) (fuel : ℕ) (v : ℤ) : Option (List ℕ) :=
  follow (fun c => (s.cls c).level_peer_) fuel (s.levels_ v)

/-- `desc_with_demand` -/
def desc_with_demand (s : CBQueue) (fuel : ℕ) (c : ℕ) : Option Bool :=
  (s.level fuel 1).bind (·.anyM fun p =>
    if (s.cls p).demand then s.ancestor c fuel p else some false)

/-- `satisfied` -/
def satisfied (s : CBQueue) (fuel : ℕ) (now : ℚ) (c : ℕ) : Option Bool :=
  if (s.cls c).leaf then some !((s.cls c).undertime_ < now && (s.cls c).demand)
  else if (s.cls c).undertime_ < now then (s.desc_with_demand fuel c).map (!·)
  else some true

/-- `eligible_formal` -/
def eligible_formal (s : CBQueue) (fuel : ℕ) (now : ℚ) (c : ℕ) : Option Bool :=
  (List.range ((s.cls c).level_ - 1).toNat).allM fun (k : ℕ) =>
    (s.level fuel ((k : ℤ) + 1)).bind (·.allM (s.satisfied fuel now))

/-- The criterion of the algorithm. -/
def eligible (s : CBQueue) (fuel : ℕ) (now : ℚ) (c : ℕ) : Option Bool :=
  match s.eligible_ with
  | .TOPLEVEL => some ((s.cls c).level_ ≤ s.toplevel_)
  | .ANCESTORS => some true
  | .FORMAL => s.eligible_formal fuel now c
  | .NONE => none

/-- The loop of `find_lender`. -/
def findLender (s : CBQueue) (fuel : ℕ) (now : ℚ) : ℕ → Option ℕ → Option (Option ℕ)
  | _, none => some none
  | 0, some _ => none
  | k + 1, some c =>
    if (s.cls c).undertime_ > now then
      if s.eligible_ = .TOPLEVEL ∧ (s.cls c).level_ > s.toplevel_ then some none
      else findLender s fuel now k (s.cls c).lender_
    else (s.eligible fuel now c).bind fun ok =>
      if ok then some (some c) else findLender s fuel now k (s.cls c).lender_

/-- `find_lender` -/
def find_lender (s : CBQueue) (fuel : ℕ) (now : ℚ) (c : ℕ) : Option (Option ℕ) :=
  if (s.cls c).permit_borrowing_ = false then some none
  else s.findLender fuel now fuel (s.cls c).lender_

/-- `send_permitted` -/
def send_permitted (s : CBQueue) (fuel : ℕ) (now : ℚ) (c : ℕ) : Option (CBQueue × Bool) :=
  if (s.cls c).undertime_ < now then
    some ({ s.setClass c { s.cls c with delayed_ := false } with last_lender_ := some c }, true)
  else if (s.cls c).permit_borrowing_ then
    (s.find_lender fuel now c).map fun l =>
      if l = none then (s, false) else ({ s with last_lender_ := l }, true)
  else some (s, false)

/-! ### The scan -/

/-- The variables of the scan. -/
structure Scan where
  queue : CBQueue
  first : Option ℕ
  deficit : ℕ

/-- `if (first == NULL && ...) first = cl` -/
def Scan.setFirst (s : Scan) (c : ℕ) : Scan :=
  if s.first = none ∧ (s.queue.cls c).permit_borrowing_ ∧ (s.queue.cls c).lender_ ≠ none then
    { s with first := some c }
  else s

/-- `delayed` -/
def delayed (s : CBQueue) (now : ℚ) (c : ℕ) : CBQueue := s.setClass c ((s.cls c).delayed now)

/-- One class of the ring without weights, and whether it is found. -/
def visit (fuel : ℕ) (now : ℚ) (s : Scan) (c : ℕ) : Option (Scan × Bool) :=
  if (s.queue.cls c).demand then
    let s := s.setFirst c
    (s.queue.send_permitted fuel now c).map fun r =>
      if r.2 then ({ s with queue := r.1 }, true)
      else ({ s with queue := r.1.delayed now c }, false)
  else some (s, false)

/-- `(int)` of a number. -/
def truncate (x : ℚ) : ℤ := if 0 ≤ x then x.floor else x.ceil

/-- The weight of a class in its round. -/
def weigh (s : Scan) (c : ℕ) : Scan :=
  let x := s.queue.cls c
  if s.deficit < 2 ∧ x.bytes_alloc_ ≤ 0 then
    let bytes := x.bytes_alloc_ + truncate (x.allotment_ * s.queue.M_ x.pri_)
    { s with queue := s.queue.setClass c { x with bytes_alloc_ := bytes } }
  else s

def clearBytes (s : Scan) (c : ℕ) : Scan :=
  { s with queue := s.queue.setClass c { s.queue.cls c with bytes_alloc_ := 0 } }

/-- One class of the ring with weights, and whether it is found. -/
def visitWrr (fuel : ℕ) (now : ℚ) (s : Scan) (c : ℕ) : Option (Scan × Bool) :=
  let s := weigh s c
  if (s.queue.cls c).demand then
    let s := s.setFirst c
    (s.queue.send_permitted fuel now c).map fun r =>
      if r.2 then
        if (r.1.cls c).bytes_alloc_ > 0 ∨ s.deficit > 1 then ({ s with queue := r.1 }, true)
        else (clearBytes { s with queue := r.1, deficit := 1 } c, false)
      else (clearBytes { s with queue := r.1.delayed now c } c, false)
  else some (clearBytes s c, false)

/-- The loop around a ring, and the class that it ends at: one that is found, or else the one that it
started from. The loop with weights ends at a null pointer as well. -/
def scanRing (nullEnds : Bool) (visit : Scan → ℕ → Option (Scan × Bool)) (start : ℕ) :
    ℕ → Scan → ℕ → Option (Scan × Bool × Option ℕ)
  | 0, _, _ => none
  | k + 1, s, c =>
    (visit s c).bind fun r =>
      if r.2 then some (r.1, true, some c)
      else
        match (r.1.queue.cls c).peer_ with
        | none => if nullEnds then some (r.1, false, none) else none
        | some d =>
          if d = start then some (r.1, false, some d)
          else scanRing nullEnds visit start k r.1 d

/-- The scan of a level, from the class that is active, and the class that is found. -/
def scanLevel (fuel : ℕ) (now : ℚ) (s : Scan) (c : ℕ) : Option (Scan × Option ℕ) :=
  if s.queue.wrr then
    (scanRing true (visitWrr fuel now) c fuel { s with deficit := 0 } c).bind fun r =>
      if r.2.1 then some (r.1, r.2.2)
      else if r.1.deficit = 1 then
        r.2.2.bind fun d =>
          (scanRing true (visitWrr fuel now) c fuel { r.1 with deficit := 2 } d).map fun q =>
            (q.1, if q.2.1 then q.2.2 else none)
      else some (r.1, none)
  else
    (scanRing false (visit fuel now) c fuel s c).map fun r => (r.1, if r.2.1 then r.2.2 else none)

/-- The loop over the priorities. -/
def scanPrios (fuel : ℕ) (now : ℚ) : List ℤ → Scan → Option (Scan × Option ℕ)
  | [], s => some (s, none)
  | prio :: ps, s =>
    match s.queue.active_ prio with
    | none => scanPrios fuel now ps s
    | some c => (scanLevel fuel now s c).bind fun r =>
        if r.2 = none then scanPrios fuel now ps r.1 else some r

/-- The priorities from 0 up to `maxprio_`. -/
def prios (s : CBQueue) : List ℤ := (List.range (s.maxprio_ + 1).toNat).map Int.ofNat

/-! ### The accounting -/

/-- `Queue::resume`, with which the queue of a class passes its first packet to `CBQueue::recv`. -/
def resume (s : CBQueue) (c : ℕ) : Option CBQueue :=
  (s.cls c).q_.bind fun q =>
    match q with
    | [] => some s
    | p :: q =>
      if s.pending_pkt_ ≠ none then none
      else some { s.setClass c { s.cls c with q_ := some q, pkts := (s.cls c).pkts - 1 } with
        pending_pkt_ := some p }

/-- `update`, up to the root. -/
def update (s : CBQueue) (pktsize : ℤ) (now : ℚ) : ℕ → ℕ → Option CBQueue
  | 0, _ => none
  | fuel + 1, c =>
    s.link_.bind fun bandwidth =>
      let s := s.setClass c ((s.cls c).update pktsize (8 * pktsize / bandwidth) now)
      match (s.cls c).lender_ with
      | none => some s
      | some l => update s pktsize now fuel l

/-- `toplevel_departure` -/
def toplevel_departure (s : CBQueue) (c : ℕ) (now : ℚ) : Option CBQueue :=
  s.last_lender_.map fun l =>
    if s.toplevel_ ≥ (s.cls l).level_ then
      if (s.cls c).pkts ≤ 1 ∨ (s.cls l).undertime_ > now then { s with toplevel_ := 32 }
      else { s with toplevel_ := (s.cls l).level_ }
    else s

def depart (s : CBQueue) (fuel : ℕ) (pktsize : ℤ) (now : ℚ) (c : ℕ) : Option CBQueue :=
  (s.update pktsize now fuel c).bind fun s =>
    if s.eligible_ = .TOPLEVEL then s.toplevel_departure c now else some s

/-- Behind `found`, without weights. -/
def serve (s : CBQueue) (fuel : ℕ) (now : ℚ) (c : ℕ) (found : Bool) : Option CBQueue :=
  let s := { s with active_ := Function.update s.active_ (s.cls c).pri_ (s.cls c).peer_ }
  (s.resume c).bind fun s =>
    match s.pending_pkt_ with
    | none => some s
    | some size => if found then s.depart fuel size now c else some s

/-- Behind `found`, with weights. -/
def serveWrr (s : CBQueue) (fuel : ℕ) (now : ℚ) (c : ℕ) (found : Bool) : Option CBQueue :=
  let peer := (s.cls c).peer_
  (s.resume c).bind fun s =>
    let bytes := (s.cls c).bytes_alloc_
    match s.pending_pkt_ with
    | none => some { s with active_ := Function.update s.active_ (s.cls c).pri_ peer }
    | some size =>
      if found then
        let left := if bytes > 0 then bytes - size else bytes
        let s := s.setClass c { s.cls c with bytes_alloc_ := left }
        let next := if left > 0 then some c else peer
        (s.depart fuel size now c).map fun s =>
          { s with active_ := Function.update s.active_ (s.cls c).pri_ next }
      else some { s with active_ := Function.update s.active_ (s.cls c).pri_ peer }

/-- `deque` of either kind of queue: the class that is served, and the packet. -/
def deque (s : CBQueue) (fuel : ℕ) (now : ℚ) : Option (CBQueue × Option ℕ × Option ℤ) :=
  (scanPrios fuel now s.prios ⟨s, none, 0⟩).bind fun r =>
    let eligible := if r.2 = none then r.1.first else r.2
    match eligible with
    | none => some ({ r.1.queue with pending_pkt_ := none }, none, r.1.queue.pending_pkt_)
    | some c =>
      (if s.wrr then r.1.queue.serveWrr fuel now c r.2.isSome
        else r.1.queue.serve fuel now c r.2.isSome).map fun t =>
          ({ t with pending_pkt_ := none }, some c, t.pending_pkt_)

end CBQueue

end Ns2
