import Ns2.Lib.Machine

/-! Smoothed round robin: queues of packets, a matrix with one column for each bit of the weights,
and a weight spread sequence that says which column is scanned next. -/

namespace Ns2

/-- `MAXFLOW` -/
def maxFlow : ℕ := 100

/-- `MAXWSSORDER` -/
def maxWssOrder : ℕ := 16

/-- A node of the matrix: its queue and its column. -/
@[ext]
structure WmNode where
  queueid : ℕ
  weight : ℕ
  deriving DecidableEq

structure PacketSRR (π : Type*) where
  pkts : ℤ
  bcount : ℤ
  deficitCounter : ℤ
  turn : Bool
  queue : List π

/-- What is read from the headers of a packet. -/
structure SRRHeaders (π : Type*) where
  flowid : π → ℕ
  size : π → ℕ

/-- The bound variables, the rates and the map from flows to queues. -/
structure SRRConfig where
  maxqueuenumber_ : ℕ
  qlim_ : ℤ
  mtu_ : ℤ
  granularity_ : ℕ
  maxColumn : ℕ
  f2q : ℕ → ℕ
  private_rate : ℕ → ℕ

namespace SRRConfig

def weight (c : SRRConfig) (queueid : ℕ) : ℕ := c.private_rate queueid / c.granularity_

/-- Ids are in range, and rates are at least the granularity and fit the columns. -/
structure Valid (c : SRRConfig) : Prop where
  mtu : 0 < c.mtu_
  granularity : 0 < c.granularity_
  queues : ∀ flow < maxFlow, c.f2q flow ≤ c.maxqueuenumber_ ∧ c.f2q flow < maxFlow
  rates : ∀ q < maxFlow, c.granularity_ ≤ c.private_rate q ∧ c.weight q < 2 ^ (c.maxColumn + 1)
  columns : c.maxColumn < maxWssOrder

end SRRConfig

/-- `rawScan`, where the third argument is how far `j` is from `N`. -/
def rawScan (i j : ℕ) : ℕ → ℕ
  | 0 => j
  | d + 1 => if i % 2 ^ j ≠ 0 then j else rawScan i (j + 1) d

/-- The weight spread sequence. -/
def pwss (k : ℕ) : ℕ := rawScan (k + 1) 1 (maxWssOrder - 1)

/-- `WSS::get`; `none` is an exit. -/
def wssGet (ptr order : ℕ) : Option ℕ :=
  if (ptr : ℤ) > 2 ^ order - 2 then none else some (pwss ptr)

/-- `WSS::inc_ptr` -/
def wssInc (ptr order : ℕ) : ℕ := if (ptr : ℤ) + 1 > 2 ^ order - 2 then 0 else ptr + 1

structure SRR (π : Type*) where
  config : SRRConfig
  bytecnt : ℤ
  pktcnt : ℤ
  flwcnt : ℤ
  last_queueid : Option ℕ
  last_size : ℤ
  srr : ℕ → PacketSRR π
  ptr : ℕ
  column : ℕ → List WmNode
  row : ℕ → List WmNode
  pwmCurr : Option WmNode
  wmEmptyFlag : Bool
  currMaxColumn : ℤ

namespace SRR

variable {π : Type*}

def new (c : SRRConfig) : SRR π where
  config := c
  bytecnt := 0
  pktcnt := 0
  flwcnt := 0
  last_queueid := none
  last_size := 0
  srr _ := ⟨0, 0, 0, false, []⟩
  ptr := 0
  column _ := []
  row _ := []
  pwmCurr := none
  wmEmptyFlag := true
  currMaxColumn := -1

def modify (s : SRR π) (q : ℕ) (f : PacketSRR π → PacketSRR π) : SRR π :=
  { s with srr := Function.update s.srr q (f (s.srr q)) }

/-- `currMaxColumn + 1` as the order of the sequence -/
def order (s : SRR π) : ℕ := (s.currMaxColumn + 1).toNat

/-- The order of columns behind which a node stands. -/
def insertBefore (c n : WmNode) : List WmNode → List WmNode
  | [] => []
  | x :: l => if x = c then n :: x :: l else x :: insertBefore c n l

/-- One node of `add_to_WM`: before the current one, or at the end of its column. -/
def insertNode (s : SRR π) (n : WmNode) : SRR π :=
  let column := match s.pwmCurr with
    | some c =>
      if c.weight = n.weight then insertBefore c n (s.column n.weight)
      else s.column n.weight ++ [n]
    | none => s.column n.weight ++ [n]
  { s with
    column := Function.update s.column n.weight column
    row := Function.update s.row n.queueid (s.row n.queueid ++ [n])
    currMaxColumn := if s.currMaxColumn < n.weight then n.weight else s.currMaxColumn
    wmEmptyFlag := false
    pwmCurr := if s.wmEmptyFlag ∧ s.pwmCurr = none then some n else s.pwmCurr }

/-- The loop of `add_to_WM` over the bits of the weight, downwards. -/
def insertLoop (queueid weight : ℕ) : ℕ → SRR π → SRR π
  | 0, s => s
  | i + 1, s =>
    insertLoop queueid weight i (if weight.testBit i then s.insertNode ⟨queueid, i⟩ else s)

/-- `none` is an exit. -/
def add_to_WM (s : SRR π) (queueid weight : ℕ) : Option (SRR π) :=
  if weight = 0 then none
  else if weight > 2 ^ (s.config.maxColumn + 1) - 1 then none
  else
    let t := insertLoop queueid weight (s.config.maxColumn + 1) s
    some { t with
      ptr :=
        if s.currMaxColumn < t.currMaxColumn ∧ s.currMaxColumn ≥ 0 then
          (t.ptr + 1) * 2 ^ (t.currMaxColumn - s.currMaxColumn).toNat - 1
        else t.ptr
      flwcnt := t.flwcnt + 1 }

/-- The loops at `loop` and `again`: the next column of the sequence that is not empty. -/
def scan : ℕ → SRR π → Option (SRR π)
  | 0, _ => none
  | fuel + 1, s =>
    (wssGet s.ptr s.order).bind fun term =>
      let s := { s with ptr := wssInc s.ptr s.order }
      if s.order < term then none
      else
        match s.column (s.order - term) with
        | n :: _ => some { s with pwmCurr := some n }
        | [] => scan fuel s

/-- The node behind one in its column. -/
def nextNode (s : SRR π) (n : WmNode) : Option WmNode :=
  ((s.column n.weight).dropWhile (· ≠ n))[1]?

/-- The highest column below `i` that is not empty. -/
def maxBelow (s : SRR π) : ℕ → Option ℕ
  | 0 => none
  | i + 1 => if s.column i ≠ [] then some i else s.maxBelow i

/-- The nodes of a row are taken out of their columns. -/
def unlinkRow (s : SRR π) (queueid : ℕ) : SRR π :=
  { s with
    column := fun i => (s.column i).filter fun n => n ∉ s.row queueid
    row := Function.update s.row queueid [] }

/-- The position in a sequence whose order becomes `i + 1`, less by `d`. -/
def shrinkPtr (ptr d i : ℕ) : ℕ :=
  let pc := ptr + 1
  let mul := 2 ^ d
  (if pc % mul ≠ 0 then
    if pc / mul + 1 > 2 ^ (i + 1) - 1 then 1 else pc / mul + 1
  else pc / mul) - 1

/-- The highest column becomes `i`. -/
def lower (s : SRR π) (i : ℕ) : SRR π :=
  { s with
    ptr := if i < s.currMaxColumn then shrinkPtr s.ptr (s.currMaxColumn - i).toNat i else s.ptr
    currMaxColumn := i }

/-- `del_from_WM`; `none` is an exit. -/
def del_from_WM (s : SRR π) (queueid : ℕ) : Option (SRR π) :=
  s.pwmCurr.bind fun c =>
    let s := if c.queueid = queueid then { s with pwmCurr := s.nextNode c } else s
    let s := s.unlinkRow queueid
    match s.maxBelow s.order with
    | none => some { s with
        wmEmptyFlag := true
        currMaxColumn := -1
        pwmCurr := none
        last_queueid := none
        ptr := 0
        flwcnt := s.flwcnt - 1 }
    | some i =>
      let s := s.lower i
      (if s.pwmCurr = none then scan (2 ^ s.order) s else some s).map fun s =>
        { s with flwcnt := s.flwcnt - 1 }

/-- `getNextNode`; `none` is an exit. -/
def getNextNode (s : SRR π) : Option (SRR π) :=
  if s.bytecnt = 0 then some s
  else
    s.pwmCurr.bind fun c =>
      match s.nextNode c with
      | some n => some { s with pwmCurr := some n }
      | none => if s.currMaxColumn = -1 then none else scan (2 ^ s.order) s

variable (h : SRRHeaders π)

/-- What an operation does with a packet, and in which queue. -/
inductive Out (π : Type*) where
  | stored (queueid : ℕ) (p : π)
  | dropped (p : π)
  | sent (queueid : ℕ) (p : π)
  | nothing

/-- `none` is an exit, or an index outside of an array. -/
def enque (s : SRR π) (p : π) : Option (SRR π × Out π) :=
  let queueid := s.config.f2q (h.flowid p)
  if h.flowid p ≥ maxFlow ∨ queueid ≥ maxFlow ∨ queueid > s.config.maxqueuenumber_ then none
  else if (s.srr queueid).pkts = s.config.qlim_ then some (s, .dropped p)
  else
    let s := s.modify queueid fun q =>
      { q with queue := q.queue ++ [p], pkts := q.pkts + 1, bcount := q.bcount + h.size p }
    let s := { s with pktcnt := s.pktcnt + 1, bytecnt := s.bytecnt + h.size p }
    if (s.srr queueid).pkts = 1 then
      (s.add_to_WM queueid (s.config.weight queueid)).map fun s =>
        (s.modify queueid fun q => { q with deficitCounter := 0 }, .stored queueid p)
    else some (s, .stored queueid p)

/-- The beginning of `deque`, where the last packet handed out is taken off the counters. -/
def settle (s : SRR π) : Option (SRR π) :=
  match s.last_queueid with
  | none => some s
  | some last =>
    let s := s.modify last fun q =>
      { q with bcount := q.bcount - s.last_size, pkts := q.pkts - 1 }
    let s := { s with pktcnt := s.pktcnt - 1, bytecnt := s.bytecnt - s.last_size }
    if (s.srr last).pkts = 0 then
      (s.modify last fun q => { q with turn := false, deficitCounter := 0 }).del_from_WM last
    else some s

/-- A queue gets its quantum when its turn begins. -/
def beginTurn (mtu : ℤ) (q : PacketSRR π) : PacketSRR π :=
  if q.turn then q else { q with deficitCounter := q.deficitCounter + mtu, turn := true }

/-- The loop of `deque`; `none` is an exit or a failed assertion. -/
def dequeLoop : ℕ → SRR π → Option (SRR π × Out π)
  | 0, _ => none
  | fuel + 1, s =>
    s.pwmCurr.bind fun c =>
      match (s.srr c.queueid).queue with
      | [] => none
      | p :: rest =>
        if s.config.f2q (h.flowid p) ≠ c.queueid then none
        else
          let s := s.modify c.queueid (beginTurn s.config.mtu_)
          if (s.srr c.queueid).deficitCounter ≥ h.size p then
            let s := s.modify c.queueid fun q =>
              { q with deficitCounter := q.deficitCounter - h.size p, queue := rest }
            some ({ s with last_size := h.size p, last_queueid := some c.queueid },
              .sent c.queueid p)
          else
            ((s.modify c.queueid fun q => { q with turn := false }).getNextNode).bind
              (dequeLoop fuel)

/-- `none` is an exit or a failed assertion. -/
def deque (s : SRR π) : Option (SRR π × Out π) :=
  s.settle.bind fun s =>
    if s.pktcnt < 0 then none
    else if s.pktcnt = 0 then some ({ s with last_queueid := none }, .nothing)
    else dequeLoop h (2 * s.bytecnt.toNat + maxFlow + 1) s

/-- The operations, and a change of the configuration. -/
inductive Op (π : Type*) where
  | enque (p : π)
  | deque
  | configure (c : SRRConfig)

def step (s : SRR π) : Op π → Option (SRR π × Out π)
  | .enque p => s.enque h p
  | .deque => s.deque h
  | .configure c => some ({ s with config := c }, .nothing)

/-- Flow ids are in range, and the configuration is changed while no packets are stored. -/
def Allowed (s : SRR π) : Op π → Prop
  | .enque p => h.flowid p < maxFlow
  | .deque => True
  | .configure c => c.Valid ∧ s.pktcnt = 0

end SRR

end Ns2
