import Ns2.Lib.Machine

/-! The scoreboard of the sender that follows Linux: a list of ranges of packets, which are split,
merged and labelled, beside counters for the packets that are sacked and lost. -/

namespace Ns2

/-- `SKB_FLAG_*` -/
inductive SkbFlag where
  | inflight
  | sacked
  | lost
  | retransmitted
  deriving DecidableEq

def FLAG_DATA_SACKED : ℕ := 2
def FLAG_DATA_LOST : ℕ := 8
def FLAG_UNSURE_TSTAMP : ℕ := 16

/-- A node is known by its address. `nxt_` is the right edge, or `snd_nxt` at the retransmission. -/
structure ScoreBoardNode1 where
  addr : ℕ
  flag_ : SkbFlag
  seq_ : ℤ
  nxt_ : ℤ
  retran_ : ℤ

namespace ScoreBoardNode1

def getEnd (n : ScoreBoardNode1) : ℤ := if n.flag_ = .retransmitted then n.seq_ else n.nxt_

def getLength (n : ScoreBoardNode1) : ℤ :=
  if n.flag_ = .retransmitted then 1 else n.nxt_ + 1 - n.seq_

def setFlag (n : ScoreBoardNode1) (flag : SkbFlag) : ScoreBoardNode1 :=
  { n with nxt_ := if n.flag_ = .retransmitted then n.seq_ else n.nxt_, flag_ := flag }

def inside (n : ScoreBoardNode1) (seq : ℤ) : Bool :=
  if n.flag_ = .retransmitted then decide (seq = n.seq_)
  else decide (n.seq_ ≤ seq) && decide (seq ≤ n.nxt_)

def shouldClean (n : ScoreBoardNode1) (ackseq : ℤ) : ℤ :=
  if ackseq < n.seq_ then 0
  else if n.flag_ = .retransmitted ∨ n.nxt_ ≤ ackseq then -1
  else ackseq + 1 - n.seq_

end ScoreBoardNode1

/-- `fresh` is the address of the next node. -/
structure ScoreBoard1 where
  nodes : List ScoreBoardNode1
  nxt_to_retrx_ : Option ℕ
  acked_rtx_id_ : ℤ
  rtx_id_ : ℤ
  fack_ : ℤ
  fack_out_ : ℤ
  sack_out_ : ℤ
  last_rtx_seq_ : ℤ
  fresh : ℕ

namespace ScoreBoard1

def new : ScoreBoard1 := ⟨[], none, -1, 0, 0, 0, 0, -1, 0⟩

def clearScoreBoard (b : ScoreBoard1) : ScoreBoard1 :=
  { b with
    nodes := []
    nxt_to_retrx_ := none
    acked_rtx_id_ := -1
    rtx_id_ := 0
    fack_ := 0
    fack_out_ := 0
    sack_out_ := 0 }

/-- `new ScoreBoardNode1(start, end, 0)` -/
def alloc (b : ScoreBoard1) (start last : ℤ) : ScoreBoardNode1 × ScoreBoard1 :=
  (⟨b.fresh, .inflight, start, last, 0⟩, { b with fresh := b.fresh + 1 })

/-- `Split`: the part of a node before `seq`, and the part from `seq` on. -/
def split (b : ScoreBoard1) (now : ScoreBoardNode1) (seq : ℤ) :
    ScoreBoardNode1 × ScoreBoardNode1 × ScoreBoard1 :=
  ({ now with nxt_ := seq - 1 }, ⟨b.fresh, now.flag_, seq, now.nxt_, 0⟩,
    { b with fresh := b.fresh + 1 })

/-- The packets of a cleaned range leave their counter; `none` if that becomes negative. -/
def discount (b : ScoreBoard1) (flag : SkbFlag) (pkt_num : ℤ) : Option ScoreBoard1 :=
  match flag with
  | .sacked =>
    if 0 ≤ b.sack_out_ - pkt_num then some { b with sack_out_ := b.sack_out_ - pkt_num } else none
  | .lost =>
    if 0 ≤ b.fack_out_ - pkt_num then some { b with fack_out_ := b.fack_out_ - pkt_num } else none
  | _ => some b

/-- A node is deleted from the front of the list. -/
def dropHead (b : ScoreBoard1) (tmp : ScoreBoardNode1) (rest : List ScoreBoardNode1) : ScoreBoard1 :=
  { b with
    acked_rtx_id_ := if tmp.flag_ = .retransmitted ∧ b.acked_rtx_id_ < tmp.retran_ then tmp.retran_
      else b.acked_rtx_id_
    nxt_to_retrx_ := if b.nxt_to_retrx_ = some tmp.addr then rest.head?.map ScoreBoardNode1.addr
      else b.nxt_to_retrx_ }

/-- Also returns whether `acked_rtx_id_` changed, and the flags. -/
def cleanRtxQueue (last_ack : ℤ) :
    List ScoreBoardNode1 → ScoreBoard1 → Bool → ℕ → Option (ScoreBoard1 × Bool × ℕ)
  | [], b, changed, flag => some ({ b with nodes := [] }, changed, flag)
  | head :: rest, b, changed, flag =>
    let cmp := head.shouldClean last_ack
    if cmp = 0 then some ({ b with nodes := head :: rest }, changed, flag)
    else
      (discount b head.flag_ (if cmp < 0 then head.getLength else cmp)).bind fun b =>
        if cmp < 0 then
          cleanRtxQueue last_ack rest (dropHead b head rest)
            (changed || decide (head.flag_ = .retransmitted ∧ b.acked_rtx_id_ < head.retran_))
            (if head.flag_ = .retransmitted then flag ||| FLAG_UNSURE_TSTAMP else flag)
        else some ({ b with nodes := { head with seq_ := last_ack + 1 } :: rest }, changed, flag)

/-- A block is put behind those that do not begin later. -/
def insertSack (sacks : List (ℤ × ℤ)) (s : ℤ × ℤ) : List (ℤ × ℤ) :=
  let later := fun t : ℤ × ℤ => decide (t.1 > s.1)
  (sacks.reverse.takeWhile later ++ s :: sacks.reverse.dropWhile later).reverse

/-- D-SACKs are filtered and the other blocks sorted. -/
def sortSacks (last_ack : ℤ) (sacks : List (ℤ × ℤ)) : List (ℤ × ℤ) :=
  (sacks.filter fun s => decide (s.1 ≥ last_ack)).foldl insertSack []

/-- The state of the pass over the nodes. -/
structure Pass where
  board : ScoreBoard1
  sacks : List (ℤ × ℤ)
  thorough : Bool
  flag : ℕ

/-- A node that begins inside of a block is labelled, after the part behind the block is split off. -/
def label (p : Pass) (now : ScoreBoardNode1) (rest : List ScoreBoardNode1) (right : ℤ) :
    Pass × ScoreBoardNode1 × List ScoreBoardNode1 :=
  let (now, rest, b) :=
    if right ≤ now.getEnd then
      let (now, next, b) := split p.board now right
      (now, next :: rest, b)
    else (now, rest, p.board)
  let pktnum := now.getLength
  let p := match now.flag_ with
    | .lost => { p with board := { b with fack_out_ := b.fack_out_ - pktnum } }
    | .retransmitted => { p with
        board := { b with acked_rtx_id_ := now.retran_ }
        flag := p.flag ||| FLAG_UNSURE_TSTAMP
        thorough := true }
    | _ => { p with board := b }
  ({ p with
      board := { p.board with sack_out_ := p.board.sack_out_ + pktnum }
      flag := p.flag ||| FLAG_DATA_SACKED }, now.setFlag .sacked, rest)

/-- The block that the pass is at, and the node. -/
def sackNode (p : Pass) (now : ScoreBoardNode1) (rest : List ScoreBoardNode1) :
    Pass × ScoreBoardNode1 × List ScoreBoardNode1 :=
  match p.sacks with
  | [] => (p, now, rest)
  | (left, right) :: _ =>
    if left ≤ now.getEnd then
      if left > now.seq_ then
        let (now, next, b) := split p.board now left
        ({ p with board := b }, now, next :: rest)
      else label p now rest right
    else (p, now, rest)

/-- `if (!nxt_to_retrx_) nxt_to_retrx_ = now` -/
def offer (b : ScoreBoard1) (now : ScoreBoardNode1) : ScoreBoard1 :=
  { b with nxt_to_retrx_ := b.nxt_to_retrx_.or (some now.addr) }

/-- A node that the block does not reach is checked for losses. -/
def lossNode (dupack lost_seq_threshold : ℤ) (p : Pass) (now : ScoreBoardNode1)
    (rest : List ScoreBoardNode1) : Pass × ScoreBoardNode1 × List ScoreBoardNode1 :=
  match now.flag_ with
  | .retransmitted =>
    if now.nxt_ ≤ p.board.fack_ ∨ now.retran_ + dupack + 1 < p.board.acked_rtx_id_ then
      let b := { p.board with fack_out_ := p.board.fack_out_ + 1 }
      ({ p with board := offer b now, flag := p.flag ||| FLAG_DATA_LOST }, now.setFlag .lost, rest)
    else (p, now, rest)
  | .inflight =>
    if now.seq_ ≤ lost_seq_threshold then
      let (now, rest, b) :=
        if lost_seq_threshold < now.getEnd then
          let (now, next, b) := split p.board now (lost_seq_threshold + 1)
          (now, next :: rest, b)
        else (now, rest, p.board)
      let now := now.setFlag .lost
      let b := { b with fack_out_ := b.fack_out_ + now.getLength }
      ({ p with board := offer b now, flag := p.flag ||| FLAG_DATA_LOST }, now, rest)
    else (p, now, rest)
  | .lost => ({ p with board := offer p.board now }, now, rest)
  | .sacked => (p, now, rest)

/-- `(sack_index>=sa_length)|| (left[sack_index]>now->GetEnd())` -/
def beyond (sacks : List (ℤ × ℤ)) (now : ScoreBoardNode1) : Bool :=
  match sacks with
  | [] => true
  | (left, _) :: _ => decide (left > now.getEnd)

def processNode (dupack lost_seq_threshold : ℤ) (p : Pass) (now : ScoreBoardNode1)
    (rest : List ScoreBoardNode1) : Pass × ScoreBoardNode1 × List ScoreBoardNode1 :=
  if now.flag_ = .sacked then (p, now, rest)
  else
    let p := { p with sacks := p.sacks.dropWhile fun s => decide (s.2 ≤ now.seq_) }
    let (p, now, rest) := sackNode p now rest
    if beyond p.sacks now then lossNode dupack lost_seq_threshold p now rest else (p, now, rest)

/-- The node goes behind those that are done, the last one first, or is merged with the last. -/
def mergeNode (done : List ScoreBoardNode1) (now : ScoreBoardNode1) : List ScoreBoardNode1 :=
  match done with
  | prev :: done =>
    if now.flag_ ≠ .retransmitted ∧ now.flag_ = prev.flag_ then
      { prev with nxt_ := now.nxt_ } :: done
    else now :: prev :: done
  | [] => [now]

/-- A node up to `fack_` is appended if the list ends before. -/
def extend (b : ScoreBoard1) (done rest : List ScoreBoardNode1) :
    List ScoreBoardNode1 × ScoreBoard1 :=
  match done, rest with
  | prev :: _, [] =>
    if prev.getEnd < b.fack_ then
      let (n, b) := alloc b (prev.getEnd + 1) b.fack_
      ([n], b)
    else ([], b)
  | _, _ => (rest, b)

/-- The pass, from the nodes that are done, the last one first, over the others. -/
def traverse (dupack lost_seq_threshold : ℤ) :
    ℕ → Pass → List ScoreBoardNode1 → List ScoreBoardNode1 → Option (ScoreBoard1 × ℕ)
  | 0, _, _, _ => none
  | _ + 1, p, done, [] => some ({ p.board with nodes := done.reverse }, p.flag)
  | fuel + 1, p, done, now :: rest =>
    if p.sacks = [] ∧ p.thorough = false then
      some ({ p.board with nodes := done.reverse ++ now :: rest }, p.flag)
    else
      let (p, now, rest) := processNode dupack lost_seq_threshold p now rest
      let done := mergeNode done now
      let (rest, b) := extend p.board done rest
      traverse dupack lost_seq_threshold fuel { p with board := b } done rest

/-- No node of the pass ends behind this packet. -/
def top (b : ScoreBoard1) (nodes : List ScoreBoardNode1) : ℤ :=
  nodes.foldr (fun n t => max n.getEnd t) b.fack_

/-- Also returns the flags; `none` if an assertion fails. -/
def updateScoreBoard (last_ack : ℤ) (sacks : List (ℤ × ℤ)) (dupack_threshold : ℤ) (b : ScoreBoard1) :
    Option (ScoreBoard1 × ℕ) :=
  (cleanRtxQueue last_ack b.nodes b false 0).bind fun (b, changed, flag) =>
    let thorough := changed && !b.nodes.isEmpty
    let b := if b.nodes.isEmpty then clearScoreBoard b else b
    let sorted := sortSacks last_ack sacks
    if thorough = false ∧ (sacks = [] ∨ sorted = []) then some (b, flag)
    else
      let fack := match sorted.getLast? with
        | some (_, right) => if b.fack_ < right - 1 then right - 1 else b.fack_
        | none => b.fack_
      let thorough := thorough || decide (b.fack_ < fack)
      let b := { b with fack_ := fack }
      let (n, b) := match b.nodes with
        | [] => let (n, b) := alloc b (last_ack + 1) fack; ([n], b)
        | nodes => (nodes, b)
      let b := { b with nxt_to_retrx_ := none }
      let start := match n with
        | [] => 0
        | head :: _ => head.seq_
      traverse dupack_threshold (fack - (dupack_threshold + 1)) ((top b n + 1 - start).toNat + 2)
        ⟨b, sorted, thorough, flag⟩ [] n

/-- One node of `MarkLoss`, with the nodes that are done, the last one first. -/
def lossStep (st : List ScoreBoardNode1 × Bool × ScoreBoard1) (now : ScoreBoardNode1) :
    List ScoreBoardNode1 × Bool × ScoreBoard1 :=
  let (done, last_lost, b) := st
  if now.flag_ = .sacked then (now :: done, false, b)
  else
    let b := if now.flag_ = .lost then b
      else { b with fack_out_ := b.fack_out_ + (now.getEnd - now.seq_ + 1) }
    let now := now.setFlag .lost
    match done, last_lost with
    | prev :: done, true => ({ prev with nxt_ := now.nxt_ } :: done, true, b)
    | _, _ => (now :: done, true, offer b now)

def markLoss (snd_una snd_nxt : ℤ) (b : ScoreBoard1) : ScoreBoard1 :=
  let (done, last_lost, b) := b.nodes.foldl lossStep ([], false, { b with nxt_to_retrx_ := none })
  let b := match done with
    | prev :: _ =>
      if prev.getEnd + 1 < snd_nxt then
        -- all the packets that were sent are lost
        let (n, b) := alloc b (prev.getEnd + 1) (snd_nxt - 1)
        let (done, _, b) := lossStep (done, last_lost, b) n
        { b with nodes := done.reverse }
      else { b with nodes := done.reverse }
    | [] =>
      if snd_una < snd_nxt then
        let (n, b) := alloc b snd_una (snd_nxt - 1)
        { b with
          nodes := [{ n with flag_ := .lost }]
          nxt_to_retrx_ := some n.addr
          fack_out_ := b.fack_out_ + (snd_nxt - snd_una) }
      else { b with nodes := [] }
  { b with rtx_id_ := 0, acked_rtx_id_ := -1 }

/-- `-1` if no packet is to be retransmitted; `none` if the pointer is to no node of the list. -/
def getNextRetran (b : ScoreBoard1) : Option (ScoreBoard1 × ℤ) :=
  match b.nxt_to_retrx_ with
  | none => some (b, -1)
  | some a =>
    match b.nodes.dropWhile fun n => decide (n.addr ≠ a) with
    | [] => none
    | nodes =>
      match nodes.find? fun n => decide (n.flag_ = .lost) with
      | some n => some ({ b with nxt_to_retrx_ := some n.addr }, n.seq_)
      | none => some ({ b with nxt_to_retrx_ := none }, -1)

/-- `none` if an assertion fails. -/
def markRetran (retran_seqno snd_nxt : ℤ) (b : ScoreBoard1) : Option ScoreBoard1 :=
  b.nxt_to_retrx_.bind fun a =>
    match b.nodes.span fun n => decide (n.addr ≠ a) with
    | (_, []) => none
    | (before, n :: rest) =>
      if n.inside retran_seqno ∧ 0 ≤ b.fack_out_ - 1 then
        let (n, rest, b) :=
          if n.nxt_ > n.seq_ then
            let (n, next, b) := split b n (n.seq_ + 1)
            (n, next :: rest, b)
          else (n, rest, b)
        some { b with
          nodes := before ++ { n with
            flag_ := .retransmitted
            nxt_ := snd_nxt
            retran_ := b.rtx_id_ } :: rest
          fack_out_ := b.fack_out_ - 1
          rtx_id_ := b.rtx_id_ + 1
          last_rtx_seq_ := retran_seqno }
      else none

inductive Op where
  | updateScoreBoard (last_ack : ℤ) (sacks : List (ℤ × ℤ)) (dupack_threshold : ℤ)
  | retran (snd_nxt : ℤ)
  | markLoss (snd_una snd_nxt : ℤ)
  | clearScoreBoard

/-- What the sender reads: the flags of an update, the packet to be retransmitted. The packet that
is returned is marked. -/
def step (b : ScoreBoard1) : Op → Option (ScoreBoard1 × ℤ)
  | .updateScoreBoard last_ack sacks dupack =>
    (updateScoreBoard last_ack sacks dupack b).map fun (b, flag) => (b, (flag : ℤ))
  | .retran snd_nxt =>
    (getNextRetran b).bind fun (b, seq) =>
      if seq = -1 then some (b, -1) else (markRetran seq snd_nxt b).map fun b => (b, seq)
  | .markLoss snd_una snd_nxt => some (markLoss snd_una snd_nxt b, 0)
  | .clearScoreBoard => some (clearScoreBoard b, 0)

end ScoreBoard1

end Ns2
