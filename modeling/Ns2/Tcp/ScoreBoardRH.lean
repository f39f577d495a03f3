import Ns2.Lib.Machine

/-! The scoreboard of the rate-halving sender: a ring of 1024 nodes, each with the number of
reports for its hole. -/

namespace Ns2

structure ScoreBoardNodeRH where
  seq_no_ : ℤ
  ack_flag_ : Bool
  sack_flag_ : Bool
  retran_ : Bool
  snd_nxt_ : ℤ
  sack_cnt_ : ℤ
  rh_id_ : ℤ

structure ScoreBoardRH where
  first_ : ℤ
  length_ : ℤ
  retran_occured_ : ℤ
  retran_sacked_ : ℤ
  SBN : ℕ → ScoreBoardNodeRH

namespace ScoreBoardRH

def SBSIZE : ℕ := 1024

/-- The array is not initialised, nor is `retran_sacked_`. -/
def new (retran_sacked : ℤ) (sbn : ℕ → ScoreBoardNodeRH) : ScoreBoardRH :=
  ⟨0, 0, 0, retran_sacked, sbn⟩

/-- `i%SBSIZE`; the packet numbers are not negative. -/
def slot (i : ℤ) : ℕ := i.toNat % SBSIZE

def SBNI (s : ScoreBoardRH) (i : ℤ) : ScoreBoardNodeRH := s.SBN (slot i)

/-- `SBNI = node` -/
def store (i : ℤ) (node : ScoreBoardNodeRH) (s : ScoreBoardRH) : ScoreBoardRH :=
  { s with SBN := Function.update s.SBN (slot i) node }

/-- `SBN[(first_)%SBSIZE].seq_no_` -/
def firstSeq (s : ScoreBoardRH) : ℤ := (s.SBNI s.first_).seq_no_

/-- `SBN[(first_+length_+SBSIZE-1)%SBSIZE].seq_no_` -/
def lastSeq (s : ScoreBoardRH) : ℤ := (s.SBNI (s.first_ + s.length_ + SBSIZE - 1)).seq_no_

/-- The loop `for (i=lo; ...; i++)` of `n` rounds. -/
def loop {α : Type*} (body : ℤ → α → α) : ℕ → ℤ → α → α
  | 0, _, a => a
  | n + 1, i, a => loop body n (i + 1) (body i a)

/-- A new entry; `none` if the board is too large. -/
def append (i : ℤ) (s : ScoreBoardRH) : Option ScoreBoardRH :=
  if s.length_ + 1 ≥ SBSIZE then none
  else some (store i ⟨i, false, false, false, 0, 0, 0⟩ { s with length_ := s.length_ + 1 })

/-- If there is no scoreboard, one is created. -/
def create (last_ack : ℤ) (s : ScoreBoardRH) : Option ScoreBoardRH :=
  if s.length_ = 0 then append (last_ack + 1) { s with first_ := (last_ack + 1) % SBSIZE }
  else some s

/-- The loop that advances the left edge; `none` if an assertion fails. -/
def advance (last_ack rh_id : ℤ) : ℕ → ℤ → ScoreBoardRH × ℤ → Option (ScoreBoardRH × ℤ)
  | 0, _, r => some r
  | n + 1, i, (s, retran_decr) =>
    let node := s.SBNI i
    if node.seq_no_ ≤ last_ack then
      if s.first_ ≠ i % SBSIZE ∨ s.length_ - 1 < 0 then none
      else
        let s' := store i
          { node with
            ack_flag_ := true
            sack_flag_ := true
            retran_ := false
            snd_nxt_ := if node.retran_ then 0 else node.snd_nxt_ }
          { s with
            first_ := (s.first_ + 1) % SBSIZE
            length_ := s.length_ - 1
            retran_sacked_ := if node.retran_ then rh_id else s.retran_sacked_ }
        let r := (s', if node.retran_ then retran_decr + 1 else retran_decr)
        if s'.length_ = 0 then some r else advance last_ack rh_id n (i + 1) r
    else advance last_ack rh_id n (i + 1) (s, retran_decr)

/-- The left edge of the board is advanced. -/
def advanceTo (last_ack rh_id : ℤ) (s : ScoreBoardRH) : Option (ScoreBoardRH × ℤ) :=
  if s.firstSeq ≤ last_ack then
    advance last_ack rh_id (last_ack + 1 - s.firstSeq).toNat s.firstSeq (s, 0)
  else some (s, 0)

/-- The loop that creates new entries off the right side. -/
def extend : ℕ → ℤ → ScoreBoardRH → Option ScoreBoardRH
  | 0, _, s => some s
  | n + 1, i, s => (append i s).bind (extend n (i + 1))

def extendTo (sack_right : ℤ) (s : ScoreBoardRH) : Option ScoreBoardRH :=
  if sack_right > s.lastSeq then
    extend (sack_right - (s.lastSeq + 1)).toNat (s.lastSeq + 1) s
  else some s

/-- A segment that may be covered by a block. -/
def coverSegment (rh_id : ℤ) (b : ℤ × ℤ) (i : ℤ) (r : ScoreBoardRH × ℤ) : ScoreBoardRH × ℤ :=
  let node := r.1.SBNI i
  if node.seq_no_ ≥ b.1 ∧ node.seq_no_ < b.2 then
    let s' := store i
      { node with
        sack_flag_ := true
        retran_ := false
        snd_nxt_ := if node.retran_ then 0 else node.snd_nxt_ }
      { r.1 with retran_sacked_ := if node.retran_ then rh_id else r.1.retran_sacked_ }
    (s', if node.retran_ then r.2 + 1 else r.2)
  else r

/-- One block of the ACK. -/
def sackBlock (rh_id : ℤ) (r : ScoreBoardRH × ℤ) (b : ℤ × ℤ) : Option (ScoreBoardRH × ℤ) :=
  (extendTo b.2 r.1).map fun s =>
    loop (coverSegment rh_id b) (b.2 - s.firstSeq).toNat s.firstSeq (s, r.2)

/-- A hole which still exists. -/
def countSegment (i : ℤ) (s : ScoreBoardRH) : ScoreBoardRH :=
  let node := s.SBNI i
  if !node.ack_flag_ && !node.sack_flag_ then
    store i { node with sack_cnt_ := node.sack_cnt_ + 1 } s
  else s

/-- A segment whose `snd_nxt_` may be covered. -/
def checkSegment (sack_max i : ℤ) (r : ScoreBoardRH × ℤ) : ScoreBoardRH × ℤ :=
  let node := r.1.SBNI i
  if node.retran_ ∧ node.snd_nxt_ < sack_max then
    (store i { node with retran_ := false, snd_nxt_ := 0, sack_cnt_ := 1 } r.1, r.2 + 1)
  else r

def CheckSndNxt (sack_max : ℤ) (s : ScoreBoardRH) : ScoreBoardRH × ℤ :=
  if s.length_ ≠ 0 then
    loop (checkSegment sack_max) (sack_max - s.firstSeq).toNat s.firstSeq (s, 0)
  else (s, 0)

/-- The loop over the whole board. -/
def countHoles (sack_max : ℤ) (s : ScoreBoardRH) : ScoreBoardRH :=
  if s.length_ ≠ 0 then loop countSegment (sack_max - s.firstSeq).toNat s.firstSeq s else s

def UpdateScoreBoard (s : ScoreBoardRH) (last_ack : ℤ) (sacks : List (ℤ × ℤ)) (rh_id : ℤ) :
    Option (ScoreBoardRH × ℤ) :=
  if sacks = [] ∧ s.length_ = 0 then some (s, 0)
  else
    (create last_ack s).bind fun s => (advanceTo last_ack rh_id s).bind fun r =>
      (sacks.foldlM (sackBlock rh_id) r).map fun r =>
        let sack_max := sacks.foldl (fun m b => if b.2 > m then b.2 else m) 0
        let c := CheckSndNxt sack_max (countHoles sack_max r.1)
        (c.1, r.2 + c.2)

def ClearScoreBoard (s : ScoreBoardRH) : ScoreBoardRH := { s with length_ := 0 }

/-- The loop of `GetNextRetran`. -/
def nextRetran (numdupacks : ℤ) (s : ScoreBoardRH) : ℕ → ℤ → ℤ
  | 0, _ => -1
  | n + 1, i =>
    let node := s.SBNI i
    if !node.ack_flag_ && !node.sack_flag_ && !node.retran_ && node.sack_cnt_ ≥ numdupacks then i
    else nextRetran numdupacks s n (i + 1)

def GetNextRetran (numdupacks : ℤ) (s : ScoreBoardRH) : ℤ :=
  if s.length_ ≠ 0 then nextRetran numdupacks s s.length_.toNat s.firstSeq else -1

def MarkRetran (s : ScoreBoardRH) (retran_seqno snd_nxt rh_id : ℤ) : ScoreBoardRH :=
  store retran_seqno
    { s.SBNI retran_seqno with
      retran_ := true
      snd_nxt_ := snd_nxt
      rh_id_ := rh_id }
    { s with retran_occured_ := rh_id }

/-- All holes are to be retransmitted. -/
def timeoutSegment (numdupacks i : ℤ) (s : ScoreBoardRH) : ScoreBoardRH :=
  let node := s.SBNI i
  if !node.ack_flag_ && !node.sack_flag_ then
    store i { node with retran_ := false, snd_nxt_ := 0, sack_cnt_ := numdupacks } s
  else s

/-- The first segment is checked in case of a renege. -/
def checkRenege (numdupacks : ℤ) (s : ScoreBoardRH) : ScoreBoardRH :=
  let i := s.firstSeq
  let node := s.SBNI i
  if !node.ack_flag_ && node.sack_flag_ then
    store i
      { node with
        sack_flag_ := false
        retran_ := false
        snd_nxt_ := 0
        sack_cnt_ := numdupacks } s
  else s

def TimeoutScoreBoard (numdupacks : ℤ) (s : ScoreBoardRH) (snd_nxt : ℤ) : Option ScoreBoardRH :=
  if s.length_ = 0 then some s
  else (extendTo snd_nxt s).map fun s =>
    checkRenege numdupacks (loop (timeoutSegment numdupacks) s.length_.toNat s.firstSeq s)

inductive Op where
  | updateScoreBoard (last_ack : ℤ) (sacks : List (ℤ × ℤ)) (rh_id : ℤ)
  | markRetran (retran_seqno snd_nxt rh_id : ℤ)
  | timeoutScoreBoard (numdupacks snd_nxt : ℤ)
  | clearScoreBoard

/-- An operation, and how many retransmissions it takes off; `none` if the program exits. -/
def step (s : ScoreBoardRH) : Op → Option (ScoreBoardRH × ℤ)
  | .updateScoreBoard last_ack sacks rh_id => UpdateScoreBoard s last_ack sacks rh_id
  | .markRetran retran_seqno snd_nxt rh_id => some (MarkRetran s retran_seqno snd_nxt rh_id, 0)
  | .timeoutScoreBoard numdupacks snd_nxt => (TimeoutScoreBoard numdupacks s snd_nxt).map (·, 0)
  | .clearScoreBoard => some (ClearScoreBoard s, 0)

end ScoreBoardRH

end Ns2
