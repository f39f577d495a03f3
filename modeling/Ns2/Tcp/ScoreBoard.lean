import Ns2.Lib.RingBuffer
import Ns2.Lib.Machine

/-! The scoreboard of a sender: a ring of nodes for the packets above the cumulative
acknowledgement, which grows as blocks report higher packets. -/

namespace Ns2

open RingBuffer

structure ScoreBoardNode where
  seq_no_ : ℤ
  ack_flag_ : Bool
  sack_flag_ : Bool
  retran_ : Bool
  snd_nxt_ : ℤ

structure ScoreBoard where
  first_ : ℤ
  length_ : ℤ
  sbsize_ : ℕ
  changed_ : ℤ
  SBN : ℕ → ScoreBoardNode

namespace ScoreBoard

def new (sbn : ℕ → ScoreBoardNode) (sz : ℕ) : ScoreBoard := ⟨0, 0, sz, 0, sbn⟩

/-- `i%sbsize_`; the packet numbers are not negative. -/
def slot (sbsize : ℕ) (i : ℤ) : ℕ := i.toNat % sbsize

def SBNI (s : ScoreBoard) (i : ℤ) : ScoreBoardNode := s.SBN (slot s.sbsize_ i)

/-- The array after `SBNI = node`. -/
def store (s : ScoreBoard) (i : ℤ) (node : ScoreBoardNode) : ℕ → ScoreBoardNode :=
  Function.update s.SBN (slot s.sbsize_ i) node

/-- The new array holds `uninit` where nothing is copied. -/
def resizeSB (uninit : ℕ → ScoreBoardNode) (sz : ℕ) (s : ScoreBoard) : ScoreBoard :=
  { s with
    SBN := fill (slot sz) s.SBNI (s.SBNI s.first_).seq_no_ (s.length_ + 1).toNat uninit
    sbsize_ := sz }

/-- The loop that advances the left edge; `none` if an assertion fails. -/
def advance (last_ack : ℤ) : ℕ → ℤ → ScoreBoard → ℤ → Option (ScoreBoard × ℤ)
  | 0, _, s, retran_decr => some (s, retran_decr)
  | n + 1, i, s, retran_decr =>
    let node := s.SBNI i
    if node.seq_no_ ≤ last_ack then
      if s.first_ ≠ i ∨ s.length_ - 1 < 0 then none
      else
        let s' := { s with
          first_ := s.first_ + 1
          length_ := s.length_ - 1
          changed_ := s.changed_ + 1
          SBN := s.store i { node with
            ack_flag_ := true
            sack_flag_ := true
            retran_ := false
            snd_nxt_ := if node.retran_ then 0 else node.snd_nxt_ } }
        let retran_decr := retran_decr + if node.retran_ then 1 else 0
        if s'.length_ = 0 then some (s', retran_decr) else advance last_ack n (i + 1) s' retran_decr
    else advance last_ack n (i + 1) s retran_decr

/-- A new entry; `none` if the board is too large. -/
def append (i : ℤ) (s : ScoreBoard) : Option ScoreBoard :=
  if s.length_ + 1 ≥ s.sbsize_ then none
  else some { s with
    length_ := s.length_ + 1
    changed_ := s.changed_ + 1
    SBN := s.store i ⟨i, false, false, false, 0⟩ }

/-- If there is no scoreboard, one is created with its first entry. -/
def create (last_ack : ℤ) (sacks : List (ℤ × ℤ)) (s : ScoreBoard) : Option ScoreBoard :=
  if s.length_ = 0 ∧ sacks ≠ [] then append (last_ack + 1) { s with first_ := last_ack + 1 }
  else some s

/-- The loop that resizes the board; `none` if it does not end. -/
def grow (uninit : ℕ → ScoreBoardNode) (needed : ℤ) : ℕ → ScoreBoard → Option ScoreBoard
  | 0, _ => none
  | fuel + 1, s =>
    if needed ≥ s.sbsize_ - 1 then grow uninit needed fuel (resizeSB uninit (s.sbsize_ * 2) s)
    else some s

/-- The loop that creates new entries off the right side. -/
def extend : ℕ → ℤ → ScoreBoard → Option ScoreBoard
  | 0, _, s => some s
  | n + 1, i, s => (append i s).bind (extend n (i + 1))

/-- The loop over the entries that a block may cover. -/
def cover (sack_left sack_right : ℤ) : ℕ → ℤ → ScoreBoard → ℤ → ScoreBoard × ℤ
  | 0, _, s, retran_decr => (s, retran_decr)
  | n + 1, i, s, retran_decr =>
    let node := s.SBNI i
    if node.seq_no_ ≥ sack_left ∧ node.seq_no_ < sack_right then
      let s' := { s with
        changed_ := s.changed_ + if node.sack_flag_ then 0 else 1
        SBN := s.store i { node with sack_flag_ := true, retran_ := false } }
      cover sack_left sack_right n (i + 1) s' (retran_decr + if node.retran_ then 1 else 0)
    else cover sack_left sack_right n (i + 1) s retran_decr

/-- The number of the last entry. -/
def lastSeq (s : ScoreBoard) : ℤ := (s.SBNI (s.first_ + s.length_ + s.sbsize_ - 1)).seq_no_

/-- The entries up to `sack_right` are created, after the board is resized if it would overrun. -/
def extendTo (uninit : ℕ → ScoreBoardNode) (last_ack sack_right : ℤ) (s : ScoreBoard) :
    Option ScoreBoard :=
  if sack_right > s.lastSeq then
    (grow uninit (sack_right - last_ack) ((sack_right - last_ack).toNat + 1) s).bind fun s =>
      extend (sack_right - (s.lastSeq + 1)).toNat (s.lastSeq + 1) s
  else some s

/-- One block of the ACK. -/
def sackBlock (uninit : ℕ → ScoreBoardNode) (last_ack : ℤ) (r : ScoreBoard × ℤ) (b : ℤ × ℤ) :
    Option (ScoreBoard × ℤ) :=
  (extendTo uninit last_ack b.2 r.1).map fun s =>
    let i := (s.SBNI s.first_).seq_no_
    cover b.1 b.2 (b.2 - i).toNat i s r.2

/-- The left edge of the block is advanced, if there is one. -/
def advanceTo (last_ack : ℤ) (s : ScoreBoard) : Option (ScoreBoard × ℤ) :=
  let i := (s.SBNI s.first_).seq_no_
  if s.length_ ≠ 0 ∧ i ≤ last_ack then advance last_ack (last_ack + 1 - i).toNat i s 0
  else some (s, 0)

def UpdateScoreBoard (uninit : ℕ → ScoreBoardNode) (s : ScoreBoard) (last_ack : ℤ)
    (sacks : List (ℤ × ℤ)) : Option (ScoreBoard × ℤ) :=
  (advanceTo last_ack { s with changed_ := 0 }).bind fun r =>
    (create last_ack sacks r.1).bind fun s => sacks.foldlM (sackBlock uninit last_ack) (s, r.2)

def ClearScoreBoard (s : ScoreBoard) : ScoreBoard := { s with length_ := 0 }

/-- The loop of `GetNextRetran`. -/
def nextRetran (s : ScoreBoard) : ℕ → ℤ → ℤ
  | 0, _ => -1
  | n + 1, i =>
    let node := s.SBNI i
    if !node.ack_flag_ && !node.sack_flag_ && !node.retran_ then i else nextRetran s n (i + 1)

def GetNextRetran (s : ScoreBoard) : ℤ :=
  if s.length_ ≠ 0 then nextRetran s s.length_.toNat (s.SBNI s.first_).seq_no_ else -1

/-- Both forms of `MarkRetran`; one of them stores `snd_nxt`. -/
def MarkRetran (s : ScoreBoard) (retran_seqno : ℤ) (snd_nxt : Option ℤ) : ScoreBoard :=
  let node := s.SBNI retran_seqno
  { s with
    SBN := s.store retran_seqno
      { node with retran_ := true, snd_nxt_ := snd_nxt.getD node.snd_nxt_ } }

inductive Op where
  | updateScoreBoard (last_ack : ℤ) (sacks : List (ℤ × ℤ))
  | markRetran (retran_seqno : ℤ) (snd_nxt : Option ℤ)
  | clearScoreBoard

/-- One operation, with the number that `UpdateScoreBoard` returns. -/
def step (uninit : ℕ → ScoreBoardNode) (s : ScoreBoard) : Op → Option (ScoreBoard × ℤ)
  | .updateScoreBoard last_ack sacks => UpdateScoreBoard uninit s last_ack sacks
  | .markRetran retran_seqno snd_nxt => some (MarkRetran s retran_seqno snd_nxt, 0)
  | .clearScoreBoard => some (ClearScoreBoard s, 0)

end ScoreBoard

end Ns2
