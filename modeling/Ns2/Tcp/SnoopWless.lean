import Ns2.Lib.Machine
import Ns2.Lib.OptionRing

/-! The other half of the snoop agent: it keeps which packets of a wireless sender it saw, as ranges
in a small ring, and marks the acknowledgements of packets that the wireless link lost. -/

namespace Ns2

open OptionRing (next prev)

def SNOOP_WLALIVE : BitVec 32 := 0x40
def SNOOP_WLEMPTY : BitVec 32 := 0x80
def SNOOP_WLSEQS : ℕ := 8

/-- The packets from `seq` on, `num` of them. -/
structure HdrSeq where
  seq : ℤ
  num : ℤ
  deriving DecidableEq

structure SnoopWl where
  wl_state_ : BitVec 32
  wl_lastSeen_ : ℤ
  wl_lastAck_ : ℤ
  wl_bufhead_ : ℕ
  wl_buftail_ : ℕ
  wlseqs_ : ℕ → HdrSeq

namespace SnoopWl

def wl_next (i : ℕ) : ℕ := next SNOOP_WLSEQS i

def wl_prev (i : ℕ) : ℕ := prev SNOOP_WLSEQS i

def new : SnoopWl where
  wl_state_ := SNOOP_WLEMPTY
  wl_lastSeen_ := -1
  wl_lastAck_ := -1
  wl_bufhead_ := 0
  wl_buftail_ := 0
  wlseqs_ := fun _ => ⟨0, 0⟩

def is (s : SnoopWl) (flag : BitVec 32) : Bool := s.wl_state_ &&& flag != 0

def wlreset (s : SnoopWl) : SnoopWl :=
  { s with
    wl_state_ := SNOOP_WLEMPTY
    wl_bufhead_ := 0
    wl_buftail_ := 0
    wlseqs_ := fun _ => ⟨0, 0⟩ }

/-- Packet 0 of a connection that is alive begins a new one. -/
def restarts (s : SnoopWl) (seq : ℤ) : Bool := s.is SNOOP_WLALIVE && seq == 0

def start (s : SnoopWl) (seq : ℤ) : SnoopWl :=
  let s := if s.restarts seq then s.wlreset else s
  { s with wl_state_ := s.wl_state_ ||| SNOOP_WLALIVE }

/-- A packet that comes to an empty ring. -/
def First (s : SnoopWl) (seq : ℤ) : Prop := s.is SNOOP_WLEMPTY ∧ seq ≥ s.wl_lastAck_

instance (s : SnoopWl) (seq : ℤ) : Decidable (s.First seq) :=
  inferInstanceAs (Decidable (_ ∧ _))

def takeFirst (s : SnoopWl) (seq : ℤ) : SnoopWl :=
  { s with
    wlseqs_ := Function.update s.wlseqs_ s.wl_bufhead_ ⟨seq, 1⟩
    wl_buftail_ := s.wl_bufhead_
    wl_bufhead_ := wl_next s.wl_bufhead_
    wl_lastSeen_ := seq
    wl_state_ := s.wl_state_ &&& ~~~SNOOP_WLEMPTY }

/-- The entry in front of the head, which is the last range. -/
def last (s : SnoopWl) : HdrSeq := s.wlseqs_ (wl_prev s.wl_bufhead_)

def extendLast (s : SnoopWl) (seq : ℤ) : SnoopWl :=
  { s with
    wl_lastSeen_ := seq
    wlseqs_ := Function.update s.wlseqs_ (wl_prev s.wl_bufhead_) ⟨s.last.seq, s.last.num + 1⟩ }

/-- The entry at the head is taken, with the count that it has. -/
def takeNext (s : SnoopWl) (seq : ℤ) : SnoopWl :=
  { s with
    wl_lastSeen_ := seq
    wl_bufhead_ := wl_next s.wl_bufhead_
    wlseqs_ := Function.update s.wlseqs_ s.wl_bufhead_ ⟨seq, (s.wlseqs_ s.wl_bufhead_).num + 1⟩ }

def extendFront (s : SnoopWl) (seq : ℤ) : SnoopWl :=
  { s with wlseqs_ :=
      Function.update s.wlseqs_ s.wl_buftail_ ⟨seq, (s.wlseqs_ s.wl_buftail_).num + 1⟩ }

/-- What `snoop_wless_data` does after the start. -/
def keep (s : SnoopWl) (seq : ℤ) : SnoopWl :=
  if s.First seq then s.takeFirst seq
  else if seq ≥ s.wl_lastSeen_ then
    if s.last.seq + s.last.num = seq then s.extendLast seq else s.takeNext seq
  else if seq = (s.wlseqs_ s.wl_buftail_).seq - 1 then s.extendFront seq
  else s

def snoop_wless_data (s : SnoopWl) (seq : ℤ) : SnoopWl := (s.start seq).keep seq

def snoop_wlessloss (s : SnoopWl) (ack : ℤ) : Bool :=
  s.wl_bufhead_ == s.wl_buftail_ || decide ((s.wlseqs_ s.wl_buftail_).seq > ack + 1)

/-- The loop over the ring from entry `i` on: where it ends and what the entries are then; `none` is
more rounds than the third argument. -/
def ackLoop (head : ℕ) (ack : ℤ) : ℕ → ℕ → (ℕ → HdrSeq) → Option (ℕ × (ℕ → HdrSeq))
  | 0, _, _ => none
  | f + 1, i, wlseqs =>
    if i = head then some (i, wlseqs)
    else
      let t := wlseqs i
      if t.seq + t.num - 1 ≤ ack then
        ackLoop head ack f (wl_next i) (Function.update wlseqs i ⟨0, 0⟩)
      else if ack < t.seq then some (i, wlseqs)
      else if ack < t.seq + t.num - 1 then
        some (i, Function.update wlseqs i ⟨ack + 1, t.num - (ack - t.seq + 1)⟩)
      else ackLoop head ack f (wl_next i) wlseqs

/-- What a new acknowledgement leaves of the ring. -/
def advance (s : SnoopWl) (ack : ℤ) : Option SnoopWl :=
  (ackLoop s.wl_bufhead_ ack (SNOOP_WLSEQS + 1) s.wl_buftail_ s.wlseqs_).map fun r =>
    { s with
      wlseqs_ := r.2
      wl_buftail_ := r.1
      wl_state_ := if r.1 = s.wl_bufhead_ then s.wl_state_ ||| SNOOP_WLEMPTY else s.wl_state_
      wl_lastAck_ := ack }

/-- The flag is the `eln_` of the acknowledgement. -/
def snoop_wired_ack (s : SnoopWl) (ack : ℤ) : Option (SnoopWl × Bool) :=
  if ack = s.wl_lastAck_ ∧ s.snoop_wlessloss ack then some (s, true)
  else if ack > s.wl_lastAck_ then
    (s.advance ack).map fun s =>
      (s, s.wl_bufhead_ != s.wl_buftail_ && s.snoop_wlessloss ack)
  else some (s, false)

/-- A data packet from the wireless side, or an acknowledgement from the wired one. -/
inductive Event
  | data (seq : ℤ)
  | ack (ack : ℤ)
  deriving DecidableEq

def step (s : SnoopWl) : Event → Option (SnoopWl × Bool)
  | .data seq => some (s.snoop_wless_data seq, false)
  | .ack ack => s.snoop_wired_ack ack

/-- A packet below the highest one that is not next to the first range, either. -/
def Ignored (s : SnoopWl) (seq : ℤ) : Prop :=
  ¬ s.First seq ∧ seq < s.wl_lastSeen_ ∧ seq ≠ (s.wlseqs_ s.wl_buftail_).seq - 1

instance (s : SnoopWl) (seq : ℤ) : Decidable (s.Ignored seq) :=
  inferInstanceAs (Decidable (_ ∧ _ ∧ _))

/-- A packet that begins a range behind the others. -/
def Opens (s : SnoopWl) (seq : ℤ) : Prop :=
  ¬ s.First seq ∧ seq ≥ s.wl_lastSeen_ ∧ s.last.seq + s.last.num ≠ seq

instance (s : SnoopWl) (seq : ℤ) : Decidable (s.Opens seq) :=
  inferInstanceAs (Decidable (_ ∧ _ ∧ _))

/-- The packet takes the last entry of the ring that is free. -/
def Fills (s : SnoopWl) : Event → Prop
  | .data seq =>
    let s := s.start seq
    s.Opens seq ∧ wl_next s.wl_bufhead_ = s.wl_buftail_
  | .ack _ => False

instance (s : SnoopWl) : ∀ e, Decidable (s.Fills e)
  | .data _ => inferInstanceAs (Decidable (_ ∧ _))
  | .ack _ => inferInstanceAs (Decidable False)

/-- The highest packet comes again. -/
def Repeats (s : SnoopWl) : Event → Prop
  | .data seq =>
    let s := s.start seq
    s.is SNOOP_WLEMPTY = false ∧ seq = s.wl_lastSeen_
  | .ack _ => False

instance (s : SnoopWl) : ∀ e, Decidable (s.Repeats e)
  | .data _ => inferInstanceAs (Decidable (_ ∧ _))
  | .ack _ => inferInstanceAs (Decidable False)

/-- A packet that comes to the empty ring behind its acknowledgement, and is not ignored. -/
def Late (s : SnoopWl) : Event → Prop
  | .data seq =>
    let s := s.start seq
    s.is SNOOP_WLEMPTY ∧ seq < s.wl_lastAck_ ∧ (s.wl_lastSeen_ ≤ seq ∨ seq < 0)
  | .ack _ => False

instance (s : SnoopWl) : ∀ e, Decidable (s.Late e)
  | .data _ => inferInstanceAs (Decidable (_ ∧ _ ∧ _))
  | .ack _ => inferInstanceAs (Decidable False)

/-- The ranges from the tail up to the head -/
def ranges (s : SnoopWl) : List HdrSeq :=
  (List.range ((s.wl_bufhead_ + SNOOP_WLSEQS - s.wl_buftail_) % SNOOP_WLSEQS)).map fun i =>
    s.wlseqs_ ((s.wl_buftail_ + i) % SNOOP_WLSEQS)

def forget (s : SnoopWl) (seq : ℤ) (l : List ℤ) : List ℤ := if s.restarts seq then [] else l

/-- The packets of the connection that were seen and not ignored. -/
def seen (s : SnoopWl) (l : List ℤ) : Event → List ℤ
  | .data seq => if (s.start seq).Ignored seq then s.forget seq l else seq :: s.forget seq l
  | .ack _ => l

end SnoopWl

end Ns2
