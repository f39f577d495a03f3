import Mathlib

/-! `ProcessGapAckBlocks` of sctp/sctp.cc for a SACK chunk, that is with `eUseNonRenegSacks` off.
Destinations and streams are named by numbers, and a chunk of the send buffer by its TSN. -/

namespace Ns2

inductive MarkedForRtx_E
  | NO_RTX
  | FAST_RTX
  | TIMEOUT_RTX
  deriving DecidableEq

structure SctpGapAckBlock where
  usStartOffset : ℕ
  usEndOffset : ℕ
  deriving DecidableEq

/-- `rtts` lists the time stamps that were given to `RttUpdate`. -/
structure SctpDest where
  iCwnd : ℤ
  iSsthresh : ℤ
  eRtxTimerIsRunning : Bool
  eRtoPending : Bool
  iPartialBytesAcked : ℤ
  iOutstandingBytes : ℤ
  iErrorCount : ℤ
  active : Bool
  spFirstOutstanding : Option ℕ
  iNumNewlyAckedBytes : ℤ
  rtts : List ℚ

structure SctpSendBufferNode where
  uiTsn : ℕ
  usLength : ℕ
  usStreamId : ℕ
  eAdvancedAcked : Bool
  eGapAcked : Bool
  eAddedToPartialBytesAcked : Bool
  iNumMissingReports : ℤ
  iUnrelRtxLimit : ℤ
  eMarkedForRtx : MarkedForRtx_E
  eIneligibleForFastRtx : Bool
  iNumTxs : ℤ
  dTxTimestamp : ℚ
  spDest : ℕ

/-- The sender without its send buffer; `uiHighestTsnSacked` and `eFastRtxNeeded` are locals of
`ProcessGapAckBlocks`. -/
structure SctpSender where
  sDestList : ℕ → SctpDest
  unreliable : ℕ → Bool
  uiHighestTsnNewlyAcked : ℕ
  uiRecover : ℕ
  iAssocErrorCount : ℤ
  spPrimaryDest : ℕ
  spNewTxDest : ℕ
  iFastRtxTrigger : ℤ
  uiPeerRwnd : ℕ
  eMarkedChunksPending : Bool
  uiHighestTsnSacked : ℕ
  eFastRtxNeeded : Bool

namespace SctpGapAckBlock

def uiStartTsn (uiCumAck : ℕ) (b : SctpGapAckBlock) : ℕ := (uiCumAck + b.usStartOffset) % 2 ^ 32

def uiEndTsn (uiCumAck : ℕ) (b : SctpGapAckBlock) : ℕ := (uiCumAck + b.usEndOffset) % 2 ^ 32

end SctpGapAckBlock

/-- What a chunk that is newly gap acked does to its destination. -/
def SctpDest.gapAcked (eNewCumAck : Bool) (n : SctpSendBufferNode) (d : SctpDest) : SctpDest where
  iCwnd := d.iCwnd
  iSsthresh := d.iSsthresh
  iNumNewlyAckedBytes :=
    if n.eAdvancedAcked then d.iNumNewlyAckedBytes else d.iNumNewlyAckedBytes + n.usLength
  iPartialBytesAcked :=
    if d.iCwnd > d.iSsthresh ∧ eNewCumAck ∧ n.eAddedToPartialBytesAcked = false then
      d.iPartialBytesAcked + n.usLength
    else d.iPartialBytesAcked
  rtts :=
    if d.eRtoPending ∧ n.dTxTimestamp > 0 ∧ n.iNumTxs = 1 ∧ n.eAdvancedAcked = false ∧
        n.eMarkedForRtx ≠ .TIMEOUT_RTX then d.rtts ++ [n.dTxTimestamp]
    else d.rtts
  eRtoPending :=
    if d.eRtoPending ∧ n.dTxTimestamp > 0 ∧ n.iNumTxs = 1 ∧ n.eAdvancedAcked = false then false
    else d.eRtoPending
  spFirstOutstanding := d.spFirstOutstanding
  eRtxTimerIsRunning :=
    if d.spFirstOutstanding = some n.uiTsn ∧ d.eRtxTimerIsRunning then false
    else d.eRtxTimerIsRunning
  iErrorCount :=
    if d.iErrorCount ≠ 0 ∧ n.eMarkedForRtx ≠ .TIMEOUT_RTX then 0 else d.iErrorCount
  active := if d.iErrorCount ≠ 0 ∧ n.eMarkedForRtx ≠ .TIMEOUT_RTX then true else d.active
  iOutstandingBytes := d.iOutstandingBytes

namespace SctpSender

variable (s : SctpSender)

def modDest (d : ℕ) (f : SctpDest → SctpDest) : SctpSender :=
  { s with sDestList := Function.update s.sDestList d (f (s.sDestList d)) }

def clearFirstOutstanding : SctpSender :=
  { s with sDestList := fun d => { s.sDestList d with spFirstOutstanding := none } }

def noteFirstOutstanding (n : SctpSendBufferNode) : SctpSender :=
  if (s.sDestList n.spDest).spFirstOutstanding = none ∧ n.eGapAcked = false ∧
      n.eAdvancedAcked = false then
    s.modDest n.spDest fun d => { d with spFirstOutstanding := some n.uiTsn }
  else s

def noteSacked (tsn : ℕ) : SctpSender :=
  if s.uiHighestTsnSacked < tsn then { s with uiHighestTsnSacked := tsn } else s

/-- A chunk that no block acks. -/
def renege (n : SctpSendBufferNode) : SctpSendBufferNode × SctpSender :=
  if n.eGapAcked then
    ({ n with eGapAcked := false }, s.modDest n.spDest fun d =>
      { d with iOutstandingBytes := d.iOutstandingBytes + n.usLength })
  else (n, s)

/-- A chunk that a block acks. -/
def gapAck (eNewCumAck : Bool) (n : SctpSendBufferNode) : SctpSendBufferNode × SctpSender :=
  if n.eGapAcked then (n, s) else
  let d := s.sDestList n.spDest
  ({ n with
      eGapAcked := true
      eAddedToPartialBytesAcked :=
        if d.iCwnd > d.iSsthresh ∧ eNewCumAck ∧ n.eAddedToPartialBytesAcked = false then true
        else n.eAddedToPartialBytesAcked
      eMarkedForRtx := .NO_RTX },
    { s.modDest n.spDest (SctpDest.gapAcked eNewCumAck n) with
      uiHighestTsnNewlyAcked :=
        if s.uiHighestTsnNewlyAcked < n.uiTsn then n.uiTsn else s.uiHighestTsnNewlyAcked
      iAssocErrorCount := 0
      spNewTxDest :=
        if d.iErrorCount ≠ 0 ∧ n.eMarkedForRtx ≠ .TIMEOUT_RTX ∧ n.spDest = s.spPrimaryDest then
          s.spPrimaryDest
        else s.spNewTxDest })

/-- One chunk against the blocks that are not processed yet. -/
def visit (uiCumAck : ℕ) (eNewCumAck : Bool) (n : SctpSendBufferNode) :
    List SctpGapAckBlock → List SctpGapAckBlock × SctpSendBufferNode × SctpSender
  | [] => ([], s.renege n)
  | b :: bs =>
    let s' := (s.noteFirstOutstanding n).noteSacked (b.uiEndTsn uiCumAck)
    if n.uiTsn < b.uiStartTsn uiCumAck then (b :: bs, s'.renege n)
    else if n.uiTsn ≤ b.uiEndTsn uiCumAck then
      (b :: bs, (s'.noteSacked n.uiTsn).gapAck eNewCumAck n)
    else (bs, s'.renege n)

/-- The blocks that are left at the end of the send buffer still count for `uiHighestTsnSacked`. -/
def gapLoop (uiCumAck : ℕ) (eNewCumAck : Bool) :
    List SctpGapAckBlock → List SctpSendBufferNode → SctpSender →
      List SctpSendBufferNode × SctpSender
  | bs, [], s => ([], bs.foldl (fun s b => s.noteSacked (b.uiEndTsn uiCumAck)) s)
  | bs, n :: ns, s =>
    let r := s.visit uiCumAck eNewCumAck n bs
    let q := gapLoop uiCumAck eNewCumAck r.1 ns r.2.2
    (r.2.1 :: q.1, q.2)

def MarkChunkForRtx (eMarkedForRtx : MarkedForRtx_E) (n : SctpSendBufferNode) :
    SctpSendBufferNode × SctpSender :=
  let s := { s with uiPeerRwnd := (s.uiPeerRwnd + n.usLength) % 2 ^ 32 }
  if s.unreliable n.usStreamId ∧ n.iNumTxs > n.iUnrelRtxLimit then
    ({ n with
        eAdvancedAcked := true
        eMarkedForRtx := .NO_RTX },
      s.modDest n.spDest fun d => { d with iOutstandingBytes := d.iOutstandingBytes - n.usLength })
  else
    ({ n with eMarkedForRtx := eMarkedForRtx },
      { s with eMarkedChunksPending := decide (eMarkedForRtx ≠ .NO_RTX) || s.eMarkedChunksPending })

def reportMissing (eNewCumAck : Bool) (n : SctpSendBufferNode) : SctpSendBufferNode × SctpSender :=
  if n.eGapAcked = false ∧ (n.uiTsn < s.uiHighestTsnNewlyAcked ∨
      eNewCumAck ∧ s.uiHighestTsnNewlyAcked ≤ s.uiRecover ∧ n.uiTsn < s.uiHighestTsnSacked) then
    let n := { n with iNumMissingReports := n.iNumMissingReports + 1 }
    if n.iNumMissingReports ≥ s.iFastRtxTrigger ∧ n.eIneligibleForFastRtx = false ∧
        n.eAdvancedAcked = false then
      let r := s.MarkChunkForRtx .FAST_RTX n
      ({ r.1 with eIneligibleForFastRtx := true }, { r.2 with eFastRtxNeeded := true })
    else (n, s)
  else (n, s)

def missingLoop (eNewCumAck : Bool) :
    List SctpSendBufferNode → SctpSender → List SctpSendBufferNode × SctpSender
  | [], s => ([], s)
  | n :: ns, s =>
    let r := s.reportMissing eNewCumAck n
    let q := missingLoop eNewCumAck ns r.2
    (r.1 :: q.1, q.2)

/-- The send buffer and the sender afterwards; the value returned is `eFastRtxNeeded`. -/
def ProcessGapAckBlocks (uiCumAck : ℕ) (blocks : List SctpGapAckBlock) (eNewCumAck : Bool)
    (sSendBuffer : List SctpSendBufferNode) : List SctpSendBufferNode × SctpSender :=
  let s := { s with
    uiHighestTsnSacked := s.uiHighestTsnNewlyAcked
    eFastRtxNeeded := false }
  if sSendBuffer = [] then ([], s) else
  let r := gapLoop uiCumAck eNewCumAck blocks sSendBuffer s.clearFirstOutstanding
  missingLoop eNewCumAck r.1 r.2

end SctpSender

/-! ### Which chunks are marked, and what is booked -/

/-- The TSN lies in some block. -/
def InBlocks (uiCumAck : ℕ) (blocks : List SctpGapAckBlock) (tsn : ℕ) : Prop :=
  ∃ b ∈ blocks, uiCumAck + b.usStartOffset ≤ tsn ∧ tsn ≤ uiCumAck + b.usEndOffset

instance (c : ℕ) (blocks : List SctpGapAckBlock) : DecidablePred (InBlocks c blocks) := fun _ =>
  inferInstanceAs (Decidable (∃ b ∈ blocks, _))

/-- Sorted, disjoint blocks that are not adjacent. -/
structure Separate (blocks : List SctpGapAckBlock) : Prop where
  ordered : ∀ b ∈ blocks, b.usStartOffset ≤ b.usEndOffset
  apart : blocks.Pairwise fun a b => a.usEndOffset + 1 < b.usStartOffset

theorem Separate.tail {b : SctpGapAckBlock} {bs : List SctpGapAckBlock}
    (h : Separate (b :: bs)) : Separate bs :=
  ⟨fun a ha => h.ordered a (List.mem_cons_of_mem b ha), (List.pairwise_cons.mp h.apart).2⟩

namespace SctpSendBufferNode

variable (n n' : SctpSendBufferNode)

/-- The bytes that are booked as newly acked if `mark` says which chunks are acked. -/
def newlyAcked (mark : ℕ → Prop) [DecidablePred mark] (d : ℕ) : ℤ :=
  if n.spDest = d ∧ n.eGapAcked = false ∧ mark n.uiTsn ∧ n.eAdvancedAcked = false then n.usLength
  else 0

/-- The bytes that are outstanding again. -/
def takenBack (mark : ℕ → Prop) [DecidablePred mark] (d : ℕ) : ℤ :=
  if n.spDest = d ∧ n.eGapAcked = true ∧ ¬ mark n.uiTsn then n.usLength else 0

/-- The bytes of a chunk that is given up. -/
def givenUp (d : ℕ) : ℤ :=
  if n.spDest = d ∧ n.eAdvancedAcked = false ∧ n'.eAdvancedAcked = true then n.usLength else 0

/-- The chunk is the same but for its marks. -/
structure Same : Prop where
  tsn : n'.uiTsn = n.uiTsn
  length : n'.usLength = n.usLength
  dest : n'.spDest = n.spDest

end SctpSendBufferNode

namespace SctpSender

open SctpSendBufferNode

variable {s : SctpSender} {n : SctpSendBufferNode} {c : ℕ} {new : Bool}

/-- What is booked for a destination. -/
def booked (s : SctpSender) (d : ℕ) : ℤ × ℤ :=
  ((s.sDestList d).iNumNewlyAckedBytes, (s.sDestList d).iOutstandingBytes)

@[simp] theorem booked_noteFirstOutstanding : (s.noteFirstOutstanding n).booked = s.booked := by
  funext d
  rw [noteFirstOutstanding]
  split
  · by_cases hd : d = n.spDest
    · subst hd
      simp [booked, modDest]
    · simp [booked, modDest, hd]
  · rfl

@[simp] theorem booked_noteSacked (tsn : ℕ) : (s.noteSacked tsn).booked = s.booked := by
  rw [noteSacked]
  split <;> rfl

/-- One chunk is marked or not, and its bytes are booked. -/
structure Marks (mark : Prop) [Decidable mark] (n : SctpSendBufferNode) (s : SctpSender)
    (r : SctpSendBufferNode × SctpSender) : Prop extends Same n r.1 where
  gapAcked : r.1.eGapAcked = decide mark
  advanced : r.1.eAdvancedAcked = n.eAdvancedAcked
  booked (d : ℕ) : r.2.booked d = s.booked d +
    (n.newlyAcked (fun _ => mark) d, n.takenBack (fun _ => mark) d)

theorem renege_marks : Marks False n s (s.renege n) := by
  rw [renege]
  cases hg : n.eGapAcked with
  | false =>
    exact ⟨⟨rfl, rfl, rfl⟩, by simp [hg], rfl, fun d => by simp [newlyAcked, takenBack, hg]⟩
  | true =>
    refine ⟨⟨rfl, rfl, rfl⟩, rfl, rfl, fun d => ?_⟩
    by_cases hd : n.spDest = d
    · subst hd
      simp [newlyAcked, takenBack, hg, SctpSender.booked, modDest]
    · simp [newlyAcked, takenBack, hd, Ne.symm hd, SctpSender.booked, modDest]

theorem gapAck_marks : Marks True n s (s.gapAck new n) := by
  rw [gapAck]
  cases hg : n.eGapAcked with
  | true =>
    exact ⟨⟨rfl, rfl, rfl⟩, by simp [hg], rfl, fun d => by simp [newlyAcked, takenBack, hg]⟩
  | false =>
    refine ⟨⟨rfl, rfl, rfl⟩, rfl, rfl, fun d => ?_⟩
    by_cases hd : n.spDest = d
    · subst hd
      cases ha : n.eAdvancedAcked <;>
        simp [newlyAcked, takenBack, hg, ha, SctpSender.booked, modDest, SctpDest.gapAcked]
    · simp [newlyAcked, takenBack, hd, Ne.symm hd, SctpSender.booked, modDest]

theorem Marks.congr {p q : Prop} [Decidable p] [Decidable q] (hpq : p ↔ q) {t : SctpSender}
    (hst : t.booked = s.booked) {r : SctpSendBufferNode × SctpSender} (h : Marks p n t r) :
    Marks q n s r where
  toSame := h.toSame
  gapAcked := h.gapAcked.trans (decide_eq_decide.mpr hpq)
  advanced := h.advanced
  booked d := by simpa [hst, newlyAcked, takenBack, hpq] using h.booked d

/-- The blocks fit and none of them ends before the chunk at `first - 1`. -/
structure Ahead (c first : ℕ) (bs : List SctpGapAckBlock) : Prop extends Separate bs where
  fits : ∀ b ∈ bs, c + b.usEndOffset < 2 ^ 32
  reach : ∀ b ∈ bs, first ≤ c + b.usEndOffset + 1

theorem visit_spec {bs : List SctpGapAckBlock} (h : Ahead c n.uiTsn bs) :
    let r := s.visit c new n bs
    Ahead c (n.uiTsn + 1) r.1 ∧ Marks (InBlocks c bs n.uiTsn) n s r.2 ∧
      ∀ t, n.uiTsn < t → (InBlocks c r.1 t ↔ InBlocks c bs t) := by
  cases bs with
  | nil =>
    refine ⟨⟨h.toSeparate, h.fits, by simp [visit]⟩, ?_, fun t _ => Iff.rfl⟩
    exact renege_marks.congr (by simp [InBlocks]) rfl
  | cons b bs =>
    have hfit := h.fits b (by simp)
    have hord := h.ordered b (by simp)
    have hreach := h.reach b (by simp)
    have hend : b.uiEndTsn c = c + b.usEndOffset := Nat.mod_eq_of_lt hfit
    have hstart : b.uiStartTsn c = c + b.usStartOffset := Nat.mod_eq_of_lt (by omega)
    have hlater : ∀ a ∈ bs, b.usEndOffset + 1 < a.usStartOffset :=
      (List.pairwise_cons.mp h.apart).1
    have hsame : ((s.noteFirstOutstanding n).noteSacked (b.uiEndTsn c)).booked = s.booked := by
      simp
    have hbehind : ∀ a ∈ bs, b.usEndOffset + 1 < a.usEndOffset := fun a ha =>
      (hlater a ha).trans_le (h.ordered a (List.mem_cons_of_mem b ha))
    simp only [visit, hend, hstart] at hsame ⊢
    by_cases h1 : n.uiTsn < c + b.usStartOffset
    · rw [if_pos h1]
      refine ⟨⟨h.toSeparate, h.fits, ?_⟩, renege_marks.congr ?_ hsame, fun t _ => Iff.rfl⟩
      · intro a ha
        rcases List.mem_cons.mp ha with rfl | ha
        · omega
        · have := hbehind a ha
          omega
      · refine ⟨False.elim, fun ⟨a, ha, h2, h3⟩ => ?_⟩
        rcases List.mem_cons.mp ha with rfl | ha
        · omega
        · have := hlater a ha
          omega
    · rw [if_neg h1]
      by_cases h2 : n.uiTsn ≤ c + b.usEndOffset
      · rw [if_pos h2]
        refine ⟨⟨h.toSeparate, h.fits, ?_⟩, gapAck_marks.congr ?_ ?_, fun t _ => Iff.rfl⟩
        · intro a ha
          rcases List.mem_cons.mp ha with rfl | ha
          · omega
          · have := hbehind a ha
            omega
        · exact ⟨fun _ => ⟨b, by simp, by omega, h2⟩, fun _ => trivial⟩
        · rw [booked_noteSacked, hsame]
      · -- the chunk right behind the block
        rw [if_neg h2]
        refine ⟨⟨h.toSeparate.tail, fun a ha => h.fits a (List.mem_cons_of_mem b ha), ?_⟩,
          renege_marks.congr ?_ hsame, fun t ht => ?_⟩
        · intro a ha
          have := hbehind a ha
          omega
        · refine ⟨False.elim, fun ⟨a, ha, h3, h4⟩ => ?_⟩
          rcases List.mem_cons.mp ha with rfl | ha
          · omega
          · have := hlater a ha
            omega
        · refine ⟨fun ⟨a, ha, h3⟩ => ⟨a, List.mem_cons_of_mem b ha, h3⟩, fun ⟨a, ha, h3⟩ => ?_⟩
          rcases List.mem_cons.mp ha with rfl | ha
          · omega
          · exact ⟨a, ha, h3⟩

/-- What the pass over the blocks makes of one chunk. -/
structure Marked (mark : ℕ → Prop) [DecidablePred mark] (n n' : SctpSendBufferNode) : Prop
    extends Same n n' where
  gapAcked : n'.eGapAcked = decide (mark n.uiTsn)
  advanced : n'.eAdvancedAcked = n.eAdvancedAcked

theorem gapLoop_spec {mark : ℕ → Prop} [DecidablePred mark] {ns : List SctpSendBufferNode}
    {bs : List SctpGapAckBlock} {first : ℕ} (h : Ahead c first bs)
    (hns : ns.map uiTsn = List.range' first ns.length)
    (hmark : ∀ t, first ≤ t → (mark t ↔ InBlocks c bs t)) :
    let r := gapLoop c new bs ns s
    List.Forall₂ (Marked mark) ns r.1 ∧ ∀ d, r.2.booked d = s.booked d +
      ((ns.map fun n => n.newlyAcked mark d).sum, (ns.map fun n => n.takenBack mark d).sum) := by
  induction ns generalizing bs s first with
  | nil =>
    refine ⟨.nil, fun d => ?_⟩
    have hfold : ∀ (l : List SctpGapAckBlock) (t : SctpSender),
        (l.foldl (fun s b => s.noteSacked (b.uiEndTsn c)) t).booked = t.booked := by
      intro l
      induction l with
      | nil => exact fun t => rfl
      | cons b l ih => exact fun t => (ih _).trans (booked_noteSacked _)
    simp [gapLoop, hfold]
  | cons n ns ih =>
    rw [List.map_cons, List.length_cons, List.range'_succ, List.cons.injEq] at hns
    obtain ⟨rfl, hns⟩ := hns
    obtain ⟨hahead, hmarks, hsame⟩ := @visit_spec s n c new bs h
    obtain ⟨hall, hbooked⟩ := ih hahead hns fun t ht =>
      (hmark t (by omega)).trans (hsame t (by omega)).symm
    have hmarks := hmarks.congr (hmark n.uiTsn le_rfl).symm rfl
    refine ⟨.cons ⟨hmarks.toSame, hmarks.gapAcked, hmarks.advanced⟩ hall, fun d => ?_⟩
    rw [gapLoop, hbooked d, hmarks.booked d]
    simp only [List.map_cons, List.sum_cons]
    ext <;> simp [newlyAcked, takenBack, add_assoc]

/-! ### The chunks that are given up -/

theorem MarkChunkForRtx_spec {m : MarkedForRtx_E} (ha : n.eAdvancedAcked = false) :
    let r := s.MarkChunkForRtx m n
    Same n r.1 ∧ r.1.eGapAcked = n.eGapAcked ∧
      ∀ d, r.2.booked d = s.booked d - (0, n.givenUp r.1 d) := by
  simp only [MarkChunkForRtx]
  split
  · refine ⟨⟨rfl, rfl, rfl⟩, rfl, fun d => ?_⟩
    by_cases hd : n.spDest = d
    · subst hd
      simp [givenUp, ha, SctpSender.booked, modDest]
    · simp [givenUp, hd, Ne.symm hd, SctpSender.booked, modDest]
  · exact ⟨⟨rfl, rfl, rfl⟩, rfl, fun d => by simp [givenUp, ha, SctpSender.booked]⟩

theorem reportMissing_spec :
    let r := s.reportMissing new n
    Same n r.1 ∧ r.1.eGapAcked = n.eGapAcked ∧
      ∀ d, r.2.booked d = s.booked d - (0, n.givenUp r.1 d) := by
  have hnone : ∀ d, n.givenUp n d = 0 := fun d => by simp [givenUp]
  simp only [reportMissing]
  split
  · split
    case isTrue hmark =>
      obtain ⟨hsame, hgap, hbooked⟩ := @MarkChunkForRtx_spec s
        { n with iNumMissingReports := n.iNumMissingReports + 1 } .FAST_RTX hmark.2.2
      exact ⟨⟨hsame.tsn, hsame.length, hsame.dest⟩, hgap, hbooked⟩
    case isFalse =>
      exact ⟨⟨rfl, rfl, rfl⟩, rfl, fun d => by simp [givenUp, Prod.mk_zero_zero]⟩
  · exact ⟨⟨rfl, rfl, rfl⟩, rfl, fun d => by simp [hnone, Prod.mk_zero_zero]⟩

theorem missingLoop_spec {ns : List SctpSendBufferNode} :
    let r := missingLoop new ns s
    List.Forall₂ (fun n n' => Same n n' ∧ n'.eGapAcked = n.eGapAcked) ns r.1 ∧
      ∀ d, r.2.booked d = s.booked d -
        (0, ((ns.zip r.1).map fun p => p.1.givenUp p.2 d).sum) := by
  induction ns generalizing s with
  | nil => exact ⟨.nil, fun d => by simp [missingLoop, Prod.mk_zero_zero]⟩
  | cons n ns ih =>
    obtain ⟨hsame, hgap, hbooked⟩ := @reportMissing_spec s n new
    obtain ⟨hall, hrest⟩ := @ih (s.reportMissing new n).2
    refine ⟨.cons ⟨hsame, hgap⟩ hall, fun d => ?_⟩
    rw [missingLoop, hrest d, hbooked d]
    ext <;> simp [sub_sub]

theorem givenUp_marked {mark : ℕ → Prop} [DecidablePred mark]
    {ns ns' : List SctpSendBufferNode} (h : List.Forall₂ (Marked mark) ns ns')
    (ms : List SctpSendBufferNode) (d : ℕ) :
    (ns'.zip ms).map (fun p => p.1.givenUp p.2 d) =
      (ns.zip ms).map fun p => p.1.givenUp p.2 d := by
  induction h generalizing ms with
  | nil => rfl
  | @cons n n' ns ns' hn _ ih =>
    cases ms with
    | nil => rfl
    | cons m ms =>
      rw [List.zip_cons_cons, List.zip_cons_cons, List.map_cons, List.map_cons, ih ms]
      simp only [givenUp, hn.dest, hn.length, hn.advanced]

theorem flags_marked {mark : ℕ → Prop} [DecidablePred mark]
    {ns ns' ms : List SctpSendBufferNode} (h : List.Forall₂ (Marked mark) ns ns')
    (h' : List.Forall₂ (fun n n' => Same n n' ∧ n'.eGapAcked = n.eGapAcked) ns' ms) :
    (ms.map fun n => (n.uiTsn, n.eGapAcked)) =
      ns.map fun n => (n.uiTsn, decide (mark n.uiTsn)) := by
  induction h generalizing ms with
  | nil =>
    cases h'
    rfl
  | @cons n n' ns ns' hn _ ih =>
    cases h' with
    | cons hm hms => simp [ih hms, hm.1.tsn, hm.2, hn.tsn, hn.gapAcked]

/-- The chunks in the blocks are marked, the others are not, and the bytes of the chunks whose mark
changes are booked: newly acked ones unless the chunk was given up before, and outstanding ones but
for what is given up on the way. -/
theorem ProcessGapAckBlocks_spec {blocks : List SctpGapAckBlock} {first : ℕ}
    {sSendBuffer : List SctpSendBufferNode} (hblocks : Separate blocks)
    (hfits : ∀ b ∈ blocks, c + b.usEndOffset < 2 ^ 32)
    (hreach : ∀ b ∈ blocks, first ≤ c + b.usEndOffset + 1)
    (hbuffer : sSendBuffer.map uiTsn = List.range' first sSendBuffer.length) :
    let r := s.ProcessGapAckBlocks c blocks new sSendBuffer
    (r.1.map fun n => (n.uiTsn, n.eGapAcked)) =
        sSendBuffer.map (fun n => (n.uiTsn, decide (InBlocks c blocks n.uiTsn))) ∧
      ∀ d, (r.2.sDestList d).iNumNewlyAckedBytes = (s.sDestList d).iNumNewlyAckedBytes +
          (sSendBuffer.map fun n => n.newlyAcked (InBlocks c blocks) d).sum ∧
        (r.2.sDestList d).iOutstandingBytes = (s.sDestList d).iOutstandingBytes +
          (sSendBuffer.map fun n => n.takenBack (InBlocks c blocks) d).sum -
          ((sSendBuffer.zip r.1).map fun p => p.1.givenUp p.2 d).sum := by
  simp only [ProcessGapAckBlocks]
  by_cases hnil : sSendBuffer = []
  · subst hnil
    simp
  · rw [if_neg hnil]
    set t : SctpSender := clearFirstOutstanding { s with
      uiHighestTsnSacked := s.uiHighestTsnNewlyAcked
      eFastRtxNeeded := false } with ht
    have hclear : t.booked = s.booked := rfl
    obtain ⟨hmarked, hbooked⟩ := @gapLoop_spec t c new (InBlocks c blocks) _ sSendBuffer blocks
      first ⟨hblocks, hfits, hreach⟩ hbuffer fun _ _ => Iff.rfl
    obtain ⟨hsame, hgiven⟩ := @missingLoop_spec (gapLoop c new blocks sSendBuffer t).2 new
      (gapLoop c new blocks sSendBuffer t).1
    refine ⟨flags_marked hmarked hsame, fun d => ?_⟩
    have hd := hgiven d
    rw [hbooked d, hclear, givenUp_marked hmarked] at hd
    obtain ⟨h1, h2⟩ := Prod.mk.inj hd
    exact ⟨h1.trans (sub_zero _), h2⟩

/-- A chunk of 100 bytes that was sent once. -/
def chunk (uiTsn : ℕ) (eGapAcked eAdvancedAcked : Bool) : SctpSendBufferNode :=
  ⟨uiTsn, 100, 0, eAdvancedAcked, eGapAcked, false, 0, 0, .NO_RTX, false, 1, 0, 0⟩

/-- A sender with one destination; the streams are unreliable, and one missing report is enough. -/
def sender : SctpSender :=
  ⟨fun _ => ⟨1, 1, false, false, 0, 300, 0, true, none, 0, []⟩, fun _ => true, 0, 0, 0, 0, 0, 1, 0,
    false, 0, false⟩

theorem ProcessGapAckBlocks_spec_three :
    let r := sender.ProcessGapAckBlocks 6 [⟨2, 2⟩] false
      [chunk 7 true false, chunk 8 false false, chunk 9 false true]
    (r.1.map fun n => (n.uiTsn, n.eGapAcked)) = [(7, false), (8, true), (9, false)] ∧
      (r.2.sDestList 0).iNumNewlyAckedBytes = 100 ∧ (r.2.sDestList 0).iOutstandingBytes = 300 := by
  have h := @ProcessGapAckBlocks_spec sender 6 false [⟨2, 2⟩] 7
    [chunk 7 true false, chunk 8 false false, chunk 9 false true]
    ⟨by decide, by decide⟩ (by decide) (by decide) (by decide)
  exact ⟨h.1, (h.2 0).1.trans (by decide), (h.2 0).2.trans (by decide)⟩

/-- The marks are right, and every change of a mark is booked. -/
def Exact (s : SctpSender) (c : ℕ) (blocks : List SctpGapAckBlock) (new : Bool)
    (sSendBuffer : List SctpSendBufferNode) : Prop :=
  let r := s.ProcessGapAckBlocks c blocks new sSendBuffer
  (∀ n ∈ r.1, n.eGapAcked = true ↔ InBlocks c blocks n.uiTsn) ∧
    ∀ d, (r.2.sDestList d).iNumNewlyAckedBytes = (s.sDestList d).iNumNewlyAckedBytes +
        ((sSendBuffer.zip r.1).map fun p => if p.1.spDest = d ∧ p.1.eGapAcked = false ∧
          p.2.eGapAcked = true then (p.1.usLength : ℤ) else 0).sum ∧
      (r.2.sDestList d).iOutstandingBytes = (s.sDestList d).iOutstandingBytes +
        ((sSendBuffer.zip r.1).map fun p => if p.1.spDest = d ∧ p.1.eGapAcked = true ∧
          p.2.eGapAcked = false then (p.1.usLength : ℤ) else 0).sum

/-- A chunk given up before is not booked when it is acked, one given up now is not outstanding any
more, the end of a block wraps around, and a block below the send buffer costs a chunk. -/
theorem not_exact : ¬ sender.Exact 6 [⟨2, 2⟩] false [chunk 7 false true, chunk 8 false true] ∧
    ¬ sender.Exact 6 [⟨2, 2⟩] false [chunk 7 false false, chunk 8 false false] ∧
    ¬ sender.Exact (2 ^ 32 - 2) [⟨1, 3⟩] false [chunk (2 ^ 32 - 1) false false] ∧
    ¬ sender.Exact 6 [⟨2, 2⟩, ⟨4, 4⟩] false [chunk 10 false false] :=
  ⟨fun h => absurd (h.2 0).1 (by decide), fun h => absurd (h.2 0).2 (by decide),
    fun h => absurd h.1 (by decide), fun h => absurd h.1 (by decide)⟩

end SctpSender

end Ns2
