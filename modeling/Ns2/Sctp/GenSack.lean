import Ns2.Sctp.GapAckBlocks
import Ns2.Sctp.RecvTsnRuns

/-! The SACK chunk that `GenChunk` of sctp/sctp.cc builds, and what a sender that processes it
marks. The receiver's window is left out. -/

namespace Ns2

/-- The counts stand in the header; `blocks` and `dups` are what is written behind it. -/
structure SctpSackChunk where
  usLength : ℕ
  uiCumAck : ℕ
  usNumGapAckBlocks : ℕ
  usNumDupTsns : ℕ
  blocks : List SctpGapAckBlock
  dups : List ℕ

namespace SctpSackChunk

/-- The blocks that the sender reads. Behind the blocks it meets the duplicates, with the low half
first, and then what follows the chunk in memory. -/
def gapAckBlocks (k : SctpSackChunk) (behind : ℕ → SctpGapAckBlock) : List SctpGapAckBlock :=
  (List.range k.usNumGapAckBlocks).map fun i =>
    ((k.blocks ++ k.dups.map fun t => ⟨t % 2 ^ 16, t / 2 ^ 16⟩)[i]?).getD (behind i)

theorem gapAckBlocks_eq {k : SctpSackChunk} (h : k.usNumGapAckBlocks = k.blocks.length)
    (behind : ℕ → SctpGapAckBlock) : k.gapAckBlocks behind = k.blocks := by
  refine List.ext_getElem (by simp [gapAckBlocks, h]) fun i h1 h2 => ?_
  simp [gapAckBlocks, List.getElem?_append_left h2, List.getElem?_eq_getElem h2]

end SctpSackChunk

namespace RecvTsns

/-- `sizeof(SctpSackChunk_S)` -/
def sizeofSackChunk : ℕ := 16

/-- An offset is what 16 bits keep of the distance to the cumulative ack. -/
def offset (uiCumAck uiTsn : ℕ) : ℕ := (uiTsn + 2 ^ 32 - uiCumAck) % 2 ^ 16

def gapAckBlock (uiCumAck : ℕ) (b : ℕ × ℕ) : SctpGapAckBlock :=
  ⟨offset uiCumAck b.1, offset uiCumAck b.2⟩

/-- What is written of a list whose entries take 4 bytes each. -/
def written {α : Type*} (uiMaxDataSize : ℕ) : ℕ → List α → List α
  | _, [] => []
  | iSize, a :: as =>
    if iSize + 4 < uiMaxDataSize then a :: written uiMaxDataSize (iSize + 4) as else []

/-- The chunk, and the receiver without the duplicates that are written. -/
def GenSack (uiMaxDataSize : ℕ) (r : RecvTsns) : SctpSackChunk × RecvTsns :=
  let blocks := written uiMaxDataSize sizeofSackChunk r.sRecvTsnBlockList
  let iSize := sizeofSackChunk + 4 * blocks.length
  let dups := written uiMaxDataSize iSize r.sDupTsnList
  ({ usLength := (iSize + 4 * dups.length) % 2 ^ 16
     uiCumAck := r.uiCumAck
     usNumGapAckBlocks := r.sRecvTsnBlockList.length % 2 ^ 16
     usNumDupTsns := r.sDupTsnList.length % 2 ^ 16
     blocks := blocks.map (gapAckBlock r.uiCumAck)
     dups },
    { r with sDupTsnList := r.sDupTsnList.drop dups.length })

/-- How many blocks there is room for. -/
def room (uiMaxDataSize : ℕ) : ℕ := (uiMaxDataSize - (sizeofSackChunk + 1)) / 4

/-- The TSN lies in a block that is written. -/
def Reported (uiMaxDataSize : ℕ) (r : RecvTsns) (t : ℕ) : Prop :=
  ∃ b ∈ r.sRecvTsnBlockList.take (r.GenSack uiMaxDataSize).1.blocks.length, b.1 ≤ t ∧ t ≤ b.2

/-- The header counts the blocks that are written, and every sender whose send buffer starts at the
cumulative ack marks what was received and is reported. -/
structure Tells (uiMaxDataSize : ℕ) (r : RecvTsns) (S : Set ℕ) : Prop where
  count : (r.GenSack uiMaxDataSize).1.usNumGapAckBlocks =
    (r.GenSack uiMaxDataSize).1.blocks.length
  marks : ∀ (s : SctpSender) (eNewCumAck : Bool) (sSendBuffer : List SctpSendBufferNode)
    (behind : ℕ → SctpGapAckBlock),
    sSendBuffer.map SctpSendBufferNode.uiTsn =
      List.range' (r.uiCumAck + 1) sSendBuffer.length →
    ∀ n ∈ (s.ProcessGapAckBlocks (r.GenSack uiMaxDataSize).1.uiCumAck
        ((r.GenSack uiMaxDataSize).1.gapAckBlocks behind) eNewCumAck sSendBuffer).1,
      n.eGapAcked = true ↔ n.uiTsn ∈ S ∧ r.Reported uiMaxDataSize n.uiTsn

variable {r : RecvTsns} {S : Set ℕ} {uiMaxDataSize : ℕ}

theorem written_eq {α : Type*} (iSize : ℕ) (l : List α) :
    written uiMaxDataSize iSize l = l.take ((uiMaxDataSize - (iSize + 1)) / 4) := by
  induction l generalizing iSize with
  | nil => simp [written]
  | cons a l ih =>
    rw [written]
    by_cases h : iSize + 4 < uiMaxDataSize
    · have hsucc : (uiMaxDataSize - (iSize + 1)) / 4 =
          (uiMaxDataSize - (iSize + 4 + 1)) / 4 + 1 := by omega
      rw [if_pos h, ih, hsucc, List.take_succ_cons]
    · have hzero : (uiMaxDataSize - (iSize + 1)) / 4 = 0 := by omega
      rw [if_neg h, hzero, List.take_zero]

theorem blocks_eq : (r.GenSack uiMaxDataSize).1.blocks =
    (r.sRecvTsnBlockList.take (room uiMaxDataSize)).map (gapAckBlock r.uiCumAck) := by
  rw [room, ← written_eq]
  rfl

theorem blocks_length : (r.GenSack uiMaxDataSize).1.blocks.length =
    min (room uiMaxDataSize) r.sRecvTsnBlockList.length := by
  rw [blocks_eq, List.length_map, List.length_take]

theorem reported_iff {t : ℕ} : r.Reported uiMaxDataSize t ↔
    ∃ b ∈ r.sRecvTsnBlockList.take (room uiMaxDataSize), b.1 ≤ t ∧ t ≤ b.2 := by
  rw [Reported, blocks_length, ← List.take_eq_take_min]

theorem offset_eq {cum t : ℕ} (h : cum ≤ t) (hlt : t < cum + 2 ^ 16) :
    offset cum t = t - cum := by
  rw [offset]
  omega

theorem Holds.reported (h : Holds r S) {t : ℕ} (ht : r.Reported uiMaxDataSize t) : t ∈ S := by
  obtain ⟨b, hb, h1, h2⟩ := reported_iff.mp ht
  have hmem := List.mem_of_mem_take hb
  have := h.blocks_above hmem
  exact (h.right.blocks t (by omega)).mpr ⟨b, hmem, h1, h2⟩

end RecvTsns

namespace SctpSender

variable {s : SctpSender} {n : SctpSendBufferNode} {c : ℕ} {new : Bool}

/-- Whatever the blocks are, a chunk is marked only below the end of one of them. -/
structure Reached (c : ℕ) (bs : List SctpGapAckBlock) (n n' : SctpSendBufferNode) : Prop where
  tsn : n'.uiTsn = n.uiTsn
  below : n'.eGapAcked = true → ∃ b ∈ bs, n.uiTsn ≤ b.uiEndTsn c

theorem Reached.mono {bs bs' : List SctpGapAckBlock} {n' : SctpSendBufferNode}
    (h : Reached c bs n n') (hbs : ∀ b ∈ bs, b ∈ bs') : Reached c bs' n n' where
  tsn := h.tsn
  below hg := by
    obtain ⟨b, hb, hle⟩ := h.below hg
    exact ⟨b, hbs b hb, hle⟩

theorem renege_reached (bs : List SctpGapAckBlock) : Reached c bs n (s.renege n).1 where
  tsn := renege_marks.tsn
  below hg := by simp [renege_marks.gapAcked] at hg

theorem visit_reached (bs : List SctpGapAckBlock) :
    Reached c bs n (s.visit c new n bs).2.1 ∧ ∀ b ∈ (s.visit c new n bs).1, b ∈ bs := by
  cases bs with
  | nil => exact ⟨renege_reached [], by simp [visit]⟩
  | cons b bs =>
    rw [visit]
    by_cases hlow : n.uiTsn < b.uiStartTsn c
    · rw [if_pos hlow]
      exact ⟨renege_reached _, fun _ hb => hb⟩
    · rw [if_neg hlow]
      by_cases hin : n.uiTsn ≤ b.uiEndTsn c
      · rw [if_pos hin]
        exact ⟨⟨gapAck_marks.tsn, fun _ => ⟨b, by simp, hin⟩⟩, fun _ hb => hb⟩
      · rw [if_neg hin]
        exact ⟨renege_reached _, fun a ha => List.mem_cons_of_mem b ha⟩

theorem gapLoop_reached (bs : List SctpGapAckBlock) (ns : List SctpSendBufferNode) :
    List.Forall₂ (Reached c bs) ns (gapLoop c new bs ns s).1 := by
  induction ns generalizing bs s with
  | nil => exact .nil
  | cons n ns ih =>
    obtain ⟨h1, h2⟩ := @visit_reached s n c new bs
    exact .cons h1 ((ih _).imp fun _ _ h => h.mono h2)

theorem reached_of_same {bs : List SctpGapAckBlock} {ns ns' ms : List SctpSendBufferNode}
    (h : List.Forall₂ (Reached c bs) ns ns')
    (h' : List.Forall₂ (fun n n' => SctpSendBufferNode.Same n n' ∧ n'.eGapAcked = n.eGapAcked)
      ns' ms) : List.Forall₂ (Reached c bs) ns ms := by
  induction h generalizing ms with
  | nil =>
    cases h'
    exact .nil
  | cons hn _ ih =>
    cases h' with
    | cons hm hms =>
      exact .cons ⟨hm.1.tsn.trans hn.tsn, fun hg => hn.below (hm.2 ▸ hg)⟩ (ih hms)

theorem exists_of_forall₂ {R : SctpSendBufferNode → SctpSendBufferNode → Prop}
    {ns ms : List SctpSendBufferNode} (h : List.Forall₂ R ns ms) (hn : n ∈ ns) :
    ∃ m ∈ ms, R n m := by
  induction h with
  | nil => simp at hn
  | cons hR _ ih =>
    rcases List.mem_cons.mp hn with rfl | hn
    · exact ⟨_, List.mem_cons_self, hR⟩
    · obtain ⟨m, hm, hr⟩ := ih hn
      exact ⟨m, List.mem_cons_of_mem _ hm, hr⟩

theorem ProcessGapAckBlocks_reached (bs : List SctpGapAckBlock)
    (sSendBuffer : List SctpSendBufferNode) :
    List.Forall₂ (Reached c bs) sSendBuffer (s.ProcessGapAckBlocks c bs new sSendBuffer).1 := by
  rw [ProcessGapAckBlocks]
  by_cases hnil : sSendBuffer = []
  · subst hnil
    exact .nil
  · rw [if_neg hnil]
    set t : SctpSender := clearFirstOutstanding { s with
      uiHighestTsnSacked := s.uiHighestTsnNewlyAcked
      eFastRtxNeeded := false } with ht
    have hloop := @gapLoop_reached t c new bs sSendBuffer
    have hmiss := (@missingLoop_spec (gapLoop c new bs sSendBuffer t).2 new
      (gapLoop c new bs sSendBuffer t).1).1
    exact reached_of_same hloop hmiss

end SctpSender

namespace RecvTsns

open SctpSender

variable {r : RecvTsns} {S : Set ℕ} {uiMaxDataSize : ℕ}

/-- The blocks that are written, counted and within reach, are read as they are. -/
theorem Holds.ahead (h : Holds r S) (hS : ∀ t ∈ S, t < 2 ^ 32)
    (hnear : ∀ b ∈ r.sRecvTsnBlockList.take (room uiMaxDataSize), b.2 < r.uiCumAck + 2 ^ 16) :
    Ahead r.uiCumAck (r.uiCumAck + 1) (r.GenSack uiMaxDataSize).1.blocks ∧
      ∀ t, InBlocks r.uiCumAck (r.GenSack uiMaxDataSize).1.blocks t ↔
        r.Reported uiMaxDataSize t := by
  have hblock : ∀ b ∈ r.sRecvTsnBlockList.take (room uiMaxDataSize),
      r.uiCumAck + 1 < b.1 ∧ b.1 ≤ b.2 ∧ b.2 < 2 ^ 32 ∧
        (gapAckBlock r.uiCumAck b).usStartOffset = b.1 - r.uiCumAck ∧
        (gapAckBlock r.uiCumAck b).usEndOffset = b.2 - r.uiCumAck := by
    intro b hb
    have hmem := List.mem_of_mem_take hb
    have hpos := h.blocks_above hmem
    have hend : b.2 ∈ S := (h.right.blocks b.2 (by omega)).mpr ⟨b, hmem, hpos.2, le_rfl⟩
    have := hnear b hb
    exact ⟨hpos.1, hpos.2, hS b.2 hend, offset_eq (by omega) (by omega),
      offset_eq (by omega) (by omega)⟩
  rw [blocks_eq]
  refine ⟨⟨⟨?_, ?_⟩, ?_, ?_⟩, fun t => ?_⟩
  · intro b hb
    obtain ⟨a, ha, rfl⟩ := List.mem_map.mp hb
    have := hblock a ha
    omega
  · rw [List.pairwise_map]
    refine (h.right.apart.sublist (List.take_sublist _ _)).imp_of_mem fun {a b} ha hb hab => ?_
    have h1 := hblock a ha
    have h2 := hblock b hb
    omega
  · intro b hb
    obtain ⟨a, ha, rfl⟩ := List.mem_map.mp hb
    have := hblock a ha
    omega
  · intro b hb
    obtain ⟨a, ha, rfl⟩ := List.mem_map.mp hb
    have := hblock a ha
    omega
  · rw [reported_iff, InBlocks]
    constructor
    · rintro ⟨b, hb, h1, h2⟩
      obtain ⟨a, ha, rfl⟩ := List.mem_map.mp hb
      have := hblock a ha
      exact ⟨a, ha, by omega, by omega⟩
    · rintro ⟨a, ha, h1, h2⟩
      have := hblock a ha
      exact ⟨_, List.mem_map.mpr ⟨a, ha, rfl⟩, by omega, by omega⟩

theorem Holds.tells (h : Holds r S) (hS : ∀ t ∈ S, t < 2 ^ 32)
    (hcount : min r.sRecvTsnBlockList.length (room uiMaxDataSize) =
      r.sRecvTsnBlockList.length % 2 ^ 16)
    (hnear : ∀ b ∈ r.sRecvTsnBlockList.take (room uiMaxDataSize), b.2 < r.uiCumAck + 2 ^ 16) :
    Tells uiMaxDataSize r S := by
  have hlen : (r.GenSack uiMaxDataSize).1.usNumGapAckBlocks =
      (r.GenSack uiMaxDataSize).1.blocks.length := by
    rw [blocks_length, min_comm, hcount]
    rfl
  refine ⟨hlen, fun s new buffer behind hbuffer n hn => ?_⟩
  obtain ⟨hahead, hin⟩ := h.ahead hS hnear
  rw [SctpSackChunk.gapAckBlocks_eq hlen] at hn
  have hspec := (@ProcessGapAckBlocks_spec s r.uiCumAck new _ _ buffer hahead.toSeparate
    hahead.fits hahead.reach hbuffer).1
  have hmem : (n.uiTsn, n.eGapAcked) ∈ buffer.map fun n => (n.uiTsn,
      decide (InBlocks r.uiCumAck (r.GenSack uiMaxDataSize).1.blocks n.uiTsn)) :=
    hspec ▸ List.mem_map.mpr ⟨n, hn, rfl⟩
  obtain ⟨m, -, hm⟩ := List.mem_map.mp hmem
  obtain ⟨htsn, hacked⟩ := Prod.mk.inj hm
  rw [← hacked, decide_eq_true_iff, hin, htsn]
  exact ⟨fun hr => ⟨h.reported hr, hr⟩, fun hr => hr.2⟩

/-- A sender that has just sent the TSNs from `first` on. -/
def sent (first n : ℕ) : List SctpSendBufferNode :=
  (List.range' first n).map fun t => chunk t false false

theorem Tells.near (h : Tells uiMaxDataSize r S) (hr : Holds r S) {b : ℕ × ℕ}
    (hb : b ∈ r.sRecvTsnBlockList.take (room uiMaxDataSize)) : b.2 < r.uiCumAck + 2 ^ 16 := by
  by_contra hfar
  have hpos := hr.blocks_above (List.mem_of_mem_take hb)
  have hsent : (sent (r.uiCumAck + 1) (b.2 - r.uiCumAck)).map SctpSendBufferNode.uiTsn =
      List.range' (r.uiCumAck + 1) (b.2 - r.uiCumAck) := by
    simp [sent, chunk, Function.comp_def]
  have hmarks := h.marks sender false (sent (r.uiCumAck + 1) (b.2 - r.uiCumAck)) (fun _ => ⟨0, 0⟩)
    (by rw [hsent]; simp [sent])
  rw [SctpSackChunk.gapAckBlocks_eq h.count] at hmarks
  have hreach := @ProcessGapAckBlocks_reached sender r.uiCumAck false
    (r.GenSack uiMaxDataSize).1.blocks (sent (r.uiCumAck + 1) (b.2 - r.uiCumAck))
  have hlast : chunk b.2 false false ∈ sent (r.uiCumAck + 1) (b.2 - r.uiCumAck) :=
    List.mem_map.mpr ⟨b.2, List.mem_range'_1.mpr (by omega), rfl⟩
  obtain ⟨n, hn, hrel⟩ := exists_of_forall₂ hreach hlast
  have hrep : r.Reported uiMaxDataSize b.2 := reported_iff.mpr ⟨b, hb, hpos.2, le_rfl⟩
  have hacked : n.eGapAcked = true := (hmarks n hn).mpr (by
    rw [hrel.tsn]
    exact ⟨hr.reported hrep, hrep⟩)
  obtain ⟨a, ha, hle⟩ := hrel.below hacked
  rw [blocks_eq] at ha
  obtain ⟨d, -, rfl⟩ := List.mem_map.mp ha
  simp only [SctpGapAckBlock.uiEndTsn, gapAckBlock, offset, chunk] at hle
  omega

/-- The SACK tells a sender what was received in exactly the cases in which as many blocks are
written as the header counts, and none of them ends out of reach of an offset. -/
theorem tells_iff (h : Holds r S) (hS : ∀ t ∈ S, t < 2 ^ 32) : Tells uiMaxDataSize r S ↔
    min r.sRecvTsnBlockList.length (room uiMaxDataSize) = r.sRecvTsnBlockList.length % 2 ^ 16 ∧
      ∀ b ∈ r.sRecvTsnBlockList.take (room uiMaxDataSize), b.2 < r.uiCumAck + 2 ^ 16 := by
  refine ⟨fun ht => ⟨?_, fun b hb => ht.near h hb⟩, fun hc => h.tells hS hc.1 hc.2⟩
  have := ht.count
  rw [blocks_length, min_comm] at this
  exact this.symm

theorem tells_iff_one : Tells 1468 (new.receive 2).1 (insert 2 ∅) :=
  (tells_iff (kept_new.holds.receive (t := 2) (by decide)) (by simp)).mpr ⟨by decide, by decide⟩

/-- Every second TSN up to 726 was received. -/
def manyBlocks : RecvTsns := ⟨0, 726, (List.range 363).map fun k => (2 * k + 2, 2 * k + 2), []⟩

theorem holds_known (hn : Intervals.Normal lo hi ((0, r.uiCumAck) :: r.sRecvTsnBlockList))
    (hh : ∀ b ∈ r.sRecvTsnBlockList, b.2 ≤ r.uiHighestRecvTsn) :
    Holds r {t : ℕ | (t : ℤ) ∈ r.known} where
  normal := hn
  known_iff _ _ := Iff.rfl
  highest t ht hlt := by
    rcases mem_known.mp ht with hk | ⟨b, hb, -, h2⟩
    · omega
    · have := hh b hb
      simp only [hi] at h2
      omega

theorem holds_manyBlocks : Holds manyBlocks {t : ℕ | (t : ℤ) ∈ manyBlocks.known} := by
  refine holds_known ⟨?_, ?_⟩ ?_
  · simp [manyBlocks, lo, hi]
  · rw [manyBlocks, List.pairwise_cons, List.pairwise_map]
    refine ⟨by simp [lo, hi], List.pairwise_lt_range.imp fun {a b} hab => ?_⟩
    simp only [lo, hi]
    omega
  · simp only [manyBlocks, List.mem_map, List.mem_range, forall_exists_index, and_imp]
    rintro b k hk rfl
    omega

/-- The header of a chunk of 1468 bytes counts 363 blocks of which 362 are written, and TSN 65538
is told as TSN 2. -/
theorem not_told :
    (∃ S, Holds manyBlocks S ∧ ¬ Tells 1468 manyBlocks S) ∧
      ∃ S, Holds (new.receive 65538).1 S ∧ ¬ Tells 1468 (new.receive 65538).1 S := by
  refine ⟨⟨_, holds_manyBlocks, fun h => ?_⟩,
    ⟨_, kept_new.holds.receive (t := 65538) (by decide), fun h => ?_⟩⟩
  · have := h.count
    rw [blocks_length] at this
    simp [GenSack, manyBlocks, room, sizeofSackChunk] at this
  · have hnear := h.near (kept_new.holds.receive (t := 65538) (by decide))
      (b := (65538, 65538)) (by decide)
    exact absurd hnear (by decide)

end RecvTsns

end Ns2
