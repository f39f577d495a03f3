import Ns2.Dccp.AckVectorCells
import Ns2.Lib.Machine

/-! An ack vector over a run of additions and removals: every packet in its range has the states
that were added for it, and the three walks list them. -/

namespace Ns2

open ByteRecords RingWindow RunLength

namespace AckVector

variable {v : AckVector} {l : List Byte}

/-- The sequence numbers in the range of the vector. -/
def nums (v : AckVector) : List ℕ :=
  if v.size_ = 0 then [] else List.range' v.seq_tail_ (v.seq_head_ + 1 - v.seq_tail_)

/-- States with their sequence numbers, downwards. -/
def numberDown : ℕ → List PacketState → List (ℕ × PacketState)
  | _, [] => []
  | s, x :: L => (s, x) :: numberDown (s - 1) L

def numberUp : ℕ → List PacketState → List (ℕ × PacketState)
  | _, [] => []
  | s, x :: L => (s, x) :: numberUp (s + 1) L

/-- The packets of an interval, downwards. -/
def Interval.packets (i : Interval) : List (ℕ × PacketState) :=
  (List.range (i.seq_start + 1 - i.seq_end)).map fun k => (i.seq_start - k, i.state)

theorem numberDown_eq {f : ℕ → PacketState} {tail : ℕ} {L : List PacketState}
    (hL : ∀ i < L.length, L[i]? = some (f (tail + L.length - 1 - i))) :
    numberDown (tail + L.length - 1) L =
      (List.range' tail L.length).reverse.map fun s => (s, f s) := by
  induction L with
  | nil => rfl
  | cons x L ih =>
    have hx := Option.some.inj (hL 0 (Nat.succ_pos _))
    have hrest : ∀ i < L.length, L[i]? = some (f (tail + L.length - 1 - i)) := fun i hi => by
      have := hL (i + 1) (by rw [List.length_cons]; omega)
      rw [List.getElem?_cons_succ, List.length_cons] at this
      rw [this]
      congr 2
      omega
    rw [List.length_cons] at hx ⊢
    rw [numberDown, show tail + (L.length + 1) - 1 - 1 = tail + L.length - 1 by omega, ih hrest,
      List.range'_concat, List.reverse_append, List.map_append, Nat.one_mul]
    simp only [List.reverse_cons, List.reverse_nil, List.nil_append, List.map_cons, List.map_nil,
      List.cons_append]
    rw [show tail + (L.length + 1) - 1 = tail + L.length by omega, hx]
    congr 3

theorem numberUp_eq {f : ℕ → PacketState} {tail : ℕ} {L : List PacketState}
    (hL : ∀ i < L.length, L[i]? = some (f (tail + i))) :
    numberUp tail L = (List.range' tail L.length).map fun s => (s, f s) := by
  induction L generalizing tail with
  | nil => rfl
  | cons x L ih =>
    have hx : x = f tail := Option.some.inj (hL 0 (Nat.succ_pos _))
    have hrest : ∀ i < L.length, L[i]? = some (f (tail + 1 + i)) := fun i hi => by
      have := hL (i + 1) (by rw [List.length_cons]; omega)
      rwa [List.getElem?_cons_succ, show tail + (i + 1) = tail + 1 + i by omega] at this
    rw [numberUp, ih hrest, List.length_cons, List.range'_succ, List.map_cons, hx]

theorem Stores.getSlot (h : v.Stores l) {A B : List Byte} {c : Byte} (hl : l = A ++ c :: B) :
    v.vector_ ((v.head_ + A.length) % v.max_size_) = c := (hl ▸ h).getItem

theorem statesOf_cons (b : Byte) (l : List Byte) : statesOf (b :: l) =
    packetState b :: (List.replicate (runLength b) (packetState b) ++ statesOf l) := by
  rw [statesOf, expand, List.replicate_succ, List.cons_append]

/-- The walk down that has given `d` packets of the run behind `A`. -/
theorem Stores.nextPacket_lists (h : v.Stores l) {n d s q : ℕ} {A B : List Byte} {c : Byte}
    (hl : l = A ++ c :: B) (hd : d ≤ runLength c + 1)
    (hn : runLength c + 1 - d + (statesOf B).length = n) (hq : n ≠ 0 → q = s)
    (hs : n ≠ 0 → s + 1 = v.seq_tail_ + n ∧ s < 2 ^ 32) :
    WalkLists v.nextPacket ⟨(v.head_ + A.length) % v.max_size_, q, d, n ≠ 0, false⟩
      (numberDown s (List.replicate (runLength c + 1 - d) (packetState c) ++ statesOf B)) := by
  induction n generalizing d s q A B c with
  | zero =>
    rw [show runLength c + 1 - d = 0 by omega, List.eq_nil_of_length_eq_zero (l := statesOf B)
      (by omega)]
    exact .done rfl
  | succ n ih =>
    obtain ⟨hs1, hs2⟩ := hs (Nat.succ_ne_zero n)
    obtain rfl := hq (Nat.succ_ne_zero n)
    have hseq : n ≠ 0 → seqSub q 1 = q - 1 := fun hn0 => seqSub_eq (by omega) hs2
    have hseq' : n ≠ 0 → q - 1 + 1 = v.seq_tail_ + n ∧ q - 1 < 2 ^ 32 := fun hn0 => by omega
    have hwalking : decide (q ≠ v.seq_tail_) = decide (n ≠ 0) := by
      rw [decide_eq_decide]
      omega
    by_cases hpast : d > runLength c
    · -- the walk comes to the next run
      obtain ⟨b, B, rfl⟩ := List.exists_cons_of_ne_nil (l := B) (by
        rintro rfl
        rw [show (statesOf []).length = 0 from rfl] at hn
        omega)
      have hl' : l = (A ++ [c]) ++ b :: B := by simp [hl]
      have hlen : (statesOf (b :: B)).length = runLength b + 1 + (statesOf B).length :=
        length_expand_cons b B
      have hslot : ((v.head_ + A.length) % v.max_size_ + 1) % v.max_size_ =
          (v.head_ + (A ++ [c]).length) % v.max_size_ := by
        rw [Nat.mod_add_mod, List.length_append, List.length_singleton, Nat.add_assoc]
      have hrest := ih (d := 1) hl' (by omega) (by omega) hseq hseq'
      rw [Nat.add_sub_cancel] at hrest
      rw [show runLength c + 1 - d = 0 by omega, List.replicate_zero, List.nil_append, statesOf_cons,
        numberDown]
      refine .step ?_ hrest
      rw [nextPacket, if_neg (by simp)]
      dsimp only
      rw [h.getSlot hl, if_pos hpast, if_pos hpast, hslot, h.getSlot hl', hwalking]
    · have hrest := ih (d := d + 1) hl (by omega) (by omega) hseq hseq'
      rw [show runLength c + 1 - d = runLength c + 1 - (d + 1) + 1 by omega, List.replicate_succ,
        List.cons_append, numberDown]
      refine .step ?_ hrest
      rw [nextPacket, if_neg (by simp)]
      dsimp only
      rw [h.getSlot hl, if_neg hpast, if_neg hpast, h.getSlot hl, hwalking]

/-- The walk up that has given `d` packets of the run behind `A`. -/
theorem Stores.prevPacket_lists (h : v.Stores l) {n d s q : ℕ} {A B : List Byte} {c : Byte}
    (hl : l = A ++ c :: B) (hd : d ≤ runLength c + 1)
    (hn : runLength c + 1 - d + (statesOf A).length = n) (hq : n ≠ 0 → q = s)
    (hs : n ≠ 0 → s + n = v.seq_head_ + 1) :
    WalkLists v.prevPacket ⟨(v.head_ + A.length) % v.max_size_, q, d, n ≠ 0, true⟩
      (numberUp s (List.replicate (runLength c + 1 - d) (packetState c) ++
        (statesOf A).reverse)) := by
  induction n generalizing d s q A B c with
  | zero =>
    rw [show runLength c + 1 - d = 0 by omega, List.eq_nil_of_length_eq_zero (l := statesOf A)
      (by omega)]
    exact .done rfl
  | succ n ih =>
    have hs1 := hs (Nat.succ_ne_zero n)
    obtain rfl := hq (Nat.succ_ne_zero n)
    have hbelow := h.below
    have hseq : n ≠ 0 → (q + 1) % 2 ^ 32 = q + 1 := fun hn0 => Nat.mod_eq_of_lt (by omega)
    have hseq' : n ≠ 0 → q + 1 + n = v.seq_head_ + 1 := fun hn0 => by omega
    have hwalking : decide (q ≠ v.seq_head_) = decide (n ≠ 0) := by
      rw [decide_eq_decide]
      omega
    by_cases hpast : d > runLength c
    · -- the walk comes to the run before
      obtain ⟨A, b, rfl⟩ : ∃ A' b, A = A' ++ [b] := by
        cases A using List.reverseRecOn with
        | nil =>
          rw [show (statesOf []).length = 0 from rfl] at hn
          omega
        | append_singleton A b => exact ⟨A, b, rfl⟩
      have hl' : l = A ++ b :: c :: B := by simp [hl]
      have hlen : (statesOf (A ++ [b])).length = (statesOf A).length + (runLength b + 1) := by
        rw [length_statesOf_between, show (statesOf []).length = 0 from rfl]
      have hfits := h.fits
      have hlength : l.length = A.length + (B.length + 2) := by simp [hl']
      have hslot : ((v.head_ + (A ++ [b]).length) % v.max_size_ + v.max_size_ - 1) % v.max_size_ =
          (v.head_ + A.length) % v.max_size_ := by
        rw [List.length_append, List.length_singleton, Nat.add_sub_assoc (by omega), Nat.mod_add_mod,
          show v.head_ + (A.length + 1) + (v.max_size_ - 1) = v.head_ + A.length + v.max_size_ by omega,
          Nat.add_mod_right]
      have hstates : (statesOf (A ++ [b])).reverse = packetState b ::
          (List.replicate (runLength b) (packetState b) ++ (statesOf A).reverse) := by
        rw [statesOf, expand_append, List.reverse_append]
        change (statesOf [b]).reverse ++ _ = _
        rw [statesOf_singleton, List.reverse_replicate, List.replicate_succ, List.cons_append]
      have hrest := ih (d := 1) hl' (by omega) (by omega) hseq hseq'
      rw [Nat.add_sub_cancel] at hrest
      rw [show runLength c + 1 - d = 0 by omega, List.replicate_zero, List.nil_append, hstates,
        numberUp]
      refine .step ?_ hrest
      rw [prevPacket, if_neg (by simp)]
      dsimp only
      rw [h.getSlot hl, if_pos hpast, if_pos hpast, hslot, h.getSlot hl', hwalking]
    · have hrest := ih (d := d + 1) hl (by omega) (by omega) hseq hseq'
      rw [show runLength c + 1 - d = runLength c + 1 - (d + 1) + 1 by omega, List.replicate_succ,
        List.cons_append, numberUp]
      refine .step ?_ hrest
      rw [prevPacket, if_neg (by simp)]
      dsimp only
      rw [h.getSlot hl, if_neg hpast, if_neg hpast, h.getSlot hl, hwalking]

theorem numberDown_append (s : ℕ) (L L' : List PacketState) :
    numberDown s (L ++ L') = numberDown s L ++ numberDown (s - L.length) L' := by
  induction L generalizing s with
  | nil => rfl
  | cons x L ih =>
    rw [List.cons_append, numberDown, numberDown, ih, List.cons_append, List.length_cons,
      Nat.sub_sub, Nat.add_comm 1]

theorem numberDown_replicate (s n : ℕ) (x : PacketState) :
    numberDown s (List.replicate n x) = (List.range n).map fun k => (s - k, x) := by
  induction n generalizing s with
  | zero => rfl
  | succ n ih =>
    rw [List.replicate_succ, numberDown, ih, List.range_succ_eq_map, List.map_cons, List.map_map]
    congr 1
    apply List.map_congr_left
    intro k _
    change (s - 1 - k, x) = (s - (k + 1), x)
    rw [Nat.sub_sub, Nat.add_comm 1]

/-- The walk over the runs, from the one behind `A`. -/
theorem Stores.nextInterval_lists (h : v.Stores l) {s q : ℕ} {A B : List Byte} (hl : l = A ++ B)
    (hq : B ≠ [] → q = s) (hs : B ≠ [] → s + 1 = v.seq_tail_ + (statesOf B).length ∧ s < 2 ^ 32) :
    ∃ is, WalkLists v.nextInterval ⟨(v.head_ + A.length) % v.max_size_, q, B ≠ []⟩ is ∧
      is.flatMap Interval.packets = numberDown s (statesOf B) := by
  induction B generalizing s q A with
  | nil => exact ⟨[], .done rfl, rfl⟩
  | cons c B ih =>
    obtain ⟨hs1, hs2⟩ := hs (by simp)
    obtain rfl := hq (by simp)
    have hlen : (statesOf (c :: B)).length = runLength c + 1 + (statesOf B).length :=
      length_expand_cons c B
    have hend : seqSub q (runLength c) = q - runLength c := seqSub_eq (by omega) hs2
    have hpos : B ≠ [] → 0 < (statesOf B).length := fun hne =>
      List.length_pos_of_ne_nil fun hnil => hne (statesOf_eq_nil.mp hnil)
    have hfits := h.fits
    have hlength : l.length = A.length + (B.length + 1) := by simp [hl]
    have hslot : ((v.head_ + A.length) % v.max_size_ + 1) % v.max_size_ =
        (v.head_ + (A ++ [c]).length) % v.max_size_ := by
      rw [Nat.mod_add_mod, List.length_append, List.length_singleton, Nat.add_assoc]
    have hwalking : decide ((v.head_ + A.length) % v.max_size_ ≠ v.tail_) = decide (B ≠ []) := by
      rw [decide_eq_decide, h.tail (by simp [hl])]
      apply not_congr
      constructor
      · intro he
        have := slot_inj (n := v.max_size_) (by omega) (by omega) he
        exact List.length_eq_zero_iff.mp (by omega)
      · rintro rfl
        rw [hlength, List.length_nil, Nat.zero_add, Nat.add_sub_cancel]
    have hq' : B ≠ [] → seqSub (q - runLength c) 1 = q - runLength c - 1 := fun hne => by
      have := hpos hne
      exact seqSub_eq (by omega) (by omega)
    obtain ⟨is, his, hpackets⟩ := ih (A := A ++ [c]) (by simp [hl]) hq' (fun hne => by
      have := hpos hne
      omega)
    refine ⟨⟨c, q, q - runLength c, packetState c⟩ :: is, .step ?_ his, ?_⟩
    · rw [nextInterval, if_neg (by simp)]
      dsimp only
      rw [h.getSlot hl, hend, hslot, hwalking]
    · have hrun : Interval.packets ⟨c, q, q - runLength c, packetState c⟩ =
          numberDown q (statesOf [c]) := by
        rw [statesOf_singleton, numberDown_replicate, Interval.packets]
        dsimp only
        rw [show q + 1 - (q - runLength c) = runLength c + 1 by omega]
      rw [List.flatMap_cons, hpackets, hrun]
      have happend := numberDown_append q (statesOf [c]) (statesOf B)
      rw [statesOf_singleton, List.length_replicate] at happend
      rw [statesOf_singleton, Nat.sub_sub, ← happend, ← statesOf_singleton]
      congr 1
      exact (expand_append [c] B).symm

theorem Stores.nums_eq (h : v.Stores l) :
    v.nums = List.range' v.seq_tail_ (statesOf l).length := by
  rw [nums]
  by_cases hl : l = []
  · rw [if_pos (h.size_eq_zero.mpr hl), hl]
    rfl
  · have := h.seqs hl
    rw [if_neg fun hz => hl (h.size_eq_zero.mp hz)]
    congr 1
    omega

theorem Stores.getState_iff (h : v.Stores l) {f : ℕ → PacketState} :
    (∀ s, v.getState s = if s ∈ v.nums then some (f s) else none) ↔
      ∀ i < (statesOf l).length, (statesOf l)[i]? = some (f (v.seq_head_ - i)) := by
  rw [h.nums_eq]
  constructor
  · intro hf i hi
    have hl : l ≠ [] := fun hnil => by
      rw [hnil] at hi
      exact absurd hi (Nat.not_lt_zero i)
    have hseqs := h.seqs hl
    have hs := hf (v.seq_head_ - i)
    rw [h.getState_eq, if_pos (Nat.sub_le _ _), if_pos (List.mem_range'_1.mpr (by omega)),
      show v.seq_head_ - (v.seq_head_ - i) = i by omega] at hs
    exact hs
  · intro hf s
    rw [h.getState_eq]
    by_cases hl : l = []
    · rw [hl]
      simp [show statesOf [] = [] from rfl]
    · have hseqs := h.seqs hl
      by_cases hin : v.seq_tail_ ≤ s ∧ s ≤ v.seq_head_
      · rw [if_pos hin.2, if_pos (List.mem_range'_1.mpr (by omega)), hf _ (by omega)]
        congr 2
        omega
      · have hout : s ∉ List.range' v.seq_tail_ (statesOf l).length := fun hmem => by
          have := List.mem_range'_1.mp hmem
          omega
        rw [if_neg hout]
        split_ifs with hle
        · exact List.getElem?_eq_none (by omega)
        · rfl

/-- What the three walks list. -/
theorem Stores.walks (h : v.Stores l) {f : ℕ → PacketState}
    (hf : ∀ s, v.getState s = if s ∈ v.nums then some (f s) else none) :
    WalkLists v.nextPacket v.startPacketWalk (v.nums.reverse.map fun s => (s, f s)) ∧
      WalkLists v.prevPacket v.startReversePacketWalk (v.nums.map fun s => (s, f s)) ∧
      ∃ is, WalkLists v.nextInterval v.startIntervalWalk is ∧
        is.flatMap Interval.packets = v.nums.reverse.map fun s => (s, f s) := by
  by_cases hl : l = []
  · have hsize := h.size_eq_zero.mpr hl
    have hnums : v.nums = [] := if_pos hsize
    have hwalking : decide (v.size_ ≠ 0) = false := by rw [hsize]; rfl
    rw [hnums]
    refine ⟨.done ?_, .done ?_, [], .done ?_, rfl⟩
    · rw [nextPacket, startPacketWalk, hwalking]
      rfl
    · rw [prevPacket, startReversePacketWalk, hwalking]
      rfl
    · rw [nextInterval, startIntervalWalk, hwalking, if_pos (by simp)]
  have hseqs := h.seqs hl
  have hpos : 0 < (statesOf l).length :=
    List.length_pos_of_ne_nil fun hnil => hl (statesOf_eq_nil.mp hnil)
  have hstates := h.getState_iff.mp hf
  have hsize : decide (v.size_ ≠ 0) = true := decide_eq_true fun hz => hl (h.size_eq_zero.mp hz)
  have hhead := Nat.mod_eq_of_lt (h.head hl)
  have hdown : numberDown v.seq_head_ (statesOf l) = v.nums.reverse.map fun s => (s, f s) := by
    have := @numberDown_eq f v.seq_tail_ (statesOf l) fun i hi => by
      rw [hstates i hi]
      congr 2
      omega
    rw [h.nums_eq, ← this, show v.seq_tail_ + (statesOf l).length - 1 = v.seq_head_ by omega]
  have hup : numberUp v.seq_tail_ (statesOf l).reverse = v.nums.map fun s => (s, f s) := by
    have := @numberUp_eq f v.seq_tail_ (statesOf l).reverse fun i hi => by
      rw [List.length_reverse] at hi
      rw [List.getElem?_reverse hi, hstates _ (by omega)]
      congr 2
      omega
    rw [this, h.nums_eq, List.length_reverse]
  refine ⟨?_, ?_, ?_⟩
  · obtain ⟨c, B, rfl⟩ := List.exists_cons_of_ne_nil hl
    have hlen : (statesOf (c :: B)).length = runLength c + 1 + (statesOf B).length :=
      length_expand_cons c B
    have hlists := @Stores.nextPacket_lists v _ h (statesOf (c :: B)).length 0 v.seq_head_ v.seq_head_
      [] B c rfl (Nat.zero_le _) (by omega) (fun _ => rfl) (fun _ => ⟨by omega, h.below⟩)
    rw [show v.head_ + ([] : List Byte).length = v.head_ from rfl, hhead,
      decide_eq_true (Nat.pos_iff_ne_zero.mp hpos)] at hlists
    rw [startPacketWalk, hsize, ← hdown]
    exact hlists
  · obtain ⟨A, c, rfl⟩ : ∃ A c, l = A ++ [c] := ⟨_, _, (List.dropLast_append_getLast hl).symm⟩
    have hlen : (statesOf (A ++ [c])).length = (statesOf A).length + (runLength c + 1) := by
      rw [length_statesOf_between, show (statesOf []).length = 0 from rfl]
    have hlists := @Stores.prevPacket_lists v _ h (statesOf (A ++ [c])).length 0 v.seq_tail_
      v.seq_tail_ A [] c rfl (Nat.zero_le _) (by omega) (fun _ => rfl) (fun _ => by omega)
    have htail : v.tail_ = (v.head_ + A.length) % v.max_size_ := by
      rw [h.tail hl, List.length_append, List.length_singleton, Nat.add_sub_cancel]
    have hreverse : (statesOf (A ++ [c])).reverse =
        List.replicate (runLength c + 1) (packetState c) ++ (statesOf A).reverse := by
      rw [statesOf, expand_append, List.reverse_append]
      change (statesOf [c]).reverse ++ _ = _
      rw [statesOf_singleton, List.reverse_replicate]
    rw [← htail, decide_eq_true (Nat.pos_iff_ne_zero.mp hpos)] at hlists
    rw [startReversePacketWalk, hsize, ← hup, hreverse]
    exact hlists
  · obtain ⟨is, his, hpackets⟩ := @Stores.nextInterval_lists v l h v.seq_head_ v.seq_head_ [] l rfl
      (fun _ => rfl) (fun _ => ⟨by omega, h.below⟩)
    rw [show v.head_ + ([] : List Byte).length = v.head_ from rfl, hhead,
      decide_eq_true hl] at his
    rw [startIntervalWalk, hsize]
    exact ⟨is, his, hpackets.trans hdown⟩

inductive AckCall where
  | addPacket (seqnum : BitVec 32) (state : PacketState)
  | removePackets (seqnum : BitVec 32)

/-- The vector after a call and what the call returns. -/
def call (v : AckVector) : AckCall → AckVector × Bool
  | .addPacket seqnum state => v.addPacket seqnum.toNat state
  | .removePackets seqnum => (v.removePackets seqnum.toNat, true)

def step (v : AckVector) (c : AckCall) : Option (AckVector × Bool) := some (v.call c)

/-- The sequence number of an addition has not wrapped, seen from the head. -/
def Unwrapped (v : AckVector) : AckCall → Prop
  | .addPacket seqnum _ => v.size_ ≠ 0 → v.seq_head_ ≤ seqnum.toNat + 2 ^ 31
  | .removePackets _ => True

instance (v : AckVector) : ∀ c, Decidable (v.Unwrapped c)
  | .addPacket seqnum _ =>
    inferInstanceAs (Decidable (v.size_ ≠ 0 → v.seq_head_ ≤ seqnum.toNat + 2 ^ 31))
  | .removePackets _ => inferInstanceAs (Decidable True)

/-- The states that were added for a packet since it was last removed. -/
def addedTo (s : ℕ) : List PacketState → AckCall × Bool → List PacketState
  | L, (.addPacket seqnum state, ok) => if seqnum.toNat = s ∧ ok then L ++ [state] else L
  | L, (.removePackets seqnum, _) => if s ≤ seqnum.toNat then [] else L

def statesAdded (s : ℕ) (calls : List AckCall) (results : List Bool) : List PacketState :=
  (calls.zip results).foldl (addedTo s) []

/-- The state that a packet is to have. -/
def stateOf (L : List PacketState) : PacketState := L.foldl PacketState.cons .notRecv

/-- What is known after some calls. -/
structure Reports (v : AckVector) (added : ℕ → List PacketState) : Prop where
  stores : ∃ l, v.Stores l
  state : ∀ s, v.getState s = if s ∈ v.nums then some (stateOf (added s)) else none
  outside : ∀ s, s ∉ v.nums → added s = []

theorem Stores.mem_nums (h : v.Stores l) {s : ℕ} :
    s ∈ v.nums ↔ l ≠ [] ∧ v.seq_tail_ ≤ s ∧ s ≤ v.seq_head_ := by
  rw [h.nums_eq, List.mem_range'_1]
  by_cases hl : l = []
  · rw [hl, show (statesOf []).length = 0 from rfl]
    constructor
    · intro hmem
      omega
    · intro hmem
      exact absurd rfl hmem.1
  · have := h.seqs hl
    constructor
    · intro hmem
      exact ⟨hl, by omega⟩
    · intro hmem
      omega

theorem getState_same {v' : AckVector} (h : v.Stores l) (h' : v'.Stores l) (hs : Same v v')
    (s : ℕ) : v'.getState s = v.getState s := by
  rw [h.getState_eq, h'.getState_eq, hs.seq_head]

theorem addedTo_append (s : ℕ) {calls : List AckCall} {results : List Bool}
    (hlen : results.length = calls.length) (c : AckCall) (ok : Bool) :
    statesAdded s (calls ++ [c]) (results ++ [ok]) =
      addedTo s (statesAdded s calls results) (c, ok) := by
  rw [statesAdded, List.zip_append hlen.symm, List.foldl_append]
  rfl

theorem stateOf_append (L : List PacketState) (x : PacketState) :
    stateOf (L ++ [x]) = (stateOf L).cons x := by
  rw [stateOf, List.foldl_append]
  rfl

theorem Stores.same_nums {v' : AckVector} (h : v.Stores l) (h' : v'.Stores l) (hs : Same v v') :
    v'.nums = v.nums := by
  rw [h.nums_eq, h'.nums_eq, hs.seq_tail]

/-- A call that fails changes nothing that can be seen. -/
theorem call_failed (h : v.Stores l) {c : AckCall} (hc : v.Unwrapped c)
    (hfail : (v.call c).2 = false) : (v.call c).1.Stores l ∧ Same v (v.call c).1 := by
  cases c with
  | addPacket seqnum state =>
    exact (h.addState seqnum.isLt (fun hl => hc fun hz => hl (h.size_eq_zero.mp hz)) state
      tries).failed hfail
  | removePackets seqnum => exact Bool.noConfusion hfail

theorem notRecv_cons (s : PacketState) : PacketState.notRecv.cons s = s := by cases s <;> rfl

theorem addedStates_ne_nil (head : ℕ) (L : List PacketState) (seqnum : ℕ) (state : PacketState) :
    addedStates head L seqnum state ≠ [] := by
  unfold addedStates
  split_ifs with hL hlt
  · simp
  · simp
  · intro hnil
    have hlen := congrArg List.length hnil
    rw [List.length_modify, List.length_nil] at hlen
    exact hL (List.length_eq_zero_iff.mp hlen)

/-- An addition that succeeds. -/
theorem Reports.added {added : ℕ → List PacketState} (h : v.Reports added) {seqnum : BitVec 32}
    {state : PacketState} (hc : v.Unwrapped (.addPacket seqnum state))
    (hok : (v.addPacket seqnum.toNat state).2 = true) :
    (v.addPacket seqnum.toNat state).1.Reports fun s =>
      if seqnum.toNat = s then added s ++ [state] else added s := by
  obtain ⟨l, hl⟩ := h.stores
  have hstate := hl.getState_iff.mp h.state
  have hwrap : l ≠ [] → v.seq_head_ ≤ seqnum.toNat + 2 ^ 31 :=
    fun hne => hc fun hz => hne (hl.size_eq_zero.mp hz)
  obtain ⟨l', hl', hstates, hhead⟩ := (hl.addState seqnum.isLt hwrap state tries).made hok
  change (v.addPacket seqnum.toNat state).1.Stores l' at hl'
  change (v.addPacket seqnum.toNat state).1.seq_head_ = _ at hhead
  generalize hv' : (v.addPacket seqnum.toNat state).1 = v' at hl' hhead ⊢
  have hne' : l' ≠ [] := by
    rintro rfl
    exact addedStates_ne_nil _ _ _ _ hstates.symm
  have hseqs' := hl'.seqs hne'
  by_cases hnil : l = []
  · subst hnil
    have hout : ∀ s, added s = [] := fun s => h.outside s (by
      rw [hl.nums_eq]
      exact List.not_mem_nil)
    rw [if_pos (.inl rfl)] at hhead
    rw [addedStates, if_pos (statesOf_eq_nil.mpr rfl)] at hstates
    refine ⟨⟨l', hl'⟩, hl'.getState_iff.mpr fun i hi => ?_, fun s hs => ?_⟩
    · rw [hstates, List.length_singleton] at hi
      obtain rfl : i = 0 := by omega
      rw [hstates, hhead, Nat.sub_zero, if_pos rfl, hout, stateOf_append]
      exact congrArg some (notRecv_cons state).symm
    · rw [hstates, List.length_singleton] at hseqs'
      have hne : seqnum.toNat ≠ s := fun he => hs (hl'.mem_nums.mpr ⟨hne', by omega, by omega⟩)
      rw [if_neg hne, hout]
  have hseqs := hl.seqs hnil
  have hL : statesOf l ≠ [] := fun h => hnil (statesOf_eq_nil.mp h)
  by_cases hlt : v.seq_head_ < seqnum.toNat
  · rw [if_pos (.inr hlt)] at hhead
    rw [addedStates, if_neg hL, if_pos hlt] at hstates
    have hlen := congrArg List.length hstates
    rw [List.length_cons, List.length_append, List.length_replicate] at hlen
    refine ⟨⟨l', hl'⟩, hl'.getState_iff.mpr fun i hi => ?_, fun s hs => ?_⟩
    · rw [hstates, hhead]
      by_cases hzero : i = 0
      · rw [hzero, Nat.sub_zero, if_pos rfl, h.outside _ (fun hmem => by
          have := hl.mem_nums.mp hmem
          omega), stateOf_append]
        exact congrArg some (notRecv_cons state).symm
      obtain ⟨i, rfl⟩ : ∃ j, i = j + 1 := ⟨i - 1, by omega⟩
      rw [List.getElem?_cons_succ, if_neg (by omega)]
      by_cases hmiss : i < seqnum.toNat - v.seq_head_ - 1
      · rw [List.getElem?_append_left (by rw [List.length_replicate]; exact hmiss),
          List.getElem?_replicate_of_lt hmiss, h.outside _ (fun hmem => by
            have := hl.mem_nums.mp hmem
            omega)]
        rfl
      · rw [List.getElem?_append_right (by rw [List.length_replicate]; omega), List.length_replicate,
          hstate _ (by omega)]
        congr 3
        omega
    · have hne : seqnum.toNat ≠ s := fun he => hs (hl'.mem_nums.mpr ⟨hne', by omega, by omega⟩)
      rw [if_neg hne, h.outside s fun hmem => hs (hl'.mem_nums.mpr ?_)]
      have := hl.mem_nums.mp hmem
      exact ⟨hne', by omega, by omega⟩
  · rw [if_neg (by rintro (h0 | h0); exact hnil h0; exact hlt h0)] at hhead
    rw [addedStates, if_neg hL, if_neg hlt] at hstates
    have hlen := congrArg List.length hstates
    rw [List.length_modify] at hlen
    -- a packet that is too old would have been refused
    have htail : v.seq_tail_ ≤ seqnum.toNat := by
      by_contra hold
      have hnone : v.getState seqnum.toNat = none := by
        rw [hl.getState_eq, if_pos (by omega), List.getElem?_eq_none (by omega)]
      have hrefused := addState_old (t := tries) (fun hz => hnil (hl.size_eq_zero.mp hz)) (by omega)
        (hwrap hnil) hnone state
      rw [addPacket, hrefused] at hok
      exact Bool.noConfusion hok
    refine ⟨⟨l', hl'⟩, hl'.getState_iff.mpr fun i hi => ?_, fun s hs => ?_⟩
    · rw [hstates, List.getElem?_modify, hstate i (by omega), hhead]
      change some (if _ then _ else _) = _
      by_cases hat : v.seq_head_ - seqnum.toNat = i
      · rw [if_pos hat, if_pos (by omega), stateOf_append]
      · rw [if_neg hat, if_neg (by omega)]
    · have hne : seqnum.toNat ≠ s := fun he => hs (hl'.mem_nums.mpr ⟨hne', by omega, by omega⟩)
      rw [if_neg hne, h.outside s fun hmem => hs (hl'.mem_nums.mpr ?_)]
      have := hl.mem_nums.mp hmem
      exact ⟨hne', by omega, by omega⟩

theorem Reports.removed {added : ℕ → List PacketState} (h : v.Reports added) (seqnum : ℕ) :
    (v.removePackets seqnum).Reports fun s => if s ≤ seqnum then [] else added s := by
  obtain ⟨l, hl⟩ := h.stores
  obtain ⟨l', hl', hstates, hhead, -, -⟩ := hl.removePackets seqnum
  have hstate := hl.getState_iff.mp h.state
  have hlen := congrArg List.length hstates
  rw [List.length_take] at hlen
  refine ⟨⟨l', hl'⟩, hl'.getState_iff.mpr fun i hi => ?_, fun s hs => ?_⟩
  · rw [hstates, List.getElem?_take_of_lt (by omega), hstate i (by omega), hhead, if_neg (by omega)]
  · split_ifs with hle
    · rfl
    · apply h.outside
      intro hmem
      apply hs
      have hin := hl.mem_nums.mp hmem
      have hseqs := hl.seqs hin.1
      have hne' : l' ≠ [] := by
        rintro rfl
        rw [show (statesOf []).length = 0 from rfl] at hlen
        omega
      have hseqs' := hl'.seqs hne'
      exact hl'.mem_nums.mpr ⟨hne', by omega, by omega⟩

theorem Reports.call {calls : List AckCall} {results : List Bool}
    (h : v.Reports fun s => statesAdded s calls results) (hlen : results.length = calls.length)
    {c : AckCall} (hc : v.Unwrapped c) :
    (v.call c).1.Reports fun s => statesAdded s (calls ++ [c]) (results ++ [(v.call c).2]) := by
  obtain ⟨l, hl⟩ := h.stores
  simp only [addedTo_append _ hlen]
  cases c with
  | addPacket seqnum state =>
    by_cases hok : (v.call (.addPacket seqnum state)).2 = true
    · have hadded := h.added hc hok
      simp only [addedTo, hok, and_true]
      exact hadded
    · obtain ⟨hstores, hsame⟩ := call_failed hl hc (by simpa using hok)
      simp only [addedTo, hok, Bool.false_eq_true, and_false, if_false]
      refine ⟨⟨l, hstores⟩, fun s => ?_, fun s hs => ?_⟩
      · rw [getState_same hl hstores hsame, hl.same_nums hstores hsame, h.state]
      · rw [hl.same_nums hstores hsame] at hs
        exact h.outside s hs
  | removePackets seqnum => exact h.removed seqnum.toNat

/-- In every run, the state of each packet in the range is made of the states that were added for it
since it was last removed, the walks list these states, and a call that fails leaves them. -/
theorem run_reports {n : ℕ} (h2 : 2 ≤ n) (hn : n ≤ maxAckvSize) {calls : List AckCall}
    (hcalls : Machine.Admits step Unwrapped (ofSize n) calls) :
    ∃ v results, Machine.run step (ofSize n) calls = some (v, results) ∧
      (∀ s, v.getState s =
        if s ∈ v.nums then some (stateOf (statesAdded s calls results)) else none) ∧
      WalkLists v.nextPacket v.startPacketWalk
        (v.nums.reverse.map fun s => (s, stateOf (statesAdded s calls results))) ∧
      WalkLists v.prevPacket v.startReversePacketWalk
        (v.nums.map fun s => (s, stateOf (statesAdded s calls results))) ∧
      (∃ is, WalkLists v.nextInterval v.startIntervalWalk is ∧ is.flatMap Interval.packets =
        v.nums.reverse.map fun s => (s, stateOf (statesAdded s calls results))) ∧
      ∀ c, v.Unwrapped c → (v.call c).2 = false →
        (v.call c).1.nums = v.nums ∧ ∀ s, (v.call c).1.getState s = v.getState s := by
  obtain ⟨v, results, hrun, -, h⟩ := Machine.run_history
    (I := fun (calls : List AckCall) (results : List Bool) (v : AckVector) =>
      results.length = calls.length ∧ v.Reports fun s => statesAdded s calls results)
    (fun calls results v c h hc => ⟨_, _, rfl, by simp [h.1], h.2.call h.1 hc⟩)
    ⟨rfl, ⟨[], ofSize_stores h2 hn⟩, fun s => rfl, fun s _ => rfl⟩ hcalls
  obtain ⟨l, hl⟩ := h.stores
  obtain ⟨hdown, hup, hintervals⟩ := hl.walks h.state
  refine ⟨v, results, hrun, h.state, hdown, hup, hintervals, fun c hc hfail => ?_⟩
  obtain ⟨hstores, hsame⟩ := call_failed hl hc hfail
  exact ⟨hl.same_nums hstores hsame, getState_same hl hstores hsame⟩

theorem run_reports_late :
    ∃ v results, Machine.run step (ofSize 2)
        [.addPacket 7 .recv, .addPacket 9 .ecn, .addPacket 8 .recv, .removePackets 7] =
          some (v, results) ∧
      (∀ s, v.getState s = if s ∈ v.nums then some (stateOf (statesAdded s
        [.addPacket 7 .recv, .addPacket 9 .ecn, .addPacket 8 .recv, .removePackets 7] results))
          else none) := by
  obtain ⟨v, results, hrun, hstate, -⟩ := @run_reports 2 (by decide) (by decide)
    [.addPacket 7 .recv, .addPacket 9 .ecn, .addPacket 8 .recv, .removePackets 7] (by decide +kernel)
  exact ⟨v, results, hrun, hstate⟩

end AckVector

end Ns2
