import Ns2.Dccp.AckVector
import Ns2.Lib.RunLength

/-! The bytes of an ack vector, from its head to its tail, and what the helpers of the vector make
of them. -/

namespace Ns2

open ByteRecords RingWindow RunLength

namespace PacketState

theorem num_lt (s : PacketState) : s.num < 4 := by cases s <;> decide

theorem ofNum_num (s : PacketState) : ofNum s.num = s := by cases s <;> rfl

theorem num_ofNum {k : ℕ} (hk : k < 4) : (ofNum k).num = k := by
  interval_cases k <;> rfl

theorem bits_toNat (s : PacketState) : s.bits.toNat = 64 * s.num := by cases s <;> rfl

end PacketState

theorem runLength_eq (b : Byte) : runLength b = b.toNat % 64 := by
  rw [runLength, BitVec.toNat_and]
  exact Nat.and_two_pow_sub_one_eq_mod b.toNat 6

theorem runLength_lt (b : Byte) : runLength b < 64 := by
  rw [runLength_eq]
  exact Nat.mod_lt _ (by decide)

theorem packetState_eq (b : Byte) : packetState b = .ofNum (b.toNat / 64) := by
  rw [packetState, BitVec.toNat_ushiftRight, Nat.shiftRight_eq_div_pow]

theorem toNat_item (b : Byte) : b.toNat = 64 * (packetState b).num + runLength b := by
  rw [packetState_eq, runLength_eq, PacketState.num_ofNum (by omega)]
  omega

/-- A byte is read as it was put together. -/
theorem item_spec {b : Byte} {s : PacketState} {r : ℕ} (hr : r < 64)
    (hb : b.toNat = 64 * s.num + r) : packetState b = s ∧ runLength b = r := by
  have := s.num_lt
  constructor
  · rw [packetState_eq, hb, show (64 * s.num + r) / 64 = s.num by omega, s.ofNum_num]
  · rw [runLength_eq]
    omega

theorem bits_add {s : PacketState} {r : ℕ} (hr : r < 64) :
    packetState (s.bits + BitVec.ofNat 8 r) = s ∧ runLength (s.bits + BitVec.ofNat 8 r) = r := by
  have := s.num_lt
  apply item_spec hr
  rw [BitVec.toNat_add, s.bits_toNat, BitVec.toNat_ofNat]
  omega

theorem bits_or {s : PacketState} {r : ℕ} (hr : r < 64) :
    packetState (s.bits ||| (BitVec.ofNat 8 r &&& runLengthMask)) = s ∧
      runLength (s.bits ||| (BitVec.ofNat 8 r &&& runLengthMask)) = r := by
  apply item_spec hr
  have hall : ∀ q : Fin 64, ∀ s : PacketState,
      (s.bits ||| (BitVec.ofNat 8 q.val &&& runLengthMask)).toNat = 64 * s.num + q.val := by
    intro q s
    cases s <;> revert q <;> decide
  exact hall ⟨r, hr⟩ s

theorem bits_spec (s : PacketState) : packetState s.bits = s ∧ runLength s.bits = 0 :=
  item_spec (by decide) (s.bits_toNat)

/-- The states that a list of bytes stands for. -/
abbrev statesOf : List Byte → List PacketState := expand (fun b => runLength b + 1) packetState

theorem length_le_statesOf (l : List Byte) : l.length ≤ (statesOf l).length := by
  induction l with
  | nil => exact le_rfl
  | cons b l ih =>
    rw [statesOf, length_expand_cons, List.length_cons]
    change l.length + 1 ≤ runLength b + 1 + (statesOf l).length
    omega

theorem statesOf_eq_nil {l : List Byte} : statesOf l = [] ↔ l = [] := by
  constructor
  · intro h
    have := length_le_statesOf l
    rw [h] at this
    exact List.length_eq_zero_iff.mp (Nat.le_zero.mp this)
  · rintro rfl
    rfl

theorem statesOf_singleton (b : Byte) :
    statesOf [b] = List.replicate (runLength b + 1) (packetState b) := by
  rw [statesOf, expand, expand, List.append_nil]

theorem length_statesOf_between (A B : List Byte) (c : Byte) : (statesOf (A ++ c :: B)).length =
    (statesOf A).length + (runLength c + 1 + (statesOf B).length) := by
  rw [statesOf, expand_append, List.length_append, length_expand_cons]

theorem seqSub_eq {a b : ℕ} (hb : b ≤ a) (ha : a < 2 ^ 32) : seqSub a b = a - b := by
  rw [seqSub, show a + (2 ^ 32 - b) = a - b + 2 ^ 32 by omega, Nat.add_mod_right,
    Nat.mod_eq_of_lt (by omega)]

/-- The difference is positive for a later number, as long as the numbers do not wrap. -/
theorem seqDist_eq {a b : ℕ} (ha : a < 2 ^ 32) (hb : b ≤ a + 2 ^ 31) (h : 0 < seqDist a b) :
    seqDist a b = a - b ∧ b < a := by
  unfold seqDist at h ⊢
  rw [Int.bmod_def] at h ⊢
  push_cast at h ⊢
  split_ifs at h ⊢ with hlt
  · omega
  · omega

namespace AckVector

/-- The vector holds the bytes `l`. -/
structure Stores (v : AckVector) (l : List Byte) : Prop where
  size : v.size_ = l.length
  fits : l.length ≤ v.max_size_
  two_le : 2 ≤ v.max_size_
  le_max : v.max_size_ ≤ maxAckvSize
  holds : Holds v.max_size_ v.head_ v.vector_ l
  head : l ≠ [] → v.head_ < v.max_size_
  tail : l ≠ [] → v.tail_ = (v.head_ + (l.length - 1)) % v.max_size_
  seqs : l ≠ [] → v.seq_tail_ + (statesOf l).length = v.seq_head_ + 1
  below : v.seq_head_ < 2 ^ 32

theorem ofSize_stores {n : ℕ} (h2 : 2 ≤ n) (hn : n ≤ maxAckvSize) : (ofSize n).Stores [] :=
  ⟨rfl, Nat.zero_le _, h2, hn, Holds.nil, fun h => absurd rfl h, fun h => absurd rfl h,
    fun h => absurd rfl h, Nat.two_pow_pos 32⟩

/-- The range and what is kept beside the bytes are the same. -/
structure Same (v v' : AckVector) : Prop where
  seq_head : v'.seq_head_ = v.seq_head_
  seq_tail : v'.seq_tail_ = v.seq_tail_
  ene : v'.ene_ = v.ene_
  hist : v'.ack_hist_ = v.ack_hist_

theorem Same.refl (v : AckVector) : Same v v := ⟨rfl, rfl, rfl, rfl⟩

theorem Same.trans {v v' v'' : AckVector} (h : Same v v') (h' : Same v' v'') : Same v v'' :=
  ⟨h'.seq_head.trans h.seq_head, h'.seq_tail.trans h.seq_tail, h'.ene.trans h.ene,
    h'.hist.trans h.hist⟩

variable {v v' : AckVector} {l : List Byte}

theorem doubleMaxSize_stores (h : v.Stores l) (hv : v.doubleMaxSize = some v') :
    v'.Stores l ∧ Same v v' := by
  have hmax : v.max_size_ ≠ maxAckvSize := fun hmax => by
    rw [doubleMaxSize, if_pos hmax] at hv
    cases hv
  rw [doubleMaxSize, if_neg hmax] at hv
  obtain rfl := Option.some.inj hv
  have h2 := h.two_le
  have hle := h.le_max
  have hsize := h.size
  have hfits := h.fits
  have hgrow : v.max_size_ ≤ (if v.max_size_ * 2 > maxAckvSize then maxAckvSize
      else v.max_size_ * 2) := by split_ifs <;> omega
  have hhead : l ≠ [] → (if v.size_ > 0 then 0 else v.head_) = 0 := fun hne =>
    if_pos (hsize ▸ List.length_pos_of_ne_nil hne)
  refine ⟨⟨hsize, hfits.trans hgrow, h2.trans hgrow, ?_, fun i hi => ?_, fun hne => ?_,
    fun hne => ?_, h.seqs, h.below⟩, ⟨rfl, rfl, rfl, rfl⟩⟩
  · dsimp only
    split_ifs <;> omega
  · have hne : l ≠ [] := List.ne_nil_of_length_pos (by omega)
    dsimp only
    rw [hhead hne, Nat.zero_add, Nat.mod_eq_of_lt (by omega), if_pos (by omega)]
    exact h.holds i hi
  · dsimp only
    rw [hhead hne]
    omega
  · dsimp only
    have hpos := List.length_pos_of_ne_nil hne
    rw [hhead hne, if_pos (by omega), hsize, Nat.zero_add, Nat.mod_eq_of_lt (by omega)]

theorem fillLoop_eq {n k f h : ℕ} {item : Byte} {head w : ℕ} {a : Memory} (hhead : head = (h + k) % n)
    (hw : w = h % n) (hk : k < n) (hf : k < f) :
    fillLoop n item head f a w = put n (List.replicate k item) w a := by
  subst hhead hw
  induction k generalizing h f a with
  | zero =>
    obtain ⟨f, rfl⟩ : ∃ g, f = g + 1 := ⟨f - 1, by omega⟩
    rw [fillLoop, Nat.add_zero, if_neg fun hne => hne rfl]
    rfl
  | succ k ih =>
    obtain ⟨f, rfl⟩ : ∃ g, f = g + 1 := ⟨f - 1, by omega⟩
    have hne : h % n ≠ (h + (k + 1)) % n := fun he => by
      have := slot_inj (n := n) (h := h) (i := 0) (by omega) hk he
      omega
    rw [fillLoop, if_pos hne, Nat.mod_add_mod, List.replicate_succ, put, Nat.mod_add_mod,
      show h + (k + 1) = h + 1 + k by omega]
    exact ih (by omega) (by omega)

/-- Items that fit are put before the head. -/
theorem Stores.addItems_room (h : v.Stores l) (hl : l ≠ []) {state : PacketState} {runlen count t : ℕ}
    (hrun : runlen < 64) (hroom : l.length + count ≤ v.max_size_)
    (hseq : v.seq_head_ + (runlen + 1) * count < 2 ^ 32) :
    ∃ v', addItems state runlen count (t + 1) v = (v', true) ∧
      v'.Stores (List.replicate count (state.bits ||| (BitVec.ofNat 8 runlen &&& runLengthMask)) ++
        l) ∧ v'.max_size_ = v.max_size_ ∧ v'.seq_head_ = v.seq_head_ + (runlen + 1) * count ∧
      v'.ene_ = v.ene_ ∧ v'.ack_hist_ = v.ack_hist_ := by
  set item := state.bits ||| (BitVec.ofNat 8 runlen &&& runLengthMask) with hitem
  have hpos := List.length_pos_of_ne_nil hl
  have hhead := h.head hl
  have hnew : ((v.head_ + v.max_size_ - count) % v.max_size_ + count) % v.max_size_ =
      v.head_ % v.max_size_ := by
    rw [Nat.mod_add_mod, show v.head_ + v.max_size_ - count + count = v.head_ + v.max_size_ by omega,
      Nat.add_mod_right]
  have hlt : (v.head_ + v.max_size_ - count) % v.max_size_ < v.max_size_ :=
    Nat.mod_lt _ (by omega)
  have hseqs : (if v.size_ ≠ 0 then (v.seq_head_ + (runlen + 1) * count) % 2 ^ 32
      else v.seq_head_) = v.seq_head_ + (runlen + 1) * count := by
    rw [if_pos (by rw [h.size]; omega), Nat.mod_eq_of_lt hseq]
  have hlen : (List.replicate count item ++ l).length = count + l.length := by
    rw [List.length_append, List.length_replicate]
  have hstates : (statesOf (List.replicate count item ++ l)).length =
      (runlen + 1) * count + (statesOf l).length := by
    rw [statesOf, expand_append, expand_replicate, List.length_append, List.length_replicate, hitem,
      (bits_or hrun).2]
  have htail : v.tail_ = ((v.head_ + v.max_size_ - count) % v.max_size_ +
      (count + l.length - 1)) % v.max_size_ := by
    rw [h.tail hl, show count + l.length - 1 = count + (l.length - 1) by omega, ← Nat.add_assoc]
    exact (slot_cast hnew _).symm
  have hholds : Holds v.max_size_ ((v.head_ + v.max_size_ - count) % v.max_size_)
      (fillLoop v.max_size_ item v.head_ v.max_size_ v.vector_
        ((v.head_ + v.max_size_ - count) % v.max_size_)) (List.replicate count item ++ l) := by
    rw [fillLoop_eq (k := count) (by rw [hnew, Nat.mod_eq_of_lt hhead])
      (Nat.mod_eq_of_lt hlt).symm (by omega) (by omega)]
    have hcast : Holds v.max_size_ ((v.head_ + v.max_size_ - count) % v.max_size_ +
        (List.replicate count item).length) v.vector_ l :=
      h.holds.cast (by rw [List.length_replicate, hnew])
    have hput := hcast.put_front (by rw [List.length_replicate]; omega)
    rwa [Nat.mod_mod] at hput
  have hsize : ¬ v.size_ + count > v.max_size_ := by
    rw [h.size]
    omega
  have hfits : (List.replicate count item ++ l).length ≤ v.max_size_ := by
    rw [hlen]
    omega
  rw [addItems, if_neg hsize]
  refine ⟨_, rfl, ⟨?_, hfits, h.two_le, h.le_max, hholds, fun _ => hlt, fun _ => ?_,
    fun _ => ?_, ?_⟩, rfl, hseqs, rfl, rfl⟩
  · rw [hlen, ← h.size]
    exact Nat.add_comm _ _
  · rw [hlen]
    exact htail
  · have := h.seqs hl
    rw [hstates]
    dsimp only
    rw [hseqs]
    omega
  · dsimp only
    rw [hseqs]
    exact hseq

/-- A search that has come to the run of a packet. -/
theorem findLoop_eq {A : List Byte} {c : Byte} {seqnum stop j f seq_start : ℕ}
    (hA : Holds v.max_size_ (v.head_ + j) v.vector_ (A ++ [c]))
    (hle : seqnum + (statesOf A).length ≤ seq_start)
    (hlt : seq_start < seqnum + (statesOf A).length + runLength c + 1)
    (hstart : (statesOf A).length + runLength c ≤ seq_start) (hseq : seq_start < 2 ^ 32)
    (hstop : ∀ i < A.length, (v.head_ + j + (i + 1)) % v.max_size_ ≠ stop) (hf : A.length < f) :
    v.findLoop seqnum stop f ((v.head_ + j) % v.max_size_) seq_start =
      some ((v.head_ + j + A.length) % v.max_size_, seq_start - (statesOf A).length,
        seq_start - (statesOf A).length - runLength c) := by
  induction A generalizing j f seq_start with
  | nil =>
    obtain ⟨f, rfl⟩ : ∃ g, f = g + 1 := ⟨f - 1, by omega⟩
    have hc : c = v.vector_ ((v.head_ + j) % v.max_size_) :=
      Option.some.inj (hA 0 (Nat.succ_pos _))
    have hnil : (statesOf []).length = 0 := rfl
    rw [hnil] at hle hlt hstart ⊢
    rw [findLoop, ← hc, seqSub_eq (by omega) hseq, if_pos ⟨by omega, by omega⟩]
    rfl
  | cons b A ih =>
    obtain ⟨f, rfl⟩ : ∃ g, f = g + 1 := ⟨f - 1, by omega⟩
    have hb : b = v.vector_ ((v.head_ + j) % v.max_size_) :=
      Option.some.inj (hA 0 (Nat.succ_pos _))
    have hcons : (statesOf (b :: A)).length = runLength b + 1 + (statesOf A).length :=
      length_expand_cons b A
    have hrest : Holds v.max_size_ (v.head_ + (j + 1)) v.vector_ (A ++ [c]) := hA.tail
    have hslot : v.head_ + j + (0 + 1) = v.head_ + (j + 1) := by omega
    have hnext := hstop 0 (Nat.succ_pos _)
    rw [hslot] at hnext
    rw [hcons] at hle hlt hstart
    rw [List.length_cons] at hf
    rw [findLoop, ← hb, seqSub_eq (by omega) hseq, if_neg (by omega), Nat.mod_add_mod,
      show v.head_ + j + 1 = v.head_ + (j + 1) by omega, if_pos hnext, seqSub_eq (by omega) (by omega),
      ih hrest (by omega) (by omega) (by omega) (by omega) (fun i hi => ?_) (by omega), hcons,
      List.length_cons]
    · congr 2
      · congr 1
        omega
      · congr 1
        · omega
        · omega
    · have := hstop (i + 1) (by rw [List.length_cons]; omega)
      rwa [show v.head_ + (j + 1) + (i + 1) = v.head_ + j + (i + 1 + 1) by omega]

/-- The stop of the search lies behind the last byte. -/
theorem Stores.stop_ne (h : v.Stores l) {i : ℕ} (hi : i + 1 < l.length) :
    (v.head_ + 0 + (i + 1)) % v.max_size_ ≠ (v.tail_ + 1) % v.max_size_ := by
  have hl : l ≠ [] := List.ne_nil_of_length_pos (by omega)
  have hfits := h.fits
  rw [h.tail hl, Nat.mod_add_mod, show v.head_ + (l.length - 1) + 1 = v.head_ + l.length by omega,
    Nat.add_zero]
  intro he
  by_cases hfull : l.length = v.max_size_
  · rw [hfull, Nat.add_mod_right] at he
    have := slot_inj (n := v.max_size_) (h := v.head_) (j := 0) (by omega) (by omega) he
    omega
  · have := slot_inj (n := v.max_size_) (h := v.head_) (by omega) (by omega) he
    omega

theorem Stores.findSeqNum_eq {A B : List Byte} {c : Byte} (h : v.Stores (A ++ c :: B)) {seqnum k : ℕ}
    (hk : seqnum + k = v.seq_head_) (h1 : (statesOf A).length ≤ k)
    (h2 : k < (statesOf A).length + (runLength c + 1)) :
    v.findSeqNum seqnum = some ((v.head_ + A.length) % v.max_size_,
      v.seq_head_ - (statesOf A).length, v.seq_head_ - (statesOf A).length - runLength c) := by
  have hl : A ++ c :: B ≠ [] := by simp
  have hseqs := h.seqs hl
  have hsize := h.size
  have hfits := h.fits
  have hlen := length_statesOf_between A B c
  have hlength : (A ++ c :: B).length = A.length + (B.length + 1) := by simp
  rw [findSeqNum, if_neg (by omega)]
  have hAc : Holds v.max_size_ (v.head_ + 0) v.vector_ (A ++ [c]) :=
    @Holds.left _ _ _ _ _ B (by simpa using h.holds)
  have hloop := @findLoop_eq v A c seqnum _ 0 v.max_size_ v.seq_head_ hAc (by omega) (by omega)
    (by omega) h.below (fun i hi => h.stop_ne (by omega)) (by omega)
  rwa [show v.head_ + 0 = v.head_ from rfl, Nat.mod_eq_of_lt (h.head hl)] at hloop

/-- A packet in the range has a run. -/
theorem Stores.exists_run (h : v.Stores l) {k : ℕ} (hk : k < (statesOf l).length) :
    ∃ A c B, l = A ++ c :: B ∧ (statesOf A).length ≤ k ∧
      k < (statesOf A).length + (runLength c + 1) := RunLength.exists_run hk

theorem Stores.size_eq_zero (h : v.Stores l) : v.size_ = 0 ↔ l = [] := by
  rw [h.size, List.length_eq_zero_iff]

/-- The byte that stands behind `A`. -/
theorem Stores.getItem {A B : List Byte} {c : Byte} (h : v.Stores (A ++ c :: B)) :
    v.vector_ ((v.head_ + A.length) % v.max_size_) = c := by
  have := h.holds A.length (by simp)
  rw [List.getElem?_append_right le_rfl, Nat.sub_self] at this
  exact (Option.some.inj this).symm

theorem Stores.getState_eq (h : v.Stores l) (seqnum : ℕ) :
    v.getState seqnum = if seqnum ≤ v.seq_head_ then (statesOf l)[v.seq_head_ - seqnum]?
      else none := by
  by_cases hl : l = []
  · rw [getState, if_pos (.inl (h.size_eq_zero.mpr hl)), hl]
    split_ifs <;> rfl
  · have hseqs := h.seqs hl
    have hne : v.size_ ≠ 0 := fun hz => hl (h.size_eq_zero.mp hz)
    by_cases hout : seqnum > v.seq_head_ ∨ seqnum < v.seq_tail_
    · rw [getState, if_pos (.inr hout)]
      split_ifs
      · rw [List.getElem?_eq_none (by omega)]
      · rfl
    · obtain ⟨A, c, B, rfl, h1, h2⟩ := h.exists_run (k := v.seq_head_ - seqnum) (by omega)
      rw [getState, if_neg (by omega), h.findSeqNum_eq (by omega) h1 h2, if_pos (by omega),
        getElem?_run h1 h2, Option.map_some, h.getItem]

/-- A slot that is `d` slots before another. -/
theorem slot_sub {n h i d : ℕ} (hd : d < n) :
    ((h + i) % n + n - d) % n = ((h + n - d) % n + i) % n := by
  rw [Nat.mod_add_mod, show (h + i) % n + n - d = (h + i) % n + (n - d) by omega, Nat.mod_add_mod]
  congr 1
  omega

/-- Some bytes in the place of one. -/
theorem Stores.replaceItem {A B items : List Byte} {c : Byte} (h : v.Stores (A ++ c :: B)) {d : ℕ}
    (hd : items.length = d + 1) (hroom : (A ++ c :: B).length + d ≤ v.max_size_)
    (hstates : (statesOf items).length = runLength c + 1) :
    (v.replaceItem ((v.head_ + A.length) % v.max_size_) items).Stores (A ++ items ++ B) ∧
      Same v (v.replaceItem ((v.head_ + A.length) % v.max_size_) items) := by
  have hl : A ++ c :: B ≠ [] := by simp
  have hlength : (A ++ c :: B).length = A.length + (B.length + 1) := by simp
  have hnew : (A ++ items ++ B).length = A.length + (B.length + 1) + d := by
    rw [List.length_append, List.length_append, hd]
    omega
  have hlen : (statesOf (A ++ items ++ B)).length = (statesOf (A ++ c :: B)).length := by
    rw [statesOf, expand_append, expand_append, expand_append, List.length_append,
      List.length_append, List.length_append, length_expand_cons, Nat.add_assoc]
    congr 2
  have hhead := h.head hl
  have htail := h.tail hl
  have hsize := h.size
  have hseqs := h.seqs hl
  obtain ⟨hA, hB⟩ := Holds.append_iff.mp h.holds
  have hBc : Holds v.max_size_ (v.head_ + A.length + 1) v.vector_ B :=
    hB.tail
  have hmoved : ((v.head_ + v.max_size_ - d) % v.max_size_ + d) % v.max_size_ =
      v.head_ % v.max_size_ := by
    rw [Nat.mod_add_mod, show v.head_ + v.max_size_ - d + d = v.head_ + v.max_size_ by omega,
      Nat.add_mod_right]
  have hmlt : (v.head_ + v.max_size_ - d) % v.max_size_ < v.max_size_ := Nat.mod_lt _ (by omega)
  have hmore : items.length - 1 = d := by omega
  have hnil : ([] : List Byte).length = 0 := rfl
  have hfits : (A ++ items ++ B).length ≤ v.max_size_ := by omega
  -- the tail stays where it is, seen from the head that was moved
  have hmtail : v.tail_ = ((v.head_ + v.max_size_ - d) % v.max_size_ +
      ((A ++ items ++ B).length - 1)) % v.max_size_ := by
    have hcast := slot_cast hmoved (A.length + (B.length + 1) - 1)
    rw [Nat.add_assoc] at hcast
    rw [htail, hnew, hlength, show A.length + (B.length + 1) + d - 1 =
      d + (A.length + (B.length + 1) - 1) by omega, hcast]
  have hmB : Holds v.max_size_ ((v.head_ + v.max_size_ - d) % v.max_size_ + A.length +
      items.length) v.vector_ B := by
    apply hBc.cast
    rw [hd, show (v.head_ + v.max_size_ - d) % v.max_size_ + A.length + (d + 1) =
      (v.head_ + v.max_size_ - d) % v.max_size_ + d + (A.length + 1) by omega, Nat.add_assoc v.head_]
    exact slot_cast hmoved _
  unfold AckVector.replaceItem
  dsimp only
  rw [hmore]
  by_cases hat : (v.head_ + A.length) % v.max_size_ = v.tail_
  · have hlast : B = [] := by
      rw [htail] at hat
      have := slot_inj (n := v.max_size_) (by omega) (by omega) hat
      exact List.length_eq_zero_iff.mp (by omega)
    subst hlast
    rw [if_pos hat]
    refine ⟨⟨?_, hfits, h.two_le, h.le_max, ?_, fun _ => hhead, fun _ => ?_, fun _ => ?_, h.below⟩,
      Same.mk rfl rfl rfl rfl⟩
    · dsimp only
      omega
    · exact Holds.put_between (n := v.max_size_) hA Holds.nil (by omega)
    · dsimp only
      rw [← hat, hnew, Nat.mod_add_mod, List.length_nil]
      congr 1
      omega
    · rw [hlen]
      exact hseqs
  · rw [if_neg hat]
    have hstores : ∀ a, Holds v.max_size_ ((v.head_ + v.max_size_ - d) % v.max_size_) a
        (A ++ items ++ B) → Stores { v with
          head_ := (v.head_ + v.max_size_ - d) % v.max_size_
          vector_ := a
          size_ := v.size_ + d } (A ++ items ++ B) := fun a ha =>
      ⟨by rw [hnew, hsize, hlength], hfits, h.two_le, h.le_max, ha, fun _ => hmlt,
        fun _ => hmtail, fun _ => by rw [hlen]; exact hseqs, h.below⟩
    by_cases hath : (v.head_ + A.length) % v.max_size_ = v.head_
    · have hfirst : A = [] := by
        have := slot_inj (n := v.max_size_) (h := v.head_) (i := A.length) (j := 0) (by omega)
          (by omega) (hath.trans (Nat.mod_eq_of_lt hhead).symm)
        exact List.length_eq_zero_iff.mp this
      subst hfirst
      rw [if_pos hath]
      refine ⟨hstores _ ?_, Same.mk rfl rfl rfl rfl⟩
      have hput := @Holds.put_front _ _ ((v.head_ + v.max_size_ - d) % v.max_size_) v.vector_ items B
        hmB (by omega)
      rwa [Nat.mod_mod] at hput
    · rw [if_neg hath]
      refine ⟨hstores _ ?_, Same.mk rfl rfl rfl rfl⟩
      have hcast := hA.cast hmoved
      have hsrc : ((v.head_ + v.max_size_ - d) % v.max_size_ + d) % v.max_size_ = v.head_ := by
        rw [hmoved, Nat.mod_eq_of_lt hhead]
      have hstop : ((v.head_ + v.max_size_ - d) % v.max_size_ + d + A.length) % v.max_size_ =
          (v.head_ + A.length) % v.max_size_ := slot_cast hmoved _
      have hcopy := copyLoop_holds hcast (f := v.max_size_) (by omega) (by omega) (by omega)
      rw [hstop, hsrc, Nat.mod_mod] at hcopy
      rw [slot_sub (by omega)]
      apply Holds.put_between hcopy _ (by omega)
      apply hmB.congr
      intro i hi
      have hother := copyLoop_other (n := v.max_size_) (k := A.length) (d := d) (f := v.max_size_)
        (h := (v.head_ + v.max_size_ - d) % v.max_size_) (i := A.length + items.length + i)
        v.vector_ (by omega) (by omega) (by omega) (by omega) (by omega)
      rwa [hstop, hsrc, Nat.mod_mod, ← Nat.add_assoc, ← Nat.add_assoc] at hother

theorem Stores.holds_update {A B : List Byte} {c : Byte} (h : v.Stores (A ++ c :: B)) (b : Byte) :
    Holds v.max_size_ v.head_
      (Function.update v.vector_ ((v.head_ + A.length) % v.max_size_) b) (A ++ b :: B) := by
  have hfits := h.fits
  rw [List.length_append, List.length_cons] at hfits
  obtain ⟨hA, hB⟩ := Holds.append_iff.mp h.holds
  have hBc := hB.tail
  have hput := Holds.put_between (l := [b]) hA hBc (by rw [List.length_singleton]; omega)
  rwa [List.append_assoc] at hput

/-- A byte in the place of one with the same run length. -/
theorem Stores.update {A B : List Byte} {b c : Byte} (h : v.Stores (A ++ c :: B))
    (hb : runLength b = runLength c) :
    Stores { v with vector_ := Function.update v.vector_ ((v.head_ + A.length) % v.max_size_) b }
      (A ++ b :: B) := by
  have hl : A ++ c :: B ≠ [] := by simp
  have hlen : (A ++ b :: B).length = (A ++ c :: B).length := by simp
  have hstates : (statesOf (A ++ b :: B)).length = (statesOf (A ++ c :: B)).length := by
    rw [length_statesOf_between, length_statesOf_between, hb]
  exact ⟨h.size.trans hlen.symm, hlen.trans_le h.fits, h.two_le, h.le_max, h.holds_update b,
    fun _ => h.head hl, fun _ => by rw [hlen]; exact h.tail hl,
    fun _ => by rw [hstates]; exact h.seqs hl, h.below⟩

theorem set_same {α : Type*} {l : List α} {k : ℕ} {x : α} (h : l[k]? = some x) : l.set k x = l := by
  obtain ⟨hk, rfl⟩ := List.getElem?_eq_some_iff.mp h
  exact List.set_getElem_self hk

/-- The result of a change of `v` to the states `L` from `head` down: it is made, or it fails and
nothing changes. -/
structure Gives (v : AckVector) (l : List Byte) (head : ℕ) (L : List PacketState)
    (r : AckVector × Bool) : Prop where
  ene : r.1.ene_ = v.ene_
  hist : r.1.ack_hist_ = v.ack_hist_
  made : r.2 = true → ∃ l', r.1.Stores l' ∧ statesOf l' = L ∧ r.1.seq_head_ = head
  failed : r.2 = false → r.1.Stores l ∧ Same v r.1

variable {head : ℕ} {L : List PacketState} {r : AckVector × Bool}

theorem Gives.fail (h : v.Stores l) : Gives v l head L (v, false) :=
  ⟨rfl, rfl, fun hr => Bool.noConfusion hr, fun _ => ⟨h, .refl v⟩⟩

theorem Gives.make {l' : List Byte} (h : v'.Stores l') (hL : statesOf l' = L)
    (hhead : v'.seq_head_ = head) (hene : v'.ene_ = v.ene_) (hhist : v'.ack_hist_ = v.ack_hist_) :
    Gives v l head L (v', true) :=
  ⟨hene, hhist, fun _ => ⟨l', h, hL, hhead⟩, fun hr => Bool.noConfusion hr⟩

theorem Gives.of_same (hs : Same v v') (h : Gives v' l head L r) : Gives v l head L r :=
  ⟨h.ene.trans hs.ene, h.hist.trans hs.hist, h.made, fun hr =>
    ⟨(h.failed hr).1, hs.trans (h.failed hr).2⟩⟩

/-- A change that is tried again on a larger vector. -/
theorem Gives.doubleAnd {f : AckVector → AckVector × Bool} (h : v.Stores l)
    (hf : ∀ w, w.Stores l → Same v w → Gives w l head L (f w)) :
    Gives v l head L (v.doubleAnd f) := by
  rw [AckVector.doubleAnd]
  cases hd : v.doubleMaxSize with
  | none => exact .fail h
  | some w =>
    obtain ⟨hw, hsame⟩ := doubleMaxSize_stores h hd
    exact (hf w hw hsame).of_same hsame

/-- An alteration sets the state of one packet. -/
theorem Stores.alterState (h : v.Stores l) {seqnum k : ℕ} (hk : seqnum + k = v.seq_head_)
    (hin : k < (statesOf l).length) (newstate : PacketState) (t : ℕ) :
    Gives v l v.seq_head_ ((statesOf l).set k newstate) (alterState seqnum newstate t v) := by
  induction t generalizing v with
  | zero => exact .fail h
  | succ t ih =>
    have hagain : Gives v l v.seq_head_ ((statesOf l).set k newstate)
        (v.doubleAnd (AckVector.alterState seqnum newstate t)) :=
      .doubleAnd h fun w hw hsame => by
        rw [← hsame.seq_head]
        exact ih hw (by rw [hsame.seq_head]; exact hk)
    obtain ⟨A, c, B, rfl, h1, h2⟩ := h.exists_run hin
    have hl : A ++ c :: B ≠ [] := by simp
    have hlen := length_statesOf_between A B c
    have hseqs := h.seqs hl
    have hsize := h.size
    have hat : (statesOf (A ++ c :: B))[k]? = some (packetState c) := getElem?_run h1 h2
    have hc := runLength_lt c
    have hsplit : ∀ items d, items.length = d + 1 → v.size_ + d ≤ v.max_size_ →
        statesOf items = List.replicate (k - (statesOf A).length) (packetState c) ++
          newstate :: List.replicate ((statesOf A).length + (runLength c + 1) - k - 1)
            (packetState c) →
        Gives v (A ++ c :: B) v.seq_head_ ((statesOf (A ++ c :: B)).set k newstate)
          (v.replaceItem ((v.head_ + A.length) % v.max_size_) items, true) := by
      intro items d hd hroom hstates
      obtain ⟨hstores, hsame⟩ := h.replaceItem hd (hsize ▸ hroom) (by
        rw [hstates, List.length_append, List.length_cons, List.length_replicate,
          List.length_replicate]
        omega)
      exact .make hstores (expand_split h1 h2 hstates) hsame.seq_head hsame.ene hsame.hist
    have hone : ∀ s, statesOf [PacketState.bits s] = [s] := fun s => by
      rw [statesOf_singleton, (bits_spec s).1, (bits_spec s).2]
      rfl
    have hrun : ∀ r < 64, statesOf [(packetState c).bits + BitVec.ofNat 8 r] =
        List.replicate (r + 1) (packetState c) := fun r hr => by
      rw [statesOf_singleton, (bits_add hr).1, (bits_add hr).2]
    have hcons : ∀ b items, statesOf (b :: items) = statesOf [b] ++ statesOf items :=
      fun b items => expand_append [b] items
    rw [AckVector.alterState, h.findSeqNum_eq hk h1 h2]
    dsimp only
    rw [h.getItem]
    by_cases hsame : packetState c = newstate
    · rw [if_neg (fun hne => hne hsame)]
      exact .make h (set_same (hsame ▸ hat)).symm rfl rfl rfl
    rw [if_pos hsame]
    by_cases hzero : runLength c = 0
    · rw [if_pos hzero]
      have hbits := bits_spec newstate
      refine .make (h.update (hbits.2.trans hzero.symm)) ?_ rfl rfl rfl
      have hall : statesOf [newstate.bits] =
          List.replicate (k - (statesOf A).length) (packetState c) ++ newstate ::
            List.replicate ((statesOf A).length + (runLength c + 1) - k - 1) (packetState c) := by
        rw [hone, show k - (statesOf A).length = 0 by omega,
          show (statesOf A).length + (runLength c + 1) - k - 1 = 0 by omega]
        rfl
      rw [show A ++ newstate.bits :: B = A ++ [newstate.bits] ++ B by simp]
      exact expand_split h1 h2 hall
    rw [if_neg hzero]
    by_cases hend : seqnum = v.seq_head_ - (statesOf A).length ∨
        seqnum = v.seq_head_ - (statesOf A).length - runLength c
    · rw [if_pos hend]
      by_cases hfull : v.size_ + 1 > v.max_size_
      · rw [if_pos hfull]
        exact hagain
      rw [if_neg hfull]
      by_cases hstart : seqnum = v.seq_head_ - (statesOf A).length
      · rw [if_pos hstart]
        apply hsplit _ 1 rfl (by omega)
        rw [hcons, hone, hrun _ (by omega), show k - (statesOf A).length = 0 by omega,
          show runLength c - 1 + 1 = (statesOf A).length + (runLength c + 1) - k - 1 by omega]
        rfl
      · rw [if_neg hstart]
        apply hsplit _ 1 rfl (by omega)
        rw [hcons, hone, hrun _ (by omega), show k - (statesOf A).length = runLength c by omega,
          show runLength c - 1 + 1 = runLength c by omega,
          show (statesOf A).length + (runLength c + 1) - k - 1 = 0 by omega]
        rfl
    rw [if_neg hend]
    by_cases hfull : v.size_ + 2 > v.max_size_
    · rw [if_pos hfull]
      exact hagain
    rw [if_neg hfull]
    apply hsplit _ 2 rfl (by omega)
    rw [hcons, hcons newstate.bits, hone, hrun _ (by omega), hrun _ (by omega)]
    congr 2
    · omega
    · rw [List.singleton_append]
      congr 2
      omega

theorem item_sub {c : Byte} {r : ℕ} (hr : r ≤ runLength c) :
    packetState (c - BitVec.ofNat 8 r) = packetState c ∧
      runLength (c - BitVec.ofNat 8 r) = runLength c - r := by
  have hc := toNat_item c
  have hlt := runLength_lt c
  apply item_spec (by omega)
  rw [BitVec.toNat_sub, BitVec.toNat_ofNat]
  have := c.isLt
  omega

/-- A vector of which the tail is removed. -/
theorem Stores.cutTail {A : List Byte} {a : Memory} (seq_tail : ℕ) (h : v.Stores l) (hl : l ≠ [])
    (hA : A ≠ []) (hholds : Holds v.max_size_ v.head_ a A) (hlen : A.length ≤ l.length)
    (hseq : seq_tail + (statesOf A).length = v.seq_head_ + 1) :
    Stores { v with
      vector_ := a
      size_ := A.length
      tail_ := (v.head_ + (A.length - 1)) % v.max_size_
      seq_tail_ := seq_tail } A :=
  ⟨rfl, hlen.trans h.fits, h.two_le, h.le_max, hholds, fun _ => h.head hl, fun _ => rfl,
    fun _ => hseq, h.below⟩

theorem Stores.emptied (h : v.Stores l) : Stores { v with
    size_ := 0
    seq_tail_ := v.seq_head_
    tail_ := v.head_
    ene_ := 0 } [] :=
  ⟨rfl, Nat.zero_le _, h.two_le, h.le_max, .nil, fun hne => absurd rfl hne,
    fun hne => absurd rfl hne, fun hne => absurd rfl hne, h.below⟩

/-- A vector in which only what is removed from the tail on is changed. -/
theorem Stores.removePackets (h : v.Stores l) (seqnum : ℕ) :
    ∃ l', (v.removePackets seqnum).Stores l' ∧
      statesOf l' = (statesOf l).take (v.seq_head_ - seqnum) ∧
      (v.removePackets seqnum).seq_head_ = v.seq_head_ ∧
      (v.removePackets seqnum).ack_hist_ = v.ack_hist_ ∧
      (v.removePackets seqnum).ene_ = if l' = [] ∧ l ≠ [] then 0 else v.ene_ := by
  have hsize := h.size
  by_cases hout : v.size_ = 0 ∨ seqnum < v.seq_tail_
  · rw [AckVector.removePackets, if_pos hout]
    refine ⟨l, h, ?_, rfl, rfl, (if_neg fun hne => hne.2 hne.1).symm⟩
    by_cases hl : l = []
    · rw [hl]
      exact List.take_nil.symm
    · have hseqs := h.seqs hl
      have hne : v.size_ ≠ 0 := fun hz => hl (h.size_eq_zero.mp hz)
      rw [List.take_of_length_le (by omega)]
  have hl : l ≠ [] := fun hnil => hout (.inl (h.size_eq_zero.mpr hnil))
  have hseqs := h.seqs hl
  by_cases hover : seqnum > v.seq_head_
  · rw [AckVector.removePackets, if_neg hout, if_pos hover]
    refine ⟨[], h.emptied, ?_, rfl, rfl, (if_pos ⟨rfl, hl⟩).symm⟩
    rw [show v.seq_head_ - seqnum = 0 by omega, List.take_zero]
    rfl
  obtain ⟨A, c, B, rfl, h1, h2⟩ := h.exists_run (k := v.seq_head_ - seqnum) (by omega)
  have hlen := length_statesOf_between A B c
  have hlength : (A ++ c :: B).length = A.length + (B.length + 1) := by simp
  have hfits := h.fits
  have hhead := h.head hl
  obtain ⟨hA, -⟩ := Holds.append_iff.mp h.holds
  rw [AckVector.removePackets, if_neg hout, if_neg hover, h.findSeqNum_eq (by omega) h1 h2]
  dsimp only
  rw [h.getItem]
  by_cases hpart : v.seq_head_ - (statesOf A).length -
      (v.seq_head_ - (statesOf A).length - runLength c) > 0 ∧
      v.seq_head_ - (statesOf A).length ≠ seqnum
  · -- the run of the packet is cut
    rw [if_pos hpart, slot_dist hhead.le (by omega)]
    obtain ⟨hstate, hrun⟩ := @item_sub c
      (seqnum - (v.seq_head_ - (statesOf A).length - runLength c) + 1) (by omega)
    have hupdate := h.holds_update (c - BitVec.ofNat 8
      (seqnum - (v.seq_head_ - (statesOf A).length - runLength c) + 1))
    have hcut := Holds.left (by rw [List.append_assoc]; exact hupdate : Holds v.max_size_ v.head_ _
      (A ++ [_] ++ B))
    have hone : statesOf [c - BitVec.ofNat 8
        (seqnum - (v.seq_head_ - (statesOf A).length - runLength c) + 1)] =
        List.replicate (v.seq_head_ - seqnum - (statesOf A).length) (packetState c) := by
      rw [statesOf_singleton, hstate, hrun]
      congr 1
      omega
    have hstates : statesOf (A ++ [c - BitVec.ofNat 8
        (seqnum - (v.seq_head_ - (statesOf A).length - runLength c) + 1)]) =
        (statesOf (A ++ c :: B)).take (v.seq_head_ - seqnum) := by
      rw [statesOf, expand_append]
      exact (congrArg _ hone).trans (expand_take h1 h2).symm
    refine ⟨_, ?_, hstates, rfl, rfl, (if_neg fun hnil => by simp at hnil).symm⟩
    have hstored := h.cutTail (seqnum + 1) hl (by simp) hcut (by simp) (by
      rw [hstates, List.length_take]
      omega)
    rw [List.length_append, List.length_singleton, Nat.add_sub_cancel] at hstored
    exact hstored
  rw [if_neg hpart]
  have hk : v.seq_head_ - seqnum = (statesOf A).length := by omega
  have htake : statesOf A = (statesOf (A ++ c :: B)).take (v.seq_head_ - seqnum) := by
    rw [hk, statesOf, expand_append, List.take_left']
    rfl
  by_cases hat : (v.head_ + A.length) % v.max_size_ = v.head_
  · have hfirst : A = [] := by
      have := slot_inj (n := v.max_size_) (h := v.head_) (i := A.length) (j := 0) (by omega)
        (by omega) (hat.trans (Nat.mod_eq_of_lt hhead).symm)
      exact List.length_eq_zero_iff.mp this
    subst hfirst
    rw [if_pos hat]
    exact ⟨[], h.emptied, htake, rfl, rfl, (if_pos ⟨rfl, hl⟩).symm⟩
  · have hA0 : A ≠ [] := by
      rintro rfl
      exact hat (Nat.mod_eq_of_lt hhead)
    have hpos := List.length_pos_of_ne_nil hA0
    have hprev : ((v.head_ + A.length) % v.max_size_ + v.max_size_ - 1) % v.max_size_ =
        (v.head_ + (A.length - 1)) % v.max_size_ := by
      rw [show (v.head_ + A.length) % v.max_size_ + v.max_size_ - 1 =
          (v.head_ + A.length) % v.max_size_ + (v.max_size_ - 1) by omega, Nat.mod_add_mod,
        show v.head_ + A.length + (v.max_size_ - 1) = v.head_ + (A.length - 1) + v.max_size_ by omega,
        Nat.add_mod_right]
    rw [if_neg hat, hprev, slot_dist hhead.le (by omega), Nat.sub_add_cancel hpos]
    refine ⟨A, ?_, htake, rfl, rfl, (if_neg fun hnil => hA0 hnil.1).symm⟩
    exact h.cutTail (seqnum + 1) hl hA0 hA (by omega) (by omega)

/-- The states after a packet was added. -/
def addedStates (head : ℕ) (L : List PacketState) (seqnum : ℕ) (state : PacketState) :
    List PacketState :=
  if L = [] then [state]
  else if head < seqnum then
    state :: (List.replicate (seqnum - head - 1) .notRecv ++ L)
  else L.modify (head - seqnum) fun old => old.cons state

theorem Stores.addItems (h : v.Stores l) (hl : l ≠ []) {state : PacketState} {runlen count t : ℕ}
    (hrun : runlen < 64) (hseq : v.seq_head_ + (runlen + 1) * count < 2 ^ 32) :
    Gives v l (v.seq_head_ + (runlen + 1) * count)
      (List.replicate ((runlen + 1) * count) state ++ statesOf l)
      (addItems state runlen count t v) := by
  induction t generalizing v with
  | zero => exact .fail h
  | succ t ih =>
    by_cases hroom : v.size_ + count > v.max_size_
    · rw [AckVector.addItems, if_pos hroom]
      refine .doubleAnd h fun w hw hsame => ?_
      rw [← hsame.seq_head]
      exact ih hw (by rw [hsame.seq_head]; exact hseq)
    · obtain ⟨v', hv', hstores, -, hhead, hene, hhist⟩ := h.addItems_room hl hrun (t := t)
        (by rw [← h.size]; omega) hseq
      rw [hv']
      refine .make hstores ?_ hhead hene hhist
      rw [statesOf, expand_append, expand_replicate, (bits_or hrun).1, (bits_or hrun).2]

/-- The first packet of an empty vector. -/
theorem Stores.addFirst (h : v.Stores []) {seqnum : ℕ} (hseq : seqnum < 2 ^ 32)
    (state : PacketState) :
    Gives v [] seqnum [state] (AckVector.addItems state 0 1 tries { v with
      seq_head_ := seqnum
      seq_tail_ := seqnum
      head_ := 0
      tail_ := v.max_size_ - 1 }) := by
  have h2 := h.two_le
  have hsize : v.size_ = 0 := h.size
  have hitem := @bits_or state 0 (by decide)
  have hnew : (0 + v.max_size_ - 1) % v.max_size_ = v.max_size_ - 1 := by
    rw [Nat.zero_add, Nat.mod_eq_of_lt (by omega)]
  have hself : (v.max_size_ - 1) % v.max_size_ = v.max_size_ - 1 := Nat.mod_eq_of_lt (by omega)
  rw [tries, AckVector.addItems]
  dsimp only
  rw [hsize, if_neg (by omega), if_neg (fun hne => hne rfl), hnew, fillLoop_eq (k := 1)
    (h := v.max_size_ - 1) (by rw [Nat.sub_add_cancel (by omega), Nat.mod_self]) hself.symm (by omega)
    (by omega)]
  generalize state.bits ||| (BitVec.ofNat 8 0 &&& runLengthMask) = b at hitem ⊢
  have hholds : Holds v.max_size_ (v.max_size_ - 1)
      (put v.max_size_ (List.replicate 1 b) (v.max_size_ - 1) v.vector_) [b] := by
    have := Holds.put_self (n := v.max_size_) (h := v.max_size_ - 1) (a := v.vector_) (l := [b])
      (by rw [List.length_singleton]; omega)
    rwa [hself] at this
  have hstores : Stores { v with
      vector_ := put v.max_size_ (List.replicate 1 b) (v.max_size_ - 1) v.vector_
      size_ := 0 + 1
      head_ := v.max_size_ - 1
      tail_ := v.max_size_ - 1
      seq_head_ := seqnum
      seq_tail_ := seqnum } [b] :=
    ⟨rfl, Nat.le_of_succ_le h2, h2, h.le_max, hholds, fun _ => Nat.sub_lt (by omega) (by decide),
      fun _ => hself.symm, fun _ => by rw [statesOf_singleton, List.length_replicate, hitem.2], hseq⟩
  refine .make hstores ?_ rfl rfl rfl
  rw [statesOf_singleton, hitem.1, hitem.2]
  rfl

/-- A packet that makes the first run longer. -/
theorem Stores.extend {B : List Byte} {c : Byte} (h : v.Stores (c :: B)) (hrun : runLength c < 63)
    (hseq : v.seq_head_ + 1 < 2 ^ 32) :
    Stores { v with
      vector_ := Function.update v.vector_ v.head_ (c + 1)
      seq_head_ := v.seq_head_ + 1 } ((c + 1) :: B) ∧
      statesOf ((c + 1) :: B) = packetState c :: statesOf (c :: B) := by
  have hl : c :: B ≠ [] := by simp
  have hitem : packetState (c + 1) = packetState c ∧ runLength (c + 1) = runLength c + 1 := by
    apply item_spec (by omega)
    have hc := toNat_item c
    have hnum := (packetState c).num_lt
    rw [BitVec.toNat_add, show (1 : Byte).toNat = 1 from rfl]
    omega
  have hstates : statesOf ((c + 1) :: B) = packetState c :: statesOf (c :: B) := by
    rw [statesOf, expand, expand, hitem.1, hitem.2, List.replicate_succ, List.cons_append]
  have hholds := h.holds_update (A := []) (c + 1)
  rw [show v.head_ + ([] : List Byte).length = v.head_ from rfl,
    Nat.mod_eq_of_lt (h.head hl)] at hholds
  refine ⟨⟨h.size, h.fits, h.two_le, h.le_max, hholds, fun _ => h.head hl, fun _ => h.tail hl,
    fun _ => ?_, hseq⟩, hstates⟩
  have := h.seqs hl
  rw [hstates, List.length_cons]
  dsimp only
  omega

/-- The packets that are missing before a new one. -/
theorem Stores.addMissing (h : v.Stores l) (hl : l ≠ []) {n r : ℕ} (hr : r < 64)
    (hroom : l.length + n + 1 + 1 ≤ v.max_size_) (hseq : v.seq_head_ + 64 * n + r + 1 < 2 ^ 32) :
    ∃ v' l', (AckVector.addItems .notRecv r 1 tries
        (if n > 0 then (AckVector.addItems .notRecv 63 n tries v).1 else v)).1 = v' ∧
      v'.Stores l' ∧ l' ≠ [] ∧ l'.length + 1 ≤ v'.max_size_ ∧
      statesOf l' = List.replicate (64 * n + r + 1) .notRecv ++ statesOf l ∧
      v'.seq_head_ = v.seq_head_ + 64 * n + r + 1 ∧ v'.ene_ = v.ene_ ∧
      v'.ack_hist_ = v.ack_hist_ := by
  have hfulls : ∃ w m, (if n > 0 then (AckVector.addItems .notRecv 63 n tries v).1 else v) = w ∧
      w.Stores m ∧ m ≠ [] ∧ m.length = n + l.length ∧ w.max_size_ = v.max_size_ ∧
      statesOf m = List.replicate (64 * n) .notRecv ++ statesOf l ∧
      w.seq_head_ = v.seq_head_ + 64 * n ∧ w.ene_ = v.ene_ ∧ w.ack_hist_ = v.ack_hist_ := by
    by_cases hn : n > 0
    · obtain ⟨w, hw, h1, h2, h3, h4, h5⟩ := @Stores.addItems_room v l h hl .notRecv 63 n 16
        (by decide) (by omega) (by omega)
      refine ⟨w, _, ?_, h1, by simp [hl], by simp, h2, ?_, h3, h4, h5⟩
      · rw [if_pos hn, tries, hw]
      · rw [statesOf, expand_append, expand_replicate, (bits_or (by decide)).1,
          (bits_or (by decide)).2]
    · obtain rfl : n = 0 := by omega
      exact ⟨v, l, if_neg hn, h, hl, (Nat.zero_add _).symm, rfl, rfl, rfl, rfl, rfl⟩
  obtain ⟨w, m, hw, h1, h2, h3, h4, h5, h6, h7, h8⟩ := hfulls
  obtain ⟨u, hu, g1, g2, g3, g4, g5⟩ := @Stores.addItems_room w m h1 h2 .notRecv r 1 16 hr
    (by omega) (by omega)
  refine ⟨u, _, ?_, g1, by simp, ?_, ?_, by omega, g4.trans h7, g5.trans h8⟩
  · rw [hw, tries, hu]
  · rw [List.length_append, List.length_replicate]
    omega
  · rw [statesOf, expand_append, expand_replicate, (bits_or hr).1, (bits_or hr).2, Nat.mul_one]
    refine (congrArg (_ ++ ·) h5).trans ?_
    rw [← List.append_assoc, ← List.replicate_add]
    congr 2
    omega

theorem Stores.addState (h : v.Stores l) {seqnum : ℕ} (hseq : seqnum < 2 ^ 32)
    (hwrap : l ≠ [] → v.seq_head_ ≤ seqnum + 2 ^ 31) (state : PacketState) (t : ℕ) :
    Gives v l (if l = [] ∨ v.seq_head_ < seqnum then seqnum else v.seq_head_)
      (addedStates v.seq_head_ (statesOf l) seqnum state) (addState seqnum state t v) := by
  induction t generalizing v with
  | zero => exact .fail h
  | succ t ih =>
    rw [AckVector.addState]
    dsimp only
    by_cases hl : l = []
    · subst hl
      rw [if_pos (.inl rfl), if_pos (show v.size_ = 0 from h.size), addedStates, if_pos (statesOf_eq_nil.mpr rfl)]
      exact h.addFirst hseq state
    have hsize : ¬ v.size_ = 0 := fun hz => hl (h.size_eq_zero.mp hz)
    have hL : ¬ statesOf l = [] := fun hnil => hl (statesOf_eq_nil.mp hnil)
    rw [if_neg hsize]
    by_cases hnew : 0 < seqDist seqnum v.seq_head_
    · obtain ⟨hdist, hlt⟩ := seqDist_eq hseq (hwrap hl) hnew
      rw [addedStates, if_neg hL, if_pos hlt, if_pos (.inr hlt)]
      by_cases hgap : seqDist seqnum v.seq_head_ > 1
      · rw [if_pos hgap]
        have hg : (seqDist seqnum v.seq_head_ - 2).toNat = seqnum - v.seq_head_ - 2 := by omega
        rw [hg]
        by_cases hfull : v.size_ + (seqnum - v.seq_head_ - 2) / 64 + 1 + 1 > v.max_size_
        · rw [if_pos hfull]
          refine .doubleAnd h fun w hw hsame => ?_
          have hw' := ih hw (by rw [hsame.seq_head]; exact hwrap)
          rwa [addedStates, if_neg hL, hsame.seq_head, if_pos hlt, if_pos (.inr hlt)] at hw'
        rw [if_neg hfull]
        have hmiss := h.addMissing hl (n := (seqnum - v.seq_head_ - 2) / 64)
          (r := (seqnum - v.seq_head_ - 2) % 64) (Nat.mod_lt _ (by decide))
          (by rw [← h.size]; omega) (by omega)
        obtain ⟨w, m, hw, h1, h2, h3, h4, h5, h6, h7⟩ := hmiss
        obtain ⟨u, hu, g1, g2, g3, g4, g5⟩ := @Stores.addItems_room w m h1 h2 state 0 1 16 (by decide)
          (by omega) (by omega)
        rw [hw, show tries = 16 + 1 from rfl, hu]
        refine .make g1 ?_ (by omega) (g4.trans h6) (g5.trans h7)
        rw [statesOf, expand_append, expand_replicate, (bits_or (by decide)).1,
          (bits_or (by decide)).2]
        refine (congrArg (_ ++ ·) h4).trans ?_
        rw [show 64 * ((seqnum - v.seq_head_ - 2) / 64) + (seqnum - v.seq_head_ - 2) % 64 + 1 =
          seqnum - v.seq_head_ - 1 by omega]
        rfl
      · have hone : seqDist seqnum v.seq_head_ = 1 := by omega
        have hnext : seqnum = v.seq_head_ + 1 := by omega
        rw [if_neg hgap, if_pos hone, hnext, show v.seq_head_ + 1 - v.seq_head_ - 1 = 0 by omega]
        by_cases hsame : runLength (v.vector_ v.head_) < 63 ∧ packetState (v.vector_ v.head_) = state
        · obtain ⟨c, B, rfl⟩ := List.exists_cons_of_ne_nil hl
          have hc := h.getItem (A := [])
          rw [show v.head_ + ([] : List Byte).length = v.head_ from rfl,
            Nat.mod_eq_of_lt (h.head hl)] at hc
          rw [if_pos hsame, hc]
          rw [hc] at hsame
          obtain ⟨hstores, hstates⟩ := h.extend hsame.1 (by omega)
          refine .make hstores ?_ rfl rfl rfl
          rw [hstates, hsame.2]
          rfl
        · rw [if_neg hsame]
          exact @Stores.addItems v l h hl state 0 1 tries (by decide) (by omega)
    · have hold1 : ¬ seqDist seqnum v.seq_head_ > 1 := by omega
      have hold2 : ¬ seqDist seqnum v.seq_head_ = 1 := by omega
      rw [if_neg hold1, if_neg hold2, h.getState_eq]
      by_cases hle : seqnum ≤ v.seq_head_
      · have hold3 : ¬ (l = [] ∨ v.seq_head_ < seqnum) := by
          rintro (hnil | hlt)
          · exact hl hnil
          · omega
        rw [if_pos hle, addedStates, if_neg hL, if_neg (show ¬ v.seq_head_ < seqnum by omega),
          if_neg hold3]
        cases hold : (statesOf l)[v.seq_head_ - seqnum]? with
        | none => exact .fail h
        | some old =>
          have hin := (List.getElem?_eq_some_iff.mp hold).1
          have hk : seqnum + (v.seq_head_ - seqnum) = v.seq_head_ := by omega
          have halter := h.alterState hk hin (old.cons state) tries
          have hmodify : (statesOf l).modify (v.seq_head_ - seqnum) (fun old => old.cons state) =
              (statesOf l).set (v.seq_head_ - seqnum) (old.cons state) := by
            rw [@List.modify_eq_set _ ⟨.recv⟩, hold]
            rfl
          rw [hmodify]
          exact halter
      · rw [if_neg hle]
        exact .fail h

/-- A packet that is older than the vector is refused. -/
theorem addState_old {seqnum t : ℕ} (hsize : v.size_ ≠ 0) (hle : seqnum ≤ v.seq_head_)
    (hwrap : v.seq_head_ ≤ seqnum + 2 ^ 31) (hnone : v.getState seqnum = none)
    (state : PacketState) : AckVector.addState seqnum state t v = (v, false) := by
  cases t with
  | zero => rfl
  | succ t =>
    have hdist : ¬ 0 < seqDist seqnum v.seq_head_ := fun hpos => by
      have hlt : seqnum < 2 ^ 32 ∨ 2 ^ 32 ≤ seqnum := by omega
      unfold seqDist at hpos
      rw [Int.bmod_def] at hpos
      push_cast at hpos
      split_ifs at hpos <;> omega
    have hold1 : ¬ seqDist seqnum v.seq_head_ > 1 := by omega
    have hold2 : ¬ seqDist seqnum v.seq_head_ = 1 := by omega
    rw [AckVector.addState]
    dsimp only
    rw [if_neg hsize, if_neg hold1, if_neg hold2, hnone]

end AckVector

end Ns2
