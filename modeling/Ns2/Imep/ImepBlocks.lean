import Ns2.Imep.ImepPacket

/-! What the ack and the hello block of a packet hold, and how they are read. -/

namespace Ns2

open ByteRecords

theorem ack_sizeAll (l : List ImepAck) : ackCodec.sizeAll l = 8 * l.length := by
  simp [Codec.sizeAll, ackCodec, sizeofAck, Nat.mul_comm]

theorem addr_sizeAll (l : List ImepAddr) : addrCodec.sizeAll l = 4 * l.length := by
  simp [Codec.sizeAll, addrCodec, Nat.mul_comm]

namespace ImepPacket

/-- A block of counted records stands from `start` to `stop`; without records there is no block. -/
structure Block {α : Type} (c : Codec α) (flag : BitVec 4) (p : ImepPacket) (start stop : ℕ)
    (l : List α) : Prop where
  flag : p.imep_block_flags &&& flag = 0 ↔ l = []
  stop : stop = start + if l = [] then 0 else 6 + c.sizeAll l
  count : l ≠ [] → (p.bytes start).toNat = l.length
  stored : l ≠ [] → c.Stored p.bytes (start + 6) l

theorem Block.congr {α : Type} {c : Codec α} {flag : BitVec 4} {p p' : ImepPacket}
    {start stop : ℕ} {l : List α} (h : Block c flag p start stop l)
    (hflag : p'.imep_block_flags &&& flag = p.imep_block_flags &&& flag)
    (hbytes : SameOn start stop p.bytes p'.bytes) : Block c flag p' start stop l where
  flag := hflag ▸ h.flag
  stop := h.stop
  count hl := by
    have hstop := h.stop
    rw [if_neg hl] at hstop
    rw [hbytes start le_rfl (by omega), h.count hl]
  stored hl := by
    have hstop := h.stop
    rw [if_neg hl] at hstop
    exact (h.stored hl).congr (hbytes.mono (by omega) (by omega))

theorem Block.count_pos {α : Type} {c : Codec α} {flag : BitVec 4} {p : ImepPacket}
    {start stop : ℕ} {l : List α} (h : Block c flag p start stop l) (hl : l ≠ []) :
    0 < (p.bytes start).toNat := by
  rw [h.count hl]
  exact List.length_pos_of_ne_nil hl

variable {p : ImepPacket} {e e' : ℕ} {acks : List ImepAck} {hellos : List ImepAddr}

theorem findAckBlock_eq (ha : Block ackCodec blockFlagAck p sizeofHdrImep e acks) :
    p.findAckBlock = some (if acks = [] then none else some sizeofHdrImep) := by
  by_cases hl : acks = []
  · rw [findAckBlock, if_pos (ha.flag.mpr hl), if_pos hl]
  · rw [findAckBlock, if_neg (fun h => hl (ha.flag.mp h)), if_pos (ha.count_pos hl), if_neg hl]

theorem acks_eq (ha : Block ackCodec blockFlagAck p sizeofHdrImep e acks) :
    p.acks = some acks := by
  rw [ImepPacket.acks, findAckBlock_eq ha]
  by_cases hl : acks = []
  · rw [if_pos hl, hl]
    rfl
  · rw [if_neg hl, Option.map_some, Option.elim_some, ha.count hl]
    exact congrArg some (ha.stored hl).readAll

/-- Where the blocks behind the acks start, as the reader finds it. -/
theorem behindAcks (ha : Block ackCodec blockFlagAck p sizeofHdrImep e acks) :
    acks = [] ∧ e = sizeofHdrImep ∨
      acks ≠ [] ∧ e = sizeofHdrImep + (p.bytes sizeofHdrImep).toNat * sizeofAck + sizeofAckBlock := by
  have hstop := ha.stop
  by_cases hl : acks = []
  · rw [if_pos hl] at hstop
    exact .inl ⟨hl, hstop⟩
  · rw [if_neg hl, ack_sizeAll] at hstop
    refine .inr ⟨hl, ?_⟩
    rw [ha.count hl, hstop]
    simp only [sizeofAck, sizeofAckBlock]
    omega

theorem findHelloBlock_eq (ha : Block ackCodec blockFlagAck p sizeofHdrImep e acks)
    (hh : Block addrCodec blockFlagHello p e e' hellos) :
    p.findHelloBlock = some (if hellos = [] then none else some e) := by
  by_cases hl : hellos = []
  · rw [findHelloBlock, if_pos (hh.flag.mpr hl), if_pos hl]
  · rw [findHelloBlock, if_neg (fun h => hl (hh.flag.mp h)), if_neg hl, findAckBlock_eq ha]
    rcases behindAcks ha with ⟨hnil, rfl⟩ | ⟨hne, he⟩
    · rw [if_neg (not_not.mpr (ha.flag.mpr hnil)), Option.bind_some, if_pos (hh.count_pos hl)]
    · have hb : sizeofHdrImep + sizeofAckBlock + (p.bytes sizeofHdrImep).toNat * sizeofAck = e := by
        omega
      rw [if_pos (fun h => hne (ha.flag.mp h)), if_neg hne, Option.bind_some, Option.map_some, hb,
        Option.bind_some, if_pos (hh.count_pos hl)]

theorem hellos_eq (ha : Block ackCodec blockFlagAck p sizeofHdrImep e acks)
    (hh : Block addrCodec blockFlagHello p e e' hellos) : p.hellos = some hellos := by
  rw [ImepPacket.hellos, findHelloBlock_eq ha hh]
  by_cases hl : hellos = []
  · rw [if_pos hl, hl]
    rfl
  · rw [if_neg hl, Option.map_some, Option.elim_some, hh.count hl]
    exact congrArg some (hh.stored hl).readAll

theorem findObjectBlock_none (h : p.imep_block_flags &&& blockFlagObject = 0) :
    p.findObjectBlock = some none := if_pos h

theorem findObjectBlock_eq (ha : Block ackCodec blockFlagAck p sizeofHdrImep e acks)
    (hh : Block addrCodec blockFlagHello p e e' hellos)
    (hflag : p.imep_block_flags &&& blockFlagObject ≠ 0)
    (htype : field p.bytes (e' + 1) 4 = protoTora) (hcount : 0 < field p.bytes (e' + 2) 7) :
    p.findObjectBlock = some (some e') := by
  have hello : (if p.imep_block_flags &&& blockFlagHello ≠ 0 then
      if 0 < (p.bytes e).toNat then
        some (e + (p.bytes e).toNat * sizeofHello + sizeofHelloBlock)
      else none
    else some e) = some e' := by
    have hstop := hh.stop
    by_cases hl : hellos = []
    · rw [if_pos hl, Nat.add_zero] at hstop
      rw [if_neg (not_not.mpr (hh.flag.mpr hl)), hstop]
    · rw [if_neg hl, addr_sizeAll] at hstop
      rw [if_pos (fun h => hl (hh.flag.mp h)), if_pos (hh.count_pos hl), hh.count hl, hstop]
      simp only [sizeofHello, sizeofHelloBlock, Option.some.injEq]
      omega
  rw [findObjectBlock, if_neg hflag]
  rcases behindAcks ha with ⟨hnil, rfl⟩ | ⟨hne, he⟩
  · rw [if_neg (not_not.mpr (ha.flag.mpr hnil)), Option.bind_some, hello, Option.bind_some,
      if_pos ⟨htype, hcount⟩]
  · rw [if_pos (fun h => hne (ha.flag.mp h)), if_pos (ha.count_pos hne), Option.bind_some, ← he,
      hello, Option.bind_some, if_pos ⟨htype, hcount⟩]

end ImepPacket

namespace ImepQueues

/-- The acks that the block has room for. -/
def acksPut (w : ImepQueues) : List ImepAck := w.ackQueue.take 62

def ackEnd (w : ImepQueues) : ℕ :=
  sizeofHdrImep + if w.acksPut = [] then 0 else sizeofAckBlock + sizeofAck * w.acksPut.length

theorem ackLoop_spec (p : ImepPacket) {ab ack : ℕ} (hab : ab < ack) (q : List ImepAck) :
    ∃ k, k = min q.length ((imepHdrLen - p.imep_length) / sizeofAck) ∧
      (ackLoop p ab ack q).2 = q.drop k ∧
      (ackLoop p ab ack q).1.imep_block_flags = p.imep_block_flags ∧
      (ackLoop p ab ack q).1.imep_length = p.imep_length + 8 * k ∧
      (ackLoop p ab ack q).1.bytes ab = p.bytes ab + BitVec.ofNat 8 k ∧
      (∀ i, i ≠ ab → i < ack ∨ ack + 8 * k ≤ i → (ackLoop p ab ack q).1.bytes i = p.bytes i) ∧
      ackCodec.Stored (ackLoop p ab ack q).1.bytes ack (q.take k) := by
  induction q generalizing p ack with
  | nil => exact ⟨0, by simp, rfl, rfl, rfl, by simp [ackLoop], fun _ _ _ => rfl, trivial⟩
  | cons a q ih =>
    by_cases hfull : p.imep_length + sizeofAck > imepHdrLen
    · refine ⟨0, ?_, ?_, ?_, ?_, ?_, fun _ _ _ => ?_, trivial⟩
      · simp only [sizeofAck, imepHdrLen] at hfull ⊢
        omega
      all_goals simp [ackLoop, hfull]
    · set m := ackCodec.write p.bytes ack a with hm
      obtain ⟨k, h1, h2, h3, h4, h5, h6, h7⟩ := ih { p with
        imep_length := p.imep_length + sizeofAck
        bytes := Function.update m ab (m ab + 1) } (show ab < ack + sizeofAck by
          simp only [sizeofAck]; omega)
      have hstep : ackLoop p ab ack (a :: q) = ackLoop { p with
          imep_length := p.imep_length + sizeofAck
          bytes := Function.update m ab (m ab + 1) } ab (ack + sizeofAck) q := by
        rw [ackLoop, if_neg hfull]
      simp only [sizeofAck, imepHdrLen] at hfull h1 h4 h6
      refine ⟨k + 1, ?_, ?_, ?_, ?_, ?_, fun i hi hout => ?_, ?_⟩
      · simp only [sizeofAck, imepHdrLen, List.length_cons]
        omega
      · rw [hstep, h2, List.drop_succ_cons]
      · rw [hstep, h3]
      · rw [hstep, sizeofAck, h4]
        omega
      · have hother : m ab = p.bytes ab := ackCodec.other _ _ _ _ (.inl hab)
        rw [hstep, h5]
        dsimp only
        rw [Function.update_self, hother, BitVec.add_assoc, Nat.add_comm k 1, BitVec.ofNat_add]
        rfl
      · rw [hstep, sizeofAck, h6 i hi (by omega), Function.update_of_ne hi]
        exact ackCodec.other _ _ _ _ (by simp only [ackCodec, sizeofAck]; omega)
      · rw [hstep, List.take_succ_cons]
        refine Codec.stored_cons (m := p.bytes) h7 fun i h8 h9 => ?_
        simp only [ackCodec, sizeofAck] at h9
        rw [sizeofAck, h6 i (by omega) (by omega)]
        exact Function.update_of_ne (by omega) _ _

theorem aggregateAckBlock_spec (w : ImepQueues) :
    ImepPacket.Block ackCodec blockFlagAck (w.aggregateAckBlock .alloc).1 sizeofHdrImep w.ackEnd
      w.acksPut ∧
      (w.aggregateAckBlock .alloc).1.imep_length = w.ackEnd ∧
      (∀ i, w.ackEnd ≤ i → (w.aggregateAckBlock .alloc).1.bytes i = 0) ∧
      (w.aggregateAckBlock .alloc).1.imep_block_flags &&& blockFlagHello = 0 ∧
      (w.aggregateAckBlock .alloc).1.imep_block_flags &&& blockFlagObject = 0 ∧
      (w.aggregateAckBlock .alloc).2 = { w with ackQueue := w.ackQueue.drop 62 } := by
  by_cases hq : w.ackQueue = []
  · have hput : w.acksPut = [] := by rw [acksPut, hq, List.take_nil]
    have hsame : w.aggregateAckBlock .alloc = (.alloc, w) := if_pos hq
    rw [hsame]
    have hflags : ∀ flag : BitVec 4, (0 : BitVec 4) &&& flag = 0 := fun flag => by simp
    refine ⟨⟨⟨fun _ => hput, fun _ => hflags _⟩, ?_, fun h => absurd hput h,
      fun h => absurd hput h⟩, ?_, fun _ _ => rfl, hflags _, hflags _, ?_⟩
    · rw [ackEnd, if_pos hput, if_pos hput]
    · rw [ackEnd, if_pos hput]
      rfl
    · obtain ⟨links, seq, acks, hellos, objects⟩ := w
      obtain rfl : acks = [] := hq
      rfl
  · have hput : w.acksPut ≠ [] := by
      rw [acksPut]
      simpa using hq
    obtain ⟨k, h1, h2, h3, h4, h5, h6, h7⟩ := ackLoop_spec
      { imep_block_flags := (0 : BitVec 4) ||| blockFlagAck
        imep_length := sizeofHdrImep + sizeofAckBlock
        bytes := Function.update (fun _ => 0) sizeofHdrImep 0 }
      (show sizeofHdrImep < sizeofHdrImep + sizeofAckBlock by decide) w.ackQueue
    have hrun : w.aggregateAckBlock .alloc = ((ackLoop
        { imep_block_flags := (0 : BitVec 4) ||| blockFlagAck
          imep_length := sizeofHdrImep + sizeofAckBlock
          bytes := Function.update (fun _ => 0) sizeofHdrImep 0 } sizeofHdrImep
          (sizeofHdrImep + sizeofAckBlock) w.ackQueue).1, { w with ackQueue := w.ackQueue.drop k }) := by
      rw [aggregateAckBlock, if_neg hq, ← h2]
      rfl
    have hk : k = min w.ackQueue.length 62 := h1
    have hcut : w.ackQueue.take k = w.acksPut ∧ w.ackQueue.drop k = w.ackQueue.drop 62 := by
      rw [hk, acksPut]
      rcases le_total w.ackQueue.length 62 with h | h
      · rw [min_eq_left h, List.take_length, List.take_of_length_le h, List.drop_length,
          List.drop_of_length_le h]
        exact ⟨rfl, rfl⟩
      · rw [min_eq_right h]
        exact ⟨rfl, rfl⟩
    have htake := hcut.1
    have hlen : w.acksPut.length = k := by rw [← htake, List.length_take]; omega
    have hend : w.ackEnd = 10 + 8 * k := by
      rw [ackEnd, if_neg hput, hlen]
      simp only [sizeofHdrImep, sizeofAckBlock, sizeofAck]
      omega
    rw [hrun]
    refine ⟨⟨?_, ?_, fun _ => ?_, fun _ => ?_⟩, ?_, fun i hi => ?_, ?_, ?_, ?_⟩
    · rw [h3]
      exact ⟨fun h => absurd h (by decide), fun h => absurd h hput⟩
    · rw [if_neg hput, ack_sizeAll, hlen, hend]
      simp only [sizeofHdrImep]
      omega
    · rw [h5, hlen]
      dsimp only
      rw [Function.update_self]
      rw [BitVec.toNat_add, BitVec.toNat_ofNat]
      change (0 + k % 2 ^ 8) % 2 ^ 8 = k
      omega
    · rw [← htake]
      exact h7
    · rw [h4, hend]
      rfl
    · simp only [sizeofHdrImep, sizeofAckBlock] at h6 ⊢
      rw [h6 i (by omega) (by omega)]
      exact Function.update_of_ne (by omega) _ _
    · rw [h3]
      decide
    · rw [h3]
      decide
    · rw [hcut.2]

/-- The neighbours of the queue that are known and get their hello now. -/
def helloTargets (now : ℚ) (links : List ImepLink) : List ImepAddr → List ImepAddr
  | [] => []
  | a :: q =>
    match findLink links a with
    | some l =>
      if now ≠ l.last_echo_ then a :: helloTargets now (setEcho now links a) q
      else helloTargets now links q
    | none => helloTargets now links q

def hellosPut (now : ℚ) (w : ImepQueues) : List ImepAddr :=
  (helloTargets now w.links w.helloQueue).take
    ((imepHdrLen - w.ackEnd - sizeofHelloBlock) / sizeofHello)

def helloEnd (now : ℚ) (w : ImepQueues) : ℕ :=
  w.ackEnd +
    if w.hellosPut now = [] then 0 else sizeofHelloBlock + sizeofHello * (w.hellosPut now).length

theorem biLinks_setEcho (now : ℚ) (links : List ImepLink) (a : ImepAddr) :
    biLinks (setEcho now links a) = biLinks links := by
  induction links with
  | nil => rfl
  | cons l ls ih =>
    unfold biLinks at ih ⊢
    unfold setEcho
    split_ifs with h
    · by_cases hs : l.status_ = linkBi <;> simp [hs]
    · by_cases hs : l.status_ = linkBi <;> simp [hs, ih]

theorem helloLoop_spec (now : ℚ) (p : ImepPacket) (links : List ImepLink) (hello n : ℕ)
    (q : List ImepAddr) :
    ∃ put taken, put = (helloTargets now links q).take ((imepHdrLen - p.imep_length) / sizeofHello) ∧
      q = taken ++ (helloLoop now p links hello n q).2.2.2 ∧ helloTargets now links taken = put ∧
      biLinks (helloLoop now p links hello n q).2.1 = biLinks links ∧
      (helloLoop now p links hello n q).2.2.1 = n + put.length ∧
      (helloLoop now p links hello n q).1.imep_block_flags = p.imep_block_flags ∧
      (helloLoop now p links hello n q).1.imep_length = p.imep_length + 4 * put.length ∧
      (∀ i, i < hello ∨ hello + 4 * put.length ≤ i →
        (helloLoop now p links hello n q).1.bytes i = p.bytes i) ∧
      addrCodec.Stored (helloLoop now p links hello n q).1.bytes hello put := by
  induction q generalizing p links hello n with
  | nil => exact ⟨[], [], by simp [helloTargets], rfl, rfl, rfl, rfl, rfl, rfl, fun _ _ => rfl, trivial⟩
  | cons a q ih =>
    by_cases hfull : p.imep_length + sizeofHello > imepHdrLen
    · have hrun : helloLoop now p links hello n (a :: q) = (p, links, n, a :: q) := if_pos hfull
      have hzero : (imepHdrLen - p.imep_length) / sizeofHello = 0 := by
        simp only [sizeofHello, imepHdrLen] at hfull ⊢
        omega
      rw [hrun]
      exact ⟨[], [], by rw [hzero, List.take_zero], rfl, rfl, rfl, rfl, rfl, rfl, fun _ _ => rfl,
        trivial⟩
    · by_cases hgoes : ∃ l, findLink links a = some l ∧ now ≠ l.last_echo_
      · obtain ⟨l, hl, hecho⟩ := hgoes
        obtain ⟨put, taken, h1, h2, h3, h4, h5, h6, h7, h8, h9⟩ := ih { p with
          imep_length := p.imep_length + sizeofHello
          bytes := putWord p.bytes hello a } (setEcho now links a) (hello + sizeofHello) (n + 1)
        have hrun : helloLoop now p links hello n (a :: q) = helloLoop now { p with
            imep_length := p.imep_length + sizeofHello
            bytes := putWord p.bytes hello a } (setEcho now links a) (hello + sizeofHello) (n + 1)
            q := by
          simp only [helloLoop, if_neg hfull, hl, if_pos hecho]
        have htargets : ∀ q', helloTargets now links (a :: q') =
            a :: helloTargets now (setEcho now links a) q' := fun q' => by
          simp only [helloTargets, hl, if_pos hecho]
        have hroom : (imepHdrLen - p.imep_length) / sizeofHello =
            (imepHdrLen - (p.imep_length + sizeofHello)) / sizeofHello + 1 := by
          simp only [sizeofHello, imepHdrLen] at hfull ⊢
          omega
        rw [hrun]
        refine ⟨a :: put, a :: taken, ?_, ?_, ?_, ?_, ?_, h6, ?_, fun i hi => ?_, ?_⟩
        · rw [htargets, hroom, List.take_succ_cons, h1]
        · exact congrArg (a :: ·) h2
        · rw [htargets, h3]
        · rw [h4, biLinks_setEcho]
        · rw [h5, List.length_cons]
          omega
        · rw [h7, List.length_cons]
          simp only [sizeofHello]
          omega
        · rw [List.length_cons] at hi
          simp only [sizeofHello] at h8 ⊢
          rw [h8 i (by omega)]
          exact putBytes_other (by simp only [leBytes, List.length]; omega)
        · refine Codec.stored_cons (m := p.bytes) h9 fun i h10 h11 => ?_
          exact h8 i (.inl h11)
      · have htargets : ∀ q', helloTargets now links (a :: q') = helloTargets now links q' := by
          intro q'
          cases hl : findLink links a with
          | none => simp only [helloTargets, hl]
          | some l =>
            simp only [helloTargets, hl, if_neg fun h => hgoes ⟨l, hl, h⟩]
        have hrun : helloLoop now p links hello n (a :: q) = helloLoop now p links hello n q := by
          cases hl : findLink links a with
          | none => simp only [helloLoop, if_neg hfull, hl]
          | some l =>
            simp only [helloLoop, if_neg hfull, hl, if_neg fun h => hgoes ⟨l, hl, h⟩]
        obtain ⟨put, taken, h1, h2, h3, hrest⟩ := ih p links hello n
        rw [hrun]
        exact ⟨put, a :: taken, by rw [htargets, h1], congrArg (a :: ·) h2, by rw [htargets, h3],
          hrest⟩

/-- What the hello block adds to a packet that ends behind the acks. -/
structure HelloDone (now : ℚ) (w : ImepQueues) (p p' : ImepPacket) (links : List ImepLink)
    (rest : List ImepAddr) : Prop where
  block : ImepPacket.Block addrCodec blockFlagHello p' w.ackEnd (w.helloEnd now) (w.hellosPut now)
  taken : ∃ taken, w.helloQueue = taken ++ rest ∧ helloTargets now w.links taken = w.hellosPut now
  links : biLinks links = biLinks w.links
  length : p'.imep_length = w.helloEnd now
  zero : ∀ i, w.helloEnd now ≤ i → p'.bytes i = 0
  same : SameOn 0 w.ackEnd p.bytes p'.bytes
  flags : ∀ flag : BitVec 4, blockFlagHello &&& flag = 0 →
    p'.imep_block_flags &&& flag = p.imep_block_flags &&& flag

theorem helloDone_none {now : ℚ} {w : ImepQueues} {p p' : ImepPacket} {links : List ImepLink}
    {rest : List ImepAddr} (hput : w.hellosPut now = []) (hlen : p.imep_length = w.ackEnd)
    (hflag : p.imep_block_flags &&& blockFlagHello = 0) (hzero : ∀ i, w.ackEnd ≤ i → p.bytes i = 0)
    (hlinks : biLinks links = biLinks w.links)
    (htaken : ∃ taken, w.helloQueue = taken ++ rest ∧ helloTargets now w.links taken = [])
    (hf : p'.imep_block_flags = p.imep_block_flags) (hl : p'.imep_length = p.imep_length)
    (hb : ∀ i, p'.bytes i = p.bytes i) : HelloDone now w p p' links rest := by
  have hend : w.helloEnd now = w.ackEnd := by rw [helloEnd, if_pos hput, Nat.add_zero]
  refine ⟨⟨?_, ?_, fun h => absurd hput h, fun h => absurd hput h⟩, ?_, hlinks, ?_, fun i hi => ?_,
    fun i _ _ => hb i, fun flag _ => by rw [hf]⟩
  · rw [hf]
    exact ⟨fun _ => hput, fun _ => hflag⟩
  · rw [if_pos hput, hend, Nat.add_zero]
  · rw [hput]
    exact htaken
  · rw [hl, hlen, hend]
  · rw [hb]
    exact hzero i (hend ▸ hi)

theorem aggregateHelloBlock_spec (now : ℚ) (w w' : ImepQueues) (p : ImepPacket)
    (hlinks : w'.links = w.links) (hqueue : w'.helloQueue = w.helloQueue)
    (hlen : p.imep_length = w.ackEnd) (hflag : p.imep_block_flags &&& blockFlagHello = 0)
    (hzero : ∀ i, w.ackEnd ≤ i → p.bytes i = 0) :
    ∃ p' links rest, w'.aggregateHelloBlock now p =
        (p', { w' with links := links, helloQueue := rest }) ∧
      HelloDone now w p p' links rest := by
  have hstay : w.hellosPut now = [] → w'.aggregateHelloBlock now p = (p, w') →
      ∃ p' links rest, w'.aggregateHelloBlock now p =
          (p', { w' with links := links, helloQueue := rest }) ∧
        HelloDone now w p p' links rest := fun hput hrun =>
    ⟨p, w'.links, w'.helloQueue, hrun, helloDone_none hput hlen hflag hzero (by rw [hlinks])
      ⟨[], by rw [hqueue, List.nil_append], rfl⟩ rfl rfl fun _ => rfl⟩
  by_cases hq : w.helloQueue = []
  · refine hstay ?_ (if_pos (hqueue.trans hq))
    rw [hellosPut, hq]
    exact List.take_nil
  · by_cases hfull : p.imep_length + sizeofHelloBlock + sizeofHello > imepHdrLen
    · refine hstay ?_ ?_
      · have hnone : (imepHdrLen - w.ackEnd - sizeofHelloBlock) / sizeofHello = 0 := by
          simp only [hlen, imepHdrLen, sizeofHelloBlock, sizeofHello] at hfull ⊢
          omega
        rw [hellosPut, hnone, List.take_zero]
      · rw [aggregateHelloBlock, if_neg (hqueue ▸ hq), if_pos hfull]
    · obtain ⟨put, taken, h1, h2, h3, h4, h5, h6, h7, h8, h9⟩ := helloLoop_spec now
        { p with imep_length := p.imep_length + sizeofHelloBlock } w.links
        (p.imep_length + sizeofHelloBlock) 0 w.helloQueue
      have hput : put = w.hellosPut now := by
        rw [h1, hellosPut, ← hlen, Nat.sub_sub]
      subst hput
      rw [aggregateHelloBlock, if_neg (hqueue ▸ hq), if_neg hfull, hlinks, hqueue]
      dsimp only at h5 h6 h7 h8 ⊢
      set r := helloLoop now { p with imep_length := p.imep_length + sizeofHelloBlock } w.links
        (p.imep_length + sizeofHelloBlock) 0 w.helloQueue with hr
      by_cases hnil : w.hellosPut now = []
      · rw [hnil, List.length_nil] at h5 h7 h8
        rw [if_pos h5]
        refine ⟨_, _, _, rfl, helloDone_none hnil hlen hflag hzero h4 ⟨taken, h2, h3.trans hnil⟩ h6 ?_
          fun i => h8 i (by omega)⟩
        dsimp only
        rw [h7, Nat.mul_zero, Nat.add_zero, Nat.add_sub_cancel]
      · have hpos := List.length_pos_of_ne_nil hnil
        have hend : w.helloEnd now = w.ackEnd + (6 + 4 * (w.hellosPut now).length) := by
          rw [helloEnd, if_neg hnil]
          rfl
        have hsmall : (w.hellosPut now).length ≤ 126 := by
          rw [hellosPut, List.length_take]
          simp only [imepHdrLen, sizeofHelloBlock, sizeofHello]
          omega
        rw [Nat.zero_add] at h5
        rw [if_neg (by omega)]
        refine ⟨_, _, _, rfl, ⟨⟨?_, ?_, fun _ => ?_, fun _ => ?_⟩, ⟨taken, h2, h3⟩, h4, ?_,
          fun i hi => ?_, fun i _ hi => ?_, fun flag hdisj => ?_⟩⟩
        · rw [h6]
          refine ⟨fun h => absurd h ?_, fun h => absurd h hnil⟩
          have : ∀ f : BitVec 4, (f ||| blockFlagHello) &&& blockFlagHello ≠ 0 := by decide
          exact this _
        · rw [if_neg hnil, addr_sizeAll, hend]
        · dsimp only
          rw [← hlen, Function.update_self, h5, BitVec.toNat_ofNat]
          omega
        · refine Codec.Stored.congr (m := r.1.bytes) (hlen ▸ h9) fun i hi _ => ?_
          exact Function.update_of_ne (by omega) _ _
        · rw [h7, hlen, hend]
          simp only [sizeofHelloBlock]
          omega
        · simp only [sizeofHelloBlock] at h8
          dsimp only
          rw [Function.update_of_ne (by omega), h8 i (by omega)]
          exact hzero i (by omega)
        · dsimp only
          rw [Function.update_of_ne (by omega), h8 i (by omega)]
        · rw [h6]
          have : ∀ f g : BitVec 4, blockFlagHello &&& g = 0 →
              (f ||| blockFlagHello) &&& g = f &&& g := by decide
          exact this _ _ hdisj

end ImepQueues

end Ns2
