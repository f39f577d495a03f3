import Ns2.Imep.ImepBlocks

/-! When the receiver of a control packet finds in it what was put in. -/

namespace Ns2

open ByteRecords

theorem objectCodec_size (t : ToraPacket) :
    objectCodec.size t.object = 2 + toraHeaderLength t.th_type := by
  rw [← t.length]
  rfl

theorem toraHeaderLength_pos (t : ToraType) : 8 ≤ toraHeaderLength t := by cases t <;> decide

namespace ImepQueues

/-- The objects that fit behind the `used` bytes. -/
def fitting (used : ℕ) : List ToraPacket → List ToraPacket
  | [] => []
  | t :: q =>
    if used + (imepObjectSize + toraHeaderLength t.th_type) ≤ imepHdrLen then
      t :: fitting (used + (imepObjectSize + toraHeaderLength t.th_type)) q
    else []

def objectsPut (now : ℚ) (w : ImepQueues) : List ToraPacket :=
  fitting (w.helloEnd now + imepObjectBlockSize + w.getResponseListSize) w.objectQueue

def respondersPut (now : ℚ) (w : ImepQueues) : List ImepAddr :=
  if w.objectsPut now = [] then [] else biLinks w.links

/-- The bytes of the objects. -/
def objectBytes (now : ℚ) (w : ImepQueues) : ℕ :=
  objectCodec.sizeAll ((w.objectsPut now).map ToraPacket.object)

theorem objectLoop_spec (p : ImepPacket) {used len : ℕ} (hused : used = p.imep_length + len)
    (object n : ℕ) (q : List ToraPacket) :
    q = fitting used q ++ (objectLoop p len object n q).2.2 ∧
      (objectLoop p len object n q).2.1 = n + (fitting used q).length ∧
      (objectLoop p len object n q).1.imep_block_flags = p.imep_block_flags ∧
      (objectLoop p len object n q).1.imep_length =
        p.imep_length + objectCodec.sizeAll ((fitting used q).map ToraPacket.object) ∧
      (∀ i, i < object ∨
          object + objectCodec.sizeAll ((fitting used q).map ToraPacket.object) ≤ i →
        (objectLoop p len object n q).1.bytes i = p.bytes i) ∧
      objectCodec.Stored (objectLoop p len object n q).1.bytes object
        ((fitting used q).map ToraPacket.object) := by
  induction q generalizing p used object n with
  | nil => exact ⟨rfl, rfl, rfl, rfl, fun _ _ => rfl, trivial⟩
  | cons t q ih =>
    by_cases hfit : used + (imepObjectSize + toraHeaderLength t.th_type) ≤ imepHdrLen
    · obtain ⟨h1, h2, h3, h4, h5, h6⟩ := ih { p with
        imep_length := p.imep_length + (imepObjectSize + toraHeaderLength t.th_type)
        bytes := objectCodec.write p.bytes object t.object }
        (show used + (imepObjectSize + toraHeaderLength t.th_type) =
          p.imep_length + (imepObjectSize + toraHeaderLength t.th_type) + len by omega)
        (object + imepObjectSize + toraHeaderLength t.th_type) (n + 1)
      have hput : fitting used (t :: q) =
          t :: fitting (used + (imepObjectSize + toraHeaderLength t.th_type)) q := if_pos hfit
      have hrun : objectLoop p len object n (t :: q) = objectLoop { p with
          imep_length := p.imep_length + (imepObjectSize + toraHeaderLength t.th_type)
          bytes := objectCodec.write p.bytes object t.object } len
          (object + imepObjectSize + toraHeaderLength t.th_type) (n + 1) q := by
        rw [objectLoop]
        exact if_neg (by omega)
      have hsize := objectCodec_size t
      rw [hrun, hput, List.map_cons, Codec.sizeAll_cons, hsize]
      simp only [imepObjectSize] at h1 h2 h3 h4 h5 h6 ⊢
      refine ⟨?_, ?_, h3, ?_, fun i hi => ?_, ?_⟩
      · rw [List.cons_append]
        exact congrArg (t :: ·) h1
      · rw [h2, List.length_cons]
        omega
      · rw [h4]
        omega
      · rw [h5 i (by omega)]
        exact objectCodec.other _ _ _ _ (by rw [hsize]; omega)
      · refine Codec.stored_cons (m := p.bytes) ?_ fun i hi1 hi2 => ?_
        · rw [hsize, ← Nat.add_assoc object]
          exact h6
        · rw [hsize] at hi2
          exact h5 i (.inl (by omega))
    · have hput : fitting used (t :: q) = [] := if_neg hfit
      have hrun : objectLoop p len object n (t :: q) = (p, n, t :: q) := by
        rw [objectLoop]
        exact if_pos (by omega)
      rw [hrun, hput]
      exact ⟨rfl, rfl, rfl, rfl, fun _ _ => rfl, trivial⟩

theorem responseLoop_spec (p : ImepPacket) {ob r : ℕ} (hob : ob + 3 < r) (l : List ImepAddr) :
    (responseLoop p ob r l).imep_block_flags = p.imep_block_flags ∧
      (responseLoop p ob r l).imep_length = p.imep_length + 4 * l.length ∧
      field (responseLoop p ob r l).bytes (ob + 3) 5 = (field p.bytes (ob + 3) 5 + l.length) % 32 ∧
      (∀ i, i ≠ ob + 3 → i < r ∨ r + 4 * l.length ≤ i →
        (responseLoop p ob r l).bytes i = p.bytes i) ∧
      addrCodec.Stored (responseLoop p ob r l).bytes r l := by
  induction l generalizing p r with
  | nil =>
    refine ⟨rfl, rfl, ?_, fun _ _ _ => rfl, trivial⟩
    change field p.bytes (ob + 3) 5 = _
    have : field p.bytes (ob + 3) 5 < 32 := Nat.mod_lt _ (by decide)
    simp only [List.length_nil]
    omega
  | cons a l ih =>
    set m := setField p.bytes (ob + 3) 5 (field p.bytes (ob + 3) 5 + 1) with hm
    obtain ⟨h1, h2, h3, h4, h5⟩ := ih { p with
      imep_length := p.imep_length + sizeofResponse
      bytes := putWord m r a } (show ob + 3 < r + sizeofResponse by omega)
    have hrun : responseLoop p ob r (a :: l) = responseLoop { p with
      imep_length := p.imep_length + sizeofResponse
      bytes := putWord m r a } ob (r + sizeofResponse) l := rfl
    rw [hrun]
    simp only [sizeofResponse] at h1 h2 h3 h4 h5 ⊢
    refine ⟨h1, ?_, ?_, fun i hi1 hi2 => ?_, ?_⟩
    · rw [h2, List.length_cons]
      omega
    · have hput : putWord m r a (ob + 3) = m (ob + 3) := putBytes_other (.inl hob)
      have hfield : field (putWord m r a) (ob + 3) 5 = (field p.bytes (ob + 3) 5 + 1) % 32 := by
        rw [field, hput]
        exact field_setField (m := p.bytes) _ (by omega)
      rw [h3, hfield, List.length_cons]
      omega
    · rw [List.length_cons] at hi2
      rw [h4 i hi1 (by omega)]
      have hput : putWord m r a i = m i :=
        putBytes_other (by simp only [leBytes, List.length]; omega)
      exact hput.trans (setField_other hi1)
    · refine Codec.stored_cons (m := m) h5 fun i hi1 hi2 => ?_
      exact h4 i (by omega) (.inl hi2)

/-- The packet behind the acks and the hellos. -/
structure Ready (now : ℚ) (w : ImepQueues) (p : ImepPacket) (w' : ImepQueues) : Prop where
  acks : ImepPacket.Block ackCodec blockFlagAck p sizeofHdrImep w.ackEnd w.acksPut
  hellos : ImepPacket.Block addrCodec blockFlagHello p w.ackEnd (w.helloEnd now) (w.hellosPut now)
  length : p.imep_length = w.helloEnd now
  zero : ∀ i, w.helloEnd now ≤ i → p.bytes i = 0
  flag : p.imep_block_flags &&& blockFlagObject = 0
  links : biLinks w'.links = biLinks w.links
  ackQueue : w.ackQueue = w.acksPut ++ w'.ackQueue
  helloQueue : ∃ taken, w.helloQueue = taken ++ w'.helloQueue ∧
    helloTargets now w.links taken = w.hellosPut now
  objectQueue : w'.objectQueue = w.objectQueue

/-- What `makePacket` has done before it turns to the objects. -/
def aggregateHead (now : ℚ) (w : ImepQueues) : ImepPacket × ImepQueues :=
  (w.aggregateAckBlock .alloc).2.aggregateHelloBlock now (w.aggregateAckBlock .alloc).1

theorem ready (now : ℚ) (w : ImepQueues) :
    Ready now w (w.aggregateHead now).1 (w.aggregateHead now).2 := by
  obtain ⟨h1, h2, h3, h4, h5, h6⟩ := aggregateAckBlock_spec w
  obtain ⟨p, links, rest, h7, h8⟩ := aggregateHelloBlock_spec now w
    (w.aggregateAckBlock .alloc).2 (w.aggregateAckBlock .alloc).1 (by rw [h6]) (by rw [h6]) h2 h4 h3
  rw [h6] at h7
  rw [aggregateHead, h6, h7]
  refine ⟨h1.congr (h8.flags _ (by decide)) (h8.same.mono (Nat.zero_le _) le_rfl), h8.block,
    h8.length, h8.zero, (h8.flags _ (by decide)).trans h5, h8.links, ?_, h8.taken, rfl⟩
  exact (List.take_append_drop 62 w.ackQueue).symm

theorem makePacket_head (now : ℚ) (w : ImepQueues) :
    w.makePacket now = (w.aggregateHead now).2.aggregateObjectBlock (w.aggregateHead now).1 := rfl

theorem helloEnd_le (now : ℚ) (w : ImepQueues) : w.ackEnd ≤ w.helloEnd now ∧
    w.helloEnd now ≤ imepHdrLen := by
  have hacks : w.acksPut.length ≤ 62 := by
    rw [acksPut, List.length_take]
    exact min_le_left _ _
  have hack : w.ackEnd ≤ 506 := by
    rw [ackEnd]
    simp only [sizeofHdrImep, sizeofAckBlock, sizeofAck]
    split_ifs <;> omega
  have hhellos : (w.hellosPut now).length ≤ (imepHdrLen - w.ackEnd - sizeofHelloBlock) / 4 := by
    rw [hellosPut, List.length_take]
    exact min_le_left _ _
  rw [helloEnd]
  simp only [imepHdrLen, sizeofHelloBlock, sizeofHello] at hhellos ⊢
  split_ifs <;> omega

theorem fitting_le {used : ℕ} {q : List ToraPacket} (h : fitting used q ≠ []) :
    used + objectCodec.sizeAll ((fitting used q).map ToraPacket.object) ≤ imepHdrLen := by
  induction q generalizing used with
  | nil => exact absurd rfl h
  | cons t q ih =>
    by_cases hfit : used + (imepObjectSize + toraHeaderLength t.th_type) ≤ imepHdrLen
    · rw [fitting, if_pos hfit, List.map_cons, Codec.sizeAll_cons, objectCodec_size]
      by_cases hnil : fitting (used + (imepObjectSize + toraHeaderLength t.th_type)) q = []
      · rw [hnil]
        exact hfit
      · have := ih hnil
        simp only [imepObjectSize] at this hfit ⊢
        omega
    · exact absurd (if_neg hfit) h

theorem length_le_sizeAll (l : List ToraPacket) :
    10 * l.length ≤ objectCodec.sizeAll (l.map ToraPacket.object) := by
  induction l with
  | nil => exact Nat.zero_le _
  | cons t l ih =>
    have := toraHeaderLength_pos t.th_type
    rw [List.map_cons, Codec.sizeAll_cons, objectCodec_size, List.length_cons]
    omega

/-- A packet with an object block behind the hellos, and the response list over its last byte. -/
structure Placed (now : ℚ) (w : ImepQueues) (q : ImepPacket) : Prop where
  acks : ImepPacket.Block ackCodec blockFlagAck q sizeofHdrImep w.ackEnd w.acksPut
  hellos : ImepPacket.Block addrCodec blockFlagHello q w.ackEnd (w.helloEnd now) (w.hellosPut now)
  found : q.findObjectBlock = some (some (w.helloEnd now))
  objects : field q.bytes (w.helloEnd now + 2) 7 = (w.objectsPut now).length
  responses : field q.bytes (w.helloEnd now + 3) 5 = (biLinks w.links).length % 32
  memory : ∃ m : Memory, objectCodec.Stored m (w.helloEnd now + sizeofObjectBlock)
      ((w.objectsPut now).map ToraPacket.object) ∧
    (∀ i, w.helloEnd now + sizeofObjectBlock + w.objectBytes now ≤ i → m i = 0) ∧
    ∀ i, w.helloEnd now + sizeofObjectBlock ≤ i →
      i < w.helloEnd now + imepObjectBlockSize + w.objectBytes now ∨
        w.helloEnd now + imepObjectBlockSize + w.objectBytes now + 4 * (biLinks w.links).length ≤ i →
      q.bytes i = m i
  stored : addrCodec.Stored q.bytes (w.helloEnd now + imepObjectBlockSize + w.objectBytes now)
    (biLinks w.links)

variable {now : ℚ} {w w' : ImepQueues} {p q : ImepPacket}

/-- Bytes behind the hellos do not disturb the blocks before them. -/
theorem Ready.found (h : Ready now w p w')
    (hflag : q.imep_block_flags = p.imep_block_flags ||| blockFlagObject)
    (hsame : SameOn 0 (w.helloEnd now) p.bytes q.bytes)
    (htype : field q.bytes (w.helloEnd now + 1) 4 = protoTora)
    (hcount : 0 < field q.bytes (w.helloEnd now + 2) 7) :
    ImepPacket.Block ackCodec blockFlagAck q sizeofHdrImep w.ackEnd w.acksPut ∧
      ImepPacket.Block addrCodec blockFlagHello q w.ackEnd (w.helloEnd now) (w.hellosPut now) ∧
      q.findObjectBlock = some (some (w.helloEnd now)) := by
  have hkeep : ∀ f g : BitVec 4, blockFlagObject &&& g = 0 →
      (f ||| blockFlagObject) &&& g = f &&& g := by decide
  have hset : ∀ f : BitVec 4, (f ||| blockFlagObject) &&& blockFlagObject ≠ 0 := by decide
  have ha := h.acks.congr (by rw [hflag]; exact hkeep _ _ (by decide))
    (hsame.mono (Nat.zero_le _) (helloEnd_le now w).1)
  have hh := h.hellos.congr (by rw [hflag]; exact hkeep _ _ (by decide))
    (hsame.mono (Nat.zero_le _) le_rfl)
  exact ⟨ha, hh, ImepPacket.findObjectBlock_eq ha hh (by rw [hflag]; exact hset _) htype hcount⟩

theorem field_congr {m m' : Memory} {off width : ℕ} (h : m' off = m off) :
    field m' off width = field m off width := by rw [field, h, field]

/-- The head of the object block, written over zeros. -/
def objectHead (m : Memory) (ob : ℕ) : Memory :=
  setField (setField (Function.update m ob 0) (ob + 1) 4 protoTora) (ob + 3) 5 0

theorem objectHead_other {m : Memory} {ob i : ℕ} (h : i < ob ∨ ob + 4 ≤ i) :
    objectHead m ob i = m i := by
  rw [objectHead, setField_other (by omega), setField_other (by omega),
    Function.update_of_ne (by omega)]

theorem Ready.placed (h : Ready now w p w') (hput : w.objectsPut now ≠ []) :
    ∃ q w'', w'.aggregateObjectBlock p = some (q, w'') ∧ Placed now w q ∧
      w''.ackQueue = w'.ackQueue ∧ w''.helloQueue = w'.helloQueue ∧
      w.objectQueue = w.objectsPut now ++ w''.objectQueue := by
  have hresp : w'.getResponseListSize = w.getResponseListSize := by
    rw [getResponseListSize, h.links, getResponseListSize]
  set start := w.helloEnd now with hstart
  obtain ⟨h1, h2, h3, h4, h5, h6⟩ := objectLoop_spec
    { p with imep_length := start + imepObjectBlockSize, bytes := objectHead p.bytes start }
    (show start + imepObjectBlockSize + w.getResponseListSize =
      start + imepObjectBlockSize + w'.getResponseListSize by rw [hresp])
    (start + sizeofObjectBlock) 0 w'.objectQueue
  have hfit : fitting (start + imepObjectBlockSize + w.getResponseListSize) w'.objectQueue =
      w.objectsPut now := by rw [h.objectQueue, objectsPut]
  have hroom : start + imepObjectBlockSize + w.getResponseListSize + w.objectBytes now ≤
      imepHdrLen := fitting_le hput
  have hcount : 10 * (w.objectsPut now).length ≤ w.objectBytes now := length_le_sizeAll _
  have hpos := List.length_pos_of_ne_nil hput
  have hq : w'.objectQueue ≠ [] := fun hnil => hput (by rw [← hfit, hnil]; rfl)
  rw [hfit] at h1 h2 h4 h5 h6
  set r := objectLoop
    { p with imep_length := start + imepObjectBlockSize, bytes := objectHead p.bytes start }
    w'.getResponseListSize (start + sizeofObjectBlock) 0 w'.objectQueue with hr
  have hlength : r.1.imep_length = start + imepObjectBlockSize + w.objectBytes now := h4
  simp only [imepObjectBlockSize, imepHdrLen, sizeofObjectBlock] at hroom h5 h6 hlength
  have hobjects : ∀ i, i < start + 5 ∨ start + 5 + w.objectBytes now ≤ i →
      r.1.bytes i = objectHead p.bytes start i := h5
  set p₂ : ImepPacket := { r.1 with
    imep_block_flags := r.1.imep_block_flags ||| blockFlagObject
    bytes := setField r.1.bytes (start + 2) 7 r.2.1 } with hp₂
  have hle : r.1.imep_length ≤ imepHdrLen := by
    rw [hlength]
    simp only [imepHdrLen]
    omega
  have hne : r.2.1 ≠ 0 := by
    rw [h2]
    omega
  have hrun : w'.aggregateObjectBlock p =
      createResponseList { w' with objectQueue := r.2.2 } p₂ := by
    rw [aggregateObjectBlock, if_neg hq, h.length]
    dsimp only
    rw [if_neg (by simp only [imepHdrLen]; omega)]
    exact (if_pos hle).trans (if_neg hne)
  have hbelow : ∀ i < start, p₂.bytes i = p.bytes i := fun i hi => by
    have hset : p₂.bytes i = r.1.bytes i := setField_other (by omega)
    rw [hset, hobjects i (by omega), objectHead_other (by omega)]
  have htype : field p₂.bytes (start + 1) 4 = protoTora := by
    have hset : p₂.bytes (start + 1) = r.1.bytes (start + 1) := setField_other (by omega)
    rw [field_congr (hset.trans (hobjects _ (by omega))), objectHead,
      field_congr (setField_other (by omega)), field_setField _ (by omega)]
    rfl
  have hnumber : field p₂.bytes (start + 2) 7 = (w.objectsPut now).length := by
    have hset : field p₂.bytes (start + 2) 7 = r.2.1 % 2 ^ 7 := field_setField _ (by omega)
    rw [hset, h2]
    omega
  have hflags : p₂.imep_block_flags = p.imep_block_flags ||| blockFlagObject := by
    rw [hp₂]
    exact congrArg (· ||| blockFlagObject) h3
  obtain ⟨-, -, hfound⟩ := h.found hflags (fun i _ hi => hbelow i hi) htype (by rw [hnumber]; exact hpos)
  set m := Function.update p₂.bytes start ((w'.controlSequence + 1).setWidth 8) with hm
  have hm_other : ∀ i, i ≠ start → m i = p₂.bytes i := fun i hi => Function.update_of_ne hi _ _
  obtain ⟨h7, -, h9, h10, h11⟩ := responseLoop_spec { p₂ with bytes := m }
    (show start + 3 < r.1.imep_length by omega) (biLinks w'.links)
  rw [h.links] at h7 h9 h10 h11
  set q := responseLoop { p₂ with bytes := m } start r.1.imep_length (biLinks w.links) with hq'
  have hbytes : ∀ i, i ≠ start → i ≠ start + 2 → i ≠ start + 3 →
      i < start + 4 + w.objectBytes now ∨
        start + 4 + w.objectBytes now + 4 * (biLinks w.links).length ≤ i →
      q.bytes i = r.1.bytes i := fun i h0 h2 h3 hi => by
    rw [h10 i h3 (by omega)]
    dsimp only
    rw [hm_other i h0]
    exact setField_other h2
  have hsame : ∀ i < start, q.bytes i = p.bytes i := fun i hi => by
    rw [hbytes i (by omega) (by omega) (by omega) (by omega), hobjects i (by omega),
      objectHead_other (by omega)]
  have hnumber' : field q.bytes (start + 2) 7 = (w.objectsPut now).length := by
    have hset : q.bytes (start + 2) = p₂.bytes (start + 2) := by
      rw [h10 _ (by omega) (by omega)]
      exact hm_other _ (by omega)
    rw [field_congr hset, hnumber]
  have htype' : field q.bytes (start + 1) 4 = protoTora := by
    have hset : q.bytes (start + 1) = p₂.bytes (start + 1) := by
      rw [h10 _ (by omega) (by omega)]
      exact hm_other _ (by omega)
    rw [field_congr hset, htype]
  obtain ⟨hacks, hhellos, hfound'⟩ := h.found (h7.trans hflags) (fun i _ hi => hsame i hi) htype'
    (by rw [hnumber']; exact hpos)
  refine ⟨q, { w' with
      objectQueue := r.2.2
      controlSequence := w'.controlSequence + 1 }, ?_, ⟨hacks, hhellos, hfound', hnumber', ?_,
    ⟨r.1.bytes, h6, fun i hi => ?_, fun i hi hout => ?_⟩, ?_⟩, rfl, rfl, ?_⟩
  · rw [hrun, createResponseList, hfound, Option.bind_some]
    dsimp only
    rw [h.links]
  · rw [h9]
    have hzero : field m (start + 3) 5 = 0 := by
      have hset : p₂.bytes (start + 3) = r.1.bytes (start + 3) := setField_other (by omega)
      rw [field_congr ((hm_other _ (by omega)).trans (hset.trans (hobjects _ (by omega)))),
        objectHead, field_setField _ (by omega)]
      rfl
    rw [hzero, Nat.zero_add]
  · simp only [sizeofObjectBlock] at hi
    rw [hobjects i (.inr hi), objectHead_other (by omega)]
    exact h.zero i (by omega)
  · simp only [sizeofObjectBlock, imepObjectBlockSize] at hi hout
    exact hbytes i (by omega) (by omega) (by omega) hout
  · rw [hlength] at h11
    exact h11
  · rw [← h.objectQueue]
    exact h1

theorem addr_readAll (m : Memory) (off n : ℕ) :
    addrCodec.readAll m off n = (List.range n).map fun j => word m (off + 4 * j) := by
  induction n generalizing off with
  | zero => rfl
  | succ n ih =>
    rw [List.range_succ_eq_map, List.map_cons, List.map_map]
    refine congrArg₂ List.cons rfl ((ih (off + 4)).trans (List.map_congr_left fun j _ => ?_))
    rw [Function.comp_apply, Nat.mul_succ, Nat.add_assoc, Nat.add_comm 4]

theorem word_eq_iff {m m' : Memory} {off off' : ℕ} :
    word m off = word m' off' ↔ ∀ k < 4, m (off + k) = m' (off' + k) := by
  constructor
  · intro h k hk
    have hbyte : ∀ (m : Memory) (off : ℕ), m (off + k) = (word m off).extractLsb' (8 * k) 8 := by
      intro m off
      apply BitVec.eq_of_getLsbD_eq
      intro i hi
      simp only [word, BitVec.getLsbD_extractLsb', BitVec.getLsbD_append, hi, decide_true,
        Bool.true_and]
      interval_cases k
      · simp [hi]
      · simp [show ¬8 * 1 + i < 8 by omega, hi]
      · simp [show ¬8 * 2 + i < 8 by omega, show ¬8 * 2 + i - 8 < 8 by omega, hi,
          show 8 * 2 + i - 8 - 8 = i by omega]
      · simp [show ¬8 * 3 + i < 8 by omega, show ¬8 * 3 + i - 8 < 8 by omega,
          show ¬8 * 3 + i - 8 - 8 < 8 by omega, show 8 * 3 + i - 8 - 8 - 8 = i by omega]
    rw [hbyte m off, hbyte m' off', h]
  · intro h
    rw [word, word, h 3 (by omega), h 2 (by omega), h 1 (by omega), show m off = m' off' from
      h 0 (by omega)]

theorem word_zero {m : Memory} {off : ℕ} : word m off = 0 ↔ ∀ k < 4, m (off + k) = 0 :=
  @word_eq_iff m (fun _ => 0) off 0

/-- The last byte of an object is read where it ends. -/
theorem readAll_last {m : Memory} {off : ℕ} {l : List ImepObject}
    (h : objectCodec.readAll m off l.length = l) {o : ImepObject} (ho : l.getLast? = some o)
    (hne : o.val ≠ []) : o.val.getLast? = some (m (off + objectCodec.sizeAll l - 1)) := by
  induction l generalizing off with
  | nil => cases ho
  | cons a l ih =>
    rw [List.length_cons, Codec.readAll] at h
    obtain ⟨hread, hrest⟩ := List.cons.inj h
    rw [hread] at hrest
    rw [Codec.sizeAll_cons]
    cases l with
    | nil =>
      obtain rfl : a = o := Option.some.inj ho
      have hval : a.val = bytes m (off + 2) (half m off).toNat := congrArg Subtype.val hread.symm
      have hlen : a.val.length = (half m off).toNat := by rw [hval, bytes_length]
      have hpos := List.length_pos_of_ne_nil hne
      have hsize : objectCodec.size a = 2 + a.val.length := rfl
      rw [List.getLast?_eq_getElem?, hlen, hval, bytes, List.getElem?_map,
        List.getElem?_range (by omega), Option.map_some, Codec.sizeAll_nil, hsize, hlen]
      congr 2
      omega
    | cons b l =>
      rw [List.getLast?_cons_cons] at ho
      have := ih hrest ho
      rw [this, Nat.add_assoc]

/-- The receiver finds what was put in, within the header. -/
structure Delivers (now : ℚ) (w : ImepQueues) (q : ImepPacket) : Prop where
  acks : q.acks = some w.acksPut
  hellos : q.hellos = some (w.hellosPut now)
  objects : q.objects = some ((w.objectsPut now).map ToraPacket.object)
  responders : q.responders = some (w.respondersPut now)
  fits : q.Fits

/-- What was put in has left the queues, and nothing else has. -/
structure Taken (now : ℚ) (w w' : ImepQueues) : Prop where
  acks : w.ackQueue = w.acksPut ++ w'.ackQueue
  hellos : ∃ taken, w.helloQueue = taken ++ w'.helloQueue ∧
    helloTargets now w.links taken = w.hellosPut now
  objects : w.objectQueue = w.objectsPut now ++ w'.objectQueue

/-- An object block that is not empty loses its last byte to the response list, and the list is
read one byte behind its start. -/
def Deliverable (now : ℚ) (w : ImepQueues) : Prop :=
  let start := w.helloEnd now
  let stop := start + imepObjectBlockSize + w.objectBytes now
  if w.objectsPut now = [] then
    w.objectQueue = [] ∨ start + imepObjectBlockSize ≤ imepHdrLen ∨ start = imepHdrLen
  else
    stop + 4 * (biLinks w.links).length < imepHdrLen ∧
      (biLinks w.links ≠ [] → (biLinks w.links).length < 32 ∧ (∀ a ∈ biLinks w.links, a = 0) ∧
        ∀ t, (w.objectsPut now).getLast? = some t → t.header.getLast? = some 0)

theorem blocks_fit (hacks : ImepPacket.Block ackCodec blockFlagAck q sizeofHdrImep w.ackEnd w.acksPut)
    (hhellos : ImepPacket.Block addrCodec blockFlagHello q w.ackEnd (w.helloEnd now)
      (w.hellosPut now)) :
    (∀ ab, q.findAckBlock = some (some ab) →
      ab + sizeofAckBlock + sizeofAck * (q.bytes ab).toNat ≤ imepHdrLen) ∧
    ∀ hb, q.findHelloBlock = some (some hb) →
      hb + sizeofHelloBlock + sizeofHello * (q.bytes hb).toNat ≤ imepHdrLen := by
  obtain ⟨h1, h2⟩ := helloEnd_le now w
  have hastop := hacks.stop
  have hhstop := hhellos.stop
  rw [ack_sizeAll] at hastop
  rw [addr_sizeAll] at hhstop
  refine ⟨fun ab hab => ?_, fun hb hhb => ?_⟩
  · rw [ImepPacket.findAckBlock_eq hacks] at hab
    split_ifs at hab with hnil
    · cases Option.some.inj hab
    · obtain rfl := Option.some.inj (Option.some.inj hab)
      rw [if_neg hnil] at hastop
      rw [hacks.count hnil]
      simp only [sizeofAckBlock, sizeofAck] at hastop ⊢
      omega
  · rw [ImepPacket.findHelloBlock_eq hacks hhellos] at hhb
    split_ifs at hhb with hnil
    · cases Option.some.inj hhb
    · obtain rfl := Option.some.inj (Option.some.inj hhb)
      rw [if_neg hnil] at hhstop
      rw [hhellos.count hnil]
      simp only [sizeofHelloBlock, sizeofHello] at hhstop ⊢
      omega

/-- Without an object block, what was put in is found. -/
theorem Ready.delivers (h : Ready now w p w') (hput : w.objectsPut now = [])
    (hflag : q.imep_block_flags = p.imep_block_flags)
    (hsame : SameOn 0 (w.helloEnd now) p.bytes q.bytes) : Delivers now w q := by
  have ha := h.acks.congr (by rw [hflag]) (hsame.mono (Nat.zero_le _) (helloEnd_le now w).1)
  have hh := h.hellos.congr (by rw [hflag]) (hsame.mono (Nat.zero_le _) le_rfl)
  have hnone := ImepPacket.findObjectBlock_none (hflag ▸ h.flag)
  obtain ⟨hfa, hfh⟩ := blocks_fit ha hh
  refine ⟨ImepPacket.acks_eq ha, ImepPacket.hellos_eq ha hh, ?_, ?_, ⟨hfa, hfh, fun ob hob => ?_,
    fun ob r hob => ?_⟩⟩
  · rw [ImepPacket.objects, hnone, hput]
    rfl
  · rw [ImepPacket.responders, ImepPacket.findResponseList, hnone, respondersPut, if_pos hput]
    rfl
  · rw [hnone] at hob
    cases Option.some.inj hob
  · rw [hnone] at hob
    cases Option.some.inj hob

theorem Placed.objects_eq (h : Placed now w q) :
    q.objects = some (objectCodec.readAll q.bytes (w.helloEnd now + sizeofObjectBlock)
      ((w.objectsPut now).map ToraPacket.object).length) := by
  rw [ImepPacket.objects, h.found, Option.map_some, Option.elim_some, ImepPacket.objectsAt, h.objects,
    List.length_map]

/-- The response list, found behind the objects that are read. -/
theorem Placed.findResponseList_eq (h : Placed now w q)
    (hobjects : q.objects = some ((w.objectsPut now).map ToraPacket.object)) :
    q.findResponseList = some (if (biLinks w.links).length % 32 = 0 then none
      else some (w.helloEnd now + sizeofObjectBlock + w.objectBytes now)) := by
  have hat : q.objectsAt (w.helloEnd now) = (w.objectsPut now).map ToraPacket.object := by
    rw [ImepPacket.objects, h.found] at hobjects
    exact Option.some.inj hobjects
  rw [ImepPacket.findResponseList, h.found, Option.map_some, Option.bind_some, h.responses, hat]
  rfl

theorem Placed.responders_eq (h : Placed now w q)
    (hobjects : q.objects = some ((w.objectsPut now).map ToraPacket.object)) :
    q.responders = some (addrCodec.readAll q.bytes
      (w.helloEnd now + sizeofObjectBlock + w.objectBytes now)
      ((biLinks w.links).length % 32)) := by
  rw [ImepPacket.responders, h.found, Option.bind_some, h.findResponseList_eq hobjects,
    Option.map_some]
  split_ifs with hn
  · rw [hn]
    rfl
  · rw [Option.elim_some, Option.elim_some, h.responses]

/-- A list that is read at two neighbouring offsets, with a zero behind it, is all zeros. -/
theorem zero_of_shifted {m : Memory} {off : ℕ} {l : List ImepAddr}
    (h : addrCodec.readAll m off l.length = l) (h' : addrCodec.readAll m (off + 1) l.length = l)
    (hend : m (off + 4 * l.length) = 0) : ∀ i ≤ 4 * l.length, m (off + i) = 0 := by
  have hshift : ∀ i < 4 * l.length, m (off + i) = m (off + (i + 1)) := fun i hi => by
    have hlists := h.trans h'.symm
    rw [addr_readAll, addr_readAll] at hlists
    have hword := List.map_inj_left.mp hlists (i / 4) (List.mem_range.mpr (by omega))
    have hbyte := word_eq_iff.mp hword (i % 4) (by omega)
    rw [show off + i = off + 4 * (i / 4) + i % 4 by omega, hbyte]
    congr 1
    omega
  intro i hi
  induction hd : 4 * l.length - i generalizing i with
  | zero => rw [show i = 4 * l.length by omega, hend]
  | succ d ih => rw [hshift i (by omega), ih (i + 1) (by omega) (by omega)]

theorem readAll_zero {m : Memory} {off n : ℕ} (h : ∀ i < 4 * n, m (off + i) = 0) :
    addrCodec.readAll m off n = List.replicate n 0 := by
  rw [addr_readAll, List.eq_replicate_iff]
  refine ⟨by simp, fun a ha => ?_⟩
  obtain ⟨j, hj, rfl⟩ := List.mem_map.mp ha
  refine word_zero.mpr fun k hk => ?_
  rw [Nat.add_assoc]
  exact h _ (by have := List.mem_range.mp hj; omega)

/-- With an object block, what was put in is found only where the overlap changes nothing. -/
theorem Placed.delivers_iff (h : Placed now w q) (hput : w.objectsPut now ≠ []) :
    Delivers now w q ↔
      w.helloEnd now + imepObjectBlockSize + w.objectBytes now + 4 * (biLinks w.links).length <
          imepHdrLen ∧
        (biLinks w.links ≠ [] → (biLinks w.links).length < 32 ∧ (∀ a ∈ biLinks w.links, a = 0) ∧
          ∀ t, (w.objectsPut now).getLast? = some t → t.header.getLast? = some 0) := by
  obtain ⟨m, hstored, hzero, hsame⟩ := h.memory
  have hresponders : w.respondersPut now = biLinks w.links := if_neg hput
  have hlist := h.stored
  simp only [sizeofObjectBlock, imepObjectBlockSize, imepHdrLen] at hstored hzero hsame hlist ⊢
  constructor
  · intro hd
    have hfind := h.findResponseList_eq hd.objects
    have hread := Option.some.inj ((h.objects_eq).symm.trans hd.objects)
    have hresp := Option.some.inj ((h.responders_eq hd.objects).symm.trans hd.responders)
    rw [hresponders] at hresp
    simp only [sizeofObjectBlock] at hfind hread hresp
    by_cases hnil : biLinks w.links = []
    · have hfit := hd.fits.objects _ h.found
      rw [ImepPacket.objectsAt, h.objects, ← List.length_map ToraPacket.object] at hfit
      simp only [sizeofObjectBlock, imepHdrLen] at hfit
      rw [hread] at hfit
      change _ + 5 + w.objectBytes now ≤ 512 at hfit
      rw [hnil, List.length_nil]
      exact ⟨by omega, fun hne => absurd rfl hne⟩
    · have hlength : (biLinks w.links).length % 32 = (biLinks w.links).length := by
        conv_rhs => rw [← hresp, addr_readAll, List.length_map, List.length_range]
      have hpos := List.length_pos_of_ne_nil hnil
      rw [if_neg (by omega)] at hfind
      have hfit := hd.fits.responders _ _ h.found hfind
      rw [h.responses, hlength] at hfit
      simp only [sizeofResponse, imepHdrLen] at hfit
      rw [hlength, show w.helloEnd now + 5 + w.objectBytes now =
        w.helloEnd now + 4 + w.objectBytes now + 1 by omega] at hresp
      have hbytes := zero_of_shifted hlist.readAll hresp (by
        rw [hsame _ (by omega) (by omega)]
        exact hzero _ (by omega))
      have hall := hlist.readAll
      rw [readAll_zero fun i hi => hbytes i (by omega)] at hall
      refine ⟨by omega, fun _ => ⟨by omega, fun a ha => ?_, fun t ht => ?_⟩⟩
      · rw [← hall] at ha
        exact List.eq_of_mem_replicate ha
      · have hlast : ((w.objectsPut now).map ToraPacket.object).getLast? = some t.object := by
          rw [List.getLast?_map, ht]
          rfl
        have hlen := toraHeaderLength_pos t.th_type
        have hne : t.object.val ≠ [] := fun hnil => by
          have : t.header.length = 0 := congrArg List.length hnil
          rw [t.length] at this
          omega
        have hbyte := readAll_last hread hlast hne
        rw [show w.helloEnd now + 5 + objectCodec.sizeAll _ - 1 =
          w.helloEnd now + 4 + w.objectBytes now + 0 by rw [objectBytes]; omega,
          hbytes 0 (Nat.zero_le _)] at hbyte
        exact hbyte
  · rintro ⟨hstop, hoverlap⟩
    have hread := hstored.readAll
    have hmem : ∀ i, w.helloEnd now + 5 ≤ i → q.bytes i = m i := fun i hi => by
      by_cases hout : i < w.helloEnd now + 4 + w.objectBytes now ∨
          w.helloEnd now + 4 + w.objectBytes now + 4 * (biLinks w.links).length ≤ i
      · exact hsame i hi hout
      · have hnil : biLinks w.links ≠ [] := fun hnil => by
          rw [hnil, List.length_nil] at hout
          omega
        obtain ⟨-, hall, hlast⟩ := hoverlap hnil
        have hq : q.bytes i = 0 := by
          have hwords := hlist.readAll
          rw [addr_readAll] at hwords
          obtain ⟨d, hd⟩ : ∃ d, i = w.helloEnd now + 4 + w.objectBytes now + d :=
            ⟨i - (w.helloEnd now + 4 + w.objectBytes now), by omega⟩
          have hd4 : d / 4 ∈ List.range (biLinks w.links).length := List.mem_range.mpr (by omega)
          have hword := List.mem_map_of_mem (f := fun j =>
            word q.bytes (w.helloEnd now + 4 + w.objectBytes now + 4 * j)) hd4
          rw [hwords] at hword
          have hbyte := word_zero.mp (hall _ hword) (d % 4) (by omega)
          rw [← hbyte]
          congr 1
          omega
        rw [hq]
        by_cases hfirst : i = w.helloEnd now + 4 + w.objectBytes now
        · have ht := List.getLast?_eq_some_getLast hput
          have hlasto : ((w.objectsPut now).map ToraPacket.object).getLast? =
              some ((w.objectsPut now).getLast hput).object := by
            rw [List.getLast?_map, ht]
            rfl
          have hheader := hlast _ ht
          have hne : ((w.objectsPut now).getLast hput).object.val ≠ [] := fun hnil => by
            change ((w.objectsPut now).getLast hput).header = [] at hnil
            rw [hnil] at hheader
            cases hheader
          have hbyte := readAll_last hread hlasto hne
          have hzeros := Option.some.inj (hheader.symm.trans hbyte)
          rw [hzeros, hfirst]
          congr 1
          rw [objectBytes]
          omega
        · exact (hzero i (by omega)).symm
    have hobjects : q.objects = some ((w.objectsPut now).map ToraPacket.object) := by
      rw [h.objects_eq]
      exact congrArg some (hstored.congr fun i hi _ => hmem i hi).readAll
    have hat : objectCodec.sizeAll (q.objectsAt (w.helloEnd now)) = w.objectBytes now := by
      rw [ImepPacket.objects, h.found] at hobjects
      rw [show q.objectsAt _ = _ from Option.some.inj hobjects, objectBytes]
    obtain ⟨hfa, hfh⟩ := blocks_fit h.acks h.hellos
    refine ⟨ImepPacket.acks_eq h.acks, ImepPacket.hellos_eq h.acks h.hellos, hobjects, ?_,
      ⟨hfa, hfh, fun ob hob => ?_, fun ob r hob hr => ?_⟩⟩
    · rw [h.responders_eq hobjects, hresponders]
      by_cases hnil : biLinks w.links = []
      · rw [hnil]
        rfl
      · obtain ⟨hsmall, hall, -⟩ := hoverlap hnil
        rw [Nat.mod_eq_of_lt hsmall, readAll_zero fun i hi => ?_]
        · exact congrArg some (List.eq_replicate_of_mem hall).symm
        · have hpos := List.length_pos_of_ne_nil hnil
          simp only [sizeofObjectBlock]
          rw [hmem _ (by omega)]
          exact hzero _ (by omega)
    · obtain rfl := Option.some.inj (Option.some.inj (h.found.symm.trans hob))
      simp only [hat, sizeofObjectBlock, imepHdrLen]
      omega
    · obtain rfl := Option.some.inj (Option.some.inj (h.found.symm.trans hob))
      rw [h.findResponseList_eq hobjects] at hr
      split_ifs at hr with hn
      · cases Option.some.inj hr
      · obtain rfl := Option.some.inj (Option.some.inj hr)
        rw [h.responses]
        simp only [sizeofObjectBlock, sizeofResponse, imepHdrLen]
        omega

theorem Ready.objectLoop_none (h : Ready now w p w') (hput : w.objectsPut now = []) (m : Memory) :
    objectLoop { p with imep_length := w.helloEnd now + imepObjectBlockSize, bytes := m }
        w'.getResponseListSize (w.helloEnd now + sizeofObjectBlock) 0 w'.objectQueue =
      ({ p with imep_length := w.helloEnd now + imepObjectBlockSize, bytes := m }, 0,
        w'.objectQueue) := by
  have hfit : fitting (w.helloEnd now + imepObjectBlockSize + w'.getResponseListSize)
      w'.objectQueue = [] := by
    rw [h.objectQueue, getResponseListSize, h.links]
    exact hput
  cases hq : w'.objectQueue with
  | nil => rfl
  | cons t q =>
    rw [hq, fitting] at hfit
    split_ifs at hfit with hle
    rw [objectLoop]
    exact if_pos (by dsimp only; omega)

/-- Without objects that fit, the head of the block is taken back, where there was room for it. -/
theorem Ready.unplaced_iff (h : Ready now w p w') (hput : w.objectsPut now = []) :
    (∃ q w'', w'.aggregateObjectBlock p = some (q, w'')) ↔
      w.objectQueue = [] ∨ w.helloEnd now + imepObjectBlockSize ≤ imepHdrLen ∨
        w.helloEnd now = imepHdrLen := by
  have hle := (helloEnd_le now w).2
  rw [aggregateObjectBlock, ← h.objectQueue, h.length]
  dsimp only
  rw [h.objectLoop_none hput]
  dsimp only
  rw [if_pos (rfl : (0 : ℕ) = 0)]
  split_ifs with hq hfull hroom
  · exact iff_of_true ⟨_, _, rfl⟩ (.inl hq)
  · exact iff_of_true ⟨_, _, rfl⟩ (.inr (.inr (by omega)))
  · exact iff_of_true ⟨_, _, rfl⟩ (.inr (.inl hroom))
  · refine iff_of_false (fun ⟨_, _, hsome⟩ => nomatch hsome) ?_
    rintro (h1 | h1 | h1)
    · exact hq h1
    · exact hroom h1
    · omega

theorem Ready.unplaced (h : Ready now w p w') (hput : w.objectsPut now = []) {w'' : ImepQueues}
    (hrun : w'.aggregateObjectBlock p = some (q, w'')) :
    q.imep_block_flags = p.imep_block_flags ∧ SameOn 0 (w.helloEnd now) p.bytes q.bytes ∧
      w''.ackQueue = w'.ackQueue ∧ w''.helloQueue = w'.helloQueue ∧
      w.objectQueue = w''.objectQueue := by
  rw [aggregateObjectBlock, h.length] at hrun
  dsimp only at hrun
  rw [h.objectLoop_none hput] at hrun
  dsimp only at hrun
  rw [if_pos (rfl : (0 : ℕ) = 0)] at hrun
  split_ifs at hrun with hq hfull hroom
  · obtain ⟨rfl, rfl⟩ := Prod.mk.inj (Option.some.inj hrun)
    exact ⟨rfl, .refl _ _ _, rfl, rfl, h.objectQueue.symm⟩
  · obtain ⟨rfl, rfl⟩ := Prod.mk.inj (Option.some.inj hrun)
    exact ⟨rfl, .refl _ _ _, rfl, rfl, h.objectQueue.symm⟩
  · obtain ⟨rfl, rfl⟩ := Prod.mk.inj (Option.some.inj hrun)
    exact ⟨rfl, fun i _ hi => objectHead_other (.inl hi), rfl, rfl, h.objectQueue.symm⟩

/-- The exact condition for the packet to be read as it was meant. -/
theorem makePacket_delivers_iff (now : ℚ) (w : ImepQueues) :
    (∃ q w', w.makePacket now = some (q, w') ∧ Delivers now w q ∧ Taken now w w') ↔
      w.Deliverable now := by
  have h := ready now w
  rw [makePacket_head, Deliverable]
  split_ifs with hput
  · rw [← h.unplaced_iff hput]
    constructor
    · rintro ⟨q, w'', hq, -, -⟩
      exact ⟨q, w'', hq⟩
    · rintro ⟨q, w'', hq⟩
      obtain ⟨hflag, hsame, hacks, hhellos, hobjects⟩ := h.unplaced hput hq
      refine ⟨q, w'', hq, h.delivers hput hflag hsame, ⟨?_, ?_, ?_⟩⟩
      · rw [hacks]
        exact h.ackQueue
      · rw [hhellos]
        exact h.helloQueue
      · rw [hobjects, hput, List.nil_append]
  · obtain ⟨q, w'', hq, hplaced, hacks, hhellos, hobjects⟩ := h.placed hput
    rw [← hplaced.delivers_iff hput, hq]
    constructor
    · rintro ⟨_, _, hsome, hd, -⟩
      obtain ⟨rfl, rfl⟩ := Prod.mk.inj (Option.some.inj hsome)
      exact hd
    · intro hd
      refine ⟨q, w'', rfl, hd, ⟨?_, ?_, hobjects⟩⟩
      · rw [hacks]
        exact h.ackQueue
      · rw [hhellos]
        exact h.helloQueue

/-- A query for the only neighbour, whose address is 1. -/
def oneNeighbour : ImepQueues where
  links := [⟨1, linkBi, 0⟩]
  controlSequence := 0
  ackQueue := []
  helloQueue := []
  objectQueue := [⟨.qry, List.replicate 8 0, rfl⟩]

theorem oneNeighbour_shifted :
    ¬∃ q w', oneNeighbour.makePacket 0 = some (q, w') ∧ Delivers 0 oneNeighbour q ∧
      Taken 0 oneNeighbour w' := by
  rintro ⟨q, w', hrun, hd, -⟩
  have hput : oneNeighbour.respondersPut 0 = [1] := by decide
  have hread : (oneNeighbour.makePacket 0).any
      (fun r => decide (r.1.responders = some [0])) = true := by decide
  rw [hrun] at hread
  have hzero : q.responders = some [0] := of_decide_eq_true hread
  rw [hd.responders, hput] at hzero
  exact absurd hzero (by decide)

end ImepQueues

end Ns2
