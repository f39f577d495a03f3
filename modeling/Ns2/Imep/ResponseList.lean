import Ns2.Imep.Aggregation

/-! The response list of a packet that waits for its acks. A responder is taken off by moving the
last one over it; the word behind the list stays as it was. -/

namespace Ns2

open ByteRecords

section SwapRemove

variable {α : Type*} [DecidableEq α]

/-- The first `a` gives way to the last element; without an `a` the last element goes. -/
def swapRemove (a : α) (l : List α) : List α := (l.set (l.idxOf a) (l.getLast?.getD a)).dropLast

theorem swapRemove_of_notMem {a : α} {l : List α} (h : a ∉ l) : swapRemove a l = l.dropLast := by
  rw [swapRemove, List.idxOf_of_notMem h, List.set_eq_of_length_le le_rfl]

theorem length_swapRemove (a : α) (l : List α) : (swapRemove a l).length = l.length - 1 := by
  simp [swapRemove]

omit [DecidableEq α] in
theorem getLast?_cons_of_ne {b : α} {l : List α} (h : l ≠ []) :
    (b :: l).getLast? = l.getLast? := by
  obtain ⟨c, l, rfl⟩ := List.exists_cons_of_ne_nil h
  exact List.getLast?_cons_cons

theorem swapRemove_perm {a : α} {l : List α} (h : a ∈ l) : (swapRemove a l).Perm (l.erase a) := by
  induction l with
  | nil => simp at h
  | cons b l ih =>
    by_cases hl : l = []
    · obtain rfl : a = b := by simpa [hl] using h
      simp [swapRemove, hl]
    · have hlast := getLast?_cons_of_ne (b := b) hl
      by_cases hb : b = a
      · subst hb
        have hsplit := List.dropLast_append_getLast hl
        have hset : swapRemove b (b :: l) = l.getLast hl :: l.dropLast := by
          simp [swapRemove, hlast, List.getLast?_eq_some_getLast hl,
            List.dropLast_cons_of_ne_nil hl]
        rw [hset, List.erase_cons_head]
        calc (l.getLast hl :: l.dropLast).Perm (l.dropLast ++ [l.getLast hl]) :=
              (List.perm_append_singleton (l.getLast hl) l.dropLast).symm
          _ = l := hsplit
      · have hmem : a ∈ l := (List.mem_cons.1 h).resolve_left (Ne.symm hb)
        have hset : l.set (l.idxOf a) (l.getLast?.getD a) ≠ [] := by
          rwa [Ne, List.set_eq_nil_iff]
        have hcons : swapRemove a (b :: l) = b :: swapRemove a l := by
          rw [swapRemove, List.idxOf_cons_ne _ hb, List.set_cons_succ, hlast,
            List.dropLast_cons_of_ne_nil hset, swapRemove]
        rw [hcons, List.erase_cons_tail (by simpa using hb)]
        exact (ih hmem).cons b

end SwapRemove

namespace ImepPacket

/-- Where the search for `index` stops: at the responder, or right behind the list. -/
def searchResponse (m : Memory) (index : ImepAddr) : ℕ → ℕ → ℕ
  | r0, 0 => r0
  | r0, n + 1 =>
    if word m r0 = index then r0 else searchResponse m index (r0 + sizeofResponse) n

/-- What `removeObjectResponse` and `purgeReXmitQ` do to a packet. The outer `none` is a failed
assertion; the inner one is a packet that leaves the queue. -/
def removeResponse (p : ImepPacket) (index : ImepAddr) : Option (Option ImepPacket) :=
  p.findObjectBlock.bind fun ob => p.findResponseList.bind fun r => ob.bind fun ob => r.map fun r =>
    let num := field p.bytes (ob + 3) 5
    let r0 := searchResponse p.bytes index r num
    if word p.bytes r0 ≠ index then some p
    else if num = 1 then none
    else
      let last := r + (num - 1) * sizeofResponse
      let m := if last ≠ r0 then putWord p.bytes r0 (word p.bytes last) else p.bytes
      some { p with
        imep_length := p.imep_length - sizeofResponse
        bytes := setField m (ob + 3) 5 (num - 1) }

def ob_sequence (p : ImepPacket) : Option Byte :=
  p.findObjectBlock.bind fun ob => ob.map p.bytes

/-- The responders that have not acked. -/
def waiting (p : ImepPacket) : List ImepAddr := p.responders.getD []

/-- The word right behind the response list. -/
def behind (p : ImepPacket) : Option ImepAddr :=
  p.findResponseList.bind fun r => r.map fun r =>
    word p.bytes (r + sizeofResponse * p.waiting.length)

/-- An object block at `ob` with a response list at `r`. -/
structure Waits (p : ImepPacket) (ob r : ℕ) : Prop where
  block : p.findObjectBlock = some (some ob)
  list : p.findResponseList = some (some r)

variable {p q : ImepPacket} {ob r : ℕ} {index : ImepAddr}

theorem Waits.field_pos (h : p.Waits ob r) : 0 < field p.bytes (ob + 3) 5 := by
  have := h.list
  rw [findResponseList, h.block] at this
  simp only [Option.map_some, Option.bind_some] at this
  split_ifs at this with hz
  · cases Option.some.inj this
  · omega

theorem Waits.start (h : p.Waits ob r) :
    r = ob + sizeofObjectBlock + objectCodec.sizeAll (p.objectsAt ob) := by
  have hpos := h.field_pos
  have := h.list
  rw [findResponseList, h.block] at this
  simp only [Option.map_some, Option.bind_some] at this
  rw [if_neg (by omega)] at this
  exact (Option.some.inj (Option.some.inj this)).symm

theorem Waits.waiting_eq (h : p.Waits ob r) :
    p.waiting = (List.range (field p.bytes (ob + 3) 5)).map fun j => word p.bytes (r + 4 * j) := by
  simp only [waiting, responders, h.block, h.list, Option.bind_some, Option.map_some,
    Option.elim_some, Option.getD_some]
  exact ImepQueues.addr_readAll ..

theorem Waits.length_waiting (h : p.Waits ob r) : p.waiting.length = field p.bytes (ob + 3) 5 := by
  simp [h.waiting_eq]

theorem Waits.getElem_waiting (h : p.Waits ob r) {j : ℕ} (hj : j < p.waiting.length) :
    p.waiting[j] = word p.bytes (r + 4 * j) := by
  simp [h.waiting_eq]

theorem Waits.behind_eq (h : p.Waits ob r) :
    p.behind = some (word p.bytes (r + 4 * field p.bytes (ob + 3) 5)) := by
  rw [behind, h.list, h.length_waiting]
  rfl

theorem searchResponse_eq (m : Memory) (index : ImepAddr) (r n : ℕ) :
    searchResponse m index r n =
      r + 4 * ((List.range n).map fun j => word m (r + 4 * j)).idxOf index := by
  induction n generalizing r with
  | zero => rfl
  | succ n ih =>
    rw [searchResponse, List.range_succ_eq_map, List.map_cons, List.map_map]
    split_ifs with h
    · simp [h]
    · rw [List.idxOf_cons_ne _ (by simpa using h), ih, sizeofResponse, Nat.mul_succ,
        Nat.add_assoc, Nat.add_comm 4]
      congr! 4
      exact List.map_congr_left fun j _ => by simp [Nat.mul_succ, Nat.add_assoc, Nat.add_comm 4]

theorem objectCodec_read_congr {m m' : Memory} {off : ℕ}
    (h : SameOn off (off + objectCodec.size (objectCodec.read m off)) m m') :
    objectCodec.read m' off = objectCodec.read m off := by
  have hsize : objectCodec.size (objectCodec.read m off) = 2 + (half m off).toNat := by
    change 2 + (ByteRecords.bytes m (off + 2) _).length = _
    rw [bytes_length]
  rw [hsize] at h
  have hhalf : half m' off = half m off := by
    rw [half, half, h off le_rfl (by omega), h (off + 1) (by omega) (by omega)]
  apply Subtype.ext
  change ByteRecords.bytes m' (off + 2) (half m' off).toNat =
    ByteRecords.bytes m (off + 2) (half m off).toNat
  rw [hhalf]
  refine List.map_congr_left fun i hi => h _ (by omega) ?_
  have := List.mem_range.1 hi
  omega

theorem objects_congr {m m' : Memory} {off n : ℕ}
    (h : SameOn off (off + objectCodec.sizeAll (objectCodec.readAll m off n)) m m') :
    objectCodec.readAll m' off n = objectCodec.readAll m off n := by
  induction n generalizing off with
  | zero => rfl
  | succ n ih =>
    rw [Codec.readAll, Codec.sizeAll_cons] at h
    have hread : objectCodec.read m' off = objectCodec.read m off :=
      objectCodec_read_congr (h.mono le_rfl (by omega))
    rw [Codec.readAll, Codec.readAll, hread, ih (h.mono (by omega) (by omega))]

/-- The block is found by the bytes before it and by its own head. -/
theorem findObjectBlock_congr (h : p.findObjectBlock = some (some ob))
    (hflags : q.imep_block_flags = p.imep_block_flags)
    (hsame : ∀ i < ob + 3, q.bytes i = p.bytes i) :
    q.findObjectBlock = some (some ob) := by
  rw [findObjectBlock] at h ⊢
  rw [hflags]
  have hobject : p.imep_block_flags &&& blockFlagObject ≠ 0 := fun hz => by
    rw [if_pos hz] at h
    cases Option.some.inj h
  rw [if_neg hobject] at h ⊢
  obtain ⟨hb, hhb, h⟩ := Option.bind_eq_some_iff.1 h
  obtain ⟨ob', hob', h⟩ := Option.bind_eq_some_iff.1 h
  have hhead : ob' = ob ∧ field p.bytes (ob + 1) 4 = protoTora ∧ 0 < field p.bytes (ob + 2) 7 := by
    split_ifs at h with hhead
    obtain rfl : ob' = ob := Option.some.inj (Option.some.inj h)
    exact ⟨rfl, hhead⟩
  obtain ⟨rfl, htype, hcount⟩ := hhead
  have hle : sizeofHdrImep ≤ hb ∧ hb ≤ ob' := by
    split_ifs at hhb hob' <;> simp only [Option.some.injEq] at hhb hob' <;> omega
  rw [hsame sizeofHdrImep (by omega), hhb, Option.bind_some, hsame hb (by omega), hob',
    Option.bind_some, ImepQueues.field_congr (hsame _ (by omega)),
    ImepQueues.field_congr (hsame _ (by omega)), if_pos ⟨htype, hcount⟩]

theorem word_putWord_self (m : Memory) (off : ℕ) (v : BitVec 32) : word (putWord m off v) off = v :=
  word_putWord (.refl _ _ _)

theorem word_putWord_other {m : Memory} {off off' : ℕ} (v : BitVec 32)
    (h : off' + 4 ≤ off ∨ off + 4 ≤ off') : word (putWord m off v) off' = word m off' := by
  refine ImepQueues.word_eq_iff.2 fun k hk => putBytes_other ?_
  simp only [leBytes, List.length]
  omega

theorem word_setField_other {m : Memory} {off off' : ℕ} (width v : ℕ) (h : off < off') :
    word (setField m off width v) off' = word m off' :=
  ImepQueues.word_eq_iff.2 fun _ _ => setField_other (by omega)

/-- The search stops right behind the list if the responder is not on it. -/
theorem Waits.search_eq (h : p.Waits ob r) (index : ImepAddr) :
    searchResponse p.bytes index r (field p.bytes (ob + 3) 5) = r + 4 * p.waiting.idxOf index := by
  rw [searchResponse_eq, h.waiting_eq]

/-- What the loops take for a responder of the packet. -/
def Takes (p : ImepPacket) (index : ImepAddr) : Prop := index ∈ p.waiting ∨ p.behind = some index

instance (p : ImepPacket) (index : ImepAddr) : Decidable (p.Takes index) :=
  inferInstanceAs (Decidable (_ ∨ _))

theorem Waits.takes_iff (h : p.Waits ob r) :
    p.Takes index ↔ word p.bytes (r + 4 * p.waiting.idxOf index) = index := by
  rw [Takes, h.behind_eq, Option.some.injEq, ← h.length_waiting]
  by_cases hmem : index ∈ p.waiting
  · have hlt := List.idxOf_lt_length_of_mem hmem
    rw [← h.getElem_waiting hlt, List.getElem_idxOf]
    simp [hmem]
  · simp [hmem]

theorem Waits.removeResponse_eq (h : p.Waits ob r) (index : ImepAddr) :
    p.removeResponse index = some (
      if word p.bytes (r + 4 * p.waiting.idxOf index) ≠ index then some p
      else if p.waiting.length = 1 then none
      else
        let last := r + (p.waiting.length - 1) * 4
        let m := if last ≠ r + 4 * p.waiting.idxOf index then
          putWord p.bytes (r + 4 * p.waiting.idxOf index) (word p.bytes last) else p.bytes
        some { p with
          imep_length := p.imep_length - 4
          bytes := setField m (ob + 3) 5 (p.waiting.length - 1) }) := by
  rw [removeResponse, h.block, h.list]
  simp only [Option.bind_some, Option.map_some]
  rw [h.search_eq, h.length_waiting]
  rfl

theorem Waits.kept (h : p.Waits ob r) (hindex : ¬p.Takes index) :
    p.removeResponse index = some (some p) := by
  rw [h.removeResponse_eq, if_pos fun hword => hindex (h.takes_iff.2 hword)]

theorem Waits.leaves (h : p.Waits ob r) (hindex : p.Takes index) (hone : p.waiting.length = 1) :
    p.removeResponse index = some none := by
  rw [h.removeResponse_eq, if_neg (not_not.2 (h.takes_iff.1 hindex)), if_pos hone]

/-- A packet after one responder was taken off. -/
structure Shrunk (p q : ImepPacket) (ob r : ℕ) (index : ImepAddr) : Prop where
  waits : q.Waits ob r
  waiting : q.waiting = swapRemove index p.waiting
  behind : q.behind = p.waiting.getLast?
  sequence : q.ob_sequence = p.ob_sequence
  objects : q.objects = p.objects

theorem Waits.shrinks (h : p.Waits ob r) (hindex : p.Takes index) (htwo : p.waiting.length ≠ 1) :
    ∃ q, p.removeResponse index = some (some q) ∧ Shrunk p q ob r index := by
  have hpos : 0 < p.waiting.length := h.length_waiting ▸ h.field_pos
  have hsmall : p.waiting.length < 2 ^ 5 := by
    rw [h.length_waiting]
    exact Nat.mod_lt _ (by norm_num)
  have hstart := h.start
  simp only [sizeofObjectBlock] at hstart
  set n := p.waiting.length with hn
  set k := p.waiting.idxOf index with hk
  set last := r + (n - 1) * 4 with hlast
  set m := if last ≠ r + 4 * k then putWord p.bytes (r + 4 * k) (word p.bytes last) else p.bytes
    with hm
  -- The words of the list: the one that was found is the last one now, the others stay.
  have hword : ∀ j, word m (r + 4 * j) =
      if j = k then word p.bytes last else word p.bytes (r + 4 * j) := by
    intro j
    rw [hm]
    split_ifs with h1 h2 h2
    · rw [h2, word_putWord_self]
    · rw [word_putWord_other _ (by omega)]
    · rw [not_not.1 h1, h2]
    · rfl
  have hlow : ∀ i < r, m i = p.bytes i := by
    intro i hi
    rw [hm]
    split_ifs
    · exact putBytes_other (by omega)
    · rfl
  set q : ImepPacket := { p with
    imep_length := p.imep_length - 4
    bytes := setField m (ob + 3) 5 (n - 1) } with hq
  have hbytes : ∀ i < r, i ≠ ob + 3 → q.bytes i = p.bytes i := fun i hi hne => by
    rw [hq, ← hlow i hi]
    exact setField_other hne
  have hfield : field q.bytes (ob + 3) 5 = n - 1 := by
    rw [hq, field_setField _ (by norm_num), Nat.mod_eq_of_lt (by omega)]
  have hqword : ∀ j, word q.bytes (r + 4 * j) = word m (r + 4 * j) := fun j =>
    word_setField_other 5 _ (by omega)
  have hblock : q.findObjectBlock = some (some ob) :=
    findObjectBlock_congr h.block rfl fun i hi => hbytes i (by omega) (by omega)
  have hobjects : q.objectsAt ob = p.objectsAt ob := by
    rw [objectsAt, objectsAt, ImepQueues.field_congr (hbytes _ (by omega) (by omega))]
    refine objects_congr fun i hi hi' => ?_
    rw [← objectsAt, sizeofObjectBlock, ← hstart] at hi'
    exact hbytes i hi' (by simp only [sizeofObjectBlock] at hi; omega)
  have hlist : q.findResponseList = some (some r) := by
    rw [findResponseList, hblock, Option.map_some, Option.bind_some, if_neg (by omega), hobjects,
      sizeofObjectBlock, ← hstart]
  have hwaits : q.Waits ob r := ⟨hblock, hlist⟩
  have hlen : q.waiting.length = n - 1 := by rw [hwaits.length_waiting, hfield]
  have hlastword : p.waiting.getLast? = some (word p.bytes last) := by
    rw [List.getLast?_eq_getElem?, ← hn, List.getElem?_eq_getElem (by omega),
      h.getElem_waiting (by omega), hlast, Nat.mul_comm]
  refine ⟨q, ?_, hwaits, ?_, ?_, ?_, ?_⟩
  · rw [h.removeResponse_eq, if_neg (not_not.2 (h.takes_iff.1 hindex)), if_neg htwo]
  · refine List.ext_getElem (by rw [hlen, length_swapRemove]) fun j hj hj' => ?_
    rw [hwaits.getElem_waiting hj, hqword, hword]
    simp only [swapRemove, hlastword, Option.getD_some, List.getElem_dropLast, List.getElem_set]
    rw [h.getElem_waiting (by omega), ← hk]
    exact if_congr eq_comm rfl rfl
  · rw [hwaits.behind_eq, hfield, hqword, hword, hlastword]
    split_ifs
    · rfl
    · rw [hlast, Nat.mul_comm]
  · rw [ob_sequence, ob_sequence, hblock, h.block]
    exact congrArg some (hbytes ob (by omega) (by omega))
  · simp only [objects, hblock, h.block, Option.map_some, Option.elim_some, hobjects]

end ImepPacket

end Ns2
