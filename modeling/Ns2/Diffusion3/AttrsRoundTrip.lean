import Ns2.Diffusion3.Attrs

/-! Unpacking gives back the attributes that were packed, from as many bytes as their size says. -/

namespace Ns2

open ByteRecords

/-- A write elsewhere does not matter. -/
theorem sameOn_of_putBytes {lo hi off : ℕ} {bs : List Byte} {m m' : Memory}
    (h : SameOn lo hi (putBytes m off bs) m') (hout : hi ≤ off ∨ off + bs.length ≤ lo) :
    SameOn lo hi m m' := by
  intro i h1 h2
  rw [h i h1 h2, putBytes_other (by omega)]

theorem putBytes_nil (m : Memory) (off : ℕ) : putBytes m off [] = m := by
  funext i
  exact putBytes_other (by simp; omega)

theorem byte_putByte {m m' : Memory} {off : ℕ} {b : Byte}
    (h : SameOn off (off + 1) (putByte m off b) m') : m' off = b := by
  rw [h off le_rfl (by omega)]
  exact putBytes_at (i := 0) Nat.one_pos

theorem word_leBytes (v : BitVec 32) : word (fun i => (leBytes v).getD i 0) 0 = v :=
  append_extract v

namespace NRAttribute

/-- The bytes of the value in the packet. -/
def valueBytes (a : NRAttribute) : List Byte :=
  if a.type_ = INT32_TYPE then leBytes (htonl (getVal a)) else a.val_.take a.getLen

section

variable {key : BitVec 32} {type op : BitVec 8} {val : List Byte}

theorem getLen_number (h : val.length < 2 ^ 15) : (number key type op val).getLen = val.length := by
  simp only [getLen, number, BitVec.toNat_ofNat]
  omega

theorem getLen_string (h : val.length + 1 < 2 ^ 15) :
    (NRAttribute.string key op val).getLen = val.length + 1 := by
  simp only [getLen, NRAttribute.string, BitVec.toNat_ofNat]
  omega

theorem getLen_blob (h : val.length < 2 ^ 15) :
    (NRAttribute.blob key op val).getLen = val.length := by
  simp only [getLen, NRAttribute.blob, BitVec.toNat_ofNat]
  omega

end

theorem valueBytes_of_ne {a : NRAttribute} (htype : a.type_ ≠ INT32_TYPE)
    (hlen : a.getLen = a.val_.length) : a.valueBytes = a.val_ := by
  rw [valueBytes, if_neg htype, hlen, List.take_length]

theorem Built.valueBytes_eq {a : NRAttribute} (h : a.Built) :
    a.valueBytes.length = a.getLen ∧ (a.type_ ≠ INT32_TYPE → a.valueBytes = a.val_) := by
  have hother : a.getLen = a.val_.length → a.type_ ≠ INT32_TYPE →
      a.valueBytes.length = a.getLen ∧ (a.type_ ≠ INT32_TYPE → a.valueBytes = a.val_) :=
    fun hlen htype => by
      have heq := valueBytes_of_ne htype hlen
      exact ⟨by rw [heq, hlen], fun _ => heq⟩
  cases h with
  | int32 key op val => exact ⟨rfl, fun h => absurd rfl h⟩
  | float32 key op val h =>
    exact hother (getLen_number (by omega)) (show FLOAT32_TYPE ≠ INT32_TYPE by decide)
  | float64 key op val h =>
    exact hother (getLen_number (by omega)) (show FLOAT64_TYPE ≠ INT32_TYPE by decide)
  | string key op val h hlen =>
    refine hother ?_ (show STRING_TYPE ≠ INT32_TYPE by decide)
    rw [getLen_string hlen, NRAttribute.string, List.length_append]
    rfl
  | blob key op val hlen =>
    exact hother (getLen_blob hlen) (show BLOB_TYPE ≠ INT32_TYPE by decide)

theorem Built.packValue_eq {a : NRAttribute} (h : a.Built) (m : Memory) (cur : ℕ) :
    packValue m cur a = putBytes m (cur + 8) a.valueBytes := by
  rw [packValue]
  split_ifs with hlen htype
  · rw [valueBytes, if_pos htype, putWord]
  · rw [valueBytes, if_neg htype]
  · rw [List.eq_nil_of_length_eq_zero (h.valueBytes_eq.1.trans (by omega)), putBytes_nil]

end NRAttribute

/-- What the memory holds of a packed attribute. -/
structure Packed (m : Memory) (cur : ℕ) (a : NRAttribute) : Prop where
  key : word m cur = htonl a.key_
  type : m (cur + 4) = a.type_
  op : m (cur + 5) = a.op_
  len : half m (cur + 6) = htons a.len_
  value : bytes m (cur + 8) a.getLen = a.valueBytes

theorem le_packedStep (n : ℕ) : 8 + n ≤ packedStep n := by
  simp only [packedStep, sizeofPacked]
  omega

theorem packAttr_other {a : NRAttribute} (h : a.Built) (m : Memory) (cur : ℕ) {i : ℕ}
    (hi : i < cur ∨ cur + packedStep a.getLen ≤ i) : packAttr m cur a i = m i := by
  have hstep := le_packedStep a.getLen
  have hlen := h.valueBytes_eq.1
  rw [packAttr, h.packValue_eq, putBytes_other (by omega), putHalf, putBytes_other (by simp; omega),
    putByte, putBytes_other (by simp; omega), putByte, putBytes_other (by simp; omega), putWord,
    putBytes_other (by simp [leBytes]; omega)]

theorem packAttr_packed {a : NRAttribute} (h : a.Built) {m m' : Memory} {cur : ℕ}
    (hm : SameOn cur (cur + packedStep a.getLen) (packAttr m cur a) m') : Packed m' cur a := by
  have hstep := le_packedStep a.getLen
  have hlen := h.valueBytes_eq.1
  rw [packAttr, h.packValue_eq] at hm
  have h8 := hm.mono (le_refl cur) (show cur + 8 ≤ _ by omega)
  have h8 := sameOn_of_putBytes h8 (by omega)
  have h6 := sameOn_of_putBytes (h8.mono (le_refl cur) (show cur + 6 ≤ _ by omega)) (by omega)
  have h5 := sameOn_of_putBytes (h6.mono (le_refl cur) (show cur + 5 ≤ _ by omega)) (by omega)
  have h4 := sameOn_of_putBytes (h5.mono (le_refl cur) (show cur + 4 ≤ _ by omega)) (by omega)
  refine ⟨word_putWord h4, byte_putByte (h5.mono (by omega) le_rfl),
    byte_putByte (h6.mono (by omega) le_rfl), half_putHalf (h8.mono (by omega) le_rfl), ?_⟩
  rw [← hlen]
  exact bytes_putBytes (hm.mono (by omega) (by omega))

/-- The zero behind a string is the first one. -/
theorem strlen_of_bytes {m : Memory} {off limit : ℕ} {val : List Byte}
    (hm : bytes m off (val.length + 1) = val ++ [0]) (h : ∀ b ∈ val, b ≠ 0)
    (hlimit : val.length + 1 ≤ limit) :
    strlen m off limit = some val.length ∧ bytes m off val.length = val := by
  have hsplit : bytes m off (val.length + 1) = bytes m off val.length ++ [m (off + val.length)] := by
    simp [bytes, List.range_succ]
  rw [hsplit] at hm
  obtain ⟨hval, hzero⟩ := List.append_inj' hm rfl
  refine ⟨?_, hval⟩
  rw [strlen, List.find?_range_eq_some]
  refine ⟨by simpa using hzero, by simpa using hlimit, fun j hj => ?_⟩
  have hmem : m (off + j) ∈ val := by
    rw [← hval]
    exact List.mem_map.mpr ⟨j, List.mem_range.mpr hj, rfl⟩
  simpa using h _ hmem

theorem word_of_bytes {m : Memory} {off : ℕ} {v : BitVec 32} (h : bytes m off 4 = leBytes v) :
    word m off = v := by
  have hw : word m off = word (fun i => (bytes m off 4).getD i 0) 0 := rfl
  rw [hw, h, word_leBytes]

open NRAttribute in
theorem unpackAttr_packed {a : NRAttribute} (h : a.Built) {m : Memory} {cur limit : ℕ}
    (hm : Packed m cur a) (hlimit : a.getLen ≤ limit) :
    unpackAttr m limit cur = some (some a) := by
  have hvalue := hm.value
  have hraw := h.valueBytes_eq.2
  have hkey : ntohl (word m cur) = a.key_ := by rw [hm.key, ntohl_htonl]
  have hlen : ntohs (half m (cur + 6)) = a.len_ := by rw [hm.len, ntohs_htons]
  have hop := hm.op
  have htype := hm.type
  rw [unpackAttr, hkey, hlen, hop]
  cases h with
  | int32 key op val =>
    change m (cur + 4) = INT32_TYPE at htype
    have hw : word m (cur + 8) = htonl val := by
      refine word_of_bytes (hvalue.trans ?_)
      change leBytes (htonl (word (fun i => (leBytes val).getD i 0) 0)) = _
      rw [word_leBytes]
    rw [if_pos htype, hw, ntohl_htonl]
    rfl
  | float32 key op val h =>
    change m (cur + 4) = FLOAT32_TYPE at htype
    rw [getLen_number (by omega), h, hraw (show FLOAT32_TYPE ≠ INT32_TYPE by decide)] at hvalue
    rw [if_neg (by rw [htype]; decide), if_pos htype, hvalue]
    rfl
  | float64 key op val h =>
    change m (cur + 4) = FLOAT64_TYPE at htype
    rw [getLen_number (by omega), h, hraw (show FLOAT64_TYPE ≠ INT32_TYPE by decide)] at hvalue
    rw [if_neg (by rw [htype]; decide), if_neg (by rw [htype]; decide), if_pos htype, hvalue]
    rfl
  | string key op val h hl =>
    change m (cur + 4) = STRING_TYPE at htype
    rw [getLen_string hl] at hlimit
    rw [getLen_string hl, hraw (show STRING_TYPE ≠ INT32_TYPE by decide)] at hvalue
    obtain ⟨hstr, hval⟩ := strlen_of_bytes hvalue h hlimit
    rw [if_neg (by rw [htype]; decide), if_neg (by rw [htype]; decide),
      if_neg (by rw [htype]; decide), if_pos htype, hstr, Option.map_some, hval]
    rfl
  | blob key op val hl =>
    change m (cur + 4) = BLOB_TYPE at htype
    have hto : (NRAttribute.blob key op val).len_.toNat = val.length := getLen_blob hl
    rw [getLen_blob hl, hraw (show BLOB_TYPE ≠ INT32_TYPE by decide)] at hvalue
    rw [if_neg (by rw [htype]; decide), if_neg (by rw [htype]; decide),
      if_neg (by rw [htype]; decide), if_neg (by rw [htype]; decide), if_pos htype, hto, hvalue]
    rfl

theorem packAttrs_spec {attrs : List NRAttribute} (h : ∀ a ∈ attrs, a.Built) (m : Memory) (cur : ℕ) :
    (PackAttrs attrs m cur).2 = CalculateSize attrs ∧
      (∀ i, i < cur ∨ cur + CalculateSize attrs ≤ i → (PackAttrs attrs m cur).1 i = m i) ∧
      ∀ m' limit, SameOn cur (cur + CalculateSize attrs) (PackAttrs attrs m cur).1 m' →
        CalculateSize attrs ≤ limit → unpackFrom m' limit attrs.length cur = some attrs := by
  induction attrs generalizing m cur with
  | nil => exact ⟨rfl, fun _ _ => rfl, fun _ _ _ _ => rfl⟩
  | cons a as ih =>
    have ha := h a List.mem_cons_self
    have hstep := le_packedStep a.getLen
    obtain ⟨hsize, hout, hread⟩ := ih (fun b hb => h b (List.mem_cons_of_mem a hb))
      (packAttr m cur a) (cur + packedStep a.getLen)
    have hs : CalculateSize (a :: as) = packedStep a.getLen + CalculateSize as := rfl
    refine ⟨by rw [PackAttrs, hs, ← hsize], fun i hi => ?_, fun m' limit hm hlimit => ?_⟩
    · rw [hs] at hi
      rw [PackAttrs]
      dsimp only
      rw [hout i (by omega), packAttr_other ha m cur (by omega)]
    · rw [hs] at hm hlimit
      -- the later attributes leave the bytes of the first one
      have hfirst : SameOn cur (cur + packedStep a.getLen) (packAttr m cur a) m' := by
        intro i h1 h2
        rw [hm i h1 (by omega), PackAttrs]
        exact hout i (.inl h2)
      have hp := packAttr_packed ha hfirst
      have hrest := hread m' limit (fun i h1 h2 => hm i (by omega) (by omega)) (by omega)
      rw [List.length_cons, unpackFrom, unpackAttr_packed ha hp (by omega), hp.len, ntohs_htons]
      change (unpackFrom m' limit as.length (cur + packedStep a.getLen)).bind _ = _
      rw [hrest]
      rfl

theorem le_allocateBuffer (attrs : List NRAttribute) :
    sizeofHdr + CalculateSize attrs ≤ 4 * AllocateBuffer attrs := by
  rw [AllocateBuffer]
  omega

/-- Whatever the buffer held, and wherever the packed bytes are carried, the same attributes come out
of them; the buffer has room for them, and nothing else in it is written. -/
theorem unpack_pack (attrs : List DiffAttr) {m m' : Memory} {limit : ℕ}
    (hm : SameOn sizeofHdr (sizeofHdr + CalculateSize (attrs.map Subtype.val))
      (PackAttrs (attrs.map Subtype.val) m sizeofHdr).1 m')
    (hlimit : CalculateSize (attrs.map Subtype.val) ≤ limit) :
    UnpackAttrs m' limit attrs.length = some (attrs.map Subtype.val) ∧
      (PackAttrs (attrs.map Subtype.val) m sizeofHdr).2 = CalculateSize (attrs.map Subtype.val) ∧
      (∀ i, i < sizeofHdr ∨ sizeofHdr + CalculateSize (attrs.map Subtype.val) ≤ i →
        (PackAttrs (attrs.map Subtype.val) m sizeofHdr).1 i = m i) ∧
      sizeofHdr + CalculateSize (attrs.map Subtype.val) ≤
        4 * AllocateBuffer (attrs.map Subtype.val) := by
  have hbuilt : ∀ a ∈ attrs.map Subtype.val, a.Built := by
    intro a ha
    obtain ⟨b, -, rfl⟩ := List.mem_map.mp ha
    exact b.2
  obtain ⟨hsize, hout, hread⟩ := packAttrs_spec hbuilt m sizeofHdr
  have hunpack := hread m' limit hm hlimit
  rw [List.length_map] at hunpack
  exact ⟨hunpack, hsize, hout, le_allocateBuffer _⟩

/-- A number, a string of two characters and an empty blob. -/
theorem unpack_pack_three : UnpackAttrs (PackAttrs [.number 1 0 0 (leBytes 258), .string 2 5 [104, 105],
    .blob 3 1 []] (fun _ => 7) sizeofHdr).1 64 3 = some [.number 1 0 0 (leBytes 258),
      .string 2 5 [104, 105], .blob 3 1 []] :=
  (unpack_pack [⟨_, .int32 1 0 258⟩, ⟨_, .string 2 5 [104, 105] (by decide) (by decide)⟩,
    ⟨_, .blob 3 1 [] (by decide)⟩] (SameOn.refl _ _ _) (by decide)).1

end Ns2
