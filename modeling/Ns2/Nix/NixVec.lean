import Ns2.Lib.BitWords

/-! The vector of neighbour indices, packed into words of 32 bits, and the bits that `Add` writes
and `Extract` reads. -/

namespace Ns2

/-- `unsigned long` -/
abbrev Nix_t := BitVec 32

abbrev Nixl_t := BitVec 32

/-- `NIX_NONE` -/
def nixNone : Nix_t := 0xffffffff

/-- `NIX_BPW` -/
def nixBpw : Nixl_t := 32

/-- `m_pNV` as the list of the words, a single one where the pointer holds it. -/
structure NixVec where
  m_pNV : List Nix_t
  m_used : Nixl_t
  m_alth : Nixl_t

namespace NixVec

def init : NixVec := ⟨[0], 0, 0⟩

def lth (nv : NixVec) : Nixl_t :=
  if nv.m_alth = 0 then nixBpw else ((nv.m_alth - 1) / nixBpw + 1) * nixBpw

/-- `m_pNV[i] |= newbits`; `none` is an access outside of the array. -/
def orWord (words : List Nix_t) (i : Nixl_t) (newbits : Nix_t) : Option (List Nix_t) :=
  words[i.toNat]?.map fun w => words.set i.toNat (w ||| newbits)

/-- The new array of `Add`, with the pair `(first, second)` in it. -/
def store (nv : NixVec) (first : Nix_t) (second : Nixl_t) : Option (List Nix_t) :=
  let newused := nv.m_used + second
  if newused > nv.lth then
    let newlth := nv.lth + nixBpw
    let pNew := nv.m_pNV ++ [0]
    if nv.m_used = nv.lth then
      orWord pNew (nv.m_used / nixBpw)
        (first <<< (nixBpw - nv.m_used + (newlth - 32) - second))
    else
      let left := nv.lth - nv.m_used
      (orWord pNew (nv.m_used / nixBpw) (first >>> (second - left))).bind fun words =>
        orWord words (nv.m_used / nixBpw + 1) (first <<< (nixBpw - (second - left)))
  else
    orWord nv.m_pNV (nv.m_used / nixBpw) (first <<< (nixBpw - nv.m_used + (nv.lth - 32) - second))

def add (nv : NixVec) (first : Nix_t) (second : Nixl_t) : Option NixVec :=
  if second = 0 then some nv
  else
    (nv.store first second).map fun words =>
      let newused := nv.m_used + second
      ⟨words, newused, if newused > nv.m_alth then newused else nv.m_alth⟩

/-- `Extract` with an external `used`. -/
def extract (nv : NixVec) (n used : Nixl_t) : Option (Nix_t × Nixl_t) :=
  let word := used / nixBpw
  let bit := used - word * nixBpw
  let m : BitVec 32 := 0x80000000
  if used + n > nv.m_alth then some (nixNone, used)
  else if bit + n ≤ nixBpw then
    nv.m_pNV[word.toNat]?.map fun w =>
      let u := (m.sshiftRight' (n - 1)) >>> bit
      ((w &&& u) >>> (nixBpw - bit - n), used + n)
  else
    nv.m_pNV[word.toNat]?.bind fun w =>
      let t := nixBpw - bit
      let u := (m.sshiftRight' (t - 1)) >>> bit
      let w := w &&& u
      let t := n - t
      nv.m_pNV[word.toNat + 1]?.map fun next => (w <<< t ||| next >>> (nixBpw - t), used + n)

/-- The search for the highest bit of `l` from bit `h` down. -/
def highestBit (l : Nixl_t) : ℕ → ℕ
  | 0 => 1
  | h + 1 => if (1 : Nixl_t) <<< (h + 1) &&& l ≠ 0 then h + 2 else highestBit l h

def getBitl (l : Nixl_t) : Nixl_t :=
  let h := if l &&& 0xFFFF0000 = 0 then if l &&& 0xFFFFFF00 = 0 then 7 else 15 else 31
  highestBit l h

open BitWords

/-- A vector that is only added to: the bits from `m_alth` on are zero. -/
structure Packed (nv : NixVec) : Prop where
  used : nv.m_used = nv.m_alth
  length : nv.m_pNV.length = (nv.m_alth.toNat - 1) / 32 + 1
  zero : ∀ k, nv.m_alth.toNat ≤ k → bit nv.m_pNV k = false
  small : nv.m_alth.toNat + 64 ≤ 2 ^ 32

theorem Packed.lth {nv : NixVec} (h : Packed nv) : nv.lth.toNat = 32 * nv.m_pNV.length := by
  have hsmall := h.small
  rw [h.length]
  unfold NixVec.lth nixBpw
  split_ifs with hz
  · simp [hz]
  · have hpos : 0 < nv.m_alth.toNat := by
      refine Nat.pos_of_ne_zero fun h0 => hz (BitVec.eq_of_toNat_eq h0)
    have hone : (1 : BitVec 32).toNat = 1 := rfl
    have hbpw : (32 : BitVec 32).toNat = 32 := rfl
    simp only [BitVec.toNat_mul, BitVec.toNat_add, BitVec.toNat_udiv, BitVec.toNat_sub, hone, hbpw]
    omega

theorem packed_init : Packed init where
  used := rfl
  length := rfl
  zero k _ := by
    unfold bit init
    rcases Nat.eq_zero_or_pos (k / 32) with hk | hk
    · simp [hk]
    · rw [List.getD_eq_default _ _ hk]
      simp
  small := by decide

theorem orWord_spec {words : List Nix_t} {i : Nixl_t} (hi : i.toNat < words.length) (x : Nix_t) :
    ∃ words', orWord words i x = some words' ∧ words'.length = words.length ∧
      ∀ k, bit words' k = (bit words k || (decide (k / 32 = i.toNat) && x.getMsbD (k % 32))) := by
  refine ⟨words.set i.toNat (words[i.toNat] ||| x), ?_, by simp, bit_set_or hi x⟩
  simp [orWord, hi]

/-- The value is written behind what is used. -/
theorem store_spec {nv : NixVec} (h : Packed nv) {first : Nix_t} {second : Nixl_t} {n : ℕ}
    (hn : second.toNat = n) (hpos : 1 ≤ n) (hle : n ≤ 32)
    (hfirst : ∀ j, j + n < 32 → first.getMsbD j = false)
    (hsmall : nv.m_used.toNat + n + 64 ≤ 2 ^ 32) :
    ∃ words, nv.store first second = some words ∧
      words.length = (nv.m_used.toNat + n - 1) / 32 + 1 ∧
      ∀ k, bit words k = (bit nv.m_pNV k || (decide (nv.m_used.toNat ≤ k) &&
        decide (k < nv.m_used.toNat + n) && first.getMsbD (32 - n + (k - nv.m_used.toNat)))) := by
  have hlth := h.lth
  have hlength := h.length
  rw [← h.used] at hlength
  generalize hu : nv.m_used.toNat = u at *
  have hnew : (nv.m_used + second).toNat = u + n := by
    rw [BitVec.toNat_add, hu, hn, Nat.mod_eq_of_lt (by omega)]
  have hword : (nv.m_used / nixBpw).toNat = u / 32 := by
    rw [BitVec.toNat_udiv, hu]
    rfl
  have hend : (nv.m_pNV.length : ℕ) * 32 ≤ u + 31 ∨ u = 0 ∧ nv.m_pNV.length = 1 := by omega
  unfold store
  by_cases hroom : nv.m_used + second > nv.lth
  · have hroom' : 32 * nv.m_pNV.length < u + n := by
      rw [← hlth, ← hnew]
      exact hroom
    simp only [if_pos hroom]
    by_cases hfull : nv.m_used = nv.lth
    · have hfull' : u = 32 * nv.m_pNV.length := by rw [← hlth, ← hu, hfull]
      obtain ⟨words, h1, h2, h3⟩ := @orWord_spec (nv.m_pNV ++ [0]) (nv.m_used / nixBpw)
        (by rw [hword]; simp; omega)
        (first <<< (nixBpw - nv.m_used + (nv.lth + nixBpw - 32) - second))
      have hshift : (nixBpw - nv.m_used + (nv.lth + nixBpw - 32) - second).toNat = 32 - n := by
        unfold nixBpw
        bv_omega
      simp only [if_pos hfull]
      refine ⟨words, h1, by rw [h2]; simp; omega, fun k => ?_⟩
      rw [h3, bit_append_zero, hword, BitVec.shiftLeft_eq', hshift, BitVec.getMsbD_shiftLeft]
      by_cases hk : k / 32 = u / 32
      · rw [getMsbD_window hfirst hle (u := u) (k := k) (by omega)]
        simp [hk]
      · rw [window_out (by omega)]
        simp [hk]
    · have hpart : u < 32 * nv.m_pNV.length := by
        refine lt_of_le_of_ne (by omega) fun he => hfull (BitVec.eq_of_toNat_eq ?_)
        rw [hu, hlth, he]
      obtain ⟨words₁, h1, h2, h3⟩ := @orWord_spec (nv.m_pNV ++ [0]) (nv.m_used / nixBpw)
        (by rw [hword]; simp; omega) (first >>> (second - (nv.lth - nv.m_used)))
      have hnext : (nv.m_used / nixBpw + 1).toNat = u / 32 + 1 := by
        rw [BitVec.toNat_add, hword, Nat.mod_eq_of_lt (by simp; omega)]
        rfl
      obtain ⟨words₂, h4, h5, h6⟩ := @orWord_spec words₁ (nv.m_used / nixBpw + 1)
        (by rw [hnext, h2]; simp; omega)
        (first <<< (nixBpw - (second - (nv.lth - nv.m_used))))
      have hshift : (second - (nv.lth - nv.m_used)).toNat = n + u - 32 * nv.m_pNV.length := by
        bv_omega
      have hshift' : (nixBpw - (second - (nv.lth - nv.m_used))).toNat =
          32 + 32 * nv.m_pNV.length - (n + u) := by
        unfold nixBpw
        bv_omega
      simp only [if_neg hfull, h1, Option.bind_some]
      refine ⟨words₂, h4, by rw [h5, h2]; simp; omega, fun k => ?_⟩
      rw [h6, h3, bit_append_zero, hword, hnext, BitVec.shiftLeft_eq', hshift',
        BitVec.ushiftRight_eq', hshift, BitVec.getMsbD_shiftLeft, BitVec.getMsbD_ushiftRight,
        Bool.or_assoc]
      congr 1
      by_cases hk : k / 32 = u / 32
      · have hmod : k % 32 < 32 := Nat.mod_lt _ (by norm_num)
        have hno : ¬ k / 32 = u / 32 + 1 := by omega
        by_cases hs : k % 32 < n + u - 32 * nv.m_pNV.length
        · rw [window_out (by omega)]
          simp [hs, hno]
        · rw [← getMsbD_window hfirst hle
            (p := k % 32 - (n + u - 32 * nv.m_pNV.length)) (u := u) (k := k) (by omega)]
          simp [hk, hs, hmod]
      · by_cases hk' : k / 32 = u / 32 + 1
        · rw [← getMsbD_window hfirst hle (p := k % 32 + (32 + 32 * nv.m_pNV.length - (n + u)))
            (u := u) (k := k) (by omega)]
          simp [hk']
        · rw [window_out (by omega)]
          simp [hk, hk']
  · have hroom' : u + n ≤ 32 * nv.m_pNV.length := by
      rw [← hlth, ← hnew]
      exact BitVec.not_lt.mp hroom
    obtain ⟨words, h1, h2, h3⟩ := @orWord_spec nv.m_pNV (nv.m_used / nixBpw)
      (by rw [hword]; omega) (first <<< (nixBpw - nv.m_used + (nv.lth - 32) - second))
    have hshift : (nixBpw - nv.m_used + (nv.lth - 32) - second).toNat =
        32 * nv.m_pNV.length - (u + n) := by
      unfold nixBpw
      bv_omega
    simp only [if_neg hroom]
    refine ⟨words, h1, by rw [h2]; omega, fun k => ?_⟩
    rw [h3, hword, BitVec.shiftLeft_eq', hshift, BitVec.getMsbD_shiftLeft]
    congr 1
    by_cases hk : k / 32 = u / 32
    · rw [← getMsbD_window hfirst hle (p := k % 32 + (32 * nv.m_pNV.length - (u + n)))
        (u := u) (k := k) (by omega)]
      simp [hk]
    · rw [window_out (by omega)]
      simp [hk]

theorem add_spec {nv : NixVec} (h : Packed nv) {first : Nix_t} {second : Nixl_t} {n : ℕ}
    (hn : second.toNat = n) (hpos : 1 ≤ n) (hle : n ≤ 32)
    (hfirst : ∀ j, j + n < 32 → first.getMsbD j = false)
    (hsmall : nv.m_alth.toNat + n + 64 ≤ 2 ^ 32) :
    ∃ nv', nv.add first second = some nv' ∧ Packed nv' ∧
      nv'.m_alth.toNat = nv.m_alth.toNat + n ∧
      (∀ k < nv.m_alth.toNat, bit nv'.m_pNV k = bit nv.m_pNV k) ∧
      Reads nv'.m_pNV nv.m_alth.toNat n first := by
  have hused : nv.m_used.toNat = nv.m_alth.toNat := by rw [h.used]
  obtain ⟨words, h1, h2, h3⟩ := store_spec h hn hpos hle hfirst (by rw [hused]; exact hsmall)
  rw [hused] at h2 h3
  have hne : second ≠ 0 := by
    rintro rfl
    simp at hn
    omega
  have hnew : (nv.m_used + second).toNat = nv.m_alth.toNat + n := by
    rw [BitVec.toNat_add, hused, hn, Nat.mod_eq_of_lt (by omega)]
  have hgt : nv.m_used + second > nv.m_alth := by
    change nv.m_alth.toNat < (nv.m_used + second).toNat
    omega
  refine ⟨⟨words, nv.m_used + second, nv.m_used + second⟩, ?_, ⟨rfl, ?_, fun k hk => ?_, ?_⟩, hnew,
    fun k hk => ?_, hfirst, fun j hj => ?_⟩
  · simp only [add, if_neg hne, h1, Option.map_some, if_pos hgt]
  · rw [hnew, h2]
  · rw [hnew] at hk
    rw [h3, h.zero k (by omega), window_out (by omega)]
    rfl
  · rw [hnew]
    exact hsmall
  · rw [h3, window_out (by omega)]
    simp
  · rw [h3, h.zero _ (by omega)]
    simp [hj]

/-- The mask of `n` high bits. -/
theorem mask_getMsbD {n : Nixl_t} (hpos : 1 ≤ n.toNat) (hle : n.toNat ≤ 32) (i : ℕ) :
    ((0x80000000 : BitVec 32).sshiftRight' (n - 1)).getMsbD i = decide (i < n.toNat) := by
  have hmin : (0x80000000 : BitVec 32) = BitVec.intMin 32 := by decide
  have hsub : (n - 1).toNat = n.toNat - 1 := by bv_omega
  rw [BitVec.sshiftRight_eq', BitVec.getMsbD_sshiftRight, hsub, hmin, BitVec.getMsbD_intMin]
  by_cases hi : i < n.toNat - 1
  · have h1 : i < 32 := by omega
    have h2 : i < n.toNat := by omega
    have hmsb : (BitVec.intMin 32).msb = true := by decide
    simp [hi, h1, h2, hmsb]
  · by_cases hlast : i = n.toNat - 1
    · have h1 : n.toNat - 1 < 32 := by omega
      have h2 : n.toNat - 1 < n.toNat := by omega
      simp [hlast, h1, h2]
    · have h2 : ¬ i < n.toNat := by omega
      have h3 : ¬ i - (n.toNat - 1) = 0 := by omega
      simp only [hi, h2, h3, if_false, decide_false, Bool.and_false]

/-- A value that stands in the vector is extracted. -/
theorem extract_spec {nv : NixVec} (h : Packed nv) {n used : Nixl_t} {v : Nix_t}
    (hpos : 1 ≤ n.toNat) (hle : n.toNat ≤ 32) (hend : used.toNat + n.toNat ≤ nv.m_alth.toNat)
    (hv : Reads nv.m_pNV used.toNat n.toNat v) : nv.extract n used = some (v, used + n) := by
  have hsmall := h.small
  have hbpw : nixBpw.toNat = 32 := rfl
  have hword : (used / nixBpw).toNat = used.toNat / 32 := BitVec.toNat_udiv
  have hbit : (used - used / nixBpw * nixBpw).toNat = used.toNat % 32 := by
    rw [BitVec.toNat_sub, BitVec.toNat_mul, hword, hbpw]
    omega
  have hin : used.toNat / 32 < nv.m_pNV.length := by
    rw [h.length]
    omega
  have hover : ¬ used + n > nv.m_alth := by
    refine BitVec.not_lt.mpr ?_
    change (used + n).toNat ≤ nv.m_alth.toNat
    rw [BitVec.toNat_add]
    omega
  have hw : ∀ k, k / 32 = used.toNat / 32 →
      nv.m_pNV[used.toNat / 32].getMsbD (k % 32) = bit nv.m_pNV k := fun k hk => by
    unfold bit
    rw [hk, List.getD_eq_getElem _ _ hin]
  unfold extract
  simp only [if_neg hover, hword, List.getElem?_eq_getElem hin, Option.map_some, Option.bind_some]
  by_cases hone : used - used / nixBpw * nixBpw + n ≤ nixBpw
  · have hone' : used.toNat % 32 + n.toNat ≤ 32 := by
      have : (used - used / nixBpw * nixBpw + n).toNat ≤ 32 := hone
      rw [BitVec.toNat_add, hbit] at this
      omega
    have hshift : (nixBpw - (used - used / nixBpw * nixBpw) - n).toNat =
        32 - used.toNat % 32 - n.toNat := by
      rw [BitVec.toNat_sub, BitVec.toNat_sub, hbit, hbpw]
      omega
    rw [if_pos hone]
    congr 2
    refine Reads.unique hle ⟨fun j hj => ?_, fun j hj => ?_⟩ hv
    · rw [BitVec.ushiftRight_eq', hshift, BitVec.getMsbD_ushiftRight, BitVec.getMsbD_and,
        BitVec.ushiftRight_eq', hbit, BitVec.getMsbD_ushiftRight, mask_getMsbD hpos hle]
      have hlow : j - (32 - used.toNat % 32 - n.toNat) < used.toNat % 32 ∨
          j < 32 - used.toNat % 32 - n.toNat := by omega
      rcases hlow with hlow | hlow <;> simp [hlow]
    · rw [← hw (used.toNat + j) (by omega), BitVec.ushiftRight_eq', hshift,
        BitVec.getMsbD_ushiftRight, BitVec.getMsbD_and, BitVec.ushiftRight_eq', hbit,
        BitVec.getMsbD_ushiftRight, mask_getMsbD hpos hle]
      have h1 : 32 - n.toNat + j < 32 := by omega
      have h2 : ¬ 32 - n.toNat + j < 32 - used.toNat % 32 - n.toNat := by omega
      have h3 : 32 - n.toNat + j - (32 - used.toNat % 32 - n.toNat) = (used.toNat + j) % 32 := by
        omega
      have h4 : (used.toNat + j) % 32 < 32 := by omega
      have h5 : ¬ (used.toNat + j) % 32 < used.toNat % 32 := by omega
      have h6 : (used.toNat + j) % 32 - used.toNat % 32 < n.toNat := by omega
      rw [h3]
      simp [h1, h2, h4, h5, h6]
  · have hone' : 32 < used.toNat % 32 + n.toNat := by
      have : ¬ (used - used / nixBpw * nixBpw + n).toNat ≤ 32 := hone
      rw [BitVec.toNat_add, hbit] at this
      omega
    have hin' : used.toNat / 32 + 1 < nv.m_pNV.length := by
      rw [h.length]
      omega
    have hw' : ∀ k, k / 32 = used.toNat / 32 + 1 →
        nv.m_pNV[used.toNat / 32 + 1].getMsbD (k % 32) = bit nv.m_pNV k := fun k hk => by
      unfold bit
      rw [hk, List.getD_eq_getElem _ _ hin']
    have hleft : (nixBpw - (used - used / nixBpw * nixBpw)).toNat = 32 - used.toNat % 32 := by
      rw [BitVec.toNat_sub, hbit, hbpw]
      omega
    have hright : (n - (nixBpw - (used - used / nixBpw * nixBpw))).toNat =
        n.toNat - (32 - used.toNat % 32) := by
      rw [BitVec.toNat_sub, hleft]
      omega
    have hshift : (nixBpw - (n - (nixBpw - (used - used / nixBpw * nixBpw)))).toNat =
        32 - (n.toNat - (32 - used.toNat % 32)) := by
      rw [BitVec.toNat_sub, hright, hbpw]
      omega
    have hmask := @mask_getMsbD (nixBpw - (used - used / nixBpw * nixBpw)) (by omega) (by omega)
    rw [hleft] at hmask
    rw [if_neg hone, List.getElem?_eq_getElem hin', Option.map_some]
    congr 2
    refine Reads.unique hle ⟨fun j hj => ?_, fun j hj => ?_⟩ hv
    · rw [BitVec.getMsbD_or, BitVec.shiftLeft_eq', hright, BitVec.getMsbD_shiftLeft,
        BitVec.getMsbD_and, BitVec.ushiftRight_eq', hbit, BitVec.getMsbD_ushiftRight, hmask,
        BitVec.ushiftRight_eq', hshift, BitVec.getMsbD_ushiftRight]
      have h1 : j + (n.toNat - (32 - used.toNat % 32)) < used.toNat % 32 := by omega
      have h2 : j < 32 - (n.toNat - (32 - used.toNat % 32)) := by omega
      simp [h1, h2]
    · rw [BitVec.getMsbD_or, BitVec.shiftLeft_eq', hright, BitVec.getMsbD_shiftLeft,
        BitVec.getMsbD_and, BitVec.ushiftRight_eq', hbit, BitVec.getMsbD_ushiftRight, hmask,
        BitVec.ushiftRight_eq', hshift, BitVec.getMsbD_ushiftRight]
      have h1 : 32 - n.toNat + j < 32 := by omega
      by_cases hj' : j < 32 - used.toNat % 32
      · rw [← hw (used.toNat + j) (by omega)]
        have h2 : 32 - n.toNat + j < 32 - (n.toNat - (32 - used.toNat % 32)) := by omega
        have h3 : 32 - n.toNat + j + (n.toNat - (32 - used.toNat % 32)) =
            (used.toNat + j) % 32 := by omega
        have h4 : (used.toNat + j) % 32 < 32 := by omega
        have h5 : ¬ (used.toNat + j) % 32 < used.toNat % 32 := by omega
        have h6 : (used.toNat + j) % 32 - used.toNat % 32 < 32 - used.toNat % 32 := by omega
        rw [h3]
        simp [h2, h4, h5, h6]
      · rw [← hw' (used.toNat + j) (by omega)]
        have h2 : ¬ 32 - n.toNat + j < 32 - (n.toNat - (32 - used.toNat % 32)) := by omega
        have h3 : 32 - n.toNat + j - (32 - (n.toNat - (32 - used.toNat % 32))) =
            (used.toNat + j) % 32 := by omega
        have h4 : 32 ≤ 32 - n.toNat + j + (n.toNat - (32 - used.toNat % 32)) := by omega
        rw [BitVec.getMsbD_of_ge _ _ h4, h3]
        simp [h1, h2]

theorem highestBit_spec (l : Nixl_t) {h : ℕ} (hh : h < 32) (hl : l.toNat < 2 ^ (h + 1)) :
    1 ≤ highestBit l h ∧ highestBit l h ≤ h + 1 ∧ l.toNat < 2 ^ highestBit l h ∧
      highestBit l h ≤ l.toNat + 1 := by
  induction h with
  | zero => exact ⟨le_rfl, le_rfl, hl, Nat.le_add_left 1 _⟩
  | succ h ih =>
    have hand : ((1 : Nixl_t) <<< (h + 1) &&& l).toNat =
        (l.toNat.testBit (h + 1)).toNat * 2 ^ (h + 1) := by
      have hpow : ((1 : Nixl_t) <<< (h + 1)).toNat = 2 ^ (h + 1) := by
        rw [BitVec.toNat_shiftLeft, Nat.shiftLeft_eq]
        exact (Nat.mod_eq_of_lt (by simpa using Nat.pow_lt_pow_right (by norm_num) hh)).trans
          (one_mul _)
      rw [BitVec.toNat_and, hpow, Nat.and_comm, Nat.and_two_pow]
    unfold highestBit
    cases hbit : l.toNat.testBit (h + 1) with
    | true =>
      have hge : 2 ^ (h + 1) ≤ l.toNat := Nat.ge_two_pow_of_testBit hbit
      have hne : (1 : Nixl_t) <<< (h + 1) &&& l ≠ 0 := fun h0 => by
        rw [h0, hbit] at hand
        simp at hand
        exact absurd hand (Nat.two_pow_pos _).ne
      rw [if_pos hne]
      have : h + 1 < 2 ^ (h + 1) := Nat.lt_two_pow_self
      exact ⟨by omega, le_rfl, hl, by omega⟩
    | false =>
      have h0 : (1 : Nixl_t) <<< (h + 1) &&& l = 0 := BitVec.eq_of_toNat_eq (by
        rw [hand, hbit]
        simp)
      have hlt : l.toNat < 2 ^ (h + 1) := by
        by_contra hge
        have hdiv : l.toNat / 2 ^ (h + 1) = 1 := by
          apply Nat.div_eq_of_lt_le
          · omega
          · rw [pow_succ] at hl
            omega
        simp [Nat.testBit_eq_decide_div_mod_eq, hdiv] at hbit
      rw [if_neg (not_not.mpr h0)]
      obtain ⟨h1, h2, h3, h4⟩ := ih (by omega) hlt
      exact ⟨h1, by omega, h3, h4⟩

theorem lt_of_mask {l mask : Nixl_t} {n : ℕ} (hmask : ∀ i, n ≤ i → i < 32 → mask.getLsbD i = true)
    (h : l &&& mask = 0) : l.toNat < 2 ^ n := by
  apply Nat.lt_pow_two_of_testBit
  intro i hi
  by_cases hlt : i < 32
  · have hb : (l &&& mask).getLsbD i = false := by rw [h]; simp
    rw [BitVec.getLsbD_and, hmask i hi hlt, Bool.and_true] at hb
    exact hb
  · exact BitVec.getLsbD_of_ge l i (by omega)

/-- The width of an index up to `l`. -/
theorem getBitl_spec (l : Nixl_t) : 1 ≤ (getBitl l).toNat ∧ (getBitl l).toNat ≤ 32 ∧
    l.toNat < 2 ^ (getBitl l).toNat ∧ (getBitl l).toNat ≤ l.toNat + 1 := by
  have hall : ∀ h < 32, l.toNat < 2 ^ (h + 1) → 1 ≤ (highestBit l h : Nixl_t).toNat ∧
      (highestBit l h : Nixl_t).toNat ≤ 32 ∧ l.toNat < 2 ^ (highestBit l h : Nixl_t).toNat ∧
      (highestBit l h : Nixl_t).toNat ≤ l.toNat + 1 := fun h hh hl => by
    obtain ⟨h1, h2, h3, h4⟩ := highestBit_spec l hh hl
    have hcast : (highestBit l h : Nixl_t).toNat = highestBit l h := by
      rw [BitVec.natCast_eq_ofNat, BitVec.toNat_ofNat, Nat.mod_eq_of_lt (by omega)]
    rw [hcast]
    exact ⟨h1, by omega, h3, h4⟩
  unfold getBitl
  split_ifs with h1 h2
  · exact hall 7 (by norm_num) (lt_of_mask (by decide) h2)
  · exact hall 15 (by norm_num) (lt_of_mask (by decide) h1)
  · exact hall 31 (by norm_num) l.isLt

end NixVec

end Ns2
