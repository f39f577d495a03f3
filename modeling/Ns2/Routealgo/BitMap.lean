import Mathlib

/-! Arrays of small numbers, packed into words of which 32 bits are used; a word is an
`unsigned long` of 64 bits. -/

namespace Ns2

def BITS_ULONG : ℕ := 32

/-- The words; there is one even where the pointer to them is used as the word itself. -/
structure BitMap where
  m_Size : ℕ
  m_BPE : ℕ
  m_Words : ℕ
  m_EPW : ℕ
  m_pM : List (BitVec 64)
  deriving DecidableEq

namespace BitMap

/-- The loop of `FindBPE`, with the bits below `bpe` still to be looked at. -/
def findLoop (m : ℕ) : ℕ → ℕ
  | 0 => 0
  | bpe + 1 => if m.testBit bpe then bpe + 1 else findLoop m bpe

def FindBPE (m : ℕ) : ℕ := findLoop m 32

/-- `none` is a division by zero. -/
def new (size bitsPerEntry : ℕ) : Option BitMap :=
  if bitsPerEntry = 0 ∨ BITS_ULONG / bitsPerEntry = 0 then none
  else
    let epw := BITS_ULONG / bitsPerEntry
    let words := (size + epw - 1) / epw
    some ⟨size, bitsPerEntry, words, epw, List.replicate (max words 1) 0⟩

/-- The number of the word; `none` is a failed assertion. -/
def GetWordAddress (b : BitMap) (which : ℕ) : Option ℕ :=
  if which < b.m_Size then some (if b.m_Words = 1 then 0 else which / b.m_EPW) else none

def GetShiftCount (b : BitMap) (which : ℕ) : ℕ := (which - which / b.m_EPW * b.m_EPW) * b.m_BPE

/-- On 64 bits `0x80000000` is positive, so no ones come in from the left. -/
def GetBitMask (b : BitMap) (which : ℕ) : BitVec 64 :=
  (0x80000000#64 >>> (b.m_BPE - 1)) >>> (32 - (b.GetShiftCount which + b.m_BPE))

def Set (b : BitMap) (which : ℕ) (value : BitVec 64) : Option BitMap :=
  (b.GetWordAddress which).bind fun a => b.m_pM[a]?.map fun w =>
    let w := w &&& ~~~b.GetBitMask which ||| value <<< b.GetShiftCount which
    { b with m_pM := b.m_pM.set a w }

def Get (b : BitMap) (which : ℕ) : Option (BitVec 64) :=
  (b.GetWordAddress which).bind fun a => b.m_pM[a]?.map fun w =>
    (w &&& b.GetBitMask which) >>> b.GetShiftCount which

variable {b : BitMap} {m k j size bpe : ℕ} {v : BitVec 64}

theorem findLoop_spec (hm : 0 < m) (hlt : m < 2 ^ bpe) :
    0 < findLoop m bpe ∧ findLoop m bpe ≤ bpe ∧ m < 2 ^ findLoop m bpe := by
  induction bpe with
  | zero => omega
  | succ n ih =>
    rw [findLoop]
    by_cases hbit : m.testBit n = true
    · rw [if_pos hbit]
      exact ⟨Nat.succ_pos n, le_rfl, hlt⟩
    · rw [if_neg hbit]
      have hlow : m < 2 ^ n := by
        apply Nat.lt_pow_two_of_testBit
        intro i hi
        rcases hi.eq_or_lt with rfl | hi
        · exact Bool.eq_false_of_not_eq_true hbit
        · exact Nat.testBit_lt_two_pow (hlt.trans_le (Nat.pow_le_pow_right (by decide) hi))
      obtain ⟨h1, h2, h3⟩ := ih hlow
      exact ⟨h1, h2.trans (Nat.le_succ n), h3⟩

theorem FindBPE_spec (hm : 0 < m) (hlt : m < 2 ^ 32) :
    0 < FindBPE m ∧ FindBPE m ≤ 32 ∧ m < 2 ^ FindBPE m := findLoop_spec hm hlt

/-- The words are enough for the entries. -/
structure Shaped (b : BitMap) : Prop where
  bpe : 0 < b.m_BPE
  bpe_le : b.m_BPE ≤ 32
  epw : b.m_EPW = 32 / b.m_BPE
  words : b.m_Words = (b.m_Size + b.m_EPW - 1) / b.m_EPW
  length : b.m_pM.length = max b.m_Words 1

theorem Shaped.epw_pos (h : b.Shaped) : 0 < b.m_EPW := by
  rw [h.epw]
  exact Nat.div_pos h.bpe_le h.bpe

theorem Shaped.address (h : b.Shaped) (hk : k < b.m_Size) :
    b.GetWordAddress k = some (k / b.m_EPW) ∧ k / b.m_EPW < b.m_pM.length := by
  have hpos := h.epw_pos
  have hlt : k / b.m_EPW < b.m_Words := by
    rw [h.words, Nat.div_lt_iff_lt_mul hpos]
    have hdiv := Nat.div_add_mod (b.m_Size + b.m_EPW - 1) b.m_EPW
    have hmod := Nat.mod_lt (b.m_Size + b.m_EPW - 1) hpos
    rw [Nat.mul_comm]
    omega
  refine ⟨?_, by rw [h.length]; omega⟩
  rw [GetWordAddress, if_pos hk]
  split_ifs with hone
  · rw [hone, Nat.lt_one_iff] at hlt
    rw [hlt]
  · rfl

theorem shift_eq (b : BitMap) (k : ℕ) : b.GetShiftCount k = k % b.m_EPW * b.m_BPE := by
  rw [GetShiftCount, Nat.mul_comm (k / b.m_EPW), Nat.mod_eq_sub]

theorem Shaped.shift_le (h : b.Shaped) (k : ℕ) : b.GetShiftCount k + b.m_BPE ≤ 32 := by
  have hmod := Nat.mod_lt k h.epw_pos
  have hmul : b.m_EPW * b.m_BPE ≤ 32 := by
    rw [h.epw]
    exact Nat.div_mul_le_self 32 b.m_BPE
  rw [shift_eq]
  calc k % b.m_EPW * b.m_BPE + b.m_BPE = (k % b.m_EPW + 1) * b.m_BPE := by ring
    _ ≤ b.m_EPW * b.m_BPE := Nat.mul_le_mul_right _ hmod
    _ ≤ 32 := hmul

/-- The mask of an entry is the lowest of its bits only. -/
theorem Shaped.mask (h : b.Shaped) (k : ℕ) :
    b.GetBitMask k = 1#64 <<< b.GetShiftCount k := by
  have hle := h.shift_le k
  have hpos := h.bpe
  rw [GetBitMask, ← BitVec.shiftRight_add]
  generalize hc : b.GetShiftCount k = c at *
  have hsum : b.m_BPE - 1 + (32 - (c + b.m_BPE)) = 31 - c := by omega
  rw [hsum]
  have hlt : c < 32 := by omega
  clear hc hsum hle
  interval_cases c <;> rfl

/-- The lowest bit of an entry. -/
def low (b : BitMap) (k : ℕ) : Bool :=
  (b.m_pM.getD (k / b.m_EPW) 0).getLsbD (b.GetShiftCount k)

/-- The entries of one word do not meet. -/
theorem apart (hword : j / b.m_EPW = k / b.m_EPW) (hne : j ≠ k) :
    b.GetShiftCount j + b.m_BPE ≤ b.GetShiftCount k ∨
      b.GetShiftCount k + b.m_BPE ≤ b.GetShiftCount j := by
  have hj := Nat.div_add_mod j b.m_EPW
  have hk := Nat.div_add_mod k b.m_EPW
  have hmod : j % b.m_EPW ≠ k % b.m_EPW := fun he => hne (by rw [← hj, ← hk, hword, he])
  rw [shift_eq, shift_eq]
  rcases lt_or_gt_of_ne hmod with hlt | hlt
  · left
    calc j % b.m_EPW * b.m_BPE + b.m_BPE = (j % b.m_EPW + 1) * b.m_BPE := by ring
      _ ≤ k % b.m_EPW * b.m_BPE := Nat.mul_le_mul_right _ hlt
  · right
    calc k % b.m_EPW * b.m_BPE + b.m_BPE = (k % b.m_EPW + 1) * b.m_BPE := by ring
      _ ≤ j % b.m_EPW * b.m_BPE := Nat.mul_le_mul_right _ hlt

/-- A write reaches the lowest bit of its own entry, and of no other one. -/
theorem Shaped.set (h : b.Shaped) (hk : k < b.m_Size) (hv : v.toNat < 2 ^ b.m_BPE) :
    ∃ c, b.Set k v = some c ∧ c.Shaped ∧ c.m_Size = b.m_Size ∧ c.m_BPE = b.m_BPE ∧
      ∀ j, c.low j = if j = k then v.getLsbD 0 else b.low j := by
  obtain ⟨haddr, hlt⟩ := h.address hk
  have hle := h.shift_le k
  have hpos := h.bpe
  rw [BitMap.Set, haddr, Option.bind_some, List.getElem?_eq_getElem hlt, Option.map_some, h.mask]
  generalize hw : b.m_pM[k / b.m_EPW] = w
  have hget : b.m_pM.getD (k / b.m_EPW) 0 = w := by simp [hlt, hw]
  refine ⟨_, rfl, ⟨h.bpe, h.bpe_le, h.epw, h.words, by simp [h.length]⟩, rfl, rfl, fun j => ?_⟩
  change (((b.m_pM.set _ _).getD (j / b.m_EPW) 0)).getLsbD (b.GetShiftCount j) = _
  by_cases hword : j / b.m_EPW = k / b.m_EPW
  · rw [hword, List.getD_eq_getElem?_getD, List.getElem?_set_self hlt, Option.getD_some,
      BitVec.getLsbD_or, BitVec.getLsbD_and, BitVec.getLsbD_not, BitVec.getLsbD_shiftLeft,
      BitVec.getLsbD_shiftLeft]
    by_cases hj : j = k
    · subst hj
      have h64 : b.GetShiftCount j < 64 := by omega
      simp [h64]
    · have hjle := h.shift_le j
      rw [if_neg hj, low, hword, hget]
      rcases apart hword hj with hlow | hhigh
      · have h1 : b.GetShiftCount j < b.GetShiftCount k := by omega
        have h64 : b.GetShiftCount j < 64 := by omega
        simp [h1, h64]
      · have h1 : ¬ b.GetShiftCount j < b.GetShiftCount k := by omega
        have h64 : b.GetShiftCount j < 64 := by omega
        have hz : v.getLsbD (b.GetShiftCount j - b.GetShiftCount k) = false := by
          rw [← BitVec.testBit_toNat]
          exact Nat.testBit_lt_two_pow (hv.trans_le (Nat.pow_le_pow_right (by decide) (by omega)))
        have hone : (1#64).getLsbD (b.GetShiftCount j - b.GetShiftCount k) = false := by
          rw [BitVec.getLsbD_one]
          exact decide_eq_false (by omega)
        simp [h1, h64, hz, hone]
  · have hj : j ≠ k := fun he => hword (by rw [he])
    rw [if_neg hj, List.getD_eq_getElem?_getD, List.getElem?_set_ne (Ne.symm hword), low,
      List.getD_eq_getElem?_getD]

/-- A read returns the lowest bit of the entry. -/
theorem Shaped.get (h : b.Shaped) (hk : k < b.m_Size) :
    b.Get k = some (if b.low k then 1 else 0) := by
  obtain ⟨haddr, hlt⟩ := h.address hk
  have hle := h.shift_le k
  have hpos := h.bpe
  rw [BitMap.Get, haddr, Option.bind_some, List.getElem?_eq_getElem hlt, Option.map_some, h.mask, low,
    List.getD_eq_getElem?_getD, List.getElem?_eq_getElem hlt, Option.getD_some]
  generalize b.m_pM[k / b.m_EPW] = w
  generalize b.GetShiftCount k = c at *
  have hc : c < 32 := by omega
  rw [← BitVec.twoPow_eq, BitVec.and_twoPow]
  split_ifs
  · clear hle
    interval_cases c <;> rfl
  · rw [BitVec.zero_ushiftRight]
    rfl

/-- All entries are zero at first. -/
theorem new_shaped (hpos : 0 < bpe) (hle : bpe ≤ 32) (size : ℕ) :
    ∃ b, new size bpe = some b ∧ b.Shaped ∧ b.m_Size = size ∧ b.m_BPE = bpe := by
  have hepw : BITS_ULONG / bpe ≠ 0 := (Nat.div_pos hle hpos).ne'
  rw [new, if_neg (not_or.mpr ⟨hpos.ne', hepw⟩)]
  exact ⟨_, rfl, ⟨hpos, hle, rfl, rfl, List.length_replicate⟩, rfl, rfl⟩

end BitMap

end Ns2
