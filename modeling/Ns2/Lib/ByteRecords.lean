import Mathlib

/-! Records in a memory of bytes. What is written at an offset is read there again, and the records
that a loop writes one after the other are those that a loop reads. -/

namespace ByteRecords

abbrev Byte := BitVec 8

abbrev Memory := ℕ → Byte

def bytes (m : Memory) (off n : ℕ) : List Byte := (List.range n).map fun i => m (off + i)

def putBytes (m : Memory) (off : ℕ) (bs : List Byte) : Memory := fun i =>
  if off ≤ i ∧ i < off + bs.length then bs.getD (i - off) 0 else m i

/-- `m'` has the bytes of `m` from `off` to `stop`. -/
def SameOn (off stop : ℕ) (m m' : Memory) : Prop := ∀ i, off ≤ i → i < stop → m' i = m i

theorem SameOn.refl (off stop : ℕ) (m : Memory) : SameOn off stop m m := fun _ _ _ => rfl

theorem SameOn.trans {off stop : ℕ} {m m' m'' : Memory} (h : SameOn off stop m m')
    (h' : SameOn off stop m' m'') : SameOn off stop m m'' := fun i h1 h2 =>
  (h' i h1 h2).trans (h i h1 h2)

theorem SameOn.mono {off stop off' stop' : ℕ} {m m' : Memory} (h : SameOn off stop m m')
    (hoff : off ≤ off') (hstop : stop' ≤ stop) : SameOn off' stop' m m' := fun i h1 h2 =>
  h i (hoff.trans h1) (h2.trans_le hstop)

theorem putBytes_other {m : Memory} {off : ℕ} {bs : List Byte} {i : ℕ}
    (h : i < off ∨ off + bs.length ≤ i) : putBytes m off bs i = m i := if_neg (by omega)

theorem putBytes_at {m : Memory} {off : ℕ} {bs : List Byte} {i : ℕ} (h : i < bs.length) :
    putBytes m off bs (off + i) = bs.getD i 0 := by
  rw [putBytes, if_pos (by omega), Nat.add_sub_cancel_left]

theorem bytes_putBytes {m m' : Memory} {off : ℕ} {bs : List Byte}
    (h : SameOn off (off + bs.length) (putBytes m off bs) m') : bytes m' off bs.length = bs := by
  apply List.ext_getElem
  · simp [bytes]
  · intro i h1 h2
    simp only [bytes, List.getElem_map, List.getElem_range]
    rw [h _ (by omega) (by omega), putBytes_at h2, List.getD_eq_getElem _ _ h2]

theorem bytes_length (m : Memory) (off n : ℕ) : (bytes m off n).length = n := by simp [bytes]

/-- A word, the low byte first. -/
def leBytes (v : BitVec 32) : List Byte :=
  [v.extractLsb' 0 8, v.extractLsb' 8 8, v.extractLsb' 16 8, v.extractLsb' 24 8]

def putWord (m : Memory) (off : ℕ) (v : BitVec 32) : Memory := putBytes m off (leBytes v)

def word (m : Memory) (off : ℕ) : BitVec 32 := m (off + 3) ++ m (off + 2) ++ m (off + 1) ++ m off

theorem append_extract (v : BitVec 32) :
    v.extractLsb' 24 8 ++ v.extractLsb' 16 8 ++ v.extractLsb' 8 8 ++ v.extractLsb' 0 8 = v := by
  apply BitVec.eq_of_getLsbD_eq
  intro i hi
  simp only [BitVec.getLsbD_append, BitVec.getLsbD_extractLsb']
  split_ifs with h1 h2 h3
  · simp [h1]
  · rw [show 8 + (i - 8) = i by omega]
    simp [h2]
  · rw [show 16 + (i - 8 - 8) = i by omega]
    simp [h3]
  · rw [show 24 + (i - 8 - 8 - 8) = i by omega]
    simp [show i - 8 - 8 - 8 < 8 by omega]

theorem word_putWord {m m' : Memory} {off : ℕ} {v : BitVec 32}
    (h : SameOn off (off + 4) (putWord m off v) m') : word m' off = v := by
  have hat : ∀ i < 4, m' (off + i) = (leBytes v).getD i 0 := fun i hi => by
    rw [h _ (by omega) (by omega), putWord, putBytes_at hi]
  have h0 : m' off = v.extractLsb' 0 8 := hat 0 (by omega)
  rw [word, hat 3 (by omega), hat 2 (by omega), hat 1 (by omega), h0]
  exact append_extract v

/-- A word that is read byte by byte, the high byte first. -/
def beWord (m : Memory) (off : ℕ) : BitVec 32 :=
  (((m off).setWidth 32 <<< 8 ||| (m (off + 1)).setWidth 32) <<< 8 |||
    (m (off + 2)).setWidth 32) <<< 8 ||| (m (off + 3)).setWidth 32

theorem beWord_eq (m : Memory) (off : ℕ) :
    beWord m off = m off ++ m (off + 1) ++ m (off + 2) ++ m (off + 3) := by
  apply BitVec.eq_of_getLsbD_eq
  intro i hi
  simp only [beWord, BitVec.getLsbD_or, BitVec.getLsbD_shiftLeft, BitVec.getLsbD_setWidth,
    BitVec.getLsbD_append, hi, decide_true, Bool.true_and]
  by_cases h1 : i < 8
  · simp [h1]
  · have h0 := BitVec.getLsbD_of_ge (m (off + 3)) i (by omega)
    by_cases h2 : i - 8 < 8
    · simp [h0, h1, h2, show i - 8 < 32 by omega]
    · have h3 := BitVec.getLsbD_of_ge (m (off + 2)) (i - 8) (by omega)
      by_cases h4 : i - 8 - 8 < 8
      · simp [h0, h1, h2, h3, h4, show i - 8 < 32 by omega, show i - 8 - 8 < 32 by omega]
      · have h5 := BitVec.getLsbD_of_ge (m (off + 1)) (i - 8 - 8) (by omega)
        simp [h0, h1, h2, h3, h4, h5, show i - 8 < 32 by omega, show i - 8 - 8 < 32 by omega,
          show i - 8 - 8 - 8 < 32 by omega]

/-- A half word, the low byte first. -/
def putHalf (m : Memory) (off : ℕ) (v : BitVec 16) : Memory :=
  putBytes m off [v.extractLsb' 0 8, v.extractLsb' 8 8]

def half (m : Memory) (off : ℕ) : BitVec 16 := m (off + 1) ++ m off

theorem half_putHalf {m m' : Memory} {off : ℕ} {v : BitVec 16}
    (h : SameOn off (off + 2) (putHalf m off v) m') : half m' off = v := by
  have hat : ∀ i < 2, m' (off + i) = [v.extractLsb' 0 8, v.extractLsb' 8 8].getD i 0 :=
    fun i hi => by rw [h _ (by omega) (by omega), putHalf, putBytes_at hi]
  have h0 : m' off = v.extractLsb' 0 8 := hat 0 (by omega)
  have h1 : m' (off + 1) = v.extractLsb' 8 8 := hat 1 (by omega)
  rw [half, h1, h0]
  apply BitVec.eq_of_getLsbD_eq
  intro i hi
  rw [BitVec.getLsbD_append, BitVec.getLsbD_extractLsb', BitVec.getLsbD_extractLsb']
  split_ifs with h2
  · simp [h2]
  · rw [show 8 + (i - 8) = i by omega]
    simp [show i - 8 < 8 by omega]

/-- The low `width` bits of a byte. -/
def field (m : Memory) (off width : ℕ) : ℕ := (m off).toNat % 2 ^ width

def setField (m : Memory) (off width v : ℕ) : Memory :=
  Function.update m off
    (BitVec.ofNat 8 ((m off).toNat / 2 ^ width * 2 ^ width + v % 2 ^ width))

theorem field_setField {m : Memory} {off width : ℕ} (v : ℕ) (hwidth : width ≤ 8) :
    field (setField m off width v) off width = v % 2 ^ width := by
  rw [field, setField, Function.update_self, BitVec.toNat_ofNat,
    Nat.mod_mod_of_dvd _ (pow_dvd_pow 2 hwidth), Nat.mul_add_mod_self_right, Nat.mod_mod]

theorem setField_other {m : Memory} {off width v i : ℕ} (h : i ≠ off) :
    setField m off width v i = m i := Function.update_of_ne h _ _

/-- How the values of a type are written and read. -/
structure Codec (α : Type*) where
  size : α → ℕ
  write : Memory → ℕ → α → Memory
  read : Memory → ℕ → α
  other : ∀ (m : Memory) (off : ℕ) (a : α) (i : ℕ), i < off ∨ off + size a ≤ i →
    write m off a i = m i
  read_write : ∀ (m m' : Memory) (off : ℕ) (a : α),
    SameOn off (off + size a) (write m off a) m' → read m' off = a

namespace Codec

variable {α : Type*} (c : Codec α)

def sizeAll (l : List α) : ℕ := (l.map c.size).sum

def readAll (m : Memory) : ℕ → ℕ → List α
  | _, 0 => []
  | off, n + 1 => c.read m off :: readAll m (off + c.size (c.read m off)) n

/-- The records stand one after the other, and are read as long as their bytes stay. -/
def Stored (m : Memory) : ℕ → List α → Prop
  | _, [] => True
  | off, a :: l =>
    (∀ m', SameOn off (off + c.size a) m m' → c.read m' off = a) ∧ Stored m (off + c.size a) l

variable {c}

@[simp] theorem sizeAll_nil : c.sizeAll [] = 0 := rfl

@[simp] theorem sizeAll_cons (a : α) (l : List α) : c.sizeAll (a :: l) = c.size a + c.sizeAll l := by
  simp [sizeAll]

theorem Stored.congr {m m' : Memory} {off : ℕ} {l : List α} (h : c.Stored m off l)
    (hm : SameOn off (off + c.sizeAll l) m m') : c.Stored m' off l := by
  induction l generalizing off with
  | nil => trivial
  | cons a l ih =>
    rw [sizeAll_cons] at hm
    refine ⟨fun m'' hm'' => h.1 m'' ((hm.mono le_rfl (by omega)).trans hm''), ?_⟩
    exact ih h.2 (hm.mono (by omega) (by omega))

theorem Stored.readAll {m : Memory} {off : ℕ} {l : List α} (h : c.Stored m off l) :
    c.readAll m off l.length = l := by
  induction l generalizing off with
  | nil => rfl
  | cons a l ih =>
    have ha : c.read m off = a := h.1 m (.refl _ _ m)
    rw [List.length_cons, Codec.readAll, ha, ih h.2]

/-- One record is written in front of the others. -/
theorem stored_cons {m m' : Memory} {off : ℕ} {a : α} {l : List α}
    (h : c.Stored m' (off + c.size a) l)
    (hm : SameOn off (off + c.size a) (c.write m off a) m') : c.Stored m' off (a :: l) :=
  ⟨fun m'' hm'' => c.read_write m m'' off a (hm.trans hm''), h⟩

end Codec

end ByteRecords
