import Mathlib

/-! A list of words as one string of bits, the most significant bit of each word first. -/

namespace BitWords

variable {w : ℕ}

def bit (ws : List (BitVec w)) (k : ℕ) : Bool := (ws.getD (k / w) 0).getMsbD (k % w)

/-- The `n` low bits of `v` stand at `k`, and the others are zero. -/
structure Reads (ws : List (BitVec w)) (k n : ℕ) (v : BitVec w) : Prop where
  high : ∀ j, j + n < w → v.getMsbD j = false
  low : ∀ j, j < n → v.getMsbD (w - n + j) = bit ws (k + j)

theorem Reads.unique {ws : List (BitVec w)} {k n : ℕ} {v v' : BitVec w} (hn : n ≤ w)
    (h : Reads ws k n v) (h' : Reads ws k n v') : v = v' := by
  apply BitVec.eq_of_getMsbD_eq
  intro i hi
  by_cases hhigh : i + n < w
  · rw [h.high i hhigh, h'.high i hhigh]
  · obtain ⟨j, rfl⟩ : ∃ j, i = w - n + j := ⟨i - (w - n), by omega⟩
    rw [h.low j (by omega), h'.low j (by omega)]

theorem Reads.congr {ws ws' : List (BitVec w)} {k n : ℕ} {v : BitVec w} (h : Reads ws k n v)
    (hbits : ∀ j, k ≤ j → j < k + n → bit ws' j = bit ws j) : Reads ws' k n v where
  high := h.high
  low j hj := by rw [h.low j hj, hbits (k + j) (by omega) (by omega)]

theorem bit_append_zero (ws : List (BitVec w)) (k : ℕ) : bit (ws ++ [0]) k = bit ws k := by
  unfold bit
  congr 1
  rcases lt_trichotomy (k / w) ws.length with h | h | h
  · rw [List.getD_append _ _ _ _ h]
  · rw [List.getD_append_right _ _ _ _ (by omega), List.getD_eq_default ws _ (by omega), h]
    simp
  · rw [List.getD_append_right _ _ _ _ (by omega), List.getD_eq_default ws _ (by omega),
      List.getD_eq_default _ _ (by simp; omega)]

/-- A word is or-ed with `x`. -/
theorem bit_set_or {ws : List (BitVec w)} {i : ℕ} (hi : i < ws.length) (x : BitVec w) (k : ℕ) :
    bit (ws.set i (ws[i] ||| x)) k = (bit ws k || (decide (k / w = i) && x.getMsbD (k % w))) := by
  unfold bit
  by_cases hk : k / w = i
  · subst hk
    simp [List.getD_eq_getElem?_getD, hi]
  · simp [List.getD_eq_getElem?_getD, hk, Ne.symm hk]

/-- Position `p` of a value of `n` bits that is written at `u` is read at `k`. -/
theorem getMsbD_window {v : BitVec w} {n u k p : ℕ} (hv : ∀ j, j + n < w → v.getMsbD j = false)
    (hn : n ≤ w) (hp : p + n + u = w + k) :
    v.getMsbD p = (decide (u ≤ k) && decide (k < u + n) && v.getMsbD (w - n + (k - u))) := by
  by_cases h1 : u ≤ k
  · by_cases h2 : k < u + n
    · have he : p = w - n + (k - u) := by omega
      simp [h1, h2, he]
    · rw [BitVec.getMsbD_of_ge v p (by omega)]
      simp [h2]
  · rw [hv p (by omega)]
    simp [h1]

theorem window_out {u k n : ℕ} (h : ¬ (u ≤ k ∧ k < u + n)) (b : Bool) :
    (decide (u ≤ k) && decide (k < u + n) && b) = false := by
  by_cases hk : u ≤ k
  · simp [show ¬ k < u + n from fun hlt => h ⟨hk, hlt⟩]
  · simp [hk]

end BitWords
