import Mathlib

/-! Arrays that are indexed by a number modulo their size: a window of numbers, no longer
than the array, has slots of its own. -/

namespace RingBuffer

variable {α : Type*}

theorem toNat_mod_inj {n : ℕ} {i j : ℤ} (hi : 0 ≤ i) (hj : 0 ≤ j) (hij : i < j + n)
    (hji : j < i + n) (h : i.toNat % n = j.toNat % n) : i = j := by
  have hdvd : (n : ℤ) ∣ i - j := by
    have hz : ((i.toNat % n : ℕ) : ℤ) = ((j.toNat % n : ℕ) : ℤ) := congrArg Nat.cast h
    push_cast [Int.toNat_of_nonneg hi, Int.toNat_of_nonneg hj] at hz
    exact Int.dvd_of_emod_eq_zero (Int.emod_eq_emod_iff_emod_sub_eq_zero.mp hz)
  obtain ⟨k, hk⟩ := hdvd
  have hk0 : k = 0 := by
    by_contra hne
    rcases lt_or_gt_of_ne hne with hneg | hpos
    · have : (n : ℤ) * k ≤ n * (-1) := mul_le_mul_of_nonneg_left (by omega) (by omega)
      omega
    · have : (n : ℤ) * 1 ≤ n * k := mul_le_mul_of_nonneg_left (by omega) (by omega)
      omega
  rw [hk0, mul_zero] at hk
  omega

/-- The loop that writes `f i` to the slot of each `i` from `lo` on, `n` times. -/
def fill (slot : ℤ → ℕ) (f : ℤ → α) (lo : ℤ) (n : ℕ) (a : ℕ → α) : ℕ → α :=
  (List.range n).foldl (fun a (j : ℕ) => Function.update a (slot (lo + j)) (f (lo + j))) a

theorem fill_succ (slot : ℤ → ℕ) (f : ℤ → α) (lo : ℤ) (n : ℕ) (a : ℕ → α) :
    fill slot f lo (n + 1) a = Function.update (fill slot f lo n a) (slot (lo + n)) (f (lo + n)) := by
  simp only [fill, List.range_succ, List.foldl_append, List.foldl_cons, List.foldl_nil]

theorem fill_of_ne {slot : ℤ → ℕ} {f : ℤ → α} {lo : ℤ} {n x : ℕ} (a : ℕ → α)
    (h : ∀ i, lo ≤ i → i < lo + n → slot i ≠ x) : fill slot f lo n a x = a x := by
  induction n with
  | zero => rfl
  | succ n ih =>
    rw [fill_succ, Function.update_of_ne (h _ (by omega) (by push_cast; omega)).symm]
    exact ih fun i hi hin => h i hi (by push_cast; omega)

theorem fill_of_mem {slot : ℤ → ℕ} {f : ℤ → α} {lo i : ℤ} {n : ℕ} (a : ℕ → α) (hi : lo ≤ i)
    (hin : i < lo + n) (h : ∀ j, i < j → j < lo + n → slot j ≠ slot i) :
    fill slot f lo n a (slot i) = f i := by
  induction n with
  | zero => simp at hin; omega
  | succ n ih =>
    rw [fill_succ]
    by_cases hn : i = lo + n
    · rw [hn, Function.update_self]
    · have hlt : i < lo + n := by push_cast at hin; omega
      rw [Function.update_of_ne (h _ hlt (by push_cast; omega)).symm]
      exact ih hlt fun j hj hjn => h j hj (by push_cast; omega)

end RingBuffer
