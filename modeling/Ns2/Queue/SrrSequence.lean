import Mathlib.Data.List.Rotate
import Mathlib.Data.Nat.Factorization.Basic
import Ns2.Queue.SrrMatrix

/-! How often each term stands in the weight spread sequence, and the word that a period of it
spells with a list for each column. -/

namespace Ns2

open Finset

theorem rawScan_stops {i j d : ℕ} (h : rawScan i j d < j + d) : ¬ 2 ^ rawScan i j d ∣ i := by
  induction d generalizing j with
  | zero => exact absurd h (lt_irrefl j)
  | succ d ih =>
    rw [rawScan] at h ⊢
    split_ifs at h ⊢ with hj
    · exact fun hdvd => hj (Nat.mod_eq_zero_of_dvd hdvd)
    · exact ih (by omega)

/-- A term is one more than the number of twos in the place. -/
theorem pwss_eq_iff {k j : ℕ} (hk : k + 1 < 2 ^ maxWssOrder) :
    pwss k = j ↔ 1 ≤ j ∧ 2 ^ (j - 1) ∣ k + 1 ∧ ¬ 2 ^ j ∣ k + 1 := by
  have hspec : 1 ≤ pwss k ∧ 2 ^ (pwss k - 1) ∣ k + 1 ∧ ¬ 2 ^ pwss k ∣ k + 1 := by
    obtain ⟨h1, h2⟩ := rawScan_spec (k + 1) 1 (maxWssOrder - 1)
    have hle := (pwss_le hk).2
    refine ⟨h1, ?_, fun hdvd => ?_⟩
    · by_cases hone : pwss k = 1
      · rw [hone]
        exact one_dvd _
      · have h1' : 1 ≤ pwss k := h1
        exact h2 (pwss k - 1) (by omega) (show pwss k - 1 < pwss k by omega)
    · by_cases hlt : pwss k < maxWssOrder
      · exact rawScan_stops (show pwss k < 1 + (maxWssOrder - 1) from hlt) hdvd
      · have := Nat.le_of_dvd (Nat.succ_pos k) hdvd
        rw [show pwss k = maxWssOrder by omega] at this
        omega
  constructor
  · rintro rfl
    exact hspec
  · rintro ⟨h1, h2, h3⟩
    have hle : pwss k ≤ j := by
      by_contra hlt
      exact h3 ((pow_dvd_pow 2 (by omega)).trans hspec.2.1)
    have hge : j ≤ pwss k := by
      by_contra hlt
      exact hspec.2.2 ((pow_dvd_pow 2 (by omega)).trans h2)
    omega

theorem two_pow_sub_one_div {n a : ℕ} (ha : a ≤ n) : (2 ^ n - 1) / 2 ^ a = 2 ^ (n - a) - 1 := by
  have hpos : 0 < 2 ^ a := by positivity
  have hpow : 2 ^ (n - a) * 2 ^ a = 2 ^ n := by rw [← pow_add, Nat.sub_add_cancel ha]
  have h1 : 0 < 2 ^ (n - a) := by positivity
  have hle : 2 ^ a ≤ 2 ^ n := Nat.pow_le_pow_right (by decide) ha
  apply Nat.div_eq_of_lt_le
  · rw [Nat.sub_mul, hpow]
    omega
  · rw [Nat.sub_add_cancel h1, hpow]
    omega

/-- Column `i` comes up `2 ^ i` times. -/
theorem card_column {n i : ℕ} (hn : n ≤ maxWssOrder) (hi : i < n) :
    #{k ∈ range (2 ^ n - 1) | n - pwss k = i} = 2 ^ i := by
  have hfilter : {k ∈ range (2 ^ n - 1) | n - pwss k = i} =
      {k ∈ range (2 ^ n - 1) | 2 ^ (n - i - 1) ∣ k + 1} \
        {k ∈ range (2 ^ n - 1) | 2 ^ (n - i) ∣ k + 1} := by
    ext k
    simp only [mem_filter, mem_sdiff, mem_range, not_and]
    constructor
    · rintro ⟨hk, he⟩
      have hle := pwss_le (show k + 1 < 2 ^ n by omega)
      have hk' : k + 1 < 2 ^ maxWssOrder :=
        (show k + 1 < 2 ^ n by omega).trans_le (Nat.pow_le_pow_right (by decide) hn)
      obtain ⟨-, h1, h2⟩ := (pwss_eq_iff hk').mp (show pwss k = n - i by omega)
      exact ⟨⟨hk, h1⟩, fun _ => h2⟩
    · rintro ⟨⟨hk, h1⟩, h2⟩
      have hk' : k + 1 < 2 ^ maxWssOrder :=
        (show k + 1 < 2 ^ n by omega).trans_le (Nat.pow_le_pow_right (by decide) hn)
      have := (pwss_eq_iff hk').mpr ⟨by omega, h1, h2 hk⟩
      exact ⟨hk, by omega⟩
  have hsub : {k ∈ range (2 ^ n - 1) | 2 ^ (n - i) ∣ k + 1} ⊆
      {k ∈ range (2 ^ n - 1) | 2 ^ (n - i - 1) ∣ k + 1} := by
    intro k hk
    rw [mem_filter] at hk ⊢
    exact ⟨hk.1, (pow_dvd_pow 2 (by omega)).trans hk.2⟩
  rw [hfilter, card_sdiff_of_subset hsub, Nat.card_multiples, Nat.card_multiples,
    two_pow_sub_one_div (by omega), two_pow_sub_one_div (by omega),
    show n - (n - i - 1) = i + 1 by omega, show n - (n - i) = i by omega, pow_succ]
  have : 0 < 2 ^ i := by positivity
  omega

theorem sum_columns {n : ℕ} (hn : n ≤ maxWssOrder) (g : ℕ → ℕ) :
    ∑ k ∈ range (2 ^ n - 1), g (n - pwss k) = ∑ i ∈ range n, 2 ^ i * g i := by
  have hmaps : ∀ k ∈ range (2 ^ n - 1), n - pwss k ∈ range n := by
    intro k hk
    rw [mem_range] at hk ⊢
    have := pwss_le (show k + 1 < 2 ^ n by omega)
    omega
  rw [← sum_fiberwise_of_maps_to hmaps]
  refine sum_congr rfl fun i hi => ?_
  rw [sum_congr rfl fun k hk => congrArg g (mem_filter.mp hk).2, sum_const,
    card_column hn (mem_range.mp hi), smul_eq_mul]

section Word

variable {α : Type*} {col : ℕ → List α}

/-- The word that `m` terms spell from the place `p` in the sequence of order `n`. -/
def columnWord (col : ℕ → List α) (n p m : ℕ) : List α :=
  (List.range m).flatMap fun k => col (n - pwss ((p + k) % (2 ^ n - 1)))

theorem columnWord_succ (col : ℕ → List α) (n p m : ℕ) : columnWord col n p (m + 1) =
    columnWord col n p m ++ col (n - pwss ((p + m) % (2 ^ n - 1))) := by
  simp [columnWord, List.range_succ]

theorem columnWord_periods (col : ℕ → List α) (n p m : ℕ) :
    columnWord col n p (m * (2 ^ n - 1)) =
      (List.replicate m (columnWord col n p (2 ^ n - 1))).flatten := by
  induction m with
  | zero => simp [columnWord]
  | succ m ih =>
    rw [List.replicate_succ', List.flatten_concat, ← ih, Nat.succ_mul, columnWord, List.range_add,
      List.flatMap_append, List.flatMap_map]
    congr 1
    rw [columnWord]
    congr 1
    funext k
    congr 3
    rw [show p + (m * (2 ^ n - 1) + k) = p + k + m * (2 ^ n - 1) by ring,
      Nat.add_mul_mod_self_right]

theorem range_rotate (p m : ℕ) :
    (List.range m).map (fun k => (p + k) % m) = (List.range m).rotate p := by
  apply List.ext_getElem
  · simp
  · intro k h1 h2
    simp [List.getElem_rotate, add_comm]

/-- Wherever a period begins, it has the same letters. -/
theorem columnWord_perm (col : ℕ → List α) (n p : ℕ) : (columnWord col n p (2 ^ n - 1)).Perm
    ((List.range (2 ^ n - 1)).flatMap fun k => col (n - pwss k)) := by
  have hmap : columnWord col n p (2 ^ n - 1) = ((List.range (2 ^ n - 1)).map fun k =>
      (p + k) % (2 ^ n - 1)).flatMap fun k => col (n - pwss k) := by
    rw [List.flatMap_map]
    rfl
  rw [hmap, range_rotate]
  exact (List.rotate_perm _ _).flatMap_right _

theorem sum_map_range (f : ℕ → ℕ) (m : ℕ) : ((List.range m).map f).sum = ∑ k ∈ range m, f k := by
  induction m with
  | zero => rfl
  | succ m ih => rw [List.range_succ, List.map_append, List.sum_append, ih, sum_range_succ]; simp

theorem countP_columnWord {n : ℕ} (hn : n ≤ maxWssOrder) (p : ℕ) (q : α → Bool) :
    (columnWord col n p (2 ^ n - 1)).countP q = ∑ i ∈ range n, 2 ^ i * (col i).countP q := by
  rw [(columnWord_perm col n p).countP_eq, List.countP_flatMap, ← sum_columns hn]
  exact sum_map_range _ _

/-- A window of the length of a word, in the word repeated, has the letters of the word. -/
theorem window_perm {L : List α} {m j : ℕ} (hj : j + L.length ≤ m * L.length) :
    (((List.replicate m L).flatten.drop j).take L.length).Perm L := by
  induction m generalizing j with
  | zero =>
    have hL : L = [] := List.eq_nil_of_length_eq_zero (by omega)
    simp [hL]
  | succ m ih =>
    rw [List.replicate_succ, List.flatten_cons, List.drop_append]
    by_cases hlt : j < L.length
    · have hrest : (List.replicate m L).flatten.take j = L.take j := by
        cases m with
        | zero =>
          obtain rfl : j = 0 := by omega
          simp
        | succ m =>
          rw [List.replicate_succ, List.flatten_cons, List.take_append_of_le_length hlt.le]
      rw [Nat.sub_eq_zero_of_le hlt.le, List.drop_zero, List.take_append, List.length_drop,
        Nat.sub_sub_self hlt.le, hrest, List.take_of_length_le (by simp)]
      exact List.perm_append_comm.trans (by rw [List.take_append_drop])
    · rw [List.drop_of_length_le (not_lt.mp hlt), List.nil_append]
      refine ih ?_
      rw [Nat.succ_mul] at hj
      omega

end Word

end Ns2
