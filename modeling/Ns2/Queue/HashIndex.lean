import Ns2.Queue.SfqRounds
import Ns2.Queue.DrrFlows

/-! The buckets that the hashes of the fair queues select, over all addresses. -/

namespace Ns2

/-- In C a remainder has the sign of its dividend. -/
theorem neg_tmod_nonneg_iff {n b : ℤ} (hn : 0 ≤ n) (hb : 0 < b) : 0 ≤ (-n).tmod b ↔ b ∣ n := by
  rw [Int.neg_tmod, Int.tmod_eq_emod_of_nonneg hn, Int.dvd_iff_emod_eq_zero]
  have := Int.emod_nonneg n hb.ne'
  omega

namespace SFQ

variable {π : Type} (c : SFQConfig π) (p : π)

/-- The subscript of `bucket` in `enque`. -/
def index : Option ℤ := (hash c p).map fun i => i.tmod c.buckets_

/-- The sums of the addresses are ints, and a sum that is not positive hashes to a multiple of the
number of buckets. -/
def Indexed : Prop :=
  let k := c.saddr p + c.daddr p
  isInt k ∧ isInt (k + k / 2 ^ 8) ∧
    (0 < k ∨ c.buckets_ ∣ (k / 2 ^ 4 + 1 - k - k / 2 ^ 8) % (2 ^ 20 - 1))

theorem index_iff (hb : 1 ≤ c.buckets_) :
    (∃ i, index c p = some i ∧ 0 ≤ i ∧ i < c.buckets_) ↔ Indexed c p := by
  rw [index, hash, Indexed]
  generalize c.saddr p + c.daddr p = k
  rw [← and_assoc]
  by_cases hint : isInt k ∧ isInt (k + k / 2 ^ 8)
  · rw [if_pos hint, Option.map_some]
    have hlt := Int.tmod_lt_of_pos ((k + k / 2 ^ 8 + (-(k / 2 ^ 4) - 1)).tmod (2 ^ 20 - 1)) hb
    have hiff : 0 ≤ ((k + k / 2 ^ 8 + (-(k / 2 ^ 4) - 1)).tmod (2 ^ 20 - 1)).tmod c.buckets_ ↔
        0 < k ∨ c.buckets_ ∣ (k / 2 ^ 4 + 1 - k - k / 2 ^ 8) % (2 ^ 20 - 1) := by
      by_cases hk : 0 < k
      · have hsum : 0 ≤ k + k / 2 ^ 8 + (-(k / 2 ^ 4) - 1) := by omega
        exact iff_of_true (Int.tmod_nonneg _ (Int.tmod_nonneg _ hsum)) (.inl hk)
      · have hn : 0 ≤ k / 2 ^ 4 + 1 - k - k / 2 ^ 8 := by omega
        have he : k + k / 2 ^ 8 + (-(k / 2 ^ 4) - 1) = -(k / 2 ^ 4 + 1 - k - k / 2 ^ 8) := by ring
        rw [he, Int.neg_tmod, Int.tmod_eq_emod_of_nonneg hn,
          neg_tmod_nonneg_iff (Int.emod_nonneg _ (by decide)) hb, or_iff_right hk]
    constructor
    · rintro ⟨i, hi, hge, -⟩
      obtain rfl := Option.some.inj hi
      exact ⟨hint, hiff.mp hge⟩
    · intro h
      exact ⟨_, rfl, hiff.mpr h.2, hlt⟩
  · rw [if_neg hint]
    constructor
    · rintro ⟨i, hi, -⟩
      cases hi
    · exact fun h => absurd h.1 hint

end SFQ

namespace DRR

variable {π : Type*} (c : DRRConfig π) (p : π)

/-- The subscript of `drr` in `enque`. -/
def index : Option ℤ := (hash c p).map fun i => i.tmod c.buckets_

/-- A mask, or an address that is not negative and no sum of which overflows, or a negative one the
hash of which is not negative or a multiple of the number of buckets. -/
def Indexed : Prop :=
  let i := c.saddr p
  let m := (i / 2 ^ 4 + 1 - i - i / 2 ^ 8) % (2 ^ 24 - 1)
  c.mask_ ≠ 0 ∨ (0 ≤ i ∧ i + i / 2 ^ 8 < 2 ^ 31) ∨
    (i < 0 ∧ -2 ^ 31 ≤ i + i / 2 ^ 8 ∧ (m = 0 ∨ c.buckets_ ∣ m - 1))

theorem one_sub_tmod_nonneg_iff {m b : ℤ} (hm : 0 ≤ m) (hb : 0 < b) :
    0 ≤ (1 - m).tmod b ↔ m = 0 ∨ b ∣ m - 1 := by
  rcases hm.eq_or_lt with rfl | hpos
  · simp [Int.tmod_nonneg b (show (0 : ℤ) ≤ 1 by decide)]
  · have hneg := neg_tmod_nonneg_iff (show 0 ≤ m - 1 by omega) hb
    rw [neg_sub] at hneg
    rw [hneg, or_iff_right (by omega)]

theorem index_of_hash (hb : 1 ≤ c.buckets_) :
    (∃ i, index c p = some i ∧ 0 ≤ i ∧ i < c.buckets_) ↔
      ∃ i, hash c p = some i ∧ 0 ≤ i.tmod c.buckets_ := by
  rw [index]
  constructor
  · rintro ⟨i, hi, hge, -⟩
    obtain ⟨j, hj, rfl⟩ := Option.map_eq_some_iff.mp hi
    exact ⟨j, hj, hge⟩
  · rintro ⟨j, hj, hge⟩
    exact ⟨_, by rw [hj]; rfl, hge, Int.tmod_lt_of_pos j hb⟩

theorem index_iff (hb : 1 ≤ c.buckets_) :
    (∃ i, index c p = some i ∧ 0 ≤ i ∧ i < c.buckets_) ↔ Indexed c p := by
  rw [index_of_hash c p hb, Indexed]
  by_cases hmask : c.mask_ = 0
  · by_cases hneg : 0 ≤ c.saddr p
    · have hiff : (∃ i, hash c p = some i ∧ 0 ≤ i.tmod c.buckets_) ↔
          c.saddr p + c.saddr p / 2 ^ 8 < 2 ^ 31 := by
        constructor
        · rintro ⟨i, hi, -⟩
          by_contra hlt
          rw [hash] at hi
          simp only [hmask, ne_eq, not_true_eq_false, if_false] at hi
          rw [if_neg (fun h => hlt h.2)] at hi
          cases hi
        · intro hlt
          obtain ⟨i, hi, hge⟩ := hash_of_nonneg (c := c) hneg hlt
          exact ⟨i, hi, Int.tmod_nonneg _ hge⟩
      rw [hiff, or_iff_right (not_not.mpr hmask),
        or_iff_left (fun h => absurd hneg (not_le.mpr h.1))]
      exact (and_iff_right hneg).symm
    · have hn : 0 ≤ c.saddr p / 2 ^ 4 + 1 - c.saddr p - c.saddr p / 2 ^ 8 := by omega
      have he : c.saddr p + c.saddr p / 2 ^ 8 + (-(c.saddr p / 2 ^ 4) - 1) =
          -(c.saddr p / 2 ^ 4 + 1 - c.saddr p - c.saddr p / 2 ^ 8) := by ring
      rw [hash]
      simp only [hmask, ne_eq, not_true_eq_false, if_false]
      by_cases hsum : -2 ^ 31 ≤ c.saddr p + c.saddr p / 2 ^ 8
      · rw [if_pos ⟨hsum, by omega⟩, he, Int.neg_tmod, Int.tmod_eq_emod_of_nonneg hn]
        rw [show ∀ x : ℤ, -x + 1 = 1 - x from fun x => by ring]
        simp only [Option.some.injEq, exists_eq_left']
        rw [one_sub_tmod_nonneg_iff (Int.emod_nonneg _ (by decide)) hb,
          or_iff_right not_false]
        constructor
        · exact fun h => .inr ⟨not_le.mp hneg, hsum, h⟩
        · rintro (h | h)
          · exact absurd h.1 hneg
          · exact h.2.2
      · rw [if_neg (fun h => hsum h.1)]
        constructor
        · rintro ⟨i, hi, -⟩
          cases hi
        · rintro (h | h | h)
          · exact h.elim
          · exact absurd h.1 hneg
          · exact absurd h.2.1 hsum
  · have hinput : (if c.mask_ ≠ 0 then masked (c.saddr p) else c.saddr p) = masked (c.saddr p) :=
      if_pos hmask
    obtain ⟨i, hi, hge⟩ := hash_of_input (c := c) (p := p)
      (by rw [hinput, masked]; omega) (by rw [hinput, masked]; omega)
    exact iff_of_true ⟨i, hi, Int.tmod_nonneg _ hge⟩ (.inl hmask)

end DRR

/-- The hashes of both queues keep the sign of what they take the remainder of. -/
theorem hash_indices_in_range_iff {π ρ : Type} (s : SFQConfig π) (d : DRRConfig ρ) (p : π) (q : ρ)
    (hs : 1 ≤ s.buckets_) (hd : 1 ≤ d.buckets_) :
    ((∃ i, SFQ.index s p = some i ∧ 0 ≤ i ∧ i < s.buckets_) ↔ SFQ.Indexed s p) ∧
      ((∃ i, DRR.index d q = some i ∧ 0 ≤ i ∧ i < d.buckets_) ↔ DRR.Indexed d q) :=
  ⟨SFQ.index_iff s p hs, DRR.index_iff d q hd⟩

theorem hash_indices_in_range_defaults :
    ((∃ i, SFQ.index SFQ.byAddress (3, 4) = some i ∧ 0 ≤ i ∧ i < SFQ.byAddress.buckets_) ↔
        SFQ.Indexed SFQ.byAddress (3, 4)) ∧
      ((∃ i, DRR.index DRR.defaults (3, 40) = some i ∧ 0 ≤ i ∧ i < DRR.defaults.buckets_) ↔
        DRR.Indexed DRR.defaults (3, 40)) :=
  hash_indices_in_range_iff SFQ.byAddress DRR.defaults (3, 4) (3, 40) (by decide) (by decide)

/-- The packets from node 0 to itself, and those of an agent that is not attached. -/
theorem hash_indices_negative :
    (¬ ∀ (c : SFQConfig (ℤ × ℤ)) (p : ℤ × ℤ), 1 ≤ c.buckets_ → SFQ.isInt (c.saddr p) →
        SFQ.isInt (c.daddr p) → ∃ i, SFQ.index c p = some i ∧ 0 ≤ i ∧ i < c.buckets_) ∧
      ¬ ∀ (c : DRRConfig (ℤ × ℤ)) (p : ℤ × ℤ), 1 ≤ c.buckets_ → SFQ.isInt (c.saddr p) →
        ∃ i, DRR.index c p = some i ∧ 0 ≤ i ∧ i < c.buckets_ := by
  constructor
  · intro h
    obtain ⟨i, hi, hge, -⟩ := h SFQ.byAddress (0, 0) (by decide) (by decide) (by decide)
    have hneg : SFQ.index SFQ.byAddress (0, 0) = some (-1) := by decide
    cases hneg.symm.trans hi
    exact absurd hge (by decide)
  · intro h
    obtain ⟨i, hi, hge, -⟩ := h DRR.defaults (-1, 40) (by decide) (by decide)
    have hneg : DRR.index DRR.defaults (-1, 40) = some (-1) := by decide
    cases hneg.symm.trans hi
    exact absurd hge (by decide)

end Ns2
