import Mathlib

/-! Binary heaps in an array: the order that holds around a position while it is sifted, and what
exchanges of entries do to the contents. -/

namespace BinaryHeap

variable {α κ : Type*} [LinearOrder κ] {key : α → κ} {a : ℕ → α} {n i j : ℕ}

def parent (i : ℕ) : ℕ := (i - 1) / 2

def contents (a : ℕ → α) (n : ℕ) : List α := (List.range n).map a

def swap (a : ℕ → α) (i j : ℕ) : ℕ → α := Function.update (Function.update a i (a j)) j (a i)

def Ordered (key : α → κ) (a : ℕ → α) (n : ℕ) : Prop :=
  ∀ j, 0 < j → j < n → key (a (parent j)) ≤ key (a j)

/-- Only the entry at `i` may be too large for its parent's place and too small for its own. -/
structure Around (key : α → κ) (a : ℕ → α) (n i : ℕ) : Prop where
  away : ∀ j, 0 < j → j < n → j ≠ i → parent j ≠ i → key (a (parent j)) ≤ key (a j)
  across : ∀ j, 0 < j → j < n → parent j = i → 0 < i → key (a (parent i)) ≤ key (a j)

theorem parent_lt (h : 0 < i) : parent i < i := by
  rw [parent]
  omega

theorem parent_eq_iff (hj : 0 < j) : parent j = i ↔ j = i * 2 + 1 ∨ j = (i + 1) * 2 := by
  rw [parent]
  omega

/-! ### Contents -/

theorem mem_contents {x : α} : x ∈ contents a n ↔ ∃ j < n, a j = x := by
  simp [contents]

theorem contents_congr {b : ℕ → α} (h : ∀ j < n, b j = a j) : contents b n = contents a n :=
  List.map_congr_left fun j hj => h j (List.mem_range.mp hj)

theorem contents_succ : contents a (n + 1) = contents a n ++ [a n] := by
  simp [contents, List.range_succ]

theorem swap_eq (a : ℕ → α) (i j : ℕ) : swap a i j = a ∘ Equiv.swap i j := by
  funext k
  rw [swap, Function.comp_apply]
  by_cases hj : k = j
  · subst hj
    rw [Function.update_self, Equiv.swap_apply_right]
  · rw [Function.update_of_ne hj]
    by_cases hi : k = i
    · subst hi
      rw [Function.update_self, Equiv.swap_apply_left]
    · rw [Function.update_of_ne hi, Equiv.swap_apply_of_ne_of_ne hi hj]

theorem swap_left : swap a i j i = a j := by rw [swap_eq, Function.comp_apply, Equiv.swap_apply_left]

theorem swap_right : swap a i j j = a i := by rw [swap_eq, Function.comp_apply, Equiv.swap_apply_right]

theorem swap_of_ne {k : ℕ} (hi : k ≠ i) (hj : k ≠ j) : swap a i j k = a k := by
  rw [swap_eq, Function.comp_apply, Equiv.swap_apply_of_ne_of_ne hi hj]

theorem contents_swap (hi : i < n) (hj : j < n) : (contents (swap a i j) n).Perm (contents a n) := by
  have hp : ((List.range n).map (Equiv.swap i j)).Perm (List.range n) := by
    apply (List.perm_ext_iff_of_nodup _ List.nodup_range).mpr
    · intro k
      simp only [List.mem_map, List.mem_range]
      constructor
      · rintro ⟨m, hm, rfl⟩
        rw [Equiv.swap_apply_def]
        split_ifs <;> assumption
      · intro hk
        refine ⟨Equiv.swap i j k, ?_, Equiv.swap_apply_self i j k⟩
        rw [Equiv.swap_apply_def]
        split_ifs <;> assumption
    · exact List.nodup_range.map (Equiv.swap i j).injective
  rw [contents, swap_eq, ← List.map_map]
  exact hp.map a

/-- The last entry takes the place of the first. -/
theorem contents_root : (contents a (n + 1)).Perm (a 0 :: contents (Function.update a 0 (a n)) n) := by
  have hs := @contents_swap α a (n + 1) 0 n (by omega) (by omega)
  rw [contents_succ, swap_right, contents_congr (a := Function.update a 0 (a n))] at hs
  · exact hs.symm.trans (List.perm_append_singleton _ _)
  · intro j hj
    by_cases h0 : j = 0
    · rw [h0, swap_left, Function.update_self]
    · rw [swap_of_ne h0 hj.ne, Function.update_of_ne h0]

/-! ### Order -/

theorem Ordered.le_root (h : Ordered key a n) (hj : j < n) : key (a 0) ≤ key (a j) := by
  induction j using Nat.strong_induction_on with
  | _ j ih =>
    rcases Nat.eq_zero_or_pos j with rfl | hpos
    · exact le_rfl
    · have hp := parent_lt hpos
      exact (ih (parent j) hp (hp.trans hj)).trans (h j hpos hj)

theorem Ordered.around (h : Ordered key a n) (i : ℕ) (hi : i < n) : Around key a n i where
  away j h0 hj _ _ := h j h0 hj
  across j h0 hj hp hi0 := by
    have h1 := h j h0 hj
    rw [hp] at h1
    exact (h i hi0 hi).trans h1

/-- The entry at `i` and its parent's change places. -/
theorem Around.up (h : Around key a n i) (hi0 : 0 < i) (hi : i < n) :
    Around key (swap a i (parent i)) n (parent i) := by
  have hpi := parent_lt hi0
  constructor
  · intro j h0 hj hne hp
    have hji : j ≠ i := fun he => hp (he ▸ rfl)
    rw [swap_of_ne hji hne]
    by_cases hpj : parent j = i
    · rw [hpj, swap_left]
      exact h.across j h0 hj hpj hi0
    · rw [swap_of_ne hpj hp]
      exact h.away j h0 hj hji hpj
  · intro j h0 hj hp hp0
    have hpp := parent_lt hp0
    have hup := h.away (parent i) hp0 (hpi.trans hi) hpi.ne (hpp.trans hpi).ne
    rw [swap_of_ne (hpp.trans hpi).ne hpp.ne]
    by_cases hji : j = i
    · rwa [hji, swap_left]
    · have hjp : j ≠ parent i := by
        have := parent_lt h0
        omega
      have hjup := h.away j h0 hj hji (by omega)
      rw [hp] at hjup
      rw [swap_of_ne hji hjp]
      exact hup.trans hjup

/-- An entry that is in order with its children and its parent. -/
theorem Around.ordered (h : Around key a n i) (hup : 0 < i → i < n → key (a (parent i)) ≤ key (a i))
    (hdown : ∀ j, 0 < j → j < n → parent j = i → key (a i) ≤ key (a j)) : Ordered key a n := by
  intro j h0 hj
  by_cases hji : j = i
  · exact hji ▸ hup (hji ▸ h0) (hji ▸ hj)
  · by_cases hpj : parent j = i
    · rw [hpj]
      exact hdown j h0 hj hpj
    · exact h.away j h0 hj hji hpj

/-- What `up` keeps when the entry was smaller than its parent. -/
theorem Around.below_up (h : Around key a n i) (hi0 : 0 < i) (hlt : key (a i) < key (a (parent i)))
    (h0 : 0 < j) (hj : j < n) (hp : parent j = parent i) :
    key (swap a i (parent i) (parent i)) ≤ key (swap a i (parent i) j) := by
  have hpi := parent_lt hi0
  have hpj := parent_lt h0
  rw [swap_right]
  by_cases hji : j = i
  · rw [hji, swap_left]
    exact hlt.le
  · rw [swap_of_ne hji (by omega)]
    have := h.away j h0 hj hji (by omega)
    rw [hp] at this
    exact hlt.le.trans this

/-- The entry at `i` and that of its smaller child `x` change places. -/
theorem Around.down {x : ℕ} (h : Around key a n i) (hx : x < n) (hx0 : 0 < x) (hpx : parent x = i)
    (hlt : key (a x) < key (a i))
    (hmin : ∀ j, 0 < j → j < n → parent j = i → key (a x) ≤ key (a j)) :
    Around key (swap a i x) n x ∧ key (swap a i x (parent x)) ≤ key (swap a i x x) := by
  have hix := hpx ▸ parent_lt hx0
  refine ⟨⟨?_, ?_⟩, ?_⟩
  · intro j h0 hj hne hp
    by_cases hji : j = i
    · have hpj := hji ▸ parent_lt h0
      subst hji
      rw [swap_left, swap_of_ne hpj.ne hp]
      exact h.across x hx0 hx hpx h0
    · rw [swap_of_ne hji hne]
      by_cases hpj : parent j = i
      · rw [hpj, swap_left]
        exact hmin j h0 hj hpj
      · rw [swap_of_ne hpj hp]
        exact h.away j h0 hj hji hpj
  · intro j h0 hj hp _
    have hpj := hp ▸ parent_lt h0
    rw [hpx, swap_left, swap_of_ne (hix.trans hpj).ne' hpj.ne', ← hp]
    exact h.away j h0 hj (hix.trans hpj).ne' (by omega)
  · rw [hpx, swap_left, swap_right]
    exact hlt.le

end BinaryHeap
