import Ns2.Lib.RingWindow

/-! A ring of cells that are empty or hold a value: a list lies in the cells from one on, and all
others are empty. -/

namespace OptionRing

open RingWindow

variable {α : Type*} {n : ℕ}

def next (n i : ℕ) : ℕ := (i + 1) % n

def prev (n i : ℕ) : ℕ := if i = 0 then n - 1 else i - 1

theorem next_lt (hn : 0 < n) (i : ℕ) : next n i < n := Nat.mod_lt _ hn

theorem prev_lt {i : ℕ} (hi : i < n) : prev n i < n := by
  simp only [prev]
  split_ifs <;> omega

/-- The cell behind the one in front. -/
theorem next_prev {i : ℕ} (hi : i < n) : next n (prev n i) = i := by
  simp only [prev, next]
  split_ifs with h
  · subst h
    rw [Nat.sub_add_cancel hi, Nat.mod_self]
  · rw [Nat.sub_add_cancel (Nat.pos_of_ne_zero h), Nat.mod_eq_of_lt hi]

theorem next_eq {i : ℕ} (hi : i < n) : next n i = if i + 1 = n then 0 else i + 1 := by
  rw [next]
  split_ifs with h
  · rw [h, Nat.mod_self]
  · rw [Nat.mod_eq_of_lt (by omega)]

theorem prev_next {i : ℕ} (hi : i < n) : prev n (next n i) = i := by
  rw [next_eq hi]
  by_cases h : i + 1 = n
  · rw [if_pos h, prev, if_pos rfl]
    omega
  · rw [if_neg h, prev, if_neg (by omega)]
    omega

theorem next_slot (t k : ℕ) : next n ((t + k) % n) = (t + (k + 1)) % n := by
  rw [next, Nat.mod_add_mod, Nat.add_assoc]

theorem prev_slot {t k : ℕ} (hn : 0 < n) : prev n ((t + (k + 1)) % n) = (t + k) % n := by
  rw [← next_slot, prev_next (Nat.mod_lt _ hn)]

/-- Cells counted from the one in front of `t`. -/
theorem slot_prev {t : ℕ} (ht : t < n) (k : ℕ) : (prev n t + (k + 1)) % n = (t + k) % n := by
  have h := next_slot (n := n) (prev n t) 0
  rw [Nat.add_zero, Nat.mod_eq_of_lt (prev_lt ht), next_prev ht] at h
  calc (prev n t + (k + 1)) % n = (prev n t + (0 + 1) + k) % n := by congr 1; omega
    _ = ((prev n t + (0 + 1)) % n + k) % n := (Nat.mod_add_mod _ _ _).symm
    _ = (t + k) % n := by rw [← h]

/-- The list lies in the cells from `t` on, and the others are empty. -/
structure Holds (n t : ℕ) (a : ℕ → Option α) (l : List α) : Prop where
  length : l.length ≤ n
  cells : ∀ k < n, a ((t + k) % n) = l[k]?

/-- The list lies there with a gap: the cell of index `k` has some content, and the cells from there
on hold the list from `k` on. -/
def Gap (n t : ℕ) (a : ℕ → Option α) (l : List α) (k : ℕ) : Prop :=
  ∀ i < n, i ≠ k → a ((t + i) % n) = if i < k then l[i]? else l[i - 1]?

theorem update_slot {t : ℕ} (a : ℕ → Option α) (x : Option α) {k i : ℕ} (hk : k < n) (hi : i < n) :
    Function.update a ((t + k) % n) x ((t + i) % n) = if i = k then x else a ((t + i) % n) := by
  by_cases h : i = k
  · subst h
    rw [if_pos rfl, Function.update_self]
  · have hne : (t + i) % n ≠ (t + k) % n := fun he => h (slot_inj hi hk he)
    rw [if_neg h, Function.update_of_ne hne]

namespace Holds

variable {t : ℕ} {a : ℕ → Option α} {l : List α}

theorem first (h : Holds n t a l) (ht : t < n) : a t = l.head? := by
  have h0 := h.cells 0 (by omega)
  rwa [Nat.add_zero, Nat.mod_eq_of_lt ht, ← List.head?_eq_getElem?] at h0

theorem nil (ha : ∀ k < n, a ((t + k) % n) = none) : Holds n t a [] :=
  ⟨Nat.zero_le _, fun k hk => by rw [ha k hk]; rfl⟩

/-- The cell behind the list is a gap, too. -/
theorem gap_behind (h : Holds n t a l) : Gap n t a l l.length := by
  intro i hi hne
  rw [h.cells i hi]
  split_ifs with hlt
  · rfl
  · rw [List.getElem?_eq_none (by omega), List.getElem?_eq_none (by omega)]

/-- One cell in the list is written. -/
theorem set (h : Holds n t a l) {k : ℕ} (hk : k < l.length) (x : α) :
    Holds n t (Function.update a ((t + k) % n) (some x)) (l.set k x) := by
  have hlen := h.length
  refine ⟨by rwa [List.length_set], fun i hi => ?_⟩
  rw [update_slot a _ (by omega) hi, h.cells i hi, List.getElem?_set]
  split_ifs with h1 h2 h3
  · rfl
  · omega
  · omega
  · rfl

/-- The first cell is emptied. -/
theorem pop {x : α} (h : Holds n t a (x :: l)) (ht : t < n) :
    Holds n (next n t) (Function.update a t none) l := by
  have hlen := h.length
  rw [List.length_cons] at hlen
  refine ⟨by omega, fun k hk => ?_⟩
  have hslot : (next n t + k) % n = (t + (k + 1)) % n := by
    rw [next, Nat.mod_add_mod, Nat.add_assoc, Nat.add_comm 1 k]
  rw [hslot]
  by_cases hlast : k + 1 = n
  · rw [hlast, Nat.add_mod_right, Nat.mod_eq_of_lt ht, Function.update_self,
      List.getElem?_eq_none (by omega)]
  · have hne : (t + (k + 1)) % n ≠ t := fun he => by
      have := slot_inj (h := t) (i := k + 1) (j := 0) (n := n) (by omega) (by omega)
        (by rw [he, Nat.add_zero, Nat.mod_eq_of_lt ht])
      omega
    rw [Function.update_of_ne hne, h.cells (k + 1) (by omega)]
    rfl

/-- The free cell in front of the list is the gap. -/
theorem gap (h : Holds n t a l) (ht : t < n) : Gap n (prev n t) a l 0 := by
  intro i hi hne
  obtain ⟨i, rfl⟩ := Nat.exists_eq_succ_of_ne_zero hne
  rw [if_neg (Nat.not_lt_zero _), slot_prev ht i, h.cells i (by omega)]
  rfl

end Holds

namespace Gap

variable {t : ℕ} {a : ℕ → Option α} {l : List α} {k : ℕ}

/-- The cell behind the gap is copied into it. -/
theorem move (h : Gap n t a l k) (hk : k + 1 < n) :
    Gap n t (Function.update a ((t + k) % n) (a ((t + (k + 1)) % n))) l (k + 1) := by
  intro i hi hne
  rw [update_slot a _ (by omega) hi]
  split_ifs with h1 h2 h3
  · subst h1
    rw [h (i + 1) hk (by omega), if_neg (by omega), Nat.add_sub_cancel]
  · omega
  · rw [h i hi h1, if_pos (by omega)]
  · rw [h i hi h1, if_neg (by omega)]

/-- What lies in the gap does not matter. -/
theorem update (h : Gap n t a l k) (hk : k < n) (x : Option α) :
    Gap n t (Function.update a ((t + k) % n) x) l k := by
  intro i hi hne
  rw [update_slot a _ hk hi, if_neg hne, h i hi hne]

/-- The gap is filled. -/
theorem fill (h : Gap n t a l k) (hk : k ≤ l.length) (hl : l.length < n) (x : α) :
    Holds n t (Function.update a ((t + k) % n) (some x)) (l.insertIdx k x) := by
  refine ⟨by rw [List.length_insertIdx_of_le_length hk]; exact hl, fun i hi => ?_⟩
  rw [update_slot a _ (by omega) hi]
  rcases lt_trichotomy i k with hlt | rfl | hgt
  · rw [if_neg hlt.ne, List.getElem?_insertIdx_of_lt hlt, h i hi hlt.ne, if_pos hlt]
  · rw [if_pos rfl, List.getElem?_insertIdx_self, if_pos hk]
  · rw [if_neg hgt.ne', List.getElem?_insertIdx_of_gt hgt, h i hi hgt.ne', if_neg (by omega)]

end Gap

/-- `for (j = from; j != stop; j = next(j)) a[prev(j)] = a[j]`, with at most as many rounds as the
first argument says. -/
def shift (n stop : ℕ) : ℕ → ℕ → (ℕ → Option α) → ℕ → Option α
  | 0, _, a => a
  | f + 1, j, a =>
    if j ≠ stop then shift n stop f (next n j) (Function.update a (prev n j) (a j)) else a

theorem shift_gap {t : ℕ} {l : List α} {f k : ℕ} (hk : k < n) (ht : t < n) {i : ℕ} {a : ℕ → Option α}
    (hik : i ≤ k) (hf : k - i < f) (h : Gap n (prev n t) a l i) :
    Gap n (prev n t) (shift n ((t + k) % n) f ((t + i) % n) a) l k := by
  induction f generalizing i a with
  | zero => omega
  | succ f ih =>
    rw [shift]
    by_cases he : i = k
    · subst he
      rwa [if_neg (not_not.mpr rfl)]
    · have hne : (t + i) % n ≠ (t + k) % n := fun h => he (slot_inj (by omega) hk h)
      have hmove := h.move (k := i) (by omega)
      rw [if_pos hne, next_slot]
      have hprev : prev n ((t + i) % n) = (prev n t + i) % n := by
        rw [← slot_prev ht i, prev_slot (by omega)]
      rw [slot_prev ht i, ← hprev] at hmove
      exact ih (by omega) (by omega) hmove

end OptionRing
