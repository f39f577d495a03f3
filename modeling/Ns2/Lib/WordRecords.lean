import Mathlib

/-! Records of a fixed number of words, one behind the other in a memory whose other words are
unknown. -/

namespace WordRecords

variable {α β : Type*}

/-- The memory has the words that were written; `none` is a word that was left as it was. -/
def Holds (data : ℕ → α) (words : List (Option α)) : Prop :=
  ∀ i v, words[i]? = some (some v) → data i = v

/-- A memory with the written words, and some other content behind and between them. -/
def fill (words : List (Option α)) (other : α) (i : ℕ) : α := (words[i]?.join).getD other

theorem holds_fill (words : List (Option α)) (other : α) : Holds (fill words other) words := by
  intro i v h
  simp [fill, h]

/-- The words lie in the memory from `off` on. -/
def Stored (data : ℕ → α) (off : ℕ) (ws : List α) : Prop :=
  ∀ i v, ws[i]? = some v → data (off + i) = v

theorem Holds.stored {data : ℕ → α} {pre : List (Option α)} {ws : List α}
    (h : Holds data (pre ++ ws.map some)) : Stored data pre.length ws := by
  intro i v hv
  apply h
  rw [List.getElem?_append_right (by omega), Nat.add_sub_cancel_left, List.getElem?_map, hv]
  rfl

theorem Stored.append_left {data : ℕ → α} {off : ℕ} {us vs : List α}
    (h : Stored data off (us ++ vs)) : Stored data off us := by
  intro i v hv
  have hi : i < us.length := (List.getElem?_eq_some_iff.mp hv).1
  exact h i v (by rw [List.getElem?_append_left hi, hv])

theorem Stored.append_right {data : ℕ → α} {off : ℕ} {us vs : List α}
    (h : Stored data off (us ++ vs)) : Stored data (off + us.length) vs := by
  intro i v hv
  rw [Nat.add_assoc]
  apply h
  rw [List.getElem?_append_right (by omega), Nat.add_sub_cancel_left, hv]

/-- How the values of a type are laid out in words, and read from their place. -/
structure Format (α β : Type*) where
  size : ℕ
  write : β → List α
  read : (ℕ → α) → ℕ → β
  length_write : ∀ b, (write b).length = size
  read_write : ∀ data off b, Stored data off (write b) → read data off = b

/-- Records that lie one behind the other are read at multiples of their size. -/
theorem Format.read_all (F : Format α β) {data : ℕ → α} {off : ℕ} {xs : List β}
    (h : Stored data off (xs.flatMap F.write)) :
    (List.range xs.length).map (fun i => F.read data (off + F.size * i)) = xs := by
  induction xs generalizing off with
  | nil => rfl
  | cons x xs ih =>
    rw [List.flatMap_cons] at h
    have htail := h.append_right
    rw [F.length_write] at htail
    rw [List.length_cons, List.range_succ_eq_map, List.map_cons, List.map_map,
      F.read_write data (off + F.size * 0) x h.append_left]
    congr 1
    rw [← ih htail]
    simp only [List.length_map, List.length_range]
    refine List.map_congr_left fun i _ => ?_
    change F.read data (off + F.size * (i + 1)) = F.read data (off + F.size + F.size * i)
    rw [Nat.mul_succ, Nat.add_right_comm, Nat.add_assoc off]

end WordRecords
