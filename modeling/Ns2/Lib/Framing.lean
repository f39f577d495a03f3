import Mathlib

/-! Messages of known lengths in a stream of bytes: which of them are complete when some bytes have
arrived. -/

namespace Framing

variable {α : Type*} {w : α → ℤ} {r n : ℤ} {a : α} {l m : List α}

/-- The messages whose last byte is among the first `r`. -/
def finished (w : α → ℤ) : ℤ → List α → List α
  | _, [] => []
  | r, a :: l => if w a ≤ r then a :: finished w (r - w a) l else []

def weight (w : α → ℤ) (l : List α) : ℤ := (l.map w).sum

/-- The messages that are not complete. -/
def unfinished (w : α → ℤ) (r : ℤ) (l : List α) : List α := l.drop (finished w r l).length

/-- The bytes of the message in progress. -/
def inProgress (w : α → ℤ) (r : ℤ) (l : List α) : ℤ := r - weight w (finished w r l)

@[simp] theorem weight_nil : weight w [] = 0 := rfl

@[simp] theorem weight_cons : weight w (a :: l) = w a + weight w l := by
  rw [weight, List.map_cons, List.sum_cons]
  rfl

@[simp] theorem weight_append : weight w (l ++ m) = weight w l + weight w m := by
  rw [weight, List.map_append, List.sum_append]
  rfl

theorem finished_cons_of_le (h : w a ≤ r) :
    finished w r (a :: l) = a :: finished w (r - w a) l := by
  rw [finished, if_pos h]

theorem finished_cons_of_lt (h : r < w a) : finished w r (a :: l) = [] := by
  rw [finished, if_neg (not_le.mpr h)]

theorem unfinished_cons_of_lt (h : r < w a) : unfinished w r (a :: l) = a :: l := by
  rw [unfinished, finished_cons_of_lt h]
  rfl

theorem inProgress_cons_of_lt (h : r < w a) : inProgress w r (a :: l) = r := by
  rw [inProgress, finished_cons_of_lt h, weight_nil, sub_zero]

/-- Nothing is complete without any bytes. -/
theorem finished_zero (hpos : ∀ a ∈ l, 0 < w a) : finished w 0 l = [] := by
  cases l with
  | nil => rfl
  | cons a l => exact finished_cons_of_lt (hpos a List.mem_cons_self)

theorem finished_append_unfinished : finished w r l ++ unfinished w r l = l := by
  rw [unfinished]
  induction l generalizing r with
  | nil => rfl
  | cons a l ih =>
    by_cases h : w a ≤ r
    · rw [finished_cons_of_le h, List.length_cons, List.drop_succ_cons, List.cons_append, ih]
    · rw [finished_cons_of_lt (not_le.mp h)]
      rfl

theorem unfinished_cons_of_le (h : w a ≤ r) :
    unfinished w r (a :: l) = unfinished w (r - w a) l := by
  rw [unfinished, finished_cons_of_le h]
  rfl

theorem inProgress_cons_of_le (h : w a ≤ r) :
    inProgress w r (a :: l) = inProgress w (r - w a) l := by
  rw [inProgress, finished_cons_of_le h, weight_cons, inProgress]
  ring

theorem inProgress_nonneg (h : 0 ≤ r) : 0 ≤ inProgress w r l := by
  induction l generalizing r with
  | nil => simpa [inProgress, finished] using h
  | cons a l ih =>
    by_cases ha : w a ≤ r
    · rw [inProgress_cons_of_le ha]
      exact ih (sub_nonneg.mpr ha)
    · rw [inProgress, finished_cons_of_lt (not_le.mp ha)]
      simpa using h

/-- A message that is sent later is not complete. -/
theorem finished_concat (ha : 0 < w a) (hr : r ≤ weight w l) :
    finished w r (l ++ [a]) = finished w r l := by
  induction l generalizing r with
  | nil => exact finished_cons_of_lt (hr.trans_lt ha)
  | cons b l ih =>
    rw [List.cons_append]
    by_cases hb : w b ≤ r
    · rw [finished_cons_of_le hb, finished_cons_of_le hb, ih]
      rw [weight_cons] at hr
      omega
    · rw [finished_cons_of_lt (not_le.mp hb), finished_cons_of_lt (not_le.mp hb)]

theorem unfinished_concat (ha : 0 < w a) (hr : r ≤ weight w l) :
    unfinished w r (l ++ [a]) = unfinished w r l ++ [a] := by
  have h := finished_append_unfinished (w := w) (r := r) (l := l ++ [a])
  rw [finished_concat ha hr] at h
  refine List.append_cancel_left (h.trans ?_)
  rw [← List.append_assoc, finished_append_unfinished]

/-- What some more bytes complete is what they complete of the rest. -/
theorem finished_add (hn : 0 ≤ n) : finished w (r + n) l =
    finished w r l ++ finished w (inProgress w r l + n) (unfinished w r l) := by
  induction l generalizing r with
  | nil => rfl
  | cons a l ih =>
    by_cases h : w a ≤ r
    · rw [finished_cons_of_le h, finished_cons_of_le (by omega), inProgress_cons_of_le h,
        unfinished_cons_of_le h, add_sub_right_comm, ih, List.cons_append]
    · rw [inProgress, unfinished, finished_cons_of_lt (not_le.mp h)]
      simp

theorem unfinished_add (hn : 0 ≤ n) : unfinished w (r + n) l =
    unfinished w (inProgress w r l + n) (unfinished w r l) := by
  induction l generalizing r with
  | nil => rfl
  | cons a l ih =>
    by_cases h : w a ≤ r
    · rw [unfinished_cons_of_le (by omega), unfinished_cons_of_le h, inProgress_cons_of_le h,
        add_sub_right_comm, ih]
    · have hnone := finished_cons_of_lt (l := l) (not_le.mp h)
      rw [inProgress, unfinished.eq_1 w r, hnone]
      simp

theorem inProgress_add (hn : 0 ≤ n) : inProgress w (r + n) l =
    inProgress w (inProgress w r l + n) (unfinished w r l) := by
  rw [inProgress, finished_add hn, weight_append, inProgress.eq_1 w (inProgress w r l + n)]
  rw [inProgress]
  ring

theorem weight_unfinished : weight w (unfinished w r l) = weight w l - r + inProgress w r l := by
  have h := congrArg (weight w) (finished_append_unfinished (w := w) (r := r) (l := l))
  rw [weight_append] at h
  rw [inProgress]
  omega

end Framing
