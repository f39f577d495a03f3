import Mathlib

/-! Walks without their loops: every vertex is followed by what came after its last visit. -/

namespace LoopErasure

variable {α : Type*} [DecidableEq α]

/-- What is behind the last `x`, or the whole list if there is none. -/
def afterLast (x : α) : List α → List α
  | [] => []
  | y :: l => if x ∈ l then afterLast x l else if y = x then l else y :: l

theorem afterLast_of_notMem {x : α} {l : List α} (h : x ∉ l) : afterLast x l = l := by
  cases l with
  | nil => rfl
  | cons y l =>
    have h' : x ≠ y ∧ x ∉ l := by simpa using h
    simp [afterLast, h'.2, h'.1.symm]

theorem afterLast_append {x : α} (l : List α) {m : List α} (h : x ∉ m) :
    afterLast x (l ++ x :: m) = m := by
  induction l with
  | nil => simp [afterLast, h]
  | cons y l ih => simp [afterLast, ih]

/-- Either there is no `x`, or the list is cut behind the last one. -/
theorem afterLast_cases (x : α) (l : List α) :
    (x ∉ l ∧ afterLast x l = l) ∨ ∃ k, l = k ++ x :: afterLast x l := by
  induction l with
  | nil => exact Or.inl ⟨List.not_mem_nil, rfl⟩
  | cons y l ih =>
    rcases ih with ⟨h, -⟩ | ⟨k, hk⟩
    · by_cases hy : y = x
      · exact Or.inr ⟨[], by simp [afterLast, h, hy]⟩
      · exact Or.inl ⟨by simp [h, Ne.symm hy], by simp [afterLast, h, hy]⟩
    · have h : x ∈ l := by
        rw [hk]
        simp
      exact Or.inr ⟨y :: k, by simpa [afterLast, h] using hk⟩

theorem afterLast_suffix (x : α) (l : List α) : afterLast x l <:+ l := by
  rcases afterLast_cases x l with ⟨-, h⟩ | ⟨k, hk⟩
  · rw [h]
  · exact ⟨k ++ [x], by simpa using hk.symm⟩

theorem notMem_afterLast (x : α) (l : List α) : x ∉ afterLast x l := by
  induction l with
  | nil => exact List.not_mem_nil
  | cons y l ih =>
    simp only [afterLast]
    split_ifs with h hy
    · exact ih
    · exact h
    · simp [h, Ne.symm hy]

/-- The walk without its loops. -/
def eraseLoops : List α → List α
  | [] => []
  | x :: l => x :: eraseLoops (afterLast x l)
termination_by l => l.length
decreasing_by exact Nat.lt_succ_of_le (afterLast_suffix x l).length_le

@[simp] theorem eraseLoops_nil : eraseLoops ([] : List α) = [] := by rw [eraseLoops]

@[simp] theorem eraseLoops_cons (x : α) (l : List α) :
    eraseLoops (x :: l) = x :: eraseLoops (afterLast x l) := by rw [eraseLoops]

@[simp] theorem head?_eraseLoops (l : List α) : (eraseLoops l).head? = l.head? := by
  cases l <;> simp

theorem eraseLoops_sublist (l : List α) : (eraseLoops l).Sublist l := by
  induction l using eraseLoops.induct with
  | case1 => simp
  | case2 x l ih =>
    rw [eraseLoops_cons]
    exact (ih.trans (afterLast_suffix x l).sublist).cons_cons x

theorem nodup_eraseLoops (l : List α) : (eraseLoops l).Nodup := by
  induction l using eraseLoops.induct with
  | case1 => simp
  | case2 x l ih =>
    rw [eraseLoops_cons]
    exact List.nodup_cons.mpr
      ⟨fun h => notMem_afterLast x l ((eraseLoops_sublist _).subset h), ih⟩

theorem getLast?_eraseLoops (l : List α) : (eraseLoops l).getLast? = l.getLast? := by
  induction l using eraseLoops.induct with
  | case1 => simp
  | case2 x l ih =>
    rw [eraseLoops_cons, List.getLast?_cons, ih]
    rcases afterLast_cases x l with ⟨-, h⟩ | ⟨k, hk⟩
    · rw [h, List.getLast?_cons]
    · conv_rhs => rw [hk]
      rw [← List.cons_append, List.getLast?_append, List.getLast?_cons, Option.some_or]

/-- The steps of the walk that remain are steps of the walk. -/
theorem pair_of_eraseLoops {l : List α} {a b : α} (h : [a, b] <:+: eraseLoops l) :
    [a, b] <:+: l := by
  induction l using eraseLoops.induct with
  | case1 => simp at h
  | case2 x l ih =>
    rw [eraseLoops_cons, List.infix_cons_iff] at h
    rcases h with h | h
    · obtain ⟨rfl, hb⟩ := List.cons_prefix_cons.mp h
      have hhead : (afterLast a l).head? = some b := by
        obtain ⟨m, hm⟩ := hb
        rw [← head?_eraseLoops, ← hm]
        rfl
      obtain ⟨m, hm⟩ := List.head?_eq_some_iff.mp hhead
      rcases afterLast_cases a l with ⟨-, h⟩ | ⟨k, hk⟩
      · exact ⟨[], m, by rw [← h, hm]; rfl⟩
      · refine ⟨a :: k, m, ?_⟩
        conv_rhs => rw [hk, hm]
        simp
    · exact (ih h).trans ((afterLast_suffix x l).isInfix.trans (List.suffix_cons x l).isInfix)

end LoopErasure
