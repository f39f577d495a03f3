import Mathlib

/-! Lists that are kept as runs: a run is any value that has a length and a state that all its
members share. -/

/-- What a walk gives, step after step, until it ends. -/
inductive WalkLists {σ α : Type*} (next : σ → Option (α × σ)) : σ → List α → Prop
  | done {s : σ} : next s = none → WalkLists next s []
  | step {s s' : σ} {a : α} {l : List α} : next s = some (a, s') → WalkLists next s' l →
      WalkLists next s (a :: l)

namespace RunLength

variable {β α : Type*} (len : β → ℕ) (val : β → α)

def expand : List β → List α
  | [] => []
  | c :: l => List.replicate (len c) (val c) ++ expand l

variable {len val}

theorem expand_append (l l' : List β) :
    expand len val (l ++ l') = expand len val l ++ expand len val l' := by
  induction l with
  | nil => rfl
  | cons c l ih => rw [List.cons_append, expand, expand, ih, List.append_assoc]

theorem length_expand_cons (c : β) (l : List β) :
    (expand len val (c :: l)).length = len c + (expand len val l).length := by
  rw [expand, List.length_append, List.length_replicate]

theorem expand_replicate (n : ℕ) (c : β) :
    expand len val (List.replicate n c) = List.replicate (len c * n) (val c) := by
  induction n with
  | zero => rfl
  | succ n ih =>
    rw [List.replicate_succ, expand, ih, ← List.replicate_add]
    congr 1
    ring

/-- The run that a member is in. -/
theorem exists_run {l : List β} {k : ℕ} (hk : k < (expand len val l).length) :
    ∃ A c B, l = A ++ c :: B ∧ (expand len val A).length ≤ k ∧
      k < (expand len val A).length + len c := by
  induction l generalizing k with
  | nil => exact absurd hk (Nat.not_lt_zero k)
  | cons c l ih =>
    rw [length_expand_cons] at hk
    by_cases hc : k < len c
    · exact ⟨[], c, l, rfl, Nat.zero_le k, by simpa [expand] using hc⟩
    · obtain ⟨A, d, B, rfl, h1, h2⟩ := ih (k := k - len c) (by omega)
      refine ⟨c :: A, d, B, rfl, ?_, ?_⟩
      · rw [length_expand_cons]
        omega
      · rw [length_expand_cons]
        omega

/-- The members of a run have its state. -/
theorem getElem?_run {A : List β} {c : β} {B : List β} {k : ℕ}
    (h1 : (expand len val A).length ≤ k) (h2 : k < (expand len val A).length + len c) :
    (expand len val (A ++ c :: B))[k]? = some (val c) := by
  rw [expand_append, List.getElem?_append_right h1, expand,
    List.getElem?_append_left (by rw [List.length_replicate]; omega),
    List.getElem?_replicate_of_lt (by omega)]

theorem expand_take {A : List β} {c : β} {B : List β} {k : ℕ}
    (h1 : (expand len val A).length ≤ k) (h2 : k < (expand len val A).length + len c) :
    (expand len val (A ++ c :: B)).take k =
      expand len val A ++ List.replicate (k - (expand len val A).length) (val c) := by
  rw [expand_append, List.take_append, List.take_of_length_le h1, expand, List.take_append,
    List.take_replicate, List.length_replicate, Nat.min_eq_left (by omega),
    show k - (expand len val A).length - len c = 0 by omega, List.take_zero, List.append_nil]

theorem set_replicate (a b : ℕ) (x y : α) :
    (List.replicate (a + (b + 1)) x).set a y =
      List.replicate a x ++ y :: List.replicate b x := by
  induction a with
  | zero => rw [Nat.zero_add, List.replicate_succ, List.set_cons_zero]; rfl
  | succ a ih =>
    rw [show a + 1 + (b + 1) = a + (b + 1) + 1 by omega, List.replicate_succ, List.set_cons_succ, ih,
      List.replicate_succ]
    rfl

/-- A run that is split around a member changes the state of this one. -/
theorem expand_split {A B l : List β} {c : β} {k : ℕ} {y : α}
    (h1 : (expand len val A).length ≤ k) (h2 : k < (expand len val A).length + len c)
    (hl : expand len val l = List.replicate (k - (expand len val A).length) (val c) ++
      y :: List.replicate ((expand len val A).length + len c - k - 1) (val c)) :
    expand len val (A ++ l ++ B) = (expand len val (A ++ c :: B)).set k y := by
  rw [expand_append, expand_append, expand_append, List.append_assoc,
    List.set_append_right _ _ h1, expand, List.set_append_left _ _
      (by rw [List.length_replicate]; omega), hl, ← set_replicate]
  congr 4
  omega

end RunLength
