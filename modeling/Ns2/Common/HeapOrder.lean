import Ns2.Common.HeapRefinement

/-! What every operation of a heap does to its elements, in every run. -/

namespace Ns2.Heap

open BinaryHeap (Ordered)

variable {τ : Type*} [LinearOrder τ]

inductive Op (τ : Type*) where
  | insert (key : τ) (elem : Event τ)
  | extractMin
  | delete (elem : Event τ)

def step (h : Heap τ) : Op τ → Option (Heap τ × Option (Event τ))
  | .insert key elem => (heapInsert key (some elem) h).map fun h' => (h', none)
  | .extractMin => heapExtractMin h
  | .delete elem => (heapDelete elem h).map fun h' => (h', none)

/-- The operation adds the new element, takes out and returns the least one, or takes out an
element with the named event; the rest stays, in the order of a heap. -/
def Keeps (h : Heap τ) (op : Op τ) (o : Option (Event τ)) (h' : Heap τ) : Prop :=
  Ordered key h'.h_elems h'.h_size ∧
    match op with
    | .insert key elem => h'.elements.Perm (⟨key, h.h_s_key, some elem⟩ :: h.elements)
    | .extractMin =>
      (h.elements = [] ∧ h' = h ∧ o = none) ∨
        ∃ x, h.elements.Perm (x :: h'.elements) ∧ o = x.he_elem ∧ ∀ y ∈ h.elements, key x ≤ key y
    | .delete elem =>
      (h' = h ∧ ∀ x ∈ h.elements, x.he_elem ≠ some elem) ∨
        ∃ x, x.he_elem = some elem ∧ h.elements.Perm (x :: h'.elements)

/-- The array has a larger size to grow to, and the place of the event fits an `int`. -/
def Counts (h : Heap τ) : Op τ → Prop
  | .insert _ _ => h.h_size < 2 ^ 31
  | .extractMin => True
  | .delete elem => ∀ i < h.h_size, (h.h_elems i).he_elem = some elem →
      ∃ j < 2 ^ 31 - 1, j ≤ i ∧ (h.h_elems j).he_elem = some elem

theorem Whole.least {h : Heap τ} (hv : Whole h) {y : HeapElem τ} (hy : y ∈ h.elements) :
    key (h.h_elems 0) ≤ key y := by
  obtain ⟨j, hj, rfl⟩ := BinaryHeap.mem_contents.mp hy
  exact hv.ordered.le_root hj

theorem Whole.step {h : Heap τ} (hv : Whole h) {op : Op τ} (hop : Counts h op) :
    ∃ h' o, step h op = some (h', o) ∧ Keeps h op o h' ∧ Whole h' := by
  cases op with
  | insert t elem =>
    obtain ⟨h', h1, h2, h3, -⟩ := hv.insert hop t (some elem)
    have hs : Heap.step h (.insert t elem) = some (h', none) := by
      simp [Heap.step, h1]
    exact ⟨h', none, hs, ⟨h2.ordered, h3⟩, h2⟩
  | extractMin =>
    rcases Nat.eq_zero_or_pos h.h_size with h0 | hpos
    · have hempty : h.elements = [] := by
        simp [elements, BinaryHeap.contents, h0]
      have hs : Heap.step h .extractMin = some (h, none) := by
        simp [Heap.step, heapExtractMin, h0]
      exact ⟨h, none, hs, ⟨hv.ordered, .inl ⟨hempty, rfl, rfl⟩⟩, hv⟩
    · obtain ⟨h', h1, h2, h3, -⟩ := hv.extractMin hpos
      exact ⟨h', _, h1, ⟨h2.ordered, .inr ⟨_, h3, rfl, fun y hy => hv.least hy⟩⟩, h2⟩
  | delete elem =>
    rcases hv.delete elem hop with ⟨h1, h2⟩ | ⟨h', x, h1, h2, h3, h4, -⟩
    · have hs : Heap.step h (.delete elem) = some (h, none) := by
        simp [Heap.step, h1]
      exact ⟨h, none, hs, ⟨hv.ordered, .inl ⟨rfl, h2⟩⟩, hv⟩
    · have hs : Heap.step h (.delete elem) = some (h', none) := by
        simp [Heap.step, h1]
      exact ⟨h', none, hs, ⟨h2.ordered, .inr ⟨x, h3, h4⟩⟩, h2⟩

/-! ### Past the condition -/

/-- Twice 2 ^ 31 elements are none. -/
theorem Whole.insert_full {h : Heap τ} (hv : Whole h) (hfull : 2 ^ 31 ≤ h.h_size) (t : τ)
    (elem : Option (Event τ)) : heapInsert t elem h = none := by
  obtain ⟨k, hk, hmax⟩ := hv.power
  have hle : (2 : ℕ) ^ k ≤ 2 ^ 31 := Nat.pow_le_pow_right (by decide) hk
  have hroom := hv.room
  have hsize : h.h_size = 2 ^ 31 := by
    omega
  have hmax' : h.h_maxsize = 2 ^ 31 := by
    omega
  rw [heapInsert, hsize, hmax']
  simp

theorem heapDelete_far {h : Heap τ} {elem : Event τ} {i : ℕ} (hi : i < h.h_size)
    (he : (h.h_elems i).he_elem = some elem)
    (hfar : ∀ j < h.h_size, (h.h_elems j).he_elem = some elem → 2 ^ 31 - 1 ≤ j) :
    heapDelete elem h = none := by
  unfold heapDelete heapMember
  dsimp only
  cases hf : (List.range h.h_size).find? fun i => (h.h_elems i).he_elem = some elem with
  | none =>
    have hno := List.find?_eq_none.mp hf i (List.mem_range.mpr hi)
    simp [he] at hno
  | some j =>
    have hj : j < h.h_size := List.mem_range.mp (List.mem_of_find?_eq_some hf)
    have hje : (h.h_elems j).he_elem = some elem := by
      simpa using List.find?_some hf
    have hbig := hfar j hj hje
    dsimp only
    rw [if_neg (Nat.succ_ne_zero j), if_pos (by omega)]

theorem Whole.step_eq_none {h : Heap τ} (hv : Whole h) {op : Op τ} (hop : ¬ Counts h op) :
    Heap.step h op = none := by
  cases op with
  | insert t elem =>
    have hfull : 2 ^ 31 ≤ h.h_size := not_lt.mp hop
    simp [Heap.step, hv.insert_full hfull]
  | extractMin => exact absurd trivial hop
  | delete elem =>
    simp only [Counts, not_forall, not_exists, not_and] at hop
    obtain ⟨i, hi, he, hfar⟩ := hop
    have hd : heapDelete elem h = none := by
      apply heapDelete_far hi he
      intro j hj hje
      by_contra hlt
      rcases le_total j i with hji | hij
      · exact hfar j (by omega) hji hje
      · exact hfar i (by omega) le_rfl he
    simp [Heap.step, hd]

variable [Zero τ]

theorem whole_new : Whole (Heap.new : Heap τ) where
  size := Nat.zero_le _
  room := Nat.zero_le _
  power := ⟨5, by decide, rfl⟩
  ordered := fun _ _ hj => absurd hj (Nat.not_lt_zero _)

/-- Each operation does to the elements what it should, exactly while it finds fewer than 2 ^ 31
of them or none that it can not count. -/
theorem heap_keeps_iff (ops : List (Op τ)) :
    Machine.Each step Keeps (Heap.new : Heap τ) ops ↔ Machine.Admits step Counts Heap.new ops := by
  apply Machine.each_iff (I := Whole)
  · exact fun h op hv hop => hv.step hop
  · intro h op h' o hv hop hs
    rw [hv.step_eq_none hop] at hs
    cases hs
  · exact whole_new

/-! ### The array at its largest -/

theorem run_insertions {n : ℕ} (hn : n ≤ 2 ^ 31) : ∃ h os,
    Machine.run step (Heap.new : Heap ℕ) (List.replicate n (.insert 0 ⟨0, 0⟩)) = some (h, os) ∧
      Whole h ∧ h.h_size = n := by
  induction n with
  | zero => exact ⟨Heap.new, [], rfl, whole_new, rfl⟩
  | succ n ih =>
    obtain ⟨h, os, h1, h2, h3⟩ := ih (by omega)
    obtain ⟨h', h4, h5, -, -, h6⟩ := h2.insert (by omega) 0 (some ⟨0, 0⟩)
    have hs : Heap.step h (.insert 0 ⟨0, 0⟩) = some (h', none) := by
      simp [Heap.step, h4]
    refine ⟨h', os ++ [none], ?_, h5, by omega⟩
    rw [List.replicate_succ', Machine.run_append, h1, Option.bind_some, Machine.run_cons_some hs]
    rfl

/-- The array is doubled to no elements at all. -/
theorem heap_full : ¬ ∀ ops : List (Op ℕ), ops.length < 2 ^ 32 →
    Machine.Each step Keeps Heap.new ops := by
  intro hall
  obtain ⟨h, os, h1, h2, h3⟩ := run_insertions (n := 2 ^ 31) le_rfl
  have hno : ¬ Counts h (.insert 0 ⟨0, 0⟩) := by
    show ¬ h.h_size < 2 ^ 31
    omega
  obtain ⟨ops, hops⟩ : ∃ ops : List (Op ℕ), ops = List.replicate (2 ^ 31) (.insert 0 ⟨0, 0⟩) :=
    ⟨_, rfl⟩
  have hlen : (ops ++ [Op.insert 0 ⟨0, 0⟩]).length < 2 ^ 32 := by
    rw [hops, List.length_append, List.length_replicate, List.length_singleton]
    omega
  obtain ⟨t, os', ht⟩ := (hall _ hlen).run
  rw [← hops] at h1
  rw [Machine.run_append, h1, Option.bind_some, Machine.run_cons_none (h2.step_eq_none hno)] at ht
  cases ht

end Ns2.Heap
