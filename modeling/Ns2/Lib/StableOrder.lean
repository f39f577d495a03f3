import Mathlib

/-! Insertion into a list ordered by a key, either after or before the elements
of equal key, and the classes of equal key that determine an ordered list. -/

namespace StableOrder

variable {α τ : Type*} [LinearOrder τ] (key : α → τ)

/-- Insert in front of the first element of strictly larger key. -/
def insertLast (e : α) : List α → List α
  | [] => [e]
  | x :: xs => if key e < key x then e :: x :: xs else x :: insertLast e xs

/-- Insert in front of the first element whose key is at least the new one. -/
def insertFirst (e : α) : List α → List α
  | [] => [e]
  | x :: xs => if key e ≤ key x then e :: x :: xs else x :: insertFirst e xs

def Ordered (l : List α) : Prop := l.Pairwise (fun a b => key a ≤ key b)

/-- The elements of key `t`, in their order. -/
def keyClass (t : τ) (l : List α) : List α := l.filter (fun x => key x = t)

theorem insertLast_perm (e : α) (l : List α) : (insertLast key e l).Perm (e :: l) := by
  induction l with
  | nil => exact .refl _
  | cons x xs ih =>
    by_cases h : key e < key x
    · simp [insertLast, h]
    · simpa [insertLast, h] using (ih.cons x).trans (List.Perm.swap e x xs)

theorem insertFirst_perm (e : α) (l : List α) : (insertFirst key e l).Perm (e :: l) := by
  induction l with
  | nil => exact .refl _
  | cons x xs ih =>
    by_cases h : key e ≤ key x
    · simp [insertFirst, h]
    · simpa [insertFirst, h] using (ih.cons x).trans (List.Perm.swap e x xs)

theorem mem_insertLast {e x : α} {l : List α} : x ∈ insertLast key e l ↔ x = e ∨ x ∈ l := by
  rw [(insertLast_perm key e l).mem_iff, List.mem_cons]

theorem mem_insertFirst {e x : α} {l : List α} : x ∈ insertFirst key e l ↔ x = e ∨ x ∈ l := by
  rw [(insertFirst_perm key e l).mem_iff, List.mem_cons]

theorem Ordered.insertLast {e : α} {l : List α} (h : Ordered key l) :
    Ordered key (insertLast key e l) := by
  induction l with
  | nil => simp [StableOrder.insertLast, Ordered]
  | cons x xs ih =>
    have hx := List.pairwise_cons.mp h
    by_cases he : key e < key x
    · simp only [StableOrder.insertLast, he, if_true]
      refine List.pairwise_cons.mpr ⟨fun y hy => ?_, h⟩
      rcases List.mem_cons.mp hy with rfl | hy
      · exact he.le
      · exact he.le.trans (hx.1 y hy)
    · simp only [StableOrder.insertLast, he, if_false]
      refine List.pairwise_cons.mpr ⟨fun y hy => ?_, ih hx.2⟩
      rcases (mem_insertLast key).mp hy with rfl | hy
      · exact not_lt.mp he
      · exact hx.1 y hy

/-- Insertion keeps a finer order that puts the new entry where it goes. -/
theorem pairwise_insertLast {r : α → α → Prop} {e : α} {l : List α} (h : l.Pairwise r)
    (hord : Ordered key l) (hbefore : ∀ x ∈ l, key x ≤ key e → r x e)
    (hafter : ∀ x ∈ l, key e < key x → r e x) : (insertLast key e l).Pairwise r := by
  induction l with
  | nil => simp [StableOrder.insertLast]
  | cons x l ih =>
    obtain ⟨h1, h2⟩ := List.pairwise_cons.mp h
    obtain ⟨h3, h4⟩ := List.pairwise_cons.mp hord
    by_cases hlt : key e < key x
    · rw [StableOrder.insertLast, if_pos hlt]
      refine List.pairwise_cons.mpr ⟨fun y hy => hafter y hy ?_, h⟩
      rcases List.mem_cons.mp hy with rfl | hy
      · exact hlt
      · exact hlt.trans_le (h3 y hy)
    · rw [StableOrder.insertLast, if_neg hlt]
      refine List.pairwise_cons.mpr ⟨fun y hy => ?_, ?_⟩
      · rcases (mem_insertLast key).mp hy with rfl | hy
        · exact hbefore x (by simp) (not_lt.mp hlt)
        · exact h1 y hy
      · exact ih h2 h4 (fun y hy => hbefore y (List.mem_cons_of_mem x hy))
          fun y hy => hafter y (List.mem_cons_of_mem x hy)

theorem Ordered.insertFirst {e : α} {l : List α} (h : Ordered key l) :
    Ordered key (insertFirst key e l) := by
  induction l with
  | nil => simp [StableOrder.insertFirst, Ordered]
  | cons x xs ih =>
    have hx := List.pairwise_cons.mp h
    by_cases he : key e ≤ key x
    · simp only [StableOrder.insertFirst, he, if_true]
      refine List.pairwise_cons.mpr ⟨fun y hy => ?_, h⟩
      rcases List.mem_cons.mp hy with rfl | hy
      · exact he
      · exact he.trans (hx.1 y hy)
    · simp only [StableOrder.insertFirst, he, if_false]
      refine List.pairwise_cons.mpr ⟨fun y hy => ?_, ih hx.2⟩
      rcases (mem_insertFirst key).mp hy with rfl | hy
      · exact (not_le.mp he).le
      · exact hx.1 y hy

/-- A new element larger than none of `l` and smaller than all of `r` lands between them. -/
theorem insertLast_append {e : α} {l r : List α} (hl : ∀ x ∈ l, key x ≤ key e)
    (hr : ∀ x ∈ r, key e < key x) : insertLast key e (l ++ r) = l ++ e :: r := by
  induction l with
  | nil =>
    cases r with
    | nil => rfl
    | cons x xs => simp [insertLast, hr x (by simp)]
  | cons x xs ih =>
    have hx : ¬ key e < key x := not_lt.mpr (hl x (by simp))
    simp [insertLast, hx, ih (fun y hy => hl y (by simp [hy]))]

/-- The scan from the back of an ordered list stops at the place the scan from the front does. -/
theorem keyClass_cons (t : τ) (x : α) (l : List α) :
    keyClass key t (x :: l) = if key x = t then x :: keyClass key t l else keyClass key t l := by
  by_cases h : key x = t <;> simp [keyClass, h]

theorem keyClass_eq_nil {t : τ} {l : List α} (h : ∀ x ∈ l, key x ≠ t) : keyClass key t l = [] :=
  List.filter_eq_nil_iff.mpr fun x hx => by simpa using h x hx

theorem keyClass_insertLast {e : α} {l : List α} (h : Ordered key l) (t : τ) :
    keyClass key t (insertLast key e l) =
      if key e = t then keyClass key t l ++ [e] else keyClass key t l := by
  induction l with
  | nil => by_cases he : key e = t <;> simp [insertLast, keyClass, he]
  | cons x xs ih =>
    have hx := List.pairwise_cons.mp h
    by_cases hlt : key e < key x
    · rw [insertLast, if_pos hlt, keyClass_cons]
      by_cases he : key e = t
      · have hno : ∀ y ∈ x :: xs, key y ≠ t := fun y hy => by
          rcases List.mem_cons.mp hy with rfl | hy
          · exact he ▸ hlt.ne'
          · exact he ▸ (hlt.trans_le (hx.1 y hy)).ne'
        simp [he, keyClass_eq_nil key hno]
      · simp [he]
    · rw [insertLast, if_neg hlt, keyClass_cons, keyClass_cons, ih hx.2]
      split_ifs <;> rfl

theorem keyClass_insertFirst {e : α} {l : List α} (h : Ordered key l) (t : τ) :
    keyClass key t (insertFirst key e l) =
      if key e = t then e :: keyClass key t l else keyClass key t l := by
  induction l with
  | nil => by_cases he : key e = t <;> simp [insertFirst, keyClass, he]
  | cons x xs ih =>
    by_cases hle : key e ≤ key x
    · rw [insertFirst, if_pos hle, keyClass_cons]
    · rw [insertFirst, if_neg hle, keyClass_cons, keyClass_cons, ih (List.pairwise_cons.mp h).2]
      by_cases he : key e = t
      · have hxt : key x ≠ t := fun hxt => hle (by rw [he, hxt])
        simp [he, hxt]
      · simp [he]

theorem mem_of_keyClass {x : α} {l : List α} : x ∈ keyClass key (key x) l ↔ x ∈ l := by
  simp [keyClass]

/-- An ordered list is determined by its classes. -/
theorem eq_of_keyClass {l r : List α} (hl : Ordered key l) (hr : Ordered key r)
    (h : ∀ t, keyClass key t l = keyClass key t r) : l = r := by
  have hmem : ∀ {x : α}, x ∈ l ↔ x ∈ r := fun {x} => by
    rw [← mem_of_keyClass key, h, mem_of_keyClass]
  induction l generalizing r with
  | nil => exact (List.eq_nil_iff_forall_not_mem.mpr fun x hx => by simpa using hmem.mpr hx).symm
  | cons x xs ih =>
    cases r with
    | nil => exact absurd (hmem.mp (List.mem_cons_self (a := x))) (by simp)
    | cons y ys =>
      have hxs := List.pairwise_cons.mp hl
      have hys := List.pairwise_cons.mp hr
      have hxy : key x ≤ key y := by
        rcases List.mem_cons.mp (hmem.mpr (List.mem_cons_self (a := y))) with he | hy
        · rw [he]
        · exact hxs.1 y hy
      have hyx : key y ≤ key x := by
        rcases List.mem_cons.mp (hmem.mp (List.mem_cons_self (a := x))) with he | hx
        · rw [he]
        · exact hys.1 x hx
      have hk : key y = key x := le_antisymm hyx hxy
      have hc := h (key x)
      simp only [keyClass, List.filter_cons, decide_true, if_true, hk, List.cons.injEq] at hc
      obtain ⟨rfl, -⟩ := hc
      have ht : ∀ t, keyClass key t xs = keyClass key t ys := fun t => by
        have := h t
        by_cases hxt : key x = t <;> simpa [keyClass, hxt] using this
      have := ih hxs.2 hys.2 ht (fun {z} => by rw [← mem_of_keyClass key, ht, mem_of_keyClass])
      rw [this]

theorem Ordered.filter {l : List α} (h : Ordered key l) (p : α → Bool) :
    Ordered key (l.filter p) := List.Pairwise.filter p h

theorem insertFirst_eq_takeWhile (e : α) (l : List α) :
    insertFirst key e l =
      l.takeWhile (fun x => key x < key e) ++ e :: l.dropWhile (fun x => key x < key e) := by
  induction l with
  | nil => rfl
  | cons x xs ih =>
    by_cases h : key e ≤ key x
    · simp [insertFirst, h, not_lt.mpr h]
    · simp [insertFirst, h, not_le.mp h, ih]

theorem keyClass_filter (p : τ → Bool) (t : τ) (l : List α) :
    keyClass key t (l.filter (fun x => p (key x))) = if p t then keyClass key t l else [] := by
  by_cases ht : p t
  · simp only [keyClass, List.filter_filter, ht, if_true]
    exact List.filter_congr fun x _ => by by_cases hx : key x = t <;> simp [hx, ht]
  · simp only [keyClass, List.filter_filter, ht]
    exact List.filter_eq_nil_iff.mpr fun x _ => by by_cases hx : key x = t <;> simp [hx, ht]

/-- Removing elements by a test of the key commutes with the insertion. -/
theorem filter_insertLast {e : α} {l : List α} (h : Ordered key l) (p : τ → Bool) :
    (insertLast key e l).filter (fun x => p (key x)) =
      if p (key e) then insertLast key e (l.filter (fun x => p (key x)))
      else l.filter (fun x => p (key x)) := by
  have hf := h.filter key (fun x => p (key x))
  apply eq_of_keyClass key ((h.insertLast key).filter key _)
  · split_ifs
    · exact hf.insertLast key
    · exact hf
  · intro t
    rw [keyClass_filter, keyClass_insertLast key h]
    by_cases hpe : p (key e) <;> by_cases het : key e = t
    · subst het
      simp [hpe, keyClass_insertLast key hf, keyClass_filter]
    · simp [hpe, het, keyClass_insertLast key hf, keyClass_filter]
    · subst het
      simp [hpe, keyClass_filter]
    · simp [hpe, het, keyClass_filter]

theorem filter_insertFirst {e : α} {l : List α} (h : Ordered key l) (p : τ → Bool) :
    (insertFirst key e l).filter (fun x => p (key x)) =
      if p (key e) then insertFirst key e (l.filter (fun x => p (key x)))
      else l.filter (fun x => p (key x)) := by
  have hf := h.filter key (fun x => p (key x))
  apply eq_of_keyClass key ((h.insertFirst key).filter key _)
  · split_ifs
    · exact hf.insertFirst key
    · exact hf
  · intro t
    rw [keyClass_filter, keyClass_insertFirst key h]
    by_cases hpe : p (key e) <;> by_cases het : key e = t
    · subst het
      simp [hpe, keyClass_insertFirst key hf, keyClass_filter]
    · simp [hpe, het, keyClass_insertFirst key hf, keyClass_filter]
    · subst het
      simp [hpe, keyClass_filter]
    · simp [hpe, het, keyClass_filter]

/-- The elements of `l` inserted one by one, each in front of its equals. -/
def sortFirst (l q : List α) : List α := l.foldl (fun q e => insertFirst key e q) q

theorem Ordered.sortFirst {l q : List α} (h : Ordered key q) : Ordered key (sortFirst key l q) := by
  induction l generalizing q with
  | nil => exact h
  | cons x xs ih => exact ih (h.insertFirst key)

theorem keyClass_sortFirst {l q : List α} (h : Ordered key q) (t : τ) :
    keyClass key t (sortFirst key l q) = (keyClass key t l).reverse ++ keyClass key t q := by
  induction l generalizing q with
  | nil => rfl
  | cons x xs ih =>
    have hh := ih (h.insertFirst key (e := x))
    rw [sortFirst, List.foldl_cons]
    rw [sortFirst] at hh
    rw [hh, keyClass_insertFirst key h, keyClass_cons]
    split_ifs <;> simp

end StableOrder
