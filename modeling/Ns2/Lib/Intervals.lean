import Mathlib

/-! Sets of integers as lists of intervals that are sorted, not empty and never adjacent. An
entry `a` of a list stands for the interval from `lo a` up to `hi a`. -/

namespace Intervals

variable {α : Type*} {lo hi lo' hi' : α → ℤ} {L M R l : List α} {n : α} {s e x y : ℤ}

structure Normal (lo hi : α → ℤ) (l : List α) : Prop where
  pos : ∀ a ∈ l, lo a < hi a
  apart : l.Pairwise fun a b => hi a < lo b

def cover (lo hi : α → ℤ) (l : List α) : Set ℤ := {i | ∃ a ∈ l, lo a ≤ i ∧ i < hi a}

def size (lo hi : α → ℤ) (l : List α) : ℤ := (l.map fun a => hi a - lo a).sum

theorem normal_nil : Normal lo hi [] := ⟨by simp, .nil⟩

@[simp] theorem cover_nil : cover lo hi [] = ∅ := by simp [cover]

@[simp] theorem size_nil : size lo hi [] = 0 := rfl

theorem cover_append : cover lo hi (L ++ R) = cover lo hi L ∪ cover lo hi R := by
  ext i
  simp only [cover, List.mem_append, Set.mem_ofPred_eq, Set.mem_union]
  constructor
  · rintro ⟨a, ha | ha, hi⟩
    · exact .inl ⟨a, ha, hi⟩
    · exact .inr ⟨a, ha, hi⟩
  · rintro (⟨a, ha, hi⟩ | ⟨a, ha, hi⟩)
    · exact ⟨a, .inl ha, hi⟩
    · exact ⟨a, .inr ha, hi⟩

theorem cover_cons : cover lo hi (n :: l) = Set.Ico (lo n) (hi n) ∪ cover lo hi l := by
  ext i
  simp [cover]

theorem size_append : size lo hi (L ++ R) = size lo hi L + size lo hi R := by
  simp [size]

theorem size_cons : size lo hi (n :: l) = hi n - lo n + size lo hi l := by
  simp [size]

theorem Normal.congr (h : Normal lo hi l) (hl : ∀ a ∈ l, lo' a = lo a) (hh : ∀ a ∈ l, hi' a = hi a) :
    Normal lo' hi' l := by
  refine ⟨fun a ha => by rw [hl a ha, hh a ha]; exact h.pos a ha, ?_⟩
  refine h.apart.imp_of_mem fun {a b} ha hb hab => ?_
  rw [hh a ha, hl b hb]
  exact hab

theorem cover_congr (hl : ∀ a ∈ l, lo' a = lo a) (hh : ∀ a ∈ l, hi' a = hi a) :
    cover lo' hi' l = cover lo hi l := by
  ext i
  simp only [cover, Set.mem_ofPred_eq]
  constructor
  · rintro ⟨a, ha, h⟩
    exact ⟨a, ha, by rwa [hl a ha, hh a ha] at h⟩
  · rintro ⟨a, ha, h⟩
    exact ⟨a, ha, by rwa [hl a ha, hh a ha]⟩

theorem size_congr (hl : ∀ a ∈ l, lo' a = lo a) (hh : ∀ a ∈ l, hi' a = hi a) :
    size lo' hi' l = size lo hi l := by
  rw [size, size, List.map_congr_left fun a ha => by rw [hl a ha, hh a ha]]

theorem Normal.sublist (h : Normal lo hi l) (hs : L.Sublist l) : Normal lo hi L :=
  ⟨fun a ha => h.pos a (hs.subset ha), h.apart.sublist hs⟩

theorem Normal.lt (h : Normal lo hi (L ++ R)) {a b : α} (ha : a ∈ L) (hb : b ∈ R) : hi a < lo b :=
  (List.pairwise_append.mp h.apart).2.2 a ha b hb

/-- An interval fits between two parts of a list. -/
theorem Normal.insert (h : Normal lo hi (L ++ R)) (hn : lo n < hi n) (hL : ∀ a ∈ L, hi a < lo n)
    (hR : ∀ b ∈ R, hi n < lo b) : Normal lo hi (L ++ n :: R) := by
  obtain ⟨h1, h2, h3⟩ := List.pairwise_append.mp h.apart
  refine ⟨fun a ha => ?_, List.pairwise_append.mpr ⟨h1, List.pairwise_cons.mpr ⟨hR, h2⟩, ?_⟩⟩
  · rcases List.mem_append.mp ha with ha | ha
    · exact h.pos a (by simp [ha])
    · rcases List.mem_cons.mp ha with rfl | ha
      · exact hn
      · exact h.pos a (by simp [ha])
  · intro a ha b hb
    rcases List.mem_cons.mp hb with rfl | hb
    · exact hL a ha
    · exact h3 a ha b hb

/-- One interval gives way to intervals inside of it. -/
theorem Normal.refine {K : List α} {a : α} (h : Normal lo hi (L ++ a :: R)) (hK : Normal lo hi K)
    (hin : ∀ b ∈ K, lo a ≤ lo b ∧ hi b ≤ hi a) : Normal lo hi (L ++ (K ++ R)) := by
  obtain ⟨h1, h2, h3⟩ := List.pairwise_append.mp h.apart
  obtain ⟨h4, h5⟩ := List.pairwise_cons.mp h2
  refine ⟨fun b hb => ?_, List.pairwise_append.mpr ⟨h1, List.pairwise_append.mpr
    ⟨hK.apart, h5, fun b hb c hc => ?_⟩, fun b hb c hc => ?_⟩⟩
  · rcases List.mem_append.mp hb with hb | hb
    · exact h.pos b (by simp [hb])
    · rcases List.mem_append.mp hb with hb | hb
      · exact hK.pos b hb
      · exact h.pos b (by simp [hb])
  · exact (hin b hb).2.trans_lt (h4 c hc)
  · rcases List.mem_append.mp hc with hc | hc
    · exact (h3 b hb a (by simp)).trans_le (hin c hc).1
    · exact h3 b hb c (by simp [hc])

/-- The entry `a` takes the place of `K` and of another interval, whose union it is. -/
theorem Normal.absorb {K : List α} {a : α} (h : Normal lo hi (L ++ K ++ R))
    (hL : ∀ x ∈ L, lo' x = lo x ∧ hi' x = hi x) (hR : ∀ x ∈ R, lo' x = lo x ∧ hi' x = hi x)
    (hpos : lo' a < hi' a) (hLa : ∀ x ∈ L, hi x < lo' a) (haR : ∀ x ∈ R, hi' a < lo x)
    (hcov : Set.Ico (lo' a) (hi' a) = cover lo hi K ∪ Set.Ico s e) :
    Normal lo' hi' (L ++ a :: R) ∧
      cover lo' hi' (L ++ a :: R) = cover lo hi (L ++ K ++ R) ∪ Set.Ico s e ∧
      size lo' hi' (L ++ a :: R) = size lo hi (L ++ K ++ R) - size lo hi K + (hi' a - lo' a) := by
  have hLR : ∀ x ∈ L ++ R, lo' x = lo x ∧ hi' x = hi x := fun x hx =>
    (List.mem_append.mp hx).elim (hL x) (hR x)
  have hsub : (L ++ R).Sublist (L ++ K ++ R) := (List.sublist_append_left L K).append_right R
  refine ⟨?_, ?_, ?_⟩
  · apply Normal.insert
    · exact (h.sublist hsub).congr (fun x hx => (hLR x hx).1) fun x hx => (hLR x hx).2
    · exact hpos
    · exact fun x hx => (hL x hx).2 ▸ hLa x hx
    · exact fun x hx => (hR x hx).1 ▸ haR x hx
  · rw [cover_append, cover_cons, cover_append, cover_append, hcov,
      cover_congr (fun x hx => (hL x hx).1) fun x hx => (hL x hx).2,
      cover_congr (fun x hx => (hR x hx).1) fun x hx => (hR x hx).2]
    ext i
    simp only [Set.mem_union]
    tauto
  · rw [size_append, size_cons, size_append, size_append,
      size_congr (fun x hx => (hL x hx).1) fun x hx => (hL x hx).2,
      size_congr (fun x hx => (hR x hx).1) fun x hx => (hR x hx).2]
    ring

end Intervals
