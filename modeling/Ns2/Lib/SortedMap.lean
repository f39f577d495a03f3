import Mathlib

/-! Finite maps as lists of entries that are sorted by their keys. -/

structure SortedMap (κ α : Type*) [LinearOrder κ] where
  entries : List (κ × α)
  sorted : entries.Pairwise fun a b => a.1 < b.1

namespace SortedMap

variable {κ α : Type*} [LinearOrder κ]

def empty : SortedMap κ α := ⟨[], .nil⟩

def findEntry (k : κ) : List (κ × α) → Option α
  | [] => none
  | e :: l => if e.1 = k then some e.2 else findEntry k l

def find (m : SortedMap κ α) (k : κ) : Option α := findEntry k m.entries

def setEntry (k : κ) (a : α) : List (κ × α) → List (κ × α)
  | [] => [(k, a)]
  | e :: l => if k < e.1 then (k, a) :: e :: l else if k = e.1 then (k, a) :: l
    else e :: setEntry k a l

theorem mem_setEntry {k : κ} {a : α} {e : κ × α} {l : List (κ × α)} (h : e ∈ setEntry k a l) :
    e = (k, a) ∨ e ∈ l := by
  induction l with
  | nil => exact .inl (by simpa [setEntry] using h)
  | cons x l ih =>
    unfold setEntry at h
    split_ifs at h with hlt heq
    · exact List.mem_cons.mp h
    · exact (List.mem_cons.mp h).imp_right (List.mem_cons_of_mem _)
    · rcases List.mem_cons.mp h with rfl | h
      · exact .inr (by simp)
      · exact (ih h).imp_right (List.mem_cons_of_mem _)

theorem setEntry_sorted (k : κ) (a : α) {l : List (κ × α)}
    (h : l.Pairwise fun a b => a.1 < b.1) : (setEntry k a l).Pairwise fun a b => a.1 < b.1 := by
  induction l with
  | nil => simp [setEntry]
  | cons x l ih =>
    obtain ⟨hx, hl⟩ := List.pairwise_cons.mp h
    unfold setEntry
    split_ifs with hlt heq
    · refine List.pairwise_cons.mpr ⟨fun e he => ?_, h⟩
      rcases List.mem_cons.mp he with rfl | he
      · exact hlt
      · exact hlt.trans (hx e he)
    · exact List.pairwise_cons.mpr ⟨fun e he => heq.trans_lt (hx e he), hl⟩
    · refine List.pairwise_cons.mpr ⟨fun e he => ?_, ih hl⟩
      rcases mem_setEntry he with rfl | he
      · exact lt_of_le_of_ne (not_lt.mp hlt) (Ne.symm heq)
      · exact hx e he

/-- The value at `k` becomes `a`, whether there was one or not. -/
def set (m : SortedMap κ α) (k : κ) (a : α) : SortedMap κ α :=
  ⟨setEntry k a m.entries, setEntry_sorted k a m.sorted⟩

def erase (m : SortedMap κ α) (k : κ) : SortedMap κ α :=
  ⟨m.entries.filter fun e => e.1 ≠ k, m.sorted.filter _⟩

def mapValues {β : Type*} (f : κ → α → β) (m : SortedMap κ α) : SortedMap κ β where
  entries := m.entries.map fun e => (e.1, f e.1 e.2)
  sorted := List.pairwise_map.mpr m.sorted

/-- Without the entry of the least key. -/
def eraseFirst (m : SortedMap κ α) : SortedMap κ α := ⟨m.entries.tail, m.sorted.tail⟩

theorem findEntry_setEntry (k j : κ) (a : α) (l : List (κ × α)) :
    findEntry j (setEntry k a l) = if j = k then some a else findEntry j l := by
  induction l with
  | nil => simp [setEntry, findEntry, eq_comm]
  | cons x l ih =>
    unfold setEntry
    by_cases hjk : j = k
    · subst hjk
      split_ifs with hlt heq <;> simp_all [findEntry, eq_comm]
    · split_ifs with hlt heq
      · simp [findEntry, Ne.symm hjk]
      · simp [findEntry, ← heq, Ne.symm hjk]
      · simp [findEntry, ih, hjk]

theorem find_set (m : SortedMap κ α) (k j : κ) (a : α) :
    (m.set k a).find j = if j = k then some a else m.find j := findEntry_setEntry k j a m.entries

theorem find_erase (m : SortedMap κ α) (k j : κ) :
    (m.erase k).find j = if j = k then none else m.find j := by
  obtain ⟨l, hl⟩ := m
  change findEntry j (l.filter fun e => e.1 ≠ k) = if j = k then none else findEntry j l
  clear hl
  induction l with
  | nil => simp [findEntry]
  | cons x l ih =>
    by_cases hx : x.1 = k
    · rw [List.filter_cons_of_neg (by simpa using hx), ih]
      by_cases hj : j = k
      · simp [hj]
      · simp [findEntry, hx, hj, Ne.symm hj]
    · rw [List.filter_cons_of_pos (by simpa using hx), findEntry, ih, findEntry]
      by_cases hj : j = k
      · simp [hj, hx]
      · simp [hj]

theorem mem_entries {m : SortedMap κ α} {k : κ} {a : α} :
    (k, a) ∈ m.entries ↔ m.find k = some a := by
  obtain ⟨l, hl⟩ := m
  unfold find
  dsimp only
  induction l with
  | nil => simp [findEntry]
  | cons x l ih =>
    obtain ⟨hx, hl⟩ := List.pairwise_cons.mp hl
    by_cases hk : x.1 = k
    · subst hk
      have hno : (x.1, a) ∉ l := fun hm => lt_irrefl x.1 (hx (x.1, a) hm)
      simp only [findEntry, if_true, List.mem_cons, hno, or_false, Option.some.injEq]
      exact ⟨fun he => by rw [← he], fun he => by rw [← he]⟩
    · have hne : (k, a) ≠ x := fun he => hk (by rw [← he])
      simp [findEntry, hk, hne, ih hl]

theorem entries_nodup (m : SortedMap κ α) : m.entries.Nodup :=
  m.sorted.imp fun hlt he => absurd (he ▸ hlt) (lt_irrefl _)

theorem erase_of_find_none {m : SortedMap κ α} {k : κ} (h : m.find k = none) :
    (m.erase k).entries = m.entries := by
  refine List.filter_eq_self.mpr fun e he => ?_
  rw [decide_eq_true_eq]
  rintro rfl
  have hmem : (e.1, e.2) ∈ m.entries := he
  rw [mem_entries, h] at hmem
  cases hmem

/-- The entry of a key and the others. -/
theorem entries_perm_of {m m' : SortedMap κ α} {k : κ} {a : α}
    (h : ∀ j, m'.find j = if j = k then some a else m.find j) :
    m'.entries.Perm ((k, a) :: (m.erase k).entries) := by
  have hnot : (k, a) ∉ (m.erase k).entries := by
    rw [mem_entries, find_erase, if_pos rfl]
    exact fun hn => Option.some_ne_none a hn.symm
  refine (List.perm_ext_iff_of_nodup m'.entries_nodup
    (List.nodup_cons.mpr ⟨hnot, (m.erase k).entries_nodup⟩)).mpr fun e => ?_
  obtain ⟨j, b⟩ := e
  rw [List.mem_cons, mem_entries, mem_entries, h, find_erase, Prod.mk.injEq]
  split_ifs with hj
  · simp [hj, eq_comm]
  · simp [hj]

theorem entries_set (m : SortedMap κ α) (k : κ) (a : α) :
    (m.set k a).entries.Perm ((k, a) :: (m.erase k).entries) :=
  entries_perm_of fun j => find_set m k j a

theorem entries_perm {m : SortedMap κ α} {k : κ} {a : α} (h : m.find k = some a) :
    m.entries.Perm ((k, a) :: (m.erase k).entries) := by
  refine entries_perm_of fun j => ?_
  split_ifs with hj
  · rw [hj, h]
  · rfl

@[simp] theorem find_empty (k : κ) : (empty : SortedMap κ α).find k = none := rfl

end SortedMap
