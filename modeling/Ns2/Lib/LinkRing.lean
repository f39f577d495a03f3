import Mathlib

/-! Circular doubly linked lists: two pointer functions that lead around a ring, and how a node is
put before another and taken out. -/

variable {α : Type*}

def Linked (next prev : α → Option α) (a b : α) : Prop := next a = some b ∧ prev b = some a

structure LinkRing (next prev : α → Option α) (l : List α) : Prop where
  nodup : l.Nodup
  chain : Cycle.Chain (Linked next prev) (l : Cycle α)

namespace LinkRing

variable {next prev next' prev' : α → Option α} {a b h n x : α} {l t A B : List α}

theorem nil : LinkRing next prev [] := ⟨.nil, trivial⟩

/-- The ring may be entered at every node. -/
theorem rotate (hr : LinkRing next prev (A ++ B)) : LinkRing next prev (B ++ A) := by
  have he : ((A ++ B : List α) : Cycle α) = (B ++ A : List α) :=
    Cycle.coe_eq_coe.mpr List.isRotated_append
  exact ⟨List.nodup_append_comm.mp hr.nodup, he ▸ hr.chain⟩

theorem chain_iff : Cycle.Chain (Linked next prev) ((a :: l : List α) : Cycle α) ↔
    (a :: l).IsChain (Linked next prev) ∧ ∀ b, (a :: l).getLast? = some b → Linked next prev b a := by
  rw [Cycle.chain_coe_cons, ← List.cons_append, List.isChain_append]
  simp

theorem singleton : LinkRing next prev [a] ↔ Linked next prev a a := by
  constructor
  · intro hr
    exact (chain_iff.mp hr.chain).2 a rfl
  · intro ha
    exact ⟨List.nodup_singleton a, chain_iff.mpr ⟨.singleton a, by simpa using ha⟩⟩

theorem linked_head (hr : LinkRing next prev (a :: b :: l)) : Linked next prev a b :=
  (List.isChain_cons_cons.mp (chain_iff.mp hr.chain).1).1

theorem linked_last (hr : LinkRing next prev (a :: l)) (hl : (a :: l).getLast? = some b) :
    Linked next prev b a := (chain_iff.mp hr.chain).2 b hl

theorem exists_last (a : α) (l : List α) : ∃ b, (a :: l).getLast? = some b := by
  cases hl : (a :: l).getLast? with
  | none => simp at hl
  | some b => exact ⟨b, rfl⟩

/-- Every node of a ring has a successor in the ring. -/
theorem next_mem (hr : LinkRing next prev l) (ha : a ∈ l) : ∃ b ∈ l, next a = some b := by
  obtain ⟨A, B, rfl⟩ := List.append_of_mem ha
  have hrot := hr.rotate
  cases hc : B ++ A with
  | nil =>
    rw [List.cons_append, hc] at hrot
    exact ⟨a, ha, (singleton.mp hrot).1⟩
  | cons b l =>
    rw [List.cons_append, hc] at hrot
    have hb : b ∈ B ++ A := by simp [hc]
    refine ⟨b, ?_, hrot.linked_head.1⟩
    simp only [List.mem_append, List.mem_cons] at hb ⊢
    tauto

theorem isChain_congr (hc : l.IsChain (Linked next prev)) (hn : ∀ a ∈ l.dropLast, next' a = next a)
    (hp : ∀ b ∈ l.tail, prev' b = prev b) : l.IsChain (Linked next' prev') := by
  induction l with
  | nil => exact .nil
  | cons a l ih =>
    cases l with
    | nil => exact .singleton a
    | cons b l =>
      obtain ⟨hab, hc⟩ := List.isChain_cons_cons.mp hc
      refine List.isChain_cons_cons.mpr ⟨⟨?_, ?_⟩, ?_⟩
      · exact (hn a (by simp)).trans hab.1
      · exact (hp b (by simp)).trans hab.2
      · exact ih hc (fun x hx => hn x (by simp [hx])) fun x hx => hp x (by simp at hx ⊢; tauto)

theorem not_mem_dropLast (hnd : l.Nodup) (hl : l.getLast? = some b) : b ∉ l.dropLast := by
  obtain ⟨l, rfl⟩ := List.getLast?_eq_some_iff.mp hl
  rw [List.dropLast_concat]
  intro hm
  exact (List.nodup_append.mp hnd).2.2 b hm b (by simp) rfl

variable [DecidableEq α]

/-- A new node between the head of the ring and its predecessor. -/
theorem insert (hr : LinkRing next prev (h :: t)) (hn : n ∉ h :: t) {p : α} (hp : prev h = some p) :
    LinkRing (Function.update (Function.update next n (some h)) p (some n))
      (Function.update (Function.update prev n (some p)) h (some n)) (h :: t ++ [n]) := by
  obtain ⟨b, hb⟩ := exists_last h t
  have hbp : p = b := Option.some.inj (hp.symm.trans (hr.linked_last hb).2)
  subst hbp
  have hpmem : p ∈ h :: t := List.mem_of_getLast? hb
  have hnp : n ≠ p := fun he => hn (he ▸ hpmem)
  have hnh : n ≠ h := fun he => hn (by simp [he])
  have hlast := not_mem_dropLast hr.nodup hb
  rw [List.cons_append]
  refine ⟨?_, chain_iff.mpr ⟨?_, ?_⟩⟩
  · rw [← List.cons_append, List.nodup_append_comm, List.singleton_append]
    exact List.nodup_cons.mpr ⟨hn, hr.nodup⟩
  · rw [← List.cons_append, List.isChain_append]
    refine ⟨?_, .singleton n, ?_⟩
    · apply isChain_congr (chain_iff.mp hr.chain).1
      · intro x hx
        have hxp : x ≠ p := fun he => hlast (he ▸ hx)
        have hxn : x ≠ n := fun he => hn (he ▸ List.dropLast_subset _ hx)
        rw [Function.update_of_ne hxp, Function.update_of_ne hxn]
      · intro x hx
        have hxh : x ≠ h := fun he => (List.nodup_cons.mp hr.nodup).1 (he ▸ hx)
        have hxn : x ≠ n := fun he => hn (he ▸ List.mem_cons_of_mem h hx)
        rw [Function.update_of_ne hxh, Function.update_of_ne hxn]
    · intro x hx y hy
      obtain rfl : p = x := Option.some.inj (hb.symm.trans hx)
      obtain rfl : n = y := by simpa using hy
      refine ⟨Function.update_self _ _ _, ?_⟩
      rw [Function.update_of_ne hnh, Function.update_self]
  · intro x hx
    rw [← List.cons_append, List.getLast?_concat] at hx
    obtain rfl : n = x := Option.some.inj hx
    refine ⟨?_, Function.update_self _ _ _⟩
    rw [Function.update_of_ne hnp, Function.update_self]

/-- A node leaves a ring of more than one. -/
theorem remove (hr : LinkRing next prev (x :: h :: t)) {p : α} (hp : prev x = some p) :
    LinkRing (Function.update next p (some h)) (Function.update prev h (some p)) (h :: t) := by
  obtain ⟨b, hb⟩ := exists_last h t
  have hb' : (x :: h :: t).getLast? = some b := by rw [List.getLast?_cons_cons, hb]
  have hbp : p = b := Option.some.inj (hp.symm.trans (hr.linked_last hb').2)
  subst hbp
  obtain ⟨-, hnd⟩ := List.nodup_cons.mp hr.nodup
  have hlast := not_mem_dropLast hnd hb
  refine ⟨hnd, chain_iff.mpr ⟨?_, ?_⟩⟩
  · apply isChain_congr (List.isChain_cons_cons.mp (chain_iff.mp hr.chain).1).2
    · intro y hy
      have hyp : y ≠ p := fun he => hlast (he ▸ hy)
      exact Function.update_of_ne hyp _ _
    · intro y hy
      have hyh : y ≠ h := fun he => (List.nodup_cons.mp hnd).1 (he ▸ hy)
      exact Function.update_of_ne hyh _ _
  · intro y hy
    obtain rfl : p = y := Option.some.inj (hb.symm.trans hy)
    exact ⟨Function.update_self _ _ _, Function.update_self _ _ _⟩

end LinkRing
