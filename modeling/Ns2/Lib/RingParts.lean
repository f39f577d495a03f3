import Ns2.Lib.OptionRing
import Ns2.Lib.RingWindow

/-! A ring with a tail and a head and no count: the cells in use from the tail up to the head, and
the free ones behind them, of which one must stay free. -/

namespace RingWindow

open OptionRing (prev prev_slot)

variable {α : Type*} {n t h : ℕ} {a : ℕ → α} {l free A B : List α} {x : α}

theorem Holds.set_cell (H : Holds n t a (A ++ x :: B)) (hn : A.length + 1 + B.length ≤ n) (y : α) :
    Holds n t (Function.update a ((t + A.length) % n) y) (A ++ y :: B) := by
  obtain ⟨HA, HB⟩ := append_iff.mp H
  have hput := put_between (l := [y]) HA HB.tail hn
  rwa [List.append_assoc] at hput

theorem Holds.cell (H : Holds n t a (A ++ x :: B)) : a ((t + A.length) % n) = x := by
  have hx := H A.length (by simp)
  rw [List.getElem?_append_right (Nat.le_refl _), Nat.sub_self, List.getElem?_cons_zero] at hx
  exact (Option.some.inj hx).symm

/-- A full window may begin anywhere. -/
theorem Holds.turn (H : Holds n t a (A ++ B)) (hn : A.length + B.length = n) :
    Holds n (t + A.length) a (B ++ A) := by
  obtain ⟨HA, HB⟩ := append_iff.mp H
  refine append_iff.mpr ⟨HB, HA.cast ?_⟩
  rw [Nat.add_assoc, hn, Nat.add_mod_right]

structure Parts (n t h : ℕ) (a : ℕ → α) (l free : List α) : Prop where
  holds : Holds n t a (l ++ free)
  tail_lt : t < n
  head : h = (t + l.length) % n
  length : l.length + free.length = n
  room : free ≠ []

namespace Parts

theorem length_lt (H : Parts n t h a l free) : l.length < n := by
  have hlen := H.length
  have hpos := List.length_pos_iff.mpr H.room
  omega

theorem empty_iff (H : Parts n t h a l free) : h = t ↔ l = [] := by
  constructor
  · intro he
    have hslot : (t + l.length) % n = (t + 0) % n := by
      rw [← H.head, he, Nat.add_zero, Nat.mod_eq_of_lt H.tail_lt]
    exact List.length_eq_zero_iff.mp (slot_inj H.length_lt (by have := H.length_lt; omega) hslot)
  · rintro rfl
    rw [H.head, List.length_nil, Nat.add_zero, Nat.mod_eq_of_lt H.tail_lt]

theorem first (H : Parts n t h a (x :: l) free) : a t = x := by
  have hx := Holds.cell (A := []) H.holds
  rwa [List.length_nil, Nat.add_zero, Nat.mod_eq_of_lt H.tail_lt] at hx

theorem prev_head (H : Parts n t h a (l ++ [x]) free) : prev n h = (t + l.length) % n := by
  have hlt := H.tail_lt
  rw [H.head, List.length_append, List.length_singleton]
  exact prev_slot (by omega)

theorem last (H : Parts n t h a (l ++ [x]) free) : a (prev n h) = x := by
  have hH := H.holds
  rw [List.append_assoc] at hH
  rw [H.prev_head]
  exact hH.cell

theorem prev_free (H : Parts n t h a [] (free ++ [x])) : prev n h = (t + free.length) % n := by
  have hlen := H.length
  have hlt := H.tail_lt
  simp only [List.length_nil, List.length_append, List.length_singleton] at hlen
  have hh : h = (t + (free.length + 1)) % n := by
    rw [H.head, List.length_nil, show t + (free.length + 1) = t + 0 + n by omega, Nat.add_mod_right]
  rw [hh]
  exact prev_slot (by omega)

theorem last_free (H : Parts n t h a [] (free ++ [x])) : a (prev n h) = x := by
  rw [H.prev_free]
  exact Holds.cell (A := free) H.holds

theorem next_of_full (H : Parts n t h a l [x]) : (h + 1) % n = t := by
  have hlen := H.length
  rw [List.length_singleton] at hlen
  rw [H.head, Nat.mod_add_mod, Nat.add_assoc, hlen, Nat.add_mod_right, Nat.mod_eq_of_lt H.tail_lt]

theorem next_free (H : Parts n t h a l (x :: free)) : a h = x := by
  rw [H.head]
  exact H.holds.cell

theorem set_first (H : Parts n t h a (x :: l) free) (y : α) :
    Parts n t h (Function.update a t y) (y :: l) free := by
  have hlen := H.length
  have hset := Holds.set_cell (A := []) (B := l ++ free) H.holds (by simp at hlen ⊢; omega) y
  rw [List.length_nil, Nat.add_zero, Nat.mod_eq_of_lt H.tail_lt] at hset
  exact ⟨hset, H.tail_lt, H.head, hlen, H.room⟩

theorem set_last (H : Parts n t h a (l ++ [x]) free) (y : α) :
    Parts n t h (Function.update a (prev n h) y) (l ++ [y]) free := by
  have hlen := H.length
  have hH := H.holds
  rw [List.append_assoc] at hH
  have hset := hH.set_cell (by simp at hlen ⊢; omega) y
  refine ⟨?_, H.tail_lt, ?_, ?_, H.room⟩
  · rw [H.prev_head, List.append_assoc]
    exact hset
  · rw [H.head, List.length_append, List.length_append]
    rfl
  · simpa using hlen

/-- Cells that are not in use may change, too. -/
theorem set_last_free (H : Parts n t h a [] (free ++ [x])) (y : α) :
    Parts n t h (Function.update a (prev n h) y) [] (free ++ [y]) := by
  have hlen := H.length
  have hset := Holds.set_cell (A := free) (B := []) H.holds (by simp at hlen ⊢; omega) y
  refine ⟨?_, H.tail_lt, H.head, by simpa using hlen, by simp⟩
  rw [H.prev_free]
  exact hset

theorem set_next_free (H : Parts n t h a [] (x :: free)) (y : α) :
    Parts n t h (Function.update a t y) [] (y :: free) := by
  have hlen := H.length
  have hset := Holds.set_cell (A := []) (B := free) H.holds (by simp at hlen ⊢; omega) y
  rw [List.length_nil, Nat.add_zero, Nat.mod_eq_of_lt H.tail_lt] at hset
  exact ⟨hset, H.tail_lt, H.head, by simpa using hlen, by simp⟩

theorem push (H : Parts n t h a l (x :: free)) (hroom : free ≠ []) (y : α) :
    Parts n t ((h + 1) % n) (Function.update a h y) (l ++ [y]) free := by
  have hlen := H.length
  have hset := H.holds.set_cell (by simp at hlen ⊢; omega) y
  refine ⟨?_, H.tail_lt, ?_, ?_, hroom⟩
  · rw [H.head, List.append_assoc]
    exact hset
  · rw [H.head, Nat.mod_add_mod, List.length_append, List.length_singleton, Nat.add_assoc]
  · simp at hlen ⊢
    omega

/-- The first cell becomes the last free one. -/
theorem pop (H : Parts n t h a (x :: l) free) (y : α) :
    Parts n ((t + 1) % n) h (Function.update a t y) l (free ++ [y]) := by
  have hlen := H.length
  have hset := H.set_first y
  have hturn := Holds.turn (A := [y]) (B := l ++ free) hset.holds (by simp at hlen ⊢; omega)
  rw [List.append_assoc] at hturn
  refine ⟨Holds.mod_iff.mpr hturn, Nat.mod_lt _ (by have := H.tail_lt; omega), ?_, ?_, by simp⟩
  · rw [H.head, Nat.mod_add_mod, List.length_cons, Nat.add_assoc, Nat.add_comm 1]
  · simp at hlen ⊢
    omega

/-- The ring starts anew at the head. -/
theorem single (H : Parts n t h a l (x :: free)) (hn : 1 < n) (y : α) :
    Parts n h ((h + 1) % n) (Function.update a h y) [y] (free ++ l) := by
  have hlen := H.length
  have hset := H.holds.set_cell (by simp at hlen ⊢; omega) y
  have hturn := hset.turn (by simp at hlen ⊢; omega)
  refine ⟨?_, ?_, rfl, ?_, ?_⟩
  · rw [H.head]
    exact Holds.mod_iff.mpr hturn
  · rw [H.head]
    exact Nat.mod_lt _ (by omega)
  · simp at hlen ⊢
    omega
  · intro he
    rw [List.append_eq_nil_iff] at he
    rw [he.1, he.2] at hlen
    simp at hlen
    omega

end Parts

end RingWindow
