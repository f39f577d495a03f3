import Ns2.Common.HeapScheduler

/-! The heap scheduler returns the events of the list scheduler as long as its insertion counter
orders the events of equal times. -/

namespace Ns2.Heap

open BinaryHeap (Around Ordered contents)

variable {τ : Type*}

section Sift

variable [LinearOrder τ] {a : ℕ → HeapElem τ} {n i : ℕ}

def key (x : HeapElem τ) : Lex (τ × ℕ) := toLex (x.he_key, x.he_s_key)

theorem keyLessThan_iff (x y : HeapElem τ) :
    keyLessThan x.he_key x.he_s_key y.he_key y.he_s_key = true ↔ key x < key y := by
  rw [key, key, Prod.Lex.toLex_lt_toLex, keyLessThan, decide_eq_true_iff]

omit [LinearOrder τ] in
theorem swap_eq (i j : ℕ) : swap a i j = BinaryHeap.swap a i j := rfl

theorem parent_eq (h0 : 0 < i) (hi : i < 2 ^ 32) : parent i = BinaryHeap.parent i := by
  rw [parent, BinaryHeap.parent]
  omega

theorem left_eq (h : i < 2 ^ 31) : left i = i * 2 + 1 := by
  rw [left]
  omega

theorem right_eq (h : i < 2 ^ 31 - 1) : right i = (i + 1) * 2 := by
  rw [right]
  omega

theorem child_spec (hi : i < n) (hn : n < 2 ^ 31) :
    (child n i a = i ∧ ∀ j, 0 < j → j < n → BinaryHeap.parent j ≠ i) ∨
    (0 < child n i a ∧ child n i a < n ∧ BinaryHeap.parent (child n i a) = i ∧
      ∀ j, 0 < j → j < n → BinaryHeap.parent j = i → key (a (child n i a)) ≤ key (a j)) := by
  have hl := left_eq (i := i) (by omega)
  have hr := right_eq (i := i) (by omega)
  unfold child
  dsimp only
  by_cases hrn : right i < n
  · right
    rw [if_pos hrn]
    by_cases hlt : key (a (left i)) < key (a (right i))
    · rw [if_pos ((keyLessThan_iff _ _).mpr hlt)]
      refine ⟨by omega, by omega, (BinaryHeap.parent_eq_iff (by omega)).mpr (.inl hl), ?_⟩
      intro j h0 hj hp
      rcases (BinaryHeap.parent_eq_iff h0).mp hp with he | he
      · rw [he, hl]
      · rw [he, ← hr]
        exact hlt.le
    · rw [if_neg fun hh => hlt ((keyLessThan_iff _ _).mp hh)]
      refine ⟨by omega, by omega, (BinaryHeap.parent_eq_iff (by omega)).mpr (.inr hr), ?_⟩
      intro j h0 hj hp
      rcases (BinaryHeap.parent_eq_iff h0).mp hp with he | he
      · rw [he, ← hl]
        exact not_lt.mp hlt
      · rw [he, hr]
  · rw [if_neg hrn]
    by_cases hln : left i < n
    · right
      rw [if_pos hln]
      refine ⟨by omega, by omega, (BinaryHeap.parent_eq_iff (by omega)).mpr (.inl hl), ?_⟩
      intro j h0 hj hp
      rcases (BinaryHeap.parent_eq_iff h0).mp hp with he | he
      · rw [he, hl]
      · omega
    · left
      rw [if_neg hln]
      refine ⟨rfl, fun j h0 hj hp => ?_⟩
      rcases (BinaryHeap.parent_eq_iff h0).mp hp with he | he <;> omega

/-- The loop of `heap_extract_min` restores the order below `i`. -/
theorem heapify_spec {fuel : ℕ} (h : Around key a n i) (hn : n < 2 ^ 31)
    (hup : 0 < i → key (a (BinaryHeap.parent i)) ≤ key (a i)) (hfuel : n - i < fuel) :
    ∃ b, heapify n fuel i a = some b ∧ Ordered key b n ∧ (contents b n).Perm (contents a n) := by
  induction fuel generalizing a i with
  | zero => omega
  | succ fuel ih =>
    rw [heapify]
    by_cases hi : i < n
    · rw [if_pos hi]
      dsimp only
      rcases child_spec (a := a) hi hn with ⟨hx, hno⟩ | ⟨hx0, hxn, hpx, hmin⟩
      · rw [if_neg fun hh => hh.1 hx]
        exact ⟨a, rfl, h.ordered (fun h0 _ => hup h0) fun j h0 hj hp => absurd hp (hno j h0 hj), .rfl⟩
      · have hix := hpx ▸ BinaryHeap.parent_lt hx0
        by_cases hlt : key (a (child n i a)) < key (a i)
        · rw [if_pos ⟨hix.ne', (keyLessThan_iff _ _).mpr hlt⟩, swap_eq]
          obtain ⟨h1, h2⟩ := h.down hxn hx0 hpx hlt hmin
          obtain ⟨b, hb, ho, hp⟩ := ih h1 (fun _ => h2) (by omega)
          exact ⟨b, hb, ho, hp.trans (BinaryHeap.contents_swap hi hxn)⟩
        · rw [if_neg fun hh => hlt ((keyLessThan_iff _ _).mp hh.2)]
          refine ⟨a, rfl, h.ordered (fun h0 _ => hup h0) fun j h0 hj hp => ?_, .rfl⟩
          exact (not_lt.mp hlt).trans (hmin j h0 hj hp)
    · rw [if_neg hi]
      refine ⟨a, rfl, h.ordered (fun h0 _ => hup h0) fun j h0 hj hp => ?_, .rfl⟩
      have := hp ▸ BinaryHeap.parent_lt h0
      omega

/-- The loop of `heap_insert`, when the new element is imagined at the index it has come to. -/
theorem insertLoop_spec {x : HeapElem τ} (hn : n ≤ 2 ^ 31) (hi : i < n)
    (h : Around key (Function.update a i x) n i)
    (hbelow : ∀ j, 0 < j → j < n → BinaryHeap.parent j = i → key x ≤ key (a j)) :
    let r := insertLoop x.he_key x.he_s_key i a
    Ordered key (Function.update r.2 r.1 x) n ∧
      (contents (Function.update r.2 r.1 x) n).Perm (contents (Function.update a i x) n) := by
  induction i using Nat.strong_induction_on generalizing a with
  | _ i ih =>
    have hself : Function.update a i x i = x := Function.update_self _ _ _
    have hdown : ∀ j, 0 < j → j < n → BinaryHeap.parent j = i →
        key (Function.update a i x i) ≤ key (Function.update a i x j) := by
      intro j h0 hj hp
      have hji := hp ▸ BinaryHeap.parent_lt h0
      rw [hself, Function.update_of_ne hji.ne']
      exact hbelow j h0 hj hp
    rw [insertLoop]
    by_cases hi0 : 0 < i
    · rw [dif_pos hi0]
      dsimp only
      have hp := parent_eq hi0 (by omega)
      have hpi := BinaryHeap.parent_lt hi0
      have hother : Function.update a i x (BinaryHeap.parent i) = a (BinaryHeap.parent i) :=
        Function.update_of_ne hpi.ne _ _
      rw [hp]
      by_cases hlt : key x < key (a (BinaryHeap.parent i))
      · rw [if_pos ((keyLessThan_iff _ _).mpr hlt)]
        have hs : Function.update (Function.update a i (a (BinaryHeap.parent i)))
            (BinaryHeap.parent i) x =
            BinaryHeap.swap (Function.update a i x) i (BinaryHeap.parent i) := by
          rw [BinaryHeap.swap, hother, hself, Function.update_idem]
        have hlt' : key (Function.update a i x i) <
            key (Function.update a i x (BinaryHeap.parent i)) := by
          rw [hself, hother]
          exact hlt
        obtain ⟨h1, h2⟩ := ih (BinaryHeap.parent i) hpi (hpi.trans hi)
          (by rw [hs]; exact h.up hi0 hi) (fun j h0 hj hpj => by
            have hb := h.below_up hi0 hlt' h0 hj hpj
            have hjp := hpj ▸ BinaryHeap.parent_lt h0
            rw [← hs, Function.update_self, Function.update_of_ne hjp.ne'] at hb
            exact hb)
        exact ⟨h1, h2.trans (hs ▸ BinaryHeap.contents_swap hi (hpi.trans hi))⟩
      · rw [if_neg fun hh => hlt ((keyLessThan_iff _ _).mp hh)]
        refine ⟨h.ordered (fun _ _ => ?_) hdown, .rfl⟩
        rw [hself, hother]
        exact not_lt.mp hlt
    · rw [dif_neg hi0]
      exact ⟨h.ordered (fun h0 => absurd h0 hi0) hdown, .rfl⟩

theorem toRoot_spec (h : Around key a n i) (hi : i < n) (hn : n ≤ 2 ^ 31) :
    Around key (toRoot i a) n 0 ∧ (contents (toRoot i a) n).Perm (contents a n) ∧
      toRoot i a 0 = a i := by
  induction i using Nat.strong_induction_on generalizing a with
  | _ i ih =>
    rw [toRoot]
    by_cases hi0 : 0 < i
    · rw [dif_pos hi0]
      dsimp only
      have hpi := BinaryHeap.parent_lt hi0
      rw [parent_eq hi0 (by omega), swap_eq]
      obtain ⟨h1, h2, h3⟩ := ih (BinaryHeap.parent i) hpi (h.up hi0 hi) (hpi.trans hi)
      exact ⟨h1, h2.trans (BinaryHeap.contents_swap hi (hpi.trans hi)), h3.trans BinaryHeap.swap_right⟩
    · obtain rfl : i = 0 := by omega
      rw [dif_neg hi0]
      exact ⟨h, .rfl, rfl⟩

end Sift

/-! ### What each operation does to the elements -/

section Operations

variable [LinearOrder τ] {h : Heap τ}

/-- The array never has to grow beyond what an `unsigned int` counts. -/
structure Sized (h : Heap τ) : Prop where
  size : h.h_size < 2 ^ 31
  room : h.h_size ≤ h.h_maxsize
  power : ∃ k, k ≤ 31 ∧ h.h_maxsize = 2 ^ k

structure Valid (h : Heap τ) : Prop extends Sized h where
  ordered : Ordered key h.h_elems h.h_size

def elements (h : Heap τ) : List (HeapElem τ) := contents h.h_elems h.h_size

/-- The array has not grown beyond what an `unsigned int` counts. -/
structure Bounded (h : Heap τ) : Prop where
  size : h.h_size ≤ 2 ^ 31
  room : h.h_size ≤ h.h_maxsize
  power : ∃ k, k ≤ 31 ∧ h.h_maxsize = 2 ^ k

structure Whole (h : Heap τ) : Prop extends Bounded h where
  ordered : Ordered key h.h_elems h.h_size

theorem Valid.whole (hv : Valid h) : Whole h :=
  ⟨⟨hv.size.le, hv.room, hv.power⟩, hv.ordered⟩

theorem Whole.valid (hv : Whole h) (hsize : h.h_size < 2 ^ 31) : Valid h :=
  ⟨⟨hsize, hv.room, hv.power⟩, hv.ordered⟩

theorem Whole.insert (hv : Whole h) (hsize : h.h_size < 2 ^ 31) (t : τ)
    (elem : Option (Event τ)) : ∃ h', heapInsert t elem h = some h' ∧ Whole h' ∧
      h'.elements.Perm (⟨t, h.h_s_key, elem⟩ :: h.elements) ∧
      h'.h_s_key = (h.h_s_key + 1) % 2 ^ 32 ∧ h'.h_size = h.h_size + 1 := by
  obtain ⟨k, hk, hmax⟩ := hv.power
  let x : HeapElem τ := ⟨t, h.h_s_key, elem⟩
  have hsmall : ∀ j < h.h_size, Function.update h.h_elems h.h_size x j = h.h_elems j := fun j hj =>
    Function.update_of_ne hj.ne _ _
  obtain ⟨h1, h2⟩ := @insertLoop_spec _ _ h.h_elems (h.h_size + 1) h.h_size x (by omega) (by omega)
    ⟨fun j h0 hj hne hp => by
      rw [hsmall j (by omega), hsmall _ (by have := BinaryHeap.parent_lt h0; omega)]
      exact hv.ordered j h0 (by omega),
    fun j h0 hj hp _ => by
      have := hp ▸ BinaryHeap.parent_lt h0
      omega⟩
    fun j h0 hj hp => by
      have := hp ▸ BinaryHeap.parent_lt h0
      omega
  have hcont : contents (Function.update h.h_elems h.h_size x) (h.h_size + 1) = h.elements ++ [x] := by
    rw [BinaryHeap.contents_succ, Function.update_self, BinaryHeap.contents_congr hsmall]
    rfl
  obtain ⟨maxsize, hm1, hm2, hm3, hm4⟩ : ∃ maxsize,
      (if h.h_maxsize = h.h_size then h.h_maxsize * 2 % 2 ^ 32 else h.h_maxsize) = maxsize ∧
      ¬ maxsize < h.h_maxsize ∧ h.h_size + 1 ≤ maxsize ∧ ∃ k, k ≤ 31 ∧ maxsize = 2 ^ k := by
    by_cases hfull : h.h_maxsize = h.h_size
    · have hk' : k < 31 := by
        rcases Nat.lt_or_ge k 31 with hlt | hge
        · exact hlt
        · obtain rfl : k = 31 := le_antisymm hk hge
          omega
      have hpow : (2 : ℕ) ^ (k + 1) ≤ 2 ^ 31 := Nat.pow_le_pow_right (by omega) (by omega)
      have hpos : 0 < (2 : ℕ) ^ k := Nat.two_pow_pos k
      rw [pow_succ] at hpow
      refine ⟨2 ^ (k + 1), ?_, ?_, ?_, k + 1, by omega, rfl⟩
      · rw [if_pos hfull, hmax, pow_succ]
        omega
      · rw [hmax, pow_succ]
        omega
      · rw [← hfull, hmax, pow_succ]
        omega
    · have hroom := hv.room
      exact ⟨_, if_neg hfull, lt_irrefl _, by omega, k, hk, hmax⟩
  rw [heapInsert]
  dsimp only
  rw [hm1, if_neg hm2]
  have hlt : h.h_size + 1 ≤ 2 ^ 31 := by omega
  exact ⟨_, rfl, ⟨⟨hlt, hm3, hm4⟩, h1⟩,
    h2.trans (hcont ▸ List.perm_append_singleton x h.elements), rfl, rfl⟩

/-- The root is taken out, whatever its order with the rest is. -/
theorem Bounded.extractMin (hv : Bounded h) (ha : Around key h.h_elems h.h_size 0) (hpos : 0 < h.h_size) :
    ∃ h', heapExtractMin h = some (h', (h.h_elems 0).he_elem) ∧ Whole h' ∧
      h.elements.Perm (h.h_elems 0 :: h'.elements) ∧ h'.h_s_key = h.h_s_key ∧ h'.h_size < h.h_size := by
  obtain ⟨n, hn⟩ : ∃ n, h.h_size = n + 1 := ⟨h.h_size - 1, by omega⟩
  have hsize := hv.size
  have haround : Around key (Function.update h.h_elems 0 (h.h_elems n)) n 0 := by
    constructor
    · intro j h0 hj hne hp
      rw [Function.update_of_ne hp, Function.update_of_ne hne]
      exact ha.away j h0 (by omega) hne hp
    · exact fun j h0 hj hp h0' => absurd h0' (lt_irrefl 0)
  obtain ⟨b, h1, h2, h3⟩ := @heapify_spec _ _ _ n 0 (n + 1) haround (by omega)
    (fun h0 => absurd h0 (lt_irrefl 0)) (by omega)
  have hne : h.h_size ≠ 0 := by omega
  rw [heapExtractMin, if_neg hne, hn]
  dsimp only
  rw [Nat.add_sub_cancel, h1]
  have hlt : n ≤ 2 ^ 31 := by omega
  have hroom : n ≤ h.h_maxsize := by
    have := hv.room
    omega
  refine ⟨_, rfl, ⟨⟨hlt, hroom, hv.power⟩, h2⟩, ?_, rfl, Nat.lt_succ_self n⟩
  rw [elements, hn]
  exact BinaryHeap.contents_root.trans (h3.symm.cons _)

theorem Whole.extractMin (hv : Whole h) (hpos : 0 < h.h_size) :
    ∃ h', heapExtractMin h = some (h', (h.h_elems 0).he_elem) ∧ Whole h' ∧
      h.elements.Perm (h.h_elems 0 :: h'.elements) ∧ h'.h_s_key = h.h_s_key ∧ h'.h_size < h.h_size :=
  hv.toBounded.extractMin (hv.ordered.around 0 hpos) hpos

omit [LinearOrder τ] in
theorem find_range_le {p : ℕ → Bool} {n i j : ℕ} (hf : (List.range n).find? p = some i) (hj : j < n)
    (hp : p j = true) : i ≤ j := by
  by_contra hlt
  obtain ⟨-, L, R, he, hL⟩ := List.find?_eq_some_iff_append.mp hf
  have hsorted : (L ++ i :: R).Pairwise (· < ·) := he ▸ List.pairwise_lt_range
  have hmem : j ∈ L ++ i :: R := he ▸ List.mem_range.mpr hj
  rcases List.mem_append.mp hmem with hm | hm
  · simpa [hp] using hL j hm
  · have hle := (List.pairwise_cons.mp (List.pairwise_append.mp hsorted).2.1).1
    rcases List.mem_cons.mp hm with rfl | hm
    · exact hlt le_rfl
    · exact hlt (hle j hm).le

/-- An element of the event leaves, if there is one. -/
theorem Whole.delete (hv : Whole h) (e : Event τ)
    (hlow : ∀ i < h.h_size, (h.h_elems i).he_elem = some e →
      ∃ j < 2 ^ 31 - 1, j ≤ i ∧ (h.h_elems j).he_elem = some e) :
    (heapDelete e h = some h ∧ ∀ x ∈ h.elements, x.he_elem ≠ some e) ∨
    ∃ h' x, heapDelete e h = some h' ∧ Whole h' ∧ x.he_elem = some e ∧
      h.elements.Perm (x :: h'.elements) ∧ h'.h_s_key = h.h_s_key ∧ h'.h_size < h.h_size := by
  have hsize := hv.size
  unfold heapDelete heapMember
  dsimp only
  cases hf : (List.range h.h_size).find? fun i => (h.h_elems i).he_elem = some e with
  | none =>
    left
    refine ⟨rfl, fun x hx he => ?_⟩
    obtain ⟨i, hi, rfl⟩ := BinaryHeap.mem_contents.mp hx
    have := List.find?_eq_none.mp hf i (List.mem_range.mpr hi)
    simp [he] at this
  | some i =>
    right
    have hi : i < h.h_size := List.mem_range.mp (List.mem_of_find?_eq_some hf)
    have he : (h.h_elems i).he_elem = some e := by simpa using List.find?_some hf
    obtain ⟨h1, h2, h3⟩ := toRoot_spec (hv.ordered.around i hi) hi hsize
    have hpos : 0 < h.h_size := by omega
    have hbig : ¬ i + 1 ≥ 2 ^ 31 := by
      obtain ⟨j, hj, hji, hje⟩ := hlow i hi he
      have := find_range_le hf (hji.trans_lt hi) (decide_eq_true hje)
      omega
    dsimp only
    rw [if_neg (Nat.succ_ne_zero i), if_neg hbig, Nat.add_sub_cancel]
    have hs : Bounded { h with h_elems := toRoot i h.h_elems } := ⟨hv.size, hv.room, hv.power⟩
    obtain ⟨h', g1, g2, g3, g4, g5⟩ := hs.extractMin h1 hpos
    refine ⟨h', h.h_elems i, by rw [g1]; rfl, g2, he, ?_, g4, g5⟩
    rw [← h3]
    exact h2.symm.trans g3

theorem Valid.insert (hv : Valid h) (hsize : h.h_size < 2 ^ 31 - 1) (t : τ) (elem : Option (Event τ)) :
    ∃ h', heapInsert t elem h = some h' ∧ Valid h' ∧
      h'.elements.Perm (⟨t, h.h_s_key, elem⟩ :: h.elements) ∧
      h'.h_s_key = (h.h_s_key + 1) % 2 ^ 32 ∧ h'.h_size = h.h_size + 1 := by
  obtain ⟨h', h1, h2, h3, h4, h5⟩ := hv.whole.insert hv.size t elem
  exact ⟨h', h1, h2.valid (by omega), h3, h4, h5⟩

theorem Valid.extractMin (hv : Valid h) (hpos : 0 < h.h_size) :
    ∃ h', heapExtractMin h = some (h', (h.h_elems 0).he_elem) ∧ Valid h' ∧
      h.elements.Perm (h.h_elems 0 :: h'.elements) ∧ h'.h_s_key = h.h_s_key ∧
      h'.h_size < h.h_size := by
  obtain ⟨h', h1, h2, h3, h4, h5⟩ := hv.whole.extractMin hpos
  exact ⟨h', h1, h2.valid (h5.trans hv.size), h3, h4, h5⟩

theorem Valid.delete (hv : Valid h) (e : Event τ) :
    (heapDelete e h = some h ∧ ∀ x ∈ h.elements, x.he_elem ≠ some e) ∨
    ∃ h' x, heapDelete e h = some h' ∧ Valid h' ∧ x.he_elem = some e ∧
      h.elements.Perm (x :: h'.elements) ∧ h'.h_s_key = h.h_s_key ∧ h'.h_size < h.h_size := by
  have hsize := hv.size
  rcases hv.whole.delete e fun i hi he => ⟨i, by omega, le_rfl, he⟩ with
    hno | ⟨h', x, h1, h2, h3, h4, h5, h6⟩
  · exact .inl hno
  · exact .inr ⟨h', x, h1, h2.valid (h6.trans hsize), h3, h4, h5, h6⟩

end Operations

end Ns2.Heap

namespace Ns2.HeapScheduler

open StableOrder Heap
open SplayScheduler (Before before_insertLast)

variable {τ : Type*} [LinearOrder τ]

/-! ### The heap and the list -/

def Carries (x : HeapElem τ) (e : Event τ) : Prop := x.he_elem = some e ∧ x.he_key = e.time_

structure Holds (q : Scheduler τ (ListScheduler τ)) (s : Scheduler τ (Heap τ)) : Prop where
  clock : s.clock_ = q.clock_
  uid : s.uid_ = q.uid_
  valid : Valid s.queue
  sorted : ∃ l : List (HeapElem τ), l.Perm s.queue.elements ∧ l.Pairwise (fun x y => key x < key y) ∧
    List.Forall₂ Carries l q.queue.queue_
  before : q.queue.queue_.Pairwise Before
  uid_lt : q.uid_ < 0 ∨ 0 < q.uid_ ∧ q.uid_ < 2 ^ 63 ∧ ∀ e ∈ q.queue.queue_, e.uid_ < q.uid_

/-- The array has room for one more, and the counter is above those of the pending elements of the
same time. -/
def Counted [Add τ] (s : Scheduler τ (Heap τ)) : Scheduler.Op τ → Prop
  | .schedule _ delay => s.queue.h_size < 2 ^ 31 - 1 ∧
      ∀ x ∈ s.queue.elements, x.he_key = s.clock_ + delay → x.he_s_key < s.queue.h_s_key
  | _ => True

theorem ordered_of_sorted {l : List (HeapElem τ)} (h : l.Pairwise fun x y => key x < key y) :
    Ordered HeapElem.he_key l := by
  apply h.imp
  intro x y hxy
  rcases Prod.Lex.toLex_lt_toLex.mp hxy with hlt | ⟨he, -⟩
  · exact hlt.le
  · exact he.le

theorem forall₂_insertLast {l : List (HeapElem τ)} {q : List (Event τ)} {x : HeapElem τ} {e : Event τ}
    (h : List.Forall₂ Carries l q) (hx : Carries x e) :
    List.Forall₂ Carries (insertLast HeapElem.he_key x l) (insertLast Event.time_ e q) := by
  induction h with
  | nil => exact .cons hx .nil
  | @cons y d l q hy h ih =>
    rw [insertLast, insertLast, hx.2, hy.2]
    by_cases hlt : e.time_ < d.time_
    · rw [if_pos hlt, if_pos hlt]
      exact .cons hx (.cons hy h)
    · rw [if_neg hlt, if_neg hlt]
      exact .cons hy ih

/-- The event of an element that is known to be in one place is in the same place of the queue. -/
theorem forall₂_erase {l : List (HeapElem τ)} {q : List (Event τ)} {x : HeapElem τ} {e : Event τ}
    (h : List.Forall₂ Carries l q) (hq : q.Nodup) (hx : x ∈ l) (he : x.he_elem = some e) :
    e ∈ q ∧ ∃ L R, l = L ++ x :: R ∧ List.Forall₂ Carries (L ++ R) (q.erase e) := by
  induction h with
  | nil => cases hx
  | @cons y d l q hy h ih =>
    obtain ⟨hd, hq⟩ := List.nodup_cons.mp hq
    by_cases hed : d = e
    · subst hed
      rcases List.mem_cons.mp hx with rfl | hx
      · refine ⟨by simp, [], l, rfl, ?_⟩
        rwa [List.erase_cons_head]
      · exact absurd (ih hq hx).1 hd
    · rcases List.mem_cons.mp hx with rfl | hx
      · exact absurd (Option.some.inj (hy.1.symm.trans he)) hed
      · obtain ⟨h1, L, R, rfl, h2⟩ := ih hq hx
        refine ⟨List.mem_cons_of_mem d h1, y :: L, R, rfl, ?_⟩
        rw [List.erase_cons_tail (by simpa using hed)]
        exact .cons hy h2

theorem exists_of_forall₂ {l : List (HeapElem τ)} {q : List (Event τ)} (h : List.Forall₂ Carries l q)
    {e : Event τ} (he : e ∈ q) : ∃ x ∈ l, x.he_elem = some e := by
  induction h with
  | nil => cases he
  | @cons y d l q hy h ih =>
    rcases List.mem_cons.mp he with rfl | he
    · exact ⟨y, by simp, hy.1⟩
    · obtain ⟨x, hx, hxe⟩ := ih he
      exact ⟨x, List.mem_cons_of_mem y hx, hxe⟩

theorem Holds.insert {q : Scheduler τ (ListScheduler τ)} {s : Scheduler τ (Heap τ)} (h : Holds q s)
    (hu : ¬ q.uid_ < 0) {time : τ} (hsize : s.queue.h_size < 2 ^ 31 - 1)
    (hcount : ∀ x ∈ s.queue.elements, x.he_key = time → x.he_s_key < s.queue.h_s_key) :
    ∃ hp, heapInsert time (some ⟨time, s.uid_⟩) s.queue = some hp ∧
      Holds { q with
        uid_ := Scheduler.nextUid q.uid_, queue := ListScheduler.insert ⟨time, q.uid_⟩ q.queue }
        { s with uid_ := Scheduler.nextUid s.uid_, queue := hp } := by
  obtain ⟨hpos, hmax, hlt⟩ := h.uid_lt.resolve_left hu
  obtain ⟨hp, h1, h2, h3, -, -⟩ := h.valid.insert hsize time (some ⟨time, s.uid_⟩)
  obtain ⟨l, hl, hord, hall⟩ := h.sorted
  refine ⟨hp, h1, h.clock, by simp [h.uid], h2, ?_, before_insertLast h.before hlt, ?_⟩
  · refine ⟨insertLast HeapElem.he_key ⟨time, s.queue.h_s_key, some ⟨time, s.uid_⟩⟩ l, ?_, ?_, ?_⟩
    · exact (insertLast_perm _ _ l).trans ((hl.cons _).trans h3.symm)
    · apply pairwise_insertLast _ hord (ordered_of_sorted hord)
      · intro x hx hle
        apply Prod.Lex.toLex_lt_toLex.mpr
        rcases hle.lt_or_eq with hlt' | he
        · exact .inl hlt'
        · exact .inr ⟨he, hcount x (hl.mem_iff.mp hx) he⟩
      · exact fun x _ hlt' => Prod.Lex.toLex_lt_toLex.mpr (.inl hlt')
    · exact forall₂_insertLast hall ⟨by rw [h.uid], rfl⟩
  · change Scheduler.nextUid q.uid_ < 0 ∨ 0 < Scheduler.nextUid q.uid_ ∧
      Scheduler.nextUid q.uid_ < 2 ^ 63 ∧
      ∀ e ∈ (ListScheduler.insert ⟨time, q.uid_⟩ q.queue).queue_, e.uid_ < Scheduler.nextUid q.uid_
    by_cases hlast : q.uid_ = 2 ^ 63 - 1
    · exact .inl (by rw [hlast, Scheduler.nextUid_last]; decide)
    · have hn := Scheduler.nextUid_of_lt hpos.le (by omega)
      refine .inr ⟨by omega, by omega, fun e he => ?_⟩
      rcases (mem_insertLast _).mp he with rfl | he
      · exact hn ▸ Int.lt_succ _
      · have := hlt e he
        omega

/-- An element and its event leave. -/
theorem Holds.remove {q : Scheduler τ (ListScheduler τ)} {s : Scheduler τ (Heap τ)} (h : Holds q s)
    {hp : Heap τ} (hv : Valid hp) {x : HeapElem τ} {e : Event τ} (hx : x.he_elem = some e)
    (hperm : s.queue.elements.Perm (x :: hp.elements)) :
    e ∈ q.queue.queue_ ∧
      Holds { q with queue := ⟨q.queue.queue_.erase e⟩ } { s with queue := hp } := by
  obtain ⟨l, hl, hord, hall⟩ := h.sorted
  have hmem : x ∈ l := hl.mem_iff.mpr (hperm.mem_iff.mpr (by simp))
  obtain ⟨he, L, R, rfl, hrest⟩ := forall₂_erase hall (SplayScheduler.nodup_of_before h.before) hmem hx
  have hsub : (q.queue.queue_.erase e).Sublist q.queue.queue_ := List.erase_sublist
  refine ⟨he, h.clock, h.uid, hv, ⟨L ++ R, ?_, hord.sublist (by simp), hrest⟩,
    h.before.sublist hsub, h.uid_lt.imp_right fun hh => ⟨hh.1, hh.2.1, fun d hd =>
      hh.2.2 d (hsub.subset hd)⟩⟩
  exact (List.perm_cons x).mp (List.perm_middle.symm.trans (hl.trans hperm))

theorem Holds.cancel {q : Scheduler τ (ListScheduler τ)} {s : Scheduler τ (Heap τ)} (h : Holds q s)
    {e : Event τ} {q' : ListScheduler τ} (hq : ListScheduler.cancel e q.queue = some q') :
    ∃ hp, HeapScheduler.cancel e s.queue = some hp ∧
      Holds { q with queue := q' } { s with queue := hp } := by
  rw [ListScheduler.cancel, ListScheduler.unlink_eq] at hq
  rw [HeapScheduler.cancel]
  by_cases hu : e.uid_ ≤ 0
  · rw [if_pos hu] at hq ⊢
    obtain rfl := Option.some.inj hq
    exact ⟨s.queue, rfl, h⟩
  · rw [if_neg hu] at hq ⊢
    by_cases he : e ∈ q.queue.queue_
    · rw [if_pos he] at hq
      obtain rfl := Option.some.inj hq
      rcases h.valid.delete e with ⟨-, hno⟩ | ⟨hp, x, h1, h2, h3, h4, -, -⟩
      · obtain ⟨l, hl, -, hall⟩ := h.sorted
        obtain ⟨x, hx, hxe⟩ := exists_of_forall₂ hall he
        exact absurd hxe (hno x (hl.mem_iff.mp hx))
      · exact ⟨hp, h1, (h.remove h2 h3 h4).2⟩
    · rw [if_neg he] at hq
      cases hq

/-- The root is the element of the list's first event. -/
theorem Holds.head {q : Scheduler τ (ListScheduler τ)} {s : Scheduler τ (Heap τ)} (h : Holds q s)
    (hpos : 0 < s.queue.h_size) :
    (s.queue.h_elems 0).he_elem = q.queue.queue_.head? ∧ q.queue.queue_ ≠ [] := by
  obtain ⟨l, hl, hord, hall⟩ := h.sorted
  have hroot : s.queue.h_elems 0 ∈ l := hl.mem_iff.mpr (BinaryHeap.mem_contents.mpr ⟨0, hpos, rfl⟩)
  generalize q.queue.queue_ = Q at hall ⊢
  cases hall with
  | nil => cases hroot
  | @cons x e l q' hx hall =>
    obtain ⟨j, hj, hxj⟩ := BinaryHeap.mem_contents.mp (hl.mem_iff.mp (by simp : x ∈ x :: l))
    have hle : key (s.queue.h_elems 0) ≤ key x := hxj ▸ h.valid.ordered.le_root hj
    rcases List.mem_cons.mp hroot with he | hmem
    · exact ⟨he ▸ hx.1, by simp⟩
    · exact absurd ((List.pairwise_cons.mp hord).1 _ hmem) (not_lt.mpr hle)

theorem Holds.deque {q : Scheduler τ (ListScheduler τ)} {s : Scheduler τ (Heap τ)} (h : Holds q s) :
    ∃ hp, heapExtractMin s.queue = some (hp, (ListScheduler.deque q.queue).2) ∧
      Holds { q with queue := (ListScheduler.deque q.queue).1 } { s with queue := hp } := by
  rcases Nat.eq_zero_or_pos s.queue.h_size with h0 | hpos
  · have hnil : q.queue.queue_ = [] := by
      obtain ⟨l, hl, -, hall⟩ := h.sorted
      rw [elements, h0] at hl
      obtain rfl := hl.eq_nil
      exact List.forall₂_nil_left_iff.mp hall
    refine ⟨s.queue, ?_, ?_⟩
    · rw [heapExtractMin, if_pos h0, ListScheduler.deque_event, hnil]
      rfl
    · rw [show (ListScheduler.deque q.queue).1 = q.queue by rw [ListScheduler.deque, hnil]]
      exact h
  · obtain ⟨hp, h1, h2, h3, -, -⟩ := h.valid.extractMin hpos
    obtain ⟨h4, h5⟩ := h.head hpos
    obtain ⟨e, q', hq⟩ := List.exists_cons_of_ne_nil h5
    rw [hq] at h4
    have hd : ListScheduler.deque q.queue = (⟨q'⟩, some e) := by rw [ListScheduler.deque, hq]
    have hrest := (h.remove h2 h4 h3).2
    rw [hq, List.erase_cons_head] at hrest
    refine ⟨hp, by rw [h1, h4, hd]; rfl, ?_⟩
    rwa [hd]

variable [Add τ]

theorem Holds.step {q q' : Scheduler τ (ListScheduler τ)} {s : Scheduler τ (Heap τ)} (h : Holds q s)
    {op : Scheduler.Op τ} {o : Option (Event τ)} (hok : Counted s op)
    (hq : Scheduler.step ListScheduler.queue q op = some (q', o)) :
    ∃ s', Scheduler.step queue s op = some (s', o) ∧ Holds q' s' := by
  cases op with
  | schedule e delay =>
    simp only [Scheduler.step, Scheduler.schedule, h.uid, h.clock] at hq ⊢
    by_cases he : e.uid_ > 0
    · simp [he] at hq
    · by_cases hu : q.uid_ < 0
      · simp [he, hu] at hq
      · rw [if_neg he, if_neg hu] at hq ⊢
        have hcount : ∀ x ∈ s.queue.elements, x.he_key = q.clock_ + delay →
            x.he_s_key < s.queue.h_s_key := h.clock ▸ hok.2
        obtain ⟨hp, h1, h2⟩ := h.insert hu hok.1 hcount
        obtain ⟨rfl, rfl⟩ := Prod.mk.inj (Option.some.inj hq)
        rw [h.uid] at h1
        refine ⟨_, ?_, h2⟩
        show ((Heap.heapInsert _ _ _).map _).map _ = _
        rw [h1, h.uid, ← h.clock]
        rfl
  | cancel e =>
    obtain ⟨r, hr, he⟩ := Option.map_eq_some_iff.mp hq
    obtain ⟨rfl, rfl⟩ := Prod.mk.inj he
    obtain ⟨hp, h1, h2⟩ := h.cancel hr
    refine ⟨_, ?_, h2⟩
    show (HeapScheduler.cancel _ _).map _ = _
    rw [h1]
    rfl
  | deque =>
    obtain ⟨rfl, rfl⟩ := Prod.mk.inj (Option.some.inj hq)
    obtain ⟨hp, h1, h2⟩ := h.deque
    refine ⟨_, ?_, h2⟩
    show (heapExtractMin _).map _ = _
    rw [h1]
    rfl
  | dispatch p =>
    simp only [Scheduler.step, Scheduler.dispatch, h.clock] at hq ⊢
    by_cases hp : p.time_ < q.clock_
    · simp [hp] at hq
    · rw [if_neg hp] at hq ⊢
      obtain ⟨rfl, rfl⟩ := Prod.mk.inj (Option.some.inj hq)
      exact ⟨_, rfl, { h with clock := rfl }⟩

variable [Zero τ]

omit [Add τ] in
theorem holds_start (clock : τ) :
    Holds (Scheduler.start clock ⟨[]⟩) (Scheduler.start clock (Heap.new : Heap τ)) where
  clock := rfl
  uid := rfl
  valid :=
    { size := show 0 < 2 ^ 31 by decide
      room := show 0 ≤ 32 by decide
      power := ⟨5, by decide, rfl⟩
      ordered := fun j h0 hj => absurd hj (Nat.not_lt_zero j) }
  sorted := ⟨[], .nil, .nil, .nil⟩
  before := .nil
  uid_lt := .inr (by simp [Scheduler.start])

/-- What the list scheduler returns, the heap scheduler returns, as long as no counter has wrapped.
The next event is then one of the earliest, and of these the one that was scheduled first. -/
theorem heap_returns_list (clock : τ) {ops : List (Scheduler.Op τ)}
    {q : Scheduler τ (ListScheduler τ)} {os : List (Option (Event τ))}
    (hok : Machine.Admits (Scheduler.step queue) Counted (Scheduler.start clock Heap.new) ops)
    (hlist : Machine.run (Scheduler.step ListScheduler.queue) (Scheduler.start clock ⟨[]⟩) ops =
      some (q, os)) :
    ∃ s, Machine.run (Scheduler.step queue) (Scheduler.start clock Heap.new) ops = some (s, os) ∧
      ∀ e, (heapExtractMin s.queue).map Prod.snd = some (some e) →
        ∀ x ∈ s.queue.elements, ∀ d, x.he_elem = some d → d = e ∨ Before e d := by
  have hstep : ∀ (q : Scheduler τ (ListScheduler τ)) (s : Scheduler τ (Heap τ)) op q' o, Holds q s →
      Counted s op → Scheduler.step ListScheduler.queue q op = some (q', o) →
      ∃ s', Scheduler.step queue s op = some (s', o) ∧ Holds q' s' :=
    fun q s op q' o h hc hs => h.step hc hs
  obtain ⟨s, h1, h2⟩ := Machine.run_refines hstep (holds_start clock) hok hlist
  refine ⟨s, h1, fun e he x hx d hd => ?_⟩
  obtain ⟨hp, h3, -⟩ := h2.deque
  rw [h3, Option.map_some, ListScheduler.deque_event] at he
  obtain ⟨R, hR⟩ := List.head?_eq_some_iff.mp (Option.some.inj he)
  obtain ⟨l, hl, -, hall⟩ := h2.sorted
  have hmem := (forall₂_erase hall (SplayScheduler.nodup_of_before h2.before) (hl.mem_iff.mpr hx) hd).1
  have hbefore := h2.before
  rw [hR] at hmem hbefore
  rcases List.mem_cons.mp hmem with rfl | hmem
  · exact .inl rfl
  · exact .inr ((List.pairwise_cons.mp hbefore).1 d hmem)

/-! ### The counter -/

/-- After `n` operations no element has a counter of `n` or more. -/
structure Young (s : Scheduler τ (Heap τ)) (n : ℕ) : Prop where
  valid : Valid s.queue
  size : s.queue.h_size ≤ n
  count : s.queue.h_s_key ≤ n
  below : ∀ x ∈ s.queue.elements, x.he_s_key < s.queue.h_s_key

omit [Zero τ] in
theorem Young.step {s s' : Scheduler τ (Heap τ)} {n : ℕ} (h : Young s n) (hn : n < 2 ^ 31 - 1)
    {op : Scheduler.Op τ} {o : Option (Event τ)} (hs : Scheduler.step queue s op = some (s', o)) :
    Young s' (n + 1) := by
  have hkeep : ∀ hp : Heap τ, Valid hp → hp.h_size ≤ s.queue.h_size → hp.h_s_key = s.queue.h_s_key →
      (∀ x ∈ hp.elements, x ∈ s.queue.elements) → Young { s with queue := hp } (n + 1) :=
    fun hp hv hle hk hsub => ⟨hv, hle.trans (h.size.trans (Nat.le_succ n)),
      hk ▸ h.count.trans (Nat.le_succ n), fun x hx => hk ▸ h.below x (hsub x hx)⟩
  cases op with
  | schedule e delay =>
    simp only [Scheduler.step, Scheduler.schedule] at hs
    by_cases he : e.uid_ > 0
    · simp [he] at hs
    · by_cases hu : s.uid_ < 0
      · simp [he, hu] at hs
      · rw [if_neg he, if_neg hu] at hs
        have hsize := h.size
        have hcount := h.count
        obtain ⟨hp, h1, h2, h3, h4, h5⟩ :=
          h.valid.insert (by omega) (s.clock_ + delay) (some ⟨s.clock_ + delay, s.uid_⟩)
        have hins : queue.insert ⟨s.clock_ + delay, s.uid_⟩ s.queue = some hp := h1
        rw [hins] at hs
        obtain ⟨rfl, -⟩ := Prod.mk.inj (Option.some.inj hs)
        have hkey : hp.h_s_key = s.queue.h_s_key + 1 := by
          rw [h4]
          omega
        refine ⟨h2, by show hp.h_size ≤ _; omega, by show hp.h_s_key ≤ _; omega, fun x hx => ?_⟩
        show x.he_s_key < hp.h_s_key
        rcases List.mem_cons.mp (h3.mem_iff.mp hx) with rfl | hx
        · exact hkey ▸ Nat.lt_succ_self _
        · exact hkey ▸ (h.below x hx).trans (Nat.lt_succ_self _)
  | cancel e =>
    obtain ⟨hp, hr, he⟩ := Option.map_eq_some_iff.mp hs
    obtain ⟨rfl, -⟩ := Prod.mk.inj he
    have hc : HeapScheduler.cancel e s.queue = some hp := hr
    rw [HeapScheduler.cancel] at hc
    by_cases hu : e.uid_ ≤ 0
    · rw [if_pos hu] at hc
      obtain rfl := Option.some.inj hc
      exact hkeep _ h.valid le_rfl rfl fun _ hx => hx
    · rw [if_neg hu] at hc
      rcases h.valid.delete e with ⟨h1, -⟩ | ⟨hp', x, h1, h2, -, h3, h4, h5⟩
      · obtain rfl := Option.some.inj (hc.symm.trans h1)
        exact hkeep _ h.valid le_rfl rfl fun _ hx => hx
      · obtain rfl := Option.some.inj (hc.symm.trans h1)
        exact hkeep _ h2 h5.le h4 fun y hy => h3.mem_iff.mpr (List.mem_cons_of_mem x hy)
  | deque =>
    obtain ⟨r, hr, he⟩ := Option.map_eq_some_iff.mp hs
    obtain ⟨rfl, -⟩ := Prod.mk.inj he
    have hd : heapExtractMin s.queue = some r := hr
    rcases Nat.eq_zero_or_pos s.queue.h_size with h0 | hpos
    · rw [heapExtractMin, if_pos h0] at hd
      obtain rfl := Option.some.inj hd
      exact hkeep _ h.valid le_rfl rfl fun _ hx => hx
    · obtain ⟨hp, h1, h2, h3, h4, h5⟩ := h.valid.extractMin hpos
      obtain rfl := Option.some.inj (hd.symm.trans h1)
      exact hkeep _ h2 h5.le h4 fun y hy => h3.mem_iff.mpr (List.mem_cons_of_mem _ hy)
  | dispatch p =>
    simp only [Scheduler.step, Scheduler.dispatch] at hs
    by_cases hp : p.time_ < s.clock_
    · simp [hp] at hs
    · rw [if_neg hp] at hs
      obtain ⟨rfl, -⟩ := Prod.mk.inj (Option.some.inj hs)
      exact ⟨h.valid, h.size.trans (Nat.le_succ n), h.count.trans (Nat.le_succ n), h.below⟩

omit [Zero τ] in
theorem Young.admits {s : Scheduler τ (Heap τ)} {n : ℕ} (h : Young s n) {ops : List (Scheduler.Op τ)}
    (hops : n + ops.length < 2 ^ 31) : Machine.Admits (Scheduler.step queue) Counted s ops := by
  induction ops generalizing s n with
  | nil => trivial
  | cons op ops ih =>
    rw [List.length_cons] at hops
    have hsize := h.size
    refine ⟨?_, fun s' o hs => ih (h.step (by omega) hs) (by omega)⟩
    cases op with
    | schedule e delay => exact ⟨by omega, fun x hx _ => h.below x hx⟩
    | cancel e => trivial
    | deque => trivial
    | dispatch p => trivial

/-- No counter wraps in a run of fewer than 2 ^ 31 operations. -/
theorem admits_short (clock : τ) {ops : List (Scheduler.Op τ)} (hops : ops.length < 2 ^ 31) :
    Machine.Admits (Scheduler.step queue) Counted (Scheduler.start clock (Heap.new : Heap τ)) ops := by
  apply Young.admits (n := 0) ⟨(holds_start clock).valid, le_rfl, le_rfl, fun x hx => ?_⟩ (by omega)
  cases hx

theorem heap_returns_list_ties : ∃ s,
    Machine.run (Scheduler.step queue) (Scheduler.start 0 (Heap.new : Heap ℕ))
      [.schedule ⟨0, 0⟩ 1, .schedule ⟨0, 0⟩ 1, .schedule ⟨0, 0⟩ 0, .deque, .deque] =
      some (s, [none, none, none, some ⟨0, 3⟩, some ⟨1, 1⟩]) ∧
    ∀ e, (heapExtractMin s.queue).map Prod.snd = some (some e) →
      ∀ x ∈ s.queue.elements, ∀ d, x.he_elem = some d → d = e ∨ Before e d :=
  heap_returns_list 0 (admits_short 0 (by decide)) rfl

/-! ### The counter wraps -/

/-- An empty heap, `n` events after the start. -/
structure Spun (s : Scheduler ℕ (Heap ℕ)) (n : ℕ) : Prop where
  clock : s.clock_ = 0
  uid : s.uid_ = n + 1
  size : s.queue.h_size = 0
  count : s.queue.h_s_key = n % 2 ^ 32
  room : s.queue.h_maxsize = 32

/-- Events that leave at once. -/
def spin (n : ℕ) : List (Scheduler.Op ℕ) := (List.replicate n [.schedule ⟨0, 0⟩ 0, .deque]).flatten

def spun (n : ℕ) : List (Option (Event ℕ)) :=
  ((List.range n).map fun (k : ℕ) => [none, some ⟨0, (k : ℤ) + 1⟩]).flatten

theorem insert_empty {h : Heap ℕ} (hsize : h.h_size = 0) (hroom : h.h_maxsize = 32) (t : ℕ)
    (elem : Option (Event ℕ)) : heapInsert t elem h = some
      { h_elems := Function.update h.h_elems 0 ⟨t, h.h_s_key, elem⟩
        h_s_key := (h.h_s_key + 1) % 2 ^ 32
        h_size := 1
        h_maxsize := 32 } := by
  rw [heapInsert, hsize, hroom, insertLoop]
  rfl

theorem extract_single {h : Heap ℕ} (hsize : h.h_size = 1) : heapExtractMin h = some
    ({ h with h_elems := Function.update h.h_elems 0 (h.h_elems 0), h_size := 0 },
      (h.h_elems 0).he_elem) := by
  rw [heapExtractMin, hsize]
  rfl

theorem step_schedule {σ : Type*} (q : EventQueue ℕ σ) {s : Scheduler ℕ σ} (d : ℕ) {queue' : σ}
    (hu : ¬ s.uid_ < 0) (hins : q.insert ⟨s.clock_ + d, s.uid_⟩ s.queue = some queue') :
    Scheduler.step q s (.schedule ⟨0, 0⟩ d) =
      some (⟨s.clock_, Scheduler.nextUid s.uid_, queue'⟩, none) := by
  simp [Scheduler.step, Scheduler.schedule, hu, hins]

theorem step_deque {σ : Type*} (q : EventQueue ℕ σ) {s : Scheduler ℕ σ} {r : σ × Option (Event ℕ)}
    (h : q.deque s.queue = some r) :
    Scheduler.step q s .deque = some (⟨s.clock_, s.uid_, r.1⟩, r.2) := by
  simp [Scheduler.step, h]

theorem Spun.step {s : Scheduler ℕ (Heap ℕ)} {n : ℕ} (h : Spun s n) (hn : n < 2 ^ 62) :
    ∃ s', Machine.run (Scheduler.step queue) s [.schedule ⟨0, 0⟩ 0, .deque] =
      some (s', [none, some ⟨0, (n : ℤ) + 1⟩]) ∧ Spun s' (n + 1) := by
  obtain ⟨clock, uid, hp⟩ := s
  obtain ⟨rfl, rfl, hsize, hcount, hroom⟩ := h
  have hnext := @Scheduler.nextUid_of_lt (n + 1) (by omega) (by omega)
  have hins := insert_empty hsize hroom 0 (some ⟨0, (n : ℤ) + 1⟩)
  rw [Machine.run_cons_some (step_schedule queue 0 (by show ¬ (n : ℤ) + 1 < 0; omega) hins),
    Machine.run_cons_some (step_deque queue (extract_single rfl))]
  dsimp only
  rw [Function.update_self]
  refine ⟨_, rfl, rfl, ?_, rfl, ?_, rfl⟩
  · dsimp only
    rw [hnext]
    push_cast
    rfl
  · show (hp.h_s_key + 1) % 2 ^ 32 = _
    rw [show hp.h_s_key = n % 2 ^ 32 from hcount]
    omega

theorem spin_succ (n : ℕ) : spin (n + 1) = spin n ++ [.schedule ⟨0, 0⟩ 0, .deque] := by
  simp [spin, List.replicate_succ']

theorem spun_succ (n : ℕ) : spun (n + 1) = spun n ++ [none, some ⟨0, (n : ℤ) + 1⟩] := by
  simp [spun, List.range_succ]

theorem heap_spin {n : ℕ} (hn : n ≤ 2 ^ 62) : ∃ s, Machine.run (Scheduler.step queue)
    (Scheduler.start 0 Heap.new) (spin n) = some (s, spun n) ∧ Spun s n := by
  induction n with
  | zero => exact ⟨_, rfl, rfl, rfl, rfl, rfl, rfl⟩
  | succ n ih =>
    obtain ⟨s, h1, h2⟩ := ih (by omega)
    obtain ⟨s', h3, h4⟩ := h2.step (by omega)
    refine ⟨s', ?_, h4⟩
    rw [spin_succ, spun_succ, Machine.run_append, h1, Option.bind_some, h3]
    rfl

theorem list_spin {n : ℕ} (hn : n ≤ 2 ^ 62) : Machine.run (Scheduler.step ListScheduler.queue)
    (Scheduler.start 0 ⟨[]⟩) (spin n) = some (⟨0, n + 1, ⟨[]⟩⟩, spun n) := by
  induction n with
  | zero => rfl
  | succ n ih =>
    have hnext := @Scheduler.nextUid_of_lt (n + 1) (by omega) (by omega)
    have hins : ListScheduler.queue.insert ⟨0, (n : ℤ) + 1⟩ ⟨[]⟩ = some ⟨[⟨0, (n : ℤ) + 1⟩]⟩ := rfl
    rw [spin_succ, spun_succ, Machine.run_append, ih (by omega), Option.bind_some,
      Machine.run_cons_some (step_schedule _ 0 (by show ¬ (n : ℤ) + 1 < 0; omega) hins),
      Machine.run_cons_some (step_deque _ rfl), hnext]
    push_cast
    rfl

theorem extract_event {h h' : Heap ℕ} {o : Option (Event ℕ)} (hsize : h.h_size ≠ 0)
    (hs : heapExtractMin h = some (h', o)) : o = (h.h_elems 0).he_elem := by
  rw [heapExtractMin, if_neg hsize] at hs
  obtain ⟨a, -, ha⟩ := Option.map_eq_some_iff.mp hs
  exact (Prod.mk.inj ha).2.symm

/-- The new element has the same key as the root and the smaller counter. -/
theorem insert_overtakes {h : Heap ℕ} (hsize : h.h_size = 1) (hroom : h.h_maxsize = 32)
    (hcount : h.h_s_key = 0) {x : HeapElem ℕ} (hx : h.h_elems 0 = x) (hlt : 0 < x.he_s_key)
    (elem : Option (Event ℕ)) : ∃ hp, heapInsert x.he_key elem h = some hp ∧ hp.h_size ≠ 0 ∧
      (hp.h_elems 0).he_elem = elem := by
  have hless : keyLessThan x.he_key 0 x.he_key x.he_s_key = true := by simp [keyLessThan, hlt]
  have hloop : insertLoop x.he_key 0 1 h.h_elems = (0, Function.update h.h_elems 1 x) := by
    rw [insertLoop, dif_pos Nat.one_pos]
    dsimp only
    rw [show parent 1 = 0 from rfl, hx, if_pos hless, insertLoop, dif_neg (lt_irrefl 0)]
  rw [heapInsert, hsize, hroom, hcount, hloop]
  refine ⟨_, rfl, Nat.succ_ne_zero 1, ?_⟩
  dsimp only
  rw [Function.update_self]

/-- After 2 ^ 32 - 1 events that come and go, the second of two events of equal times gets the
counter 0, and overtakes the first. -/
theorem heap_overtakes : ¬ ∀ (ops : List (Scheduler.Op ℕ)) q os,
    Machine.run (Scheduler.step ListScheduler.queue) (Scheduler.start 0 ⟨[]⟩) ops = some (q, os) →
    ∃ s, Machine.run (Scheduler.step queue) (Scheduler.start 0 Heap.new) ops = some (s, os) := by
  intro hall
  obtain ⟨n, hn⟩ : ∃ n : ℕ, n = 2 ^ 32 - 1 := ⟨_, rfl⟩
  have hnext := @Scheduler.nextUid_of_lt (n + 1) (by omega) (by omega)
  have hnext' := @Scheduler.nextUid_of_lt (n + 1 + 1) (by omega) (by omega)
  have hfirst : ¬ (n : ℤ) + 1 < 0 := by omega
  have hsecond : ¬ (n : ℤ) + 1 + 1 < 0 := by omega
  obtain ⟨⟨clock, uid, hp⟩, h1, rfl, rfl, hsize, hcount, hroom⟩ := heap_spin (n := n) (by omega)
  have hcount : hp.h_s_key = n := by
    rw [show hp.h_s_key = n % 2 ^ 32 from hcount]
    omega
  -- the list returns the first event
  obtain ⟨s, hs⟩ := hall (spin n ++ [.schedule ⟨0, 0⟩ 1, .schedule ⟨0, 0⟩ 1, .deque])
    ⟨0, n + 1 + 1 + 1, ⟨[⟨1, (n : ℤ) + 1 + 1⟩]⟩⟩ (spun n ++ [none, none, some ⟨1, (n : ℤ) + 1⟩]) (by
      have hins : ListScheduler.queue.insert ⟨1, (n : ℤ) + 1⟩ ⟨[]⟩ = some ⟨[⟨1, (n : ℤ) + 1⟩]⟩ := rfl
      have hins' : ListScheduler.queue.insert ⟨1, (n : ℤ) + 1 + 1⟩ ⟨[⟨1, (n : ℤ) + 1⟩]⟩ =
          some ⟨[⟨1, (n : ℤ) + 1⟩, ⟨1, (n : ℤ) + 1 + 1⟩]⟩ := rfl
      rw [Machine.run_append, list_spin (by omega), Option.bind_some,
        Machine.run_cons_some (step_schedule _ 1 hfirst hins), hnext,
        Machine.run_cons_some (step_schedule _ 1 hsecond hins'), hnext',
        Machine.run_cons_some (step_deque _ rfl)]
      rfl)
  -- the heap returns the second one
  obtain ⟨mid, hmid⟩ : ∃ mid : Heap ℕ, mid =
    { h_elems := Function.update hp.h_elems 0 ⟨1, hp.h_s_key, some ⟨1, (n : ℤ) + 1⟩⟩
      h_s_key := (hp.h_s_key + 1) % 2 ^ 32
      h_size := 1
      h_maxsize := 32 } := ⟨_, rfl⟩
  have hins : heapInsert 1 (some ⟨1, (n : ℤ) + 1⟩) hp = some mid :=
    hmid ▸ insert_empty hsize hroom 1 (some ⟨1, (n : ℤ) + 1⟩)
  have hroot : mid.h_elems 0 = ⟨1, hp.h_s_key, some ⟨1, (n : ℤ) + 1⟩⟩ := by
    rw [hmid]
    dsimp only
    rw [Function.update_self]
  have hwrap : mid.h_s_key = 0 := by
    rw [hmid]
    show (hp.h_s_key + 1) % 2 ^ 32 = 0
    omega
  obtain ⟨hp', hins', hne, helem⟩ := insert_overtakes (by rw [hmid]) (by rw [hmid]) hwrap hroot
    (show 0 < hp.h_s_key by omega) (some ⟨1, (n : ℤ) + 1 + 1⟩)
  have hstep : Scheduler.step queue ⟨0, n + 1, hp⟩ (.schedule ⟨0, 0⟩ 1) =
      some (⟨0, n + 1 + 1, mid⟩, none) := hnext ▸ step_schedule queue 1 hfirst hins
  have hstep' : Scheduler.step queue ⟨0, n + 1 + 1, mid⟩ (.schedule ⟨0, 0⟩ 1) =
      some (⟨0, n + 1 + 1 + 1, hp'⟩, none) := hnext' ▸ step_schedule queue 1 hsecond hins'
  rw [Machine.run_append, h1, Option.bind_some, Machine.run_cons_some hstep,
    Machine.run_cons_some hstep'] at hs
  cases hd : heapExtractMin hp' with
  | none =>
    have hstop : ∀ uid, Scheduler.step queue ⟨0, uid, hp'⟩ .deque = none := fun uid => by
      show (heapExtractMin hp').map _ = none
      rw [hd]
      rfl
    rw [Machine.run_cons_none (hstop _)] at hs
    cases hs
  | some r =>
    obtain ⟨hp'', o⟩ := r
    have ho := extract_event hne hd
    rw [Machine.run_cons_some (step_deque queue (s := ⟨0, n + 1 + 1 + 1, hp'⟩) hd), ho, helem] at hs
    have hos := (Prod.mk.inj (Option.some.inj hs)).2
    simp at hos

end Ns2.HeapScheduler
