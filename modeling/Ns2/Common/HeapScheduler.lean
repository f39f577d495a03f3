import Ns2.Common.SplayScheduler
import Ns2.Lib.BinaryHeap

/-! The heap scheduler. Indices and the insertion counter are `unsigned int`s, and a pointer to an
event is the event. -/

namespace Ns2

structure HeapElem (τ : Type*) where
  he_key : τ
  he_s_key : ℕ
  he_elem : Option (Event τ)

structure Heap (τ : Type*) where
  h_elems : ℕ → HeapElem τ
  h_s_key : ℕ
  h_size : ℕ
  h_maxsize : ℕ

namespace Heap

variable {τ : Type*}

def parent (i : ℕ) : ℕ := (i + (2 ^ 32 - 1)) % 2 ^ 32 / 2

def left (i : ℕ) : ℕ := (i * 2 + 1) % 2 ^ 32

def right (i : ℕ) : ℕ := (i + 1) * 2 % 2 ^ 32

def swap (elems : ℕ → HeapElem τ) (i j : ℕ) : ℕ → HeapElem τ :=
  Function.update (Function.update elems i (elems j)) j (elems i)

/-- The array of `HEAP_DEFAULT_SIZE` elements is all zero. -/
def new [Zero τ] : Heap τ where
  h_elems _ := ⟨0, 0, none⟩
  h_s_key := 0
  h_size := 0
  h_maxsize := 32

theorem parent_lt {i : ℕ} (h : 0 < i) : parent i < i := by
  rw [parent]
  omega

/-- Index plus one of an element, or 0. -/
def heapMember [DecidableEq τ] (elem : Event τ) (h : Heap τ) : ℕ :=
  match (List.range h.h_size).find? fun i => (h.h_elems i).he_elem = some elem with
  | some i => i + 1
  | none => 0

/-- The loop of `heap_delete` that brings the element at `i` to the root. -/
def toRoot (i : ℕ) (elems : ℕ → HeapElem τ) : ℕ → HeapElem τ :=
  if h : 0 < i then
    have := parent_lt h
    toRoot (parent i) (swap elems i (parent i))
  else elems
termination_by i

variable [LinearOrder τ]

def keyLessThan (k1 : τ) (ks1 : ℕ) (k2 : τ) (ks2 : ℕ) : Bool := k1 < k2 ∨ k1 = k2 ∧ ks1 < ks2

/-- The loop of `heap_insert`, with the index where it stops. -/
def insertLoop (key : τ) (s_key : ℕ) (i : ℕ) (elems : ℕ → HeapElem τ) :
    ℕ × (ℕ → HeapElem τ) :=
  if h : 0 < i then
    have := parent_lt h
    let p := elems (parent i)
    if keyLessThan key s_key p.he_key p.he_s_key then
      insertLoop key s_key (parent i) (Function.update elems i p)
    else (i, elems)
  else (i, elems)
termination_by i

/-- `none` where the array is copied to one that is smaller. -/
def heapInsert (key : τ) (elem : Option (Event τ)) (h : Heap τ) : Option (Heap τ) :=
  let maxsize := if h.h_maxsize = h.h_size then h.h_maxsize * 2 % 2 ^ 32 else h.h_maxsize
  if maxsize < h.h_maxsize then none
  else
    let r := insertLoop key h.h_s_key h.h_size h.h_elems
    some
      { h_elems := Function.update r.2 r.1 ⟨key, h.h_s_key, elem⟩
        h_s_key := (h.h_s_key + 1) % 2 ^ 32
        h_size := h.h_size + 1
        h_maxsize := maxsize }

/-- The smaller child of `i`, or `i` if it has none. -/
def child (size i : ℕ) (elems : ℕ → HeapElem τ) : ℕ :=
  let l := elems (left i)
  let r := elems (right i)
  if right i < size then
    if keyLessThan l.he_key l.he_s_key r.he_key r.he_s_key then left i else right i
  else if left i < size then left i else i

/-- The loop of `heap_extract_min`; `none` if it goes on for too long. -/
def heapify (size : ℕ) : ℕ → ℕ → (ℕ → HeapElem τ) → Option (ℕ → HeapElem τ)
  | 0, _, _ => none
  | fuel + 1, i, elems =>
    if i < size then
      let x := child size i elems
      if x ≠ i ∧ keyLessThan (elems x).he_key (elems x).he_s_key (elems i).he_key (elems i).he_s_key then
        heapify size fuel x (swap elems i x)
      else some elems
    else some elems

def heapExtractMin (h : Heap τ) : Option (Heap τ × Option (Event τ)) :=
  if h.h_size = 0 then some (h, none)
  else
    let size := h.h_size - 1
    (heapify size (size + 1) 0 (Function.update h.h_elems 0 (h.h_elems size))).map fun elems =>
      ({ h with h_elems := elems, h_size := size }, (h.h_elems 0).he_elem)

/-- `none` where the index does not fit the `int` that it is assigned to. -/
def heapDelete (elem : Event τ) (h : Heap τ) : Option (Heap τ) :=
  let i := heapMember elem h
  if i = 0 then some h
  else if i ≥ 2 ^ 31 then none
  else (heapExtractMin { h with h_elems := toRoot (i - 1) h.h_elems }).map Prod.fst

end Heap

namespace HeapScheduler

variable {τ : Type*} [LinearOrder τ]

def cancel (e : Event τ) (hp_ : Heap τ) : Option (Heap τ) :=
  if e.uid_ ≤ 0 then some hp_ else Heap.heapDelete e hp_

def queue : EventQueue τ (Heap τ) where
  insert e hp_ := Heap.heapInsert e.time_ (some e) hp_
  cancel := cancel
  deque hp_ := Heap.heapExtractMin hp_

end HeapScheduler

end Ns2
