import Mathlib

/-! Doubly linked lists whose nodes live in a memory: links that may be null, and a test for the
nodes that may be followed. -/

variable {α : Type*}

structure DList (α : Type*) where
  next : α → Option α
  prev : α → Option α
  head : Option α
  tail : Option α

namespace DList

def empty : DList α := ⟨fun _ => none, fun _ => none, none, none⟩

def reverse (d : DList α) : DList α := ⟨d.prev, d.next, d.tail, d.head⟩

/-- The forward links run through the nodes of `l`. -/
structure Fwd (d : DList α) (l : List α) : Prop where
  head : d.head = l.head?
  next : ∀ pre a post, l = pre ++ a :: post → d.next a = post.head?

/-- The links run through the nodes of `l`, forwards and backwards. -/
structure Rep (d : DList α) (l : List α) : Prop where
  nodup : l.Nodup
  fwd : d.Fwd l
  bwd : d.reverse.Fwd l.reverse

theorem Fwd.congr {d d' : DList α} {l : List α} (h : d.Fwd l) (hh : d'.head = d.head)
    (hn : ∀ a ∈ l, d'.next a = d.next a) : d'.Fwd l :=
  ⟨hh.trans h.head, fun pre a post he => (hn a (by simp [he])).trans (h.next pre a post he)⟩

theorem Rep.nil {d : DList α} (hh : d.head = none) (ht : d.tail = none) : d.Rep [] :=
  ⟨List.nodup_nil, ⟨hh, by simp⟩, ⟨ht, by simp⟩⟩

theorem Rep.reverse {d : DList α} {l : List α} (h : d.Rep l) : d.reverse.Rep l.reverse :=
  ⟨List.nodup_reverse.mpr h.nodup, h.bwd, by rw [List.reverse_reverse]; exact h.fwd⟩

theorem Rep.head {d : DList α} {l : List α} (h : d.Rep l) : d.head = l.head? := h.fwd.head

theorem Rep.tail {d : DList α} {l : List α} (h : d.Rep l) : d.tail = l.getLast? :=
  h.bwd.head.trans List.head?_reverse

theorem Rep.next {d : DList α} {pre post : List α} {a : α} (h : d.Rep (pre ++ a :: post)) :
    d.next a = post.head? := h.fwd.next pre a post rfl

theorem Rep.prev {d : DList α} {pre post : List α} {a : α} (h : d.Rep (pre ++ a :: post)) :
    d.prev a = pre.getLast? :=
  (h.bwd.next post.reverse a pre.reverse (by simp)).trans List.head?_reverse

/-- The links tell which nodes they run through. -/
theorem Fwd.unique {d : DList α} {l m : List α} (hl : d.Fwd l) (hm : d.Fwd m) : l = m := by
  suffices hgen : ∀ pre pre' l m, d.Fwd (pre ++ l) → d.Fwd (pre' ++ m) → l.head? = m.head? → l = m from
    hgen [] [] l m hl hm (hl.head.symm.trans hm.head)
  intro pre pre' l
  induction l generalizing pre pre' with
  | nil => exact fun m _ _ hhead => (List.head?_eq_none_iff.mp hhead.symm).symm
  | cons a l ih =>
    intro m hl hm hhead
    cases m with
    | nil => cases hhead
    | cons b m =>
      obtain rfl := Option.some.inj hhead
      have htail := (hl.next pre a l rfl).symm.trans (hm.next pre' a m rfl)
      rw [ih (pre ++ [a]) (pre' ++ [a]) m (by simpa using hl) (by simpa using hm) htail]

/-- A list of numbers below a bound is no longer than the bound. -/
theorem Rep.length_le {d : DList ℕ} {l : List ℕ} {n : ℕ} (h : d.Rep l) (hlt : ∀ a ∈ l, a < n) :
    l.length ≤ n := by
  rw [← List.toFinset_card_of_nodup h.nodup, ← Finset.card_range n]
  apply Finset.card_le_card
  intro a ha
  exact Finset.mem_range.mpr (hlt a (List.mem_toFinset.mp ha))

/-- A pointer that is null or may be followed. -/
def Ok (valid : α → Bool) (p : Option α) : Prop := ∀ a, p = some a → valid a = true

instance (valid : α → Bool) (p : Option α) : Decidable (Ok valid p) :=
  match p with
  | none => isTrue fun _ h => nomatch h
  | some a => decidable_of_iff (valid a = true) ⟨fun h _ he => by cases he; exact h, fun h => h a rfl⟩

theorem ok_head {valid : α → Bool} {l : List α} (h : ∀ a ∈ l, valid a = true) :
    Ok valid l.head? := fun a ha => h a (List.mem_of_mem_head? ha)

theorem ok_getLast {valid : α → Bool} {l : List α} (h : ∀ a ∈ l, valid a = true) :
    Ok valid l.getLast? := fun a ha => h a (List.mem_of_getLast? ha)

section Links

variable [DecidableEq α]

/-- `p`'s successor becomes `x`; the head does if `p` is null. -/
def setNext (d : DList α) (p x : Option α) : DList α :=
  match p with
  | some a => { d with next := Function.update d.next a x }
  | none => { d with head := x }

/-- `p`'s predecessor becomes `x`; the tail does if `p` is null. -/
def setPrev (d : DList α) (p x : Option α) : DList α :=
  match p with
  | some a => { d with prev := Function.update d.prev a x }
  | none => { d with tail := x }

/-- Node `a` is taken out. -/
def unlink (valid : α → Bool) (d : DList α) (a : α) : Option (DList α) :=
  if valid a ∧ Ok valid (d.prev a) ∧ Ok valid (d.next a) then
    some ((d.setNext (d.prev a) (d.next a)).setPrev (d.next a) (d.prev a))
  else none

/-- Node `n` is put between `p` and `q`. -/
def insert (valid : α → Bool) (d : DList α) (p q : Option α) (n : α) : Option (DList α) :=
  if valid n ∧ Ok valid p ∧ Ok valid q then
    let d := { d with prev := Function.update d.prev n p, next := Function.update d.next n q }
    some ((d.setNext p (some n)).setPrev q (some n))
  else none

@[simp] theorem setPrev_head (d : DList α) (p x : Option α) : (d.setPrev p x).head = d.head := by
  cases p <;> rfl

@[simp] theorem setPrev_next (d : DList α) (p x : Option α) : (d.setPrev p x).next = d.next := by
  cases p <;> rfl

theorem setNext_setPrev_reverse (d : DList α) (p q x y : Option α) :
    ((d.setNext p x).setPrev q y).reverse = (d.reverse.setNext q y).setPrev p x := by
  cases p <;> cases q <;> rfl

theorem setNext_next_of_ne (d : DList α) {p x : Option α} {a : α} (h : p ≠ some a) :
    (d.setNext p x).next a = d.next a := by
  cases p with
  | none => rfl
  | some b =>
    apply Function.update_of_ne
    rintro rfl
    exact h rfl

/-- The list behind `L` is exchanged for one whose links are there already. -/
theorem Fwd.splice {d : DList α} {L M N : List α} (h : d.Fwd (L ++ M)) (hnd : (L ++ N).Nodup)
    (hN : ∀ pre a post, N = pre ++ a :: post → d.next a = post.head?) :
    (d.setNext L.getLast? N.head?).Fwd (L ++ N) := by
  constructor
  · cases L with
    | nil => rfl
    | cons b L =>
      rw [List.getLast?_cons]
      exact h.head
  · intro pre a post he
    rcases List.append_eq_append_iff.mp he with ⟨t, rfl, hN'⟩ | ⟨t, rfl, ht⟩
    · -- the node is behind `L`
      rw [setNext_next_of_ne]
      · exact hN t a post hN'
      · intro hlast
        rw [hN'] at hnd
        have hmem := List.mem_of_getLast? hlast
        exact (List.nodup_append.mp hnd).2.2 a hmem a (by simp) rfl
    · cases t with
      | nil =>
        simp only [List.append_nil, List.nil_append] at hnd ht ⊢
        rw [setNext_next_of_ne]
        · exact hN [] a post ht.symm
        · intro hlast
          rw [← ht] at hnd
          exact (List.nodup_append.mp hnd).2.2 a (List.mem_of_getLast? hlast) a (by simp) rfl
      | cons b t =>
        obtain ⟨rfl, rfl⟩ := List.cons.inj ht
        cases t with
        | nil => simp [setNext, List.getLast?_append]
        | cons c t =>
          rw [setNext_next_of_ne]
          · exact h.next pre a (c :: t ++ M) (by simp)
          · intro hlast
            have hmem : a ∈ c :: t := by
              rw [List.getLast?_append, List.getLast?_cons_cons] at hlast
              exact List.mem_of_getLast? (by simpa using hlast)
            have hnd' := (List.nodup_append.mp (List.nodup_append.mp hnd).1).2.1
            exact (List.nodup_cons.mp hnd').1 hmem

theorem Rep.unlink {d : DList α} {L R : List α} {a : α} {valid : α → Bool}
    (h : d.Rep (L ++ a :: R)) (hv : ∀ x ∈ L ++ a :: R, valid x = true) :
    ∃ d', d.unlink valid a = some d' ∧ d'.Rep (L ++ R) := by
  have hprev := h.prev
  have hnext := h.next
  have hnd : (L ++ R).Nodup := h.nodup.sublist (by simp)
  have hok : valid a = true ∧ Ok valid L.getLast? ∧ Ok valid R.head? :=
    ⟨hv a (by simp), ok_getLast fun x hx => hv x (by simp [hx]), ok_head fun x hx => hv x (by simp [hx])⟩
  rw [DList.unlink, hprev, hnext, if_pos hok]
  refine ⟨_, rfl, hnd, ?_, ?_⟩
  · refine (h.fwd.splice hnd fun pre x post he => ?_).congr (setPrev_head _ _ _) fun _ _ => by simp
    exact h.fwd.next (L ++ a :: pre) x post (by simp [he])
  · rw [setNext_setPrev_reverse]
    have hb := h.reverse.fwd
    have hnd' : (R.reverse ++ L.reverse).Nodup := by
      rw [← List.reverse_append]
      exact List.nodup_reverse.mpr hnd
    have hs : (L ++ a :: R).reverse = R.reverse ++ a :: L.reverse := by simp
    rw [hs] at hb
    rw [List.reverse_append]
    have := (hb.splice hnd' fun pre x post he => hb.next (R.reverse ++ a :: pre) x post (by simp [he]))
    rw [List.getLast?_reverse, List.head?_reverse] at this
    exact this.congr (setPrev_head _ _ _) fun _ _ => by simp

theorem Fwd.insert {d d' : DList α} {L R : List α} {n : α} (h : d.Fwd (L ++ R)) (hn : n ∉ L ++ R)
    (hnd : (L ++ n :: R).Nodup) (hh : d'.head = d.head)
    (hnext : d'.next = Function.update d.next n R.head?) :
    (d'.setNext L.getLast? (some n)).Fwd (L ++ n :: R) := by
  have hf : d'.Fwd (L ++ R) := by
    refine h.congr hh fun x hx => ?_
    rw [hnext]
    apply Function.update_of_ne
    rintro rfl
    exact hn hx
  have hs := @Fwd.splice _ _ _ _ _ (n :: R) hf hnd fun pre x post he => by
    cases pre with
    | nil =>
      obtain ⟨rfl, rfl⟩ := List.cons.inj he
      rw [hnext]
      exact Function.update_self _ _ _
    | cons y pre =>
      obtain ⟨rfl, rfl⟩ := List.cons.inj he
      exact hf.next (L ++ pre) x post (by simp)
  exact hs

theorem Rep.insert {d : DList α} {L R : List α} {n : α} {valid : α → Bool} (h : d.Rep (L ++ R))
    (hn : n ∉ L ++ R) (hv : ∀ x ∈ L ++ R, valid x = true) (hvn : valid n = true) :
    ∃ d', d.insert valid L.getLast? R.head? n = some d' ∧ d'.Rep (L ++ n :: R) := by
  have hnd : (L ++ n :: R).Nodup := by
    rw [List.nodup_middle, List.nodup_cons]
    exact ⟨hn, h.nodup⟩
  have hok : valid n = true ∧ Ok valid L.getLast? ∧ Ok valid R.head? :=
    ⟨hvn, ok_getLast fun x hx => hv x (by simp [hx]), ok_head fun x hx => hv x (by simp [hx])⟩
  rw [DList.insert, if_pos hok]
  refine ⟨_, rfl, hnd, ?_, ?_⟩
  · have hi := @Fwd.insert _ _ _ ⟨Function.update d.next n R.head?,
      Function.update d.prev n L.getLast?, d.head, d.tail⟩ _ _ _ h.fwd hn hnd rfl rfl
    apply Fwd.congr hi
    · exact setPrev_head _ _ _
    · exact fun _ _ => by rw [setPrev_next]
  · rw [setNext_setPrev_reverse, show (L ++ n :: R).reverse = R.reverse ++ n :: L.reverse by simp]
    have hb := h.reverse.fwd
    rw [List.reverse_append] at hb
    have hnd' : (R.reverse ++ n :: L.reverse).Nodup := by
      rw [show R.reverse ++ n :: L.reverse = (L ++ n :: R).reverse by simp]
      exact List.nodup_reverse.mpr hnd
    have hnm : n ∉ R.reverse ++ L.reverse := by simpa [and_comm] using hn
    have hi := @Fwd.insert _ _ _ ⟨Function.update d.prev n L.getLast?,
      Function.update d.next n R.head?, d.tail, d.head⟩ _ _ _ hb hnm hnd' rfl
      (by rw [List.head?_reverse]; rfl)
    rw [List.getLast?_reverse] at hi
    apply Fwd.congr hi
    · exact setPrev_head _ _ _
    · exact fun _ _ => by rw [setPrev_next]; rfl

end Links

/-! ### Walks along the links -/

/-- The first node from `p` on at which the walk stops, or null at the end; `none` if a node may not
be followed, or the walk takes too long. -/
def scan (valid : α → Bool) (next : α → Option α) (stop : α → Bool) : ℕ → Option α → Option (Option α)
  | 0, _ => none
  | _ + 1, none => some none
  | fuel + 1, some a =>
    if valid a then if stop a then some (some a) else scan valid next stop fuel (next a) else none

theorem Fwd.scan {d : DList α} {valid stop : α → Bool} {L M R : List α} {fuel : ℕ}
    (h : d.Fwd (L ++ M ++ R)) (hv : ∀ a ∈ M ++ R, valid a = true) (hM : ∀ a ∈ M, stop a = false)
    (hR : ∀ a, R.head? = some a → stop a = true) (hfuel : M.length < fuel) :
    DList.scan valid d.next stop fuel (M ++ R).head? = some R.head? := by
  induction M generalizing L fuel with
  | nil =>
    obtain ⟨fuel, rfl⟩ : ∃ k, fuel = k + 1 := ⟨fuel - 1, by simp at hfuel; omega⟩
    cases R with
    | nil => rfl
    | cons b R => simp [DList.scan, hv b (by simp), hR b rfl]
  | cons a M ih =>
    obtain ⟨fuel, rfl⟩ : ∃ k, fuel = k + 1 := ⟨fuel - 1, by simp at hfuel; omega⟩
    have hnext := h.next L a (M ++ R) (by simp)
    have hrest := @ih (L ++ [a]) fuel (by simpa using h) (fun x hx => hv x (by simp at hx ⊢; tauto))
      (fun x hx => hM x (List.mem_cons_of_mem a hx)) (by simpa using hfuel)
    rw [List.cons_append, List.head?_cons, DList.scan, if_pos (hv a (by simp)), hM a (by simp),
      hnext]
    exact hrest

end DList
