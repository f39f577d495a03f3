import Ns2.Queue.PacketList

/-! The counters of the queue that knows acknowledgements from data. -/

namespace Ns2

namespace SemanticPacketQueue

variable {π : Type*}

/-- The packets with their length, bytes, acknowledgements and data. -/
structure Sound (hdr : π → PacketHeader) (s : SemanticPacketQueue π) (l : List π) : Prop
    extends PacketQueue.Stores hdr s.toPacketQueue l where
  ack : s.ack_count = l.countP (isAck hdr)
  data : s.data_count = l.countP fun p => !isAck hdr p

structure Marked (hdr : π → PacketHeader) (s : SemanticPacketQueue π) (l : List π) : Prop where
  marked : s.marked_count_ = l.countP (isMarked hdr)
  unmarked : s.unmarked_count_ = l.countP fun p => !isMarked hdr p

variable {hdr : π → PacketHeader}

section Counters

variable (s : SemanticPacketQueue π) (p : π) (d : ℤ)

@[simp] theorem count_toPacketQueue : (count hdr s p d).toPacketQueue = s.toPacketQueue := by
  unfold count
  split_ifs <;> rfl

@[simp] theorem count_ack :
    (count hdr s p d).ack_count = s.ack_count + if isAck hdr p then d else 0 := by
  unfold count
  split_ifs <;> simp

@[simp] theorem count_data :
    (count hdr s p d).data_count = s.data_count + if !isAck hdr p then d else 0 := by
  unfold count
  split_ifs <;> simp_all

@[simp] theorem count_marked :
    (count hdr s p d).marked_count_ = s.marked_count_ + if isMarked hdr p then d else 0 := by
  unfold count
  split_ifs <;> simp

@[simp] theorem count_unmarked :
    (count hdr s p d).unmarked_count_ = s.unmarked_count_ + if !isMarked hdr p then d else 0 := by
  unfold count
  split_ifs <;> simp_all

@[simp] theorem count_filteracks : (count hdr s p d).filteracks_ = s.filteracks_ := by
  unfold count
  split_ifs <;> rfl

@[simp] theorem count_replaceHead : (count hdr s p d).replace_head_ = s.replace_head_ := by
  unfold count
  split_ifs <;> rfl

end Counters

theorem countP_middle (f : π → Bool) (L R : List π) (a : π) :
    ((L ++ a :: R).countP f : ℤ) = (L ++ R).countP f + if f a then 1 else 0 := by
  simp only [List.countP_append, List.countP_cons]
  split_ifs <;> push_cast <;> omega

theorem Marked.total {s : SemanticPacketQueue π} {l : List π} (h : Marked hdr s l) :
    s.marked_count_ + s.unmarked_count_ = l.length := by
  rw [h.marked, h.unmarked, List.length_eq_countP_add_countP (isMarked hdr) (l := l)]
  push_cast
  congr 2
  exact List.countP_congr (by simp)

theorem Sound.leaves {s : SemanticPacketQueue π} {q : PacketQueue π} {L R : List π} {a : π}
    (h : Sound hdr s (L ++ a :: R)) (hq : PacketQueue.Stores hdr q (L ++ R)) :
    Sound hdr (count hdr { s with toPacketQueue := q } a (-1)) (L ++ R) where
  toStores := by simpa using hq
  ack := by
    have := h.ack
    rw [countP_middle] at this
    rw [count_ack]
    split_ifs at this ⊢ <;> simp only at this ⊢ <;> omega
  data := by
    have := h.data
    rw [countP_middle] at this
    rw [count_data]
    split_ifs at this ⊢ <;> simp only at this ⊢ <;> omega

theorem Marked.leaves {s : SemanticPacketQueue π} {q : PacketQueue π} {L R : List π} {a : π}
    (h : Marked hdr s (L ++ a :: R)) :
    Marked hdr (count hdr { s with toPacketQueue := q } a (-1)) (L ++ R) where
  marked := by
    have := h.marked
    rw [countP_middle] at this
    rw [count_marked]
    split_ifs at this ⊢ <;> simp only at this ⊢ <;> omega
  unmarked := by
    have := h.unmarked
    rw [countP_middle] at this
    rw [count_unmarked]
    split_ifs at this ⊢ <;> simp only at this ⊢ <;> omega

theorem Sound.comes {s : SemanticPacketQueue π} {q : PacketQueue π} {l : List π} {p : π}
    (h : Sound hdr s l) (hq : PacketQueue.Stores hdr q (l ++ [p])) :
    Sound hdr { count hdr s p 1 with toPacketQueue := q } (l ++ [p]) where
  toStores := hq
  ack := by
    show (count hdr s p 1).ack_count = _
    rw [count_ack, h.ack, countP_middle, List.append_nil]
  data := by
    show (count hdr s p 1).data_count = _
    rw [count_data, h.data, countP_middle, List.append_nil]

theorem Marked.comes {s : SemanticPacketQueue π} {q : PacketQueue π} {l : List π} {p : π}
    (h : Marked hdr s l) : Marked hdr { count hdr s p 1 with toPacketQueue := q } (l ++ [p]) where
  marked := by
    show (count hdr s p 1).marked_count_ = _
    rw [count_marked, h.marked, countP_middle, List.append_nil]
  unmarked := by
    show (count hdr s p 1).unmarked_count_ = _
    rw [count_unmarked, h.unmarked, countP_middle, List.append_nil]

theorem older_self (p : π) : older hdr p false p = false := by simp [older]

theorem older_isAck {pkt p : π} {r : Bool} (h : older hdr pkt r p = true) : isAck hdr p = true := by
  simp only [older, Bool.and_eq_true] at h
  exact h.1.2

theorem compareFlows_comm (p q : π) : compareFlows hdr p q = compareFlows hdr q p := by
  simp only [compareFlows, eq_comm]

theorem compareFlows_self (p : π) : compareFlows hdr p p = true := by simp [compareFlows]

variable [DecidableEq π]

theorem findAck_spec {q : PacketQueue π} {P M R : List π} {a : π} {fuel : ℕ}
    (h : PacketQueue.Stores hdr q (P ++ M ++ a :: R)) (hM : ∀ b ∈ M, isAck hdr b = false)
    (ha : isAck hdr a = true) (hfuel : M.length < fuel) :
    findAck hdr q fuel P.getLast? (M ++ a :: R).head? = some (some a, (P ++ M).getLast?) := by
  induction M generalizing P fuel with
  | nil =>
    obtain ⟨fuel, rfl⟩ : ∃ k, fuel = k + 1 := ⟨fuel - 1, by simp at hfuel; omega⟩
    have hfollow : q.follow a = some R.head? :=
      @PacketQueue.Stores.follow _ hdr _ q P R a (by simpa using h)
    simp [findAck, hfollow, ha]
  | cons b M ih =>
    obtain ⟨fuel, rfl⟩ : ∃ k, fuel = k + 1 := ⟨fuel - 1, by simp at hfuel; omega⟩
    have hfollow : q.follow b = some (M ++ a :: R).head? :=
      @PacketQueue.Stores.follow _ hdr _ q P (M ++ a :: R) b (by simpa using h)
    have hrest := @ih (P ++ [b]) fuel (by simpa using h)
      (fun x hx => hM x (List.mem_cons_of_mem b hx)) (by simpa using hfuel)
    rw [List.getLast?_concat] at hrest
    simp only [List.cons_append, List.head?_cons, findAck, hfollow, Option.bind_some,
      hM b (by simp), Bool.false_eq_true, if_false]
    simpa using hrest

/-- A packet leaves, with all its counts. -/
theorem deque_spec {s : SemanticPacketQueue π} {l : List π} {fuel : ℕ} (h : Sound hdr s l)
    (hfuel : l.length < fuel) :
    (l = [] ∧ deque hdr fuel s = some (s, none)) ∨
    ∃ L a R s', l = L ++ a :: R ∧ deque hdr fuel s = some (s', some a) ∧ Sound hdr s' (L ++ R) ∧
      (Marked hdr s l → Marked hdr s' (L ++ R)) := by
  have hfirst : ∀ a R q, l = a :: R → PacketQueue.Stores hdr q R →
      deque hdr fuel s = some (count hdr { s with toPacketQueue := q } a (-1), some a) →
      ∃ L a R s', l = L ++ a :: R ∧ deque hdr fuel s = some (s', some a) ∧ Sound hdr s' (L ++ R) ∧
        (Marked hdr s l → Marked hdr s' (L ++ R)) := by
    rintro a R q rfl hq he
    exact ⟨[], a, R, _, rfl, he, @Sound.leaves _ _ s q [] R a h hq,
      fun hm => @Marked.leaves _ _ s q [] R a hm⟩
  by_cases hmode : s.acksfirst_ = true ∧ s.ack_count > 0
  · -- the first acknowledgement leaves
    obtain ⟨hmode, hcount⟩ := hmode
    have hsome : ∃ a ∈ l, isAck hdr a = true := by
      have := h.ack
      exact List.countP_pos_iff.mp (by omega)
    obtain ⟨a, ha⟩ := List.find?_isSome.mpr (by simpa using hsome) |> Option.isSome_iff_exists.mp
    obtain ⟨hack, L, R, rfl, hL⟩ := List.find?_eq_some_iff_append.mp ha
    have hfind := @findAck_spec _ hdr _ s.toPacketQueue [] L R a fuel h.toStores
      (by simpa using hL) hack (by simp at hfuel; omega)
    have hhead : s.head_ = (L ++ a :: R).head? := h.head
    obtain ⟨q', h1, h2, -⟩ :=
      @PacketQueue.removeAfter_spec _ hdr _ _ L R a _ h.toStores fun _ => rfl
    right
    refine ⟨L, a, R, _, rfl, ?_, h.leaves h2, fun hm => hm.leaves⟩
    rw [← hhead] at hfind
    simp only [List.getLast?_nil, List.nil_append] at hfind
    simp only [deque, hmode, if_true, dequeAcksfirst, if_pos hcount, hfind, Option.bind_some, h1,
      Option.map_some]
  · have hbase : deque hdr fuel s = ((s.toPacketQueue.deque hdr).map fun r =>
        ({ s with toPacketQueue := r.1 }, r.2)).map fun r =>
          (r.2.elim r.1 fun p => count hdr r.1 p (-1), r.2) := by
      rw [deque]
      congr 1
      · funext r
        cases h : r.2 <;> simp [h]
      by_cases hm : s.acksfirst_ = true
      · rw [if_pos hm, dequeAcksfirst, if_neg fun hc => hmode ⟨hm, hc⟩]
      · rw [if_neg hm]
    cases l with
    | nil =>
      left
      rw [hbase, PacketQueue.deque_nil h.toStores]
      exact ⟨rfl, rfl⟩
    | cons a R =>
      right
      obtain ⟨q', h1, h2, -⟩ := PacketQueue.deque_cons h.toStores
      exact hfirst a R q' rfl h2 (by rw [hbase, h1]; rfl)

/-- A packet behind the first one is found and taken out. -/
theorem unqueue_spec {s : SemanticPacketQueue π} {L R : List π} {a : π} {fuel : ℕ}
    (h : PacketQueue.Stores hdr s.toPacketQueue (L ++ a :: R)) (hL : L ≠ [])
    (hfuel : L.length < fuel) :
    ∃ q, unqueue hdr fuel s a = some { s with toPacketQueue := q } ∧
      PacketQueue.Stores hdr q (L ++ R) := by
  obtain ⟨b, hb⟩ := Option.ne_none_iff_exists'.mp (mt List.getLast?_eq_none_iff.mp hL)
  obtain ⟨q, h1, h2, -⟩ := PacketQueue.unlink_spec h hb
  have hfind := @PacketQueue.findPrev_spec _ hdr _ s.toPacketQueue [] L R a fuel (by simpa using h)
    hfuel
  have hhead : s.head_ = (L ++ a :: R).head? := h.head
  rw [← hhead] at hfind
  simp only [List.getLast?_nil, List.nil_append, hb] at hfind
  exact ⟨q, by simp only [unqueue, hfind, Option.bind_some, h1, Option.map_some], h2⟩

end SemanticPacketQueue

end Ns2
