import Ns2.Queue.SemanticCounts

/-! The filter for acknowledgements, and runs of the queue: where the filter and `remove` lose
count. -/

namespace Ns2.SemanticPacketQueue

variable {π : Type*} {hdr : π → PacketHeader} [DecidableEq π]

/-- Packets that are not older are passed over. -/
theorem filterLoop_skip {s : SemanticPacketQueue π} {pkt : π} {r : Bool} {L M N : List π}
    {fuel k : ℕ} {pp : Option π} (h : PacketQueue.Stores hdr s.toPacketQueue (L ++ M ++ N))
    (hpkt : pkt ∉ s.freed)
    (hM : ∀ p ∈ M, older hdr pkt r p = true → p = pkt) :
    ∃ pp', filterLoop hdr fuel pkt r (k + M.length) s (M ++ N).head? pp false =
      filterLoop hdr fuel pkt r k s N.head? pp' false := by
  induction M generalizing L pp with
  | nil => exact ⟨pp, rfl⟩
  | cons p M ih =>
    have hfollow : s.follow p = some (M ++ N).head? :=
      @PacketQueue.Stores.follow _ hdr _ s.toPacketQueue L (M ++ N) p (by simpa using h)
    obtain ⟨pp', hrest⟩ := @ih (L ++ [p]) (some p) (by simpa using h)
      fun x hx => hM x (List.mem_cons_of_mem p hx)
    refine ⟨pp', ?_⟩
    rw [← hrest]
    have hself : older hdr pkt r p = true → pkt = p := fun ho => (hM p (by simp) ho).symm
    simp only [List.cons_append, List.head?_cons, List.length_cons, ← Nat.add_assoc]
    rw [filterLoop, if_neg hpkt, hfollow, Option.bind_some]
    by_cases ho : older hdr pkt r p = true
    · simp [hself ho]
    · simp [ho]

/-- Without `replace_head_`, the older acknowledgements go. -/
theorem filterLoop_purges {s : SemanticPacketQueue π} {pkt : π} {L M : List π} {fuel k : ℕ}
    {pp : Option π} (h : Sound hdr s (L ++ M)) (hpkt : pkt ∉ s.freed)
    (hpp : L ≠ [] → pp = L.getLast?) (hfuel : M.length < k) :
    ∃ s', filterLoop hdr fuel pkt false k s M.head? pp false = some s' ∧
      Sound hdr s' (L ++ M.filter fun p => !older hdr pkt false p) ∧
      s'.marked_count_ = s.marked_count_ ∧ s'.unmarked_count_ = s.unmarked_count_ := by
  induction M generalizing L pp s k with
  | nil =>
    obtain ⟨k, rfl⟩ : ∃ m, k = m + 1 := ⟨k - 1, by simp at hfuel; omega⟩
    exact ⟨s, rfl, by simpa using h, rfl, rfl⟩
  | cons p M ih =>
    obtain ⟨k, rfl⟩ : ∃ m, k = m + 1 := ⟨k - 1, by simp at hfuel; omega⟩
    have hfollow : s.follow p = some M.head? := h.follow
    have hlt : M.length < k := by simpa using hfuel
    rw [List.head?_cons, filterLoop, if_neg hpkt, hfollow, Option.bind_some]
    simp only [Bool.false_and, Bool.and_false, Bool.false_eq_true, if_false, Bool.false_or]
    by_cases ho : older hdr pkt false p = true
    · have hne : pkt ≠ p := by
        rintro rfl
        rw [older_self] at ho
        cases ho
      obtain ⟨q, h1, h2, h3⟩ := PacketQueue.removeAfter_spec h.toStores hpp
      have hp : p ∉ L ++ M := (List.nodup_cons.mp (List.nodup_middle.mp h.nodup)).1
      have hs : Sound hdr { s with toPacketQueue := q.free p, ack_count := s.ack_count - 1 }
          (L ++ M) := by
        have hack := h.ack
        have hdata := h.data
        rw [countP_middle] at hack hdata
        simp only [older_isAck ho, if_true, Bool.not_true, Bool.false_eq_true,
          if_false] at hack hdata
        refine ⟨⟨⟨h2.nodup, h2.fwd, h2.tail, fun a ha => ?_⟩, h2.len, h2.bytes⟩, ?_, ?_⟩
        · intro hmem
          rcases List.mem_cons.mp hmem with rfl | hmem
          · exact hp ha
          · exact h2.live a ha hmem
        · show s.ack_count - 1 = _
          omega
        · show s.data_count = _
          omega
      have hpkt' : pkt ∉ (q.free p).freed := by
        intro hmem
        rcases List.mem_cons.mp hmem with rfl | hmem
        · exact hne rfl
        · exact hpkt (h3 ▸ hmem)
      rw [if_pos (by simp [ho, hne]), h1, Option.bind_some]
      obtain ⟨s', h4, h5, h6, h7⟩ := ih hs hpkt' hpp hlt
      refine ⟨s', h4, ?_, h6, h7⟩
      rw [List.filter_cons_of_neg (by simp [ho])]
      exact h5
    · rw [if_neg (by simp [ho])]
      obtain ⟨s', h4, h5, h6, h7⟩ := @ih s (L ++ [p]) k (some p) (by simpa using h) hpkt
        (by simp) hlt
      refine ⟨s', h4, ?_, h6, h7⟩
      rw [List.filter_cons_of_pos (by simpa using ho)]
      simpa using h5

/-- Once a packet was put in the place of another, the loop counts no packet of either kind. -/
theorem filterLoop_marks {s s' : SemanticPacketQueue π} {pkt : π} {r : Bool} {fuel k : ℕ}
    {p pp : Option π} (h : filterLoop hdr fuel pkt r k s p pp true = some s') :
    s'.len_ ≤ s.len_ ∧ s'.marked_count_ = s.marked_count_ ∧
      s'.unmarked_count_ = s.unmarked_count_ := by
  induction k generalizing s p pp with
  | zero => cases h
  | succ k ih =>
    cases p with
    | none =>
      obtain rfl := Option.some.inj h
      exact ⟨le_rfl, rfl, rfl⟩
    | some p =>
      simp only [filterLoop, Bool.not_true, Bool.and_false, Bool.false_eq_true, if_false,
        Bool.true_or, Bool.and_true] at h
      by_cases hf : pkt ∈ s.freed
      · rw [if_pos hf] at h
        cases h
      rw [if_neg hf] at h
      obtain ⟨n, -, h⟩ := Option.bind_eq_some_iff.mp h
      by_cases ho : older hdr pkt r p = true
      · rw [if_pos ho] at h
        obtain ⟨q, hq, h⟩ := Option.bind_eq_some_iff.mp h
        obtain ⟨h1, h2, h3⟩ := ih h
        have hlen := PacketQueue.removeAfter_len hq
        change s'.len_ ≤ q.len_ at h1
        exact ⟨by omega, h2, h3⟩
      · rw [if_neg ho] at h
        exact ih h

/-- The queue when the filter starts. -/
def placed (hdr : π → PacketHeader) (s : SemanticPacketQueue π) (p : π) (q : PacketQueue π) :
    SemanticPacketQueue π :=
  { count hdr s p 1 with toPacketQueue := q }

def filters (hdr : π → PacketHeader) (s : SemanticPacketQueue π) (p : π) : Bool :=
  s.filteracks_ && isAck hdr p && !s.reconsAcks_

theorem enque_eq {s : SemanticPacketQueue π} {p : π} {q : PacketQueue π} {t : Option π} {fuel : ℕ}
    (h : PacketQueue.enque hdr s.toPacketQueue p = some (q, t)) :
    enque hdr fuel s p =
      if s.reconsAcks_ && isAck hdr p then some (s, none)
      else if filters hdr s p then
        (filterAcks hdr fuel (placed hdr s p q) p s.replace_head_).map fun s => (s, t)
      else some (placed hdr s p q, t) := by
  have h' : PacketQueue.enque hdr (count hdr s p 1).toPacketQueue p = some (q, t) := by
    rwa [count_toPacketQueue]
  simp only [enque, h', Option.bind_some, count_filteracks, count_replaceHead, filters, placed]
  cases hr : s.reconsAcks_ <;> cases ha : isAck hdr p <;> simp

/-- A packet comes and the filter takes none away. -/
theorem enque_keeps {s : SemanticPacketQueue π} {l : List π} {p : π} {fuel : ℕ} (h : Sound hdr s l)
    (hp : p ∉ l) (hf : p ∉ s.freed) (hfuel : l.length + 1 < fuel)
    (hkeep : filters hdr s p = true → ∀ a ∈ l, older hdr p s.replace_head_ a = false) :
    ∃ s' o l', enque hdr fuel s p = some (s', o) ∧ Sound hdr s' l' ∧
      (Marked hdr s l → Marked hdr s' l') ∧ l'.length ≤ l.length + 1 ∧
      (filters hdr s p = true → l' = l ++ [p]) := by
  obtain ⟨q, hq, hstores, hfreed⟩ := PacketQueue.enque_spec h.toStores hp hf
  rw [enque_eq hq]
  by_cases hr : (s.reconsAcks_ && isAck hdr p) = true
  · rw [if_pos hr]
    refine ⟨s, none, l, rfl, h, id, by omega, fun hfil => ?_⟩
    simp only [filters, Bool.and_eq_true, Bool.not_eq_true'] at hfil hr
    rw [hfil.2] at hr
    cases hr.1
  · rw [if_neg hr]
    have hlen : (l ++ [p]).length = l.length + 1 := by simp
    by_cases hfil : filters hdr s p = true
    · rw [if_pos hfil]
      have hhead : q.head_ = (l ++ [p]).head? := hstores.head
      obtain ⟨k, hk⟩ : ∃ k, fuel = k + 1 + (l ++ [p]).length := ⟨fuel - l.length - 2, by omega⟩
      obtain ⟨pp', hskip⟩ := @filterLoop_skip _ hdr _ (placed hdr s p q) p s.replace_head_ []
        (l ++ [p]) [] fuel (k + 1) q.head_ (by rw [List.append_nil]; exact hstores)
        (by rwa [← hfreed] at hf) (by
          intro a ha ho
          rcases List.mem_append.mp ha with ha | ha
          · rw [hkeep hfil a ha] at ho
            cases ho
          · exact List.mem_singleton.mp ha)
      rw [List.append_nil, ← hhead] at hskip
      refine ⟨placed hdr s p q, s.tail_, l ++ [p], ?_, h.comes hstores, fun hm => hm.comes, hlen.le,
        fun _ => rfl⟩
      show (filterLoop hdr fuel p s.replace_head_ fuel (placed hdr s p q) q.head_ q.head_
        false).map _ = _
      nth_rewrite 2 [hk]
      rw [hskip]
      rfl
    · rw [if_neg hfil]
      exact ⟨_, _, l ++ [p], rfl, h.comes hstores, fun hm => hm.comes, hlen.le,
        fun hfil' => absurd hfil' hfil⟩

/-- Without `replace_head_`, a filtered packet goes to the end of what is kept; the marks still
count what is not. -/
theorem enque_purges {s : SemanticPacketQueue π} {l : List π} {p : π} {fuel : ℕ} (h : Sound hdr s l)
    (hp : p ∉ l) (hf : p ∉ s.freed) (hfuel : l.length + 1 < fuel) (hfil : filters hdr s p = true)
    (hr : s.replace_head_ = false) :
    ∃ s' o, enque hdr fuel s p = some (s', o) ∧
      Sound hdr s' (l.filter (fun a => !older hdr p false a) ++ [p]) ∧
      (Marked hdr s l → s'.marked_count_ + s'.unmarked_count_ = l.length + 1) := by
  obtain ⟨q, hq, hstores, hfreed⟩ := PacketQueue.enque_spec h.toStores hp hf
  have hrecons : (s.reconsAcks_ && isAck hdr p) = false := by
    simp only [filters, Bool.and_eq_true, Bool.not_eq_true'] at hfil
    rw [hfil.2, Bool.false_and]
  have hhead : q.head_ = (l ++ [p]).head? := hstores.head
  obtain ⟨s', h1, h2, h3, h4⟩ := @filterLoop_purges _ hdr _ (placed hdr s p q) p [] (l ++ [p]) fuel
    fuel q.head_ (h.comes hstores) (by rwa [← hfreed] at hf) (fun hne => absurd rfl hne)
    (by simpa using hfuel)
  rw [enque_eq hq, hrecons, if_neg Bool.false_ne_true, if_pos hfil, hr]
  refine ⟨s', s.tail_, ?_, ?_, fun hm => ?_⟩
  · show (filterLoop hdr fuel p false fuel (placed hdr s p q) q.head_ q.head_ false).map _ = _
    nth_rewrite 1 [hhead]
    rw [h1]
    rfl
  · simpa [List.filter_append, older_self] using h2
  · have hm' : Marked hdr (placed hdr s p q) (l ++ [p]) := hm.comes
    rw [h3, h4, hm'.total]
    simp

/-- With `replace_head_`, the length loses the packet that is moved. -/
theorem enque_swaps {s s' : SemanticPacketQueue π} {l : List π} {p a : π} {fuel : ℕ} {o : Option π}
    (h : Sound hdr s l) (hm : Marked hdr s l) (hp : p ∉ l) (hf : p ∉ s.freed)
    (hfuel : l.length + 1 < fuel) (hfil : filters hdr s p = true) (hr : s.replace_head_ = true)
    (ha : a ∈ l) (ho : older hdr p true a = true) (he : enque hdr fuel s p = some (s', o)) :
    s'.len_ < s'.marked_count_ + s'.unmarked_count_ := by
  obtain ⟨q, hq, hstores, hfreed⟩ := PacketQueue.enque_spec h.toStores hp hf
  have hrecons : (s.reconsAcks_ && isAck hdr p) = false := by
    simp only [filters, Bool.and_eq_true, Bool.not_eq_true'] at hfil
    rw [hfil.2, Bool.false_and]
  obtain ⟨b, hb⟩ := Option.isSome_iff_exists.mp (List.find?_isSome.mpr ⟨a, ha, ho⟩)
  obtain ⟨hob, L, R, rfl, hL⟩ := List.find?_eq_some_iff_append.mp hb
  have hbp : p ≠ b := by
    rintro rfl
    exact hp (by simp)
  obtain ⟨k, hk⟩ : ∃ k, fuel = k + 1 + L.length :=
    ⟨fuel - L.length - 1, by simp at hfuel; omega⟩
  have hhead : q.head_ = (L ++ b :: (R ++ [p])).head? := by simpa using hstores.head
  have hstart : PacketQueue.Stores hdr (placed hdr s p q).toPacketQueue (L ++ b :: R ++ [p]) :=
    hstores
  have hpq : p ∉ (placed hdr s p q).freed := by rwa [← hfreed] at hf
  obtain ⟨pp, hskip⟩ := @filterLoop_skip _ hdr _ (placed hdr s p q) p true [] L (b :: (R ++ [p]))
    fuel (k + 1) q.head_ (by simpa using hstart) hpq (by
      intro x hx hox
      have := hL x hx
      rw [hox] at this
      cases this)
  rw [enque_eq hq, hrecons, if_neg Bool.false_ne_true, if_pos hfil, hr] at he
  obtain ⟨t, ht, hst⟩ := Option.map_eq_some_iff.mp he
  obtain rfl : t = s' := congrArg Prod.fst hst
  change filterLoop hdr fuel p true fuel (placed hdr s p q) q.head_ q.head_ false = some t at ht
  rw [← hhead] at hskip
  nth_rewrite 2 [hk] at ht
  rw [hskip, List.head?_cons, filterLoop, if_neg hpq] at ht
  obtain ⟨n, -, ht⟩ := Option.bind_eq_some_iff.mp ht
  rw [if_pos (by simp [hob, hbp])] at ht
  obtain ⟨u, hu, ht⟩ := Option.bind_eq_some_iff.mp ht
  obtain ⟨r, hr1, hr2⟩ := @unqueue_spec _ hdr _ (placed hdr s p q) (L ++ b :: R) [] p fuel hstores
    (by simp) (by simp at hfuel ⊢; omega)
  rw [hr1] at hu
  obtain rfl := Option.some.inj hu
  obtain ⟨v, hv, ht⟩ := Option.bind_eq_some_iff.mp ht
  obtain ⟨w, hw, ht⟩ := Option.bind_eq_some_iff.mp ht
  obtain ⟨h1, h2, h3⟩ := filterLoop_marks ht
  have hlen : w.len_ = r.len_ := by
    have hvr : v.len_ = r.len_ := PacketQueue.setNext_len hv
    cases pp with
    | none =>
      obtain rfl := Option.some.inj hw
      exact hvr
    | some x => exact (PacketQueue.setNext_len hw).trans hvr
  have hm' : Marked hdr (placed hdr s p q) (L ++ b :: R ++ [p]) := hm.comes
  have htotal := hm'.total
  have hrlen := hr2.len
  change t.marked_count_ = (placed hdr s p q).marked_count_ at h2
  change t.unmarked_count_ = (placed hdr s p q).unmarked_count_ at h3
  change t.len_ ≤ w.len_ at h1
  rw [h2, h3, htotal]
  simp only [List.length_append, List.length_cons, List.length_nil] at hrlen ⊢
  omega

/-- The first packet is taken out twice from the counts. -/
theorem remove_head {s s' : SemanticPacketQueue π} {R : List π} {p : π} {fuel : ℕ}
    (h : Sound hdr s (p :: R)) (hm : Marked hdr s (p :: R)) (hfuel : (p :: R).length < fuel)
    (he : remove hdr fuel s p = some s') : s'.marked_count_ + s'.unmarked_count_ < s'.len_ := by
  obtain ⟨t, ht, rfl⟩ := Option.map_eq_some_iff.mp he
  have hfind := @PacketQueue.findPrev_spec _ hdr _ s.toPacketQueue [] [] R p fuel h.toStores
    (by simp at hfuel ⊢; omega)
  have hhead : s.head_ = (p :: R).head? := h.head
  rw [List.nil_append, ← hhead] at hfind
  rcases deque_spec h hfuel with ⟨hnil, -⟩ | ⟨L, a, R', u, hl, hdeq, hu, hmu⟩
  · cases hnil
  · simp only [unqueue, List.getLast?_nil] at ht hfind
    rw [hfind, Option.bind_some, hdeq] at ht
    obtain rfl := Option.some.inj ht
    have htotal := (hmu hm).total
    have hlen : u.len_ = _ := hu.len
    rw [count_marked, count_unmarked]
    have hcount : (count hdr u p (-1)).len_ = u.len_ := by
      rw [count_toPacketQueue]
    rw [hcount, hlen, ← htotal]
    cases isMarked hdr p <;> simp

theorem remove_spec {s : SemanticPacketQueue π} {l : List π} {p : π} {fuel : ℕ} (h : Sound hdr s l)
    (hp : p ∈ l) (hhead : s.head_ ≠ some p) (hfuel : l.length < fuel) :
    ∃ s' l', remove hdr fuel s p = some s' ∧ Sound hdr s' l' ∧ (Marked hdr s l → Marked hdr s' l') ∧
      l'.length ≤ l.length := by
  obtain ⟨L, R, rfl⟩ := List.append_of_mem hp
  have hL : L ≠ [] := by
    rintro rfl
    exact hhead h.head
  obtain ⟨q, h1, h2⟩ := @unqueue_spec _ hdr _ s L R p fuel h.toStores hL (by simp at hfuel; omega)
  exact ⟨_, L ++ R, by rw [remove, h1]; rfl, h.leaves h2, fun hm => hm.leaves, by simp⟩

/-! ### Runs -/

/-- The packets from the head to the tail, and the six counters. -/
def Correct (hdr : π → PacketHeader) (s : SemanticPacketQueue π) : Prop :=
  ∃ l, Sound hdr s l ∧ Marked hdr s l

/-- No packet of another flow or with a higher number goes, and each flow keeps its newest number. -/
def Filtered (hdr : π → PacketHeader) (s : SemanticPacketQueue π) (p : π)
    (s' : SemanticPacketQueue π) : Prop :=
  ∀ l l', s.Lists l → s'.Lists l' →
    (∀ a ∈ l, a ∉ l' →
      isAck hdr a = true ∧ compareFlows hdr a p = true ∧ (hdr a).seqno ≤ (hdr p).seqno) ∧
    ∀ a ∈ l ++ [p], isAck hdr a = true →
      (∀ b ∈ l ++ [p], isAck hdr b = true → compareFlows hdr b a = true →
        (hdr b).seqno ≤ (hdr a).seqno) →
      ∃ b ∈ l', isAck hdr b = true ∧ compareFlows hdr b a = true ∧ (hdr b).seqno = (hdr a).seqno

def FilterOk (hdr : π → PacketHeader) (s : SemanticPacketQueue π) (op : Op π)
    (s' : SemanticPacketQueue π) : Prop :=
  match op with
  | .enque p => filters hdr s p = true → Filtered hdr s p s'
  | _ => True

/-- A packet is on one place of the queue, and one that is removed is there. -/
def Proper (fuel : ℕ) (s : SemanticPacketQueue π) : Op π → Prop
  | .enque p => p ∉ s.packets fuel s.head_ ∧ p ∉ s.freed
  | .remove p => p ∈ s.packets fuel s.head_
  | _ => True

/-- `remove` is not for the first packet, and the filter moves no packet to the place of another. -/
def NoSwap (hdr : π → PacketHeader) (fuel : ℕ) (s : SemanticPacketQueue π) : Op π → Prop
  | .enque p => filters hdr s p = true → s.replace_head_ = true →
      ∀ a ∈ s.packets fuel s.head_, older hdr p true a = false
  | .remove p => s.head_ ≠ some p
  | _ => True

/-- `remove` is not for the first packet, and the filter takes no packet away. -/
def Keeps (hdr : π → PacketHeader) (fuel : ℕ) (s : SemanticPacketQueue π) : Op π → Prop
  | .enque p => filters hdr s p = true →
      ∀ a ∈ s.packets fuel s.head_, older hdr p s.replace_head_ a = false
  | .remove p => s.head_ ≠ some p
  | _ => True

/-- Every state of the run has `P`, every step returns and the filter is right. -/
def Holds (hdr : π → PacketHeader) (fuel : ℕ) (P : SemanticPacketQueue π → Prop) :
    SemanticPacketQueue π → List (Op π) → Prop
  | s, [] => P s
  | s, op :: ops => P s ∧ ∃ s' o, step hdr fuel s op = some (s', o) ∧ FilterOk hdr s op s' ∧
      Holds hdr fuel P s' ops

omit [DecidableEq π] in
theorem Keeps.noSwap {fuel : ℕ} {s : SemanticPacketQueue π} {op : Op π}
    (h : Keeps hdr fuel s op) : NoSwap hdr fuel s op := by
  cases op with
  | enque p =>
    intro hfil hr a ha
    have := h hfil a ha
    rwa [hr] at this
  | remove p => exact h
  | deque => trivial
  | modes a f r b => trivial

omit [DecidableEq π] in
theorem filtered_of_append {s s' : SemanticPacketQueue π} {l : List π} {p : π} (h : s.Lists l)
    (h' : s'.Lists (l ++ [p])) : Filtered hdr s p s' := by
  intro m m' hm hm'
  obtain rfl := h.unique hm
  obtain rfl := h'.unique hm'
  refine ⟨fun a ha hna => absurd (List.mem_append_left _ ha) hna, fun a ha hack _ => ?_⟩
  exact ⟨a, ha, hack, compareFlows_self a, rfl⟩

omit [DecidableEq π] in
theorem filtered_of_purge {s s' : SemanticPacketQueue π} {l : List π} {p : π} (h : s.Lists l)
    (h' : s'.Lists (l.filter (fun a => !older hdr p false a) ++ [p])) (hp : isAck hdr p = true) :
    Filtered hdr s p s' := by
  have holder : ∀ a, older hdr p false a = true →
      isAck hdr a = true ∧ compareFlows hdr a p = true ∧ (hdr a).seqno < (hdr p).seqno := by
    intro a ha
    simp only [older, Bool.false_and, Bool.or_false, Bool.and_eq_true, decide_eq_true_eq] at ha
    exact ⟨ha.1.2, ha.1.1, ha.2⟩
  intro m m' hm hm'
  obtain rfl := h.unique hm
  obtain rfl := h'.unique hm'
  constructor
  · intro a ha hna
    have ho : older hdr p false a = true := by
      by_contra hno
      exact hna (List.mem_append_left _ (List.mem_filter.mpr ⟨ha, by simpa using hno⟩))
    obtain ⟨h1, h2, h3⟩ := holder a ho
    exact ⟨h1, h2, h3.le⟩
  · intro a ha hack hnew
    refine ⟨a, ?_, hack, compareFlows_self a, rfl⟩
    rcases List.mem_append.mp ha with hal | hap
    · apply List.mem_append_left
      refine List.mem_filter.mpr ⟨hal, ?_⟩
      by_contra ho
      obtain ⟨-, h2, h3⟩ := holder a (by simpa using ho)
      have := hnew p (by simp) hp (by rwa [compareFlows_comm])
      omega
    · exact List.mem_append_right _ hap

/-- What one step does to the packets, and to the marks if the filter takes no packet away. -/
theorem step_sound {s : SemanticPacketQueue π} {l : List π} {op : Op π} {fuel : ℕ}
    (h : Sound hdr s l) (hfuel : l.length + 1 < fuel) (hproper : Proper fuel s op)
    (hswap : NoSwap hdr fuel s op) :
    ∃ s' o l', step hdr fuel s op = some (s', o) ∧ Sound hdr s' l' ∧ l'.length ≤ l.length + 1 ∧
      FilterOk hdr s op s' ∧ (Keeps hdr fuel s op → Marked hdr s l → Marked hdr s' l') := by
  have hpackets : s.packets fuel s.head_ = l := h.packets (by omega)
  cases op with
  | deque =>
    rcases deque_spec h (by omega : l.length < fuel) with ⟨-, h1⟩ | ⟨L, a, R, s', rfl, h1, h2, h3⟩
    · exact ⟨s, none, l, h1, h, by omega, trivial, fun _ hm => hm⟩
    · exact ⟨s', some a, L ++ R, h1, h2, by simp; omega, trivial, fun _ => h3⟩
  | remove p =>
    have hp : p ∈ l := hpackets ▸ hproper
    obtain ⟨s', l', h1, h2, h3, h4⟩ := remove_spec h hp hswap (by omega : l.length < fuel)
    exact ⟨s', none, l', by rw [step, h1]; rfl, h2, by omega, trivial, fun _ => h3⟩
  | modes a f r b => exact ⟨_, none, l, rfl, ⟨h.toStores, h.ack, h.data⟩, by omega, trivial,
      fun _ hm => ⟨hm.marked, hm.unmarked⟩⟩
  | enque p =>
    obtain ⟨hp, hf⟩ := hproper
    rw [hpackets] at hp
    by_cases hkeep : Keeps hdr fuel s (.enque p)
    · have hkeep' : filters hdr s p = true → ∀ a ∈ l, older hdr p s.replace_head_ a = false :=
        hpackets ▸ hkeep
      obtain ⟨s', o, l', h1, h2, h3, h4, h5⟩ := enque_keeps h hp hf hfuel hkeep'
      refine ⟨s', o, l', h1, h2, h4, fun hfil => ?_, fun _ => h3⟩
      obtain rfl := h5 hfil
      exact filtered_of_append h.toLists h2.toLists
    · have hfil : filters hdr s p = true := by
        by_contra hno
        exact hkeep fun hfil => absurd hfil hno
      have hr : s.replace_head_ = false := by
        by_contra hr
        rw [Bool.not_eq_false] at hr
        exact hkeep fun _ => hr ▸ hswap hfil hr
      have hack : isAck hdr p = true := by
        simp only [filters, Bool.and_eq_true] at hfil
        exact hfil.1.2
      obtain ⟨s', o, h1, h2, -⟩ := enque_purges h hp hf hfuel hfil hr
      refine ⟨s', o, _, h1, h2, ?_, fun _ => filtered_of_purge h.toLists h2.toLists hack,
        fun hk => absurd hk hkeep⟩
      have := List.length_filter_le (fun a => !older hdr p false a) l
      simp only [List.length_append, List.length_cons, List.length_nil]
      omega

/-- A step that takes a filtered packet away, or removes the first one, leaves wrong counters. -/
theorem step_breaks {s s' : SemanticPacketQueue π} {l : List π} {op : Op π} {fuel : ℕ}
    {o : Option π} (h : Sound hdr s l) (hm : Marked hdr s l) (hfuel : l.length + 1 < fuel)
    (hproper : Proper fuel s op) (hkeep : ¬ Keeps hdr fuel s op)
    (he : step hdr fuel s op = some (s', o)) : ¬ Correct hdr s' := by
  have hpackets : s.packets fuel s.head_ = l := h.packets (by omega)
  rintro ⟨l', h', hm'⟩
  have hlen : s'.len_ = l'.length := h'.len
  have htotal := hm'.total
  cases op with
  | deque => exact hkeep trivial
  | modes a f r b => exact hkeep trivial
  | remove p =>
    have hhead : s.head_ = some p := not_not.mp hkeep
    have hl : l.head? = some p := h.head.symm.trans hhead
    obtain ⟨R, rfl⟩ := List.head?_eq_some_iff.mp hl
    obtain ⟨t, ht, hst⟩ := Option.map_eq_some_iff.mp he
    obtain rfl : t = s' := congrArg Prod.fst hst
    have := remove_head h hm (by omega) ht
    omega
  | enque p =>
    obtain ⟨hp, hf⟩ := hproper
    rw [hpackets] at hp
    have hmeets : ∃ a ∈ l, filters hdr s p = true ∧ older hdr p s.replace_head_ a = true := by
      rw [Keeps, hpackets] at hkeep
      push Not at hkeep
      obtain ⟨hfil, a, ha, ho⟩ := hkeep
      exact ⟨a, ha, hfil, by simpa using ho⟩
    obtain ⟨a, ha, hfil, ho⟩ := hmeets
    cases hr : s.replace_head_ with
    | true =>
      have := enque_swaps h hm hp hf hfuel hfil hr ha (hr ▸ ho) he
      omega
    | false =>
      obtain ⟨t, o', h1, h2, h3⟩ := enque_purges h hp hf hfuel hfil hr
      rw [step, h1] at he
      obtain ⟨rfl, rfl⟩ := Prod.mk.inj (Option.some.inj he)
      have hcount := h3 hm
      have hlen' : t.len_ = _ := h2.len
      have hlt : (l.filter fun a => !older hdr p false a).length < l.length := by
        refine List.length_filter_lt_length_iff_exists.mpr ⟨a, ha, ?_⟩
        simpa [hr] using ho
      simp only [List.length_append, List.length_cons, List.length_nil] at hlen'
      omega

omit [DecidableEq π] in
theorem sound_new (a f r b : Bool) : Sound hdr (new a f r b : SemanticPacketQueue π) [] :=
  ⟨⟨⟨List.nodup_nil, ⟨rfl, by simp⟩, rfl, by simp⟩, rfl, rfl⟩, rfl, rfl⟩

theorem Holds.start {P : SemanticPacketQueue π → Prop} {ops : List (Op π)}
    {s : SemanticPacketQueue π} {fuel : ℕ} (h : Holds hdr fuel P s ops) : P s := by
  cases ops with
  | nil => exact h
  | cons op ops => exact h.1

theorem Holds.run {P : SemanticPacketQueue π → Prop} {ops : List (Op π)} {s : SemanticPacketQueue π}
    {fuel : ℕ} (h : Holds hdr fuel P s ops) :
    ∃ t os, Machine.run (step hdr fuel) s ops = some (t, os) ∧ P t := by
  induction ops generalizing s with
  | nil => exact ⟨s, [], rfl, h⟩
  | cons op ops ih =>
    obtain ⟨-, s', o, hs, -, hrest⟩ := h
    obtain ⟨t, os, ht, hP⟩ := ih hrest
    exact ⟨t, o :: os, by rw [Machine.run_cons_some hs, ht]; rfl, hP⟩

theorem holds_sound {ops : List (Op π)} {s : SemanticPacketQueue π} {l : List π} {fuel : ℕ}
    (h : Sound hdr s l) (hfuel : l.length + ops.length < fuel)
    (hproper : Machine.Admits (step hdr fuel) (Proper fuel) s ops)
    (hswap : Machine.Admits (step hdr fuel) (NoSwap hdr fuel) s ops) :
    Holds hdr fuel (fun s => ∃ l, Sound hdr s l) s ops := by
  induction ops generalizing s l with
  | nil => exact ⟨l, h⟩
  | cons op ops ih =>
    simp only [List.length_cons] at hfuel
    obtain ⟨s', o, l', h1, h2, h3, h4, -⟩ := step_sound h (by omega) hproper.1 hswap.1
    exact ⟨⟨l, h⟩, s', o, h1, h4, ih h2 (by omega) (hproper.2 s' o h1) (hswap.2 s' o h1)⟩

theorem holds_correct_iff {ops : List (Op π)} {s : SemanticPacketQueue π} {l : List π} {fuel : ℕ}
    (h : Sound hdr s l) (hm : Marked hdr s l) (hfuel : l.length + ops.length < fuel)
    (hproper : Machine.Admits (step hdr fuel) (Proper fuel) s ops) :
    Holds hdr fuel (Correct hdr) s ops ↔ Machine.Admits (step hdr fuel) (Keeps hdr fuel) s ops := by
  induction ops generalizing s l with
  | nil => exact ⟨fun _ => trivial, fun _ => ⟨l, h, hm⟩⟩
  | cons op ops ih =>
    simp only [List.length_cons] at hfuel
    have hnext : Keeps hdr fuel s op → ∃ s' o l', step hdr fuel s op = some (s', o) ∧
        Sound hdr s' l' ∧ Marked hdr s' l' ∧ l'.length ≤ l.length + 1 ∧ FilterOk hdr s op s' := by
      intro hkeep
      obtain ⟨s', o, l', h1, h2, h3, h4, h5⟩ := step_sound h (by omega) hproper.1 hkeep.noSwap
      exact ⟨s', o, l', h1, h2, h5 hkeep hm, h3, h4⟩
    constructor
    · rintro ⟨-, s', o, hs, -, hrest⟩
      have hkeep : Keeps hdr fuel s op := by
        by_contra hno
        exact step_breaks h hm (by omega) hproper.1 hno hs hrest.start
      refine ⟨hkeep, fun t o' ht => ?_⟩
      obtain ⟨u, o'', l', h1, h2, h3, h4, -⟩ := hnext hkeep
      obtain ⟨rfl, rfl⟩ := Prod.mk.inj (Option.some.inj (hs.symm.trans ht))
      obtain ⟨rfl, rfl⟩ := Prod.mk.inj (Option.some.inj (hs.symm.trans h1))
      exact (ih h2 h3 (by omega) (hproper.2 _ _ hs)).mp hrest
    · rintro ⟨hkeep, hrest⟩
      obtain ⟨s', o, l', h1, h2, h3, h4, h5⟩ := hnext hkeep
      exact ⟨⟨l, h, hm⟩, s', o, h1, h5,
        (ih h2 h3 (by omega) (hproper.2 s' o h1)).mpr (hrest s' o h1)⟩

/-- A run keeps the list and all six counters, with a filter that is right, exactly when the filter
takes no packet away and `remove` is never for the first packet. When it takes packets away but
moves none, the list, its length and bytes and the counts of acknowledgements and data stay true. -/
theorem queue_counts (hdr : π → PacketHeader) {fuel : ℕ} {a f r b : Bool} {ops : List (Op π)}
    (hfuel : ops.length < fuel)
    (hproper : Machine.Admits (step hdr fuel) (Proper fuel) (new a f r b) ops) :
    (Holds hdr fuel (Correct hdr) (new a f r b) ops ↔
      Machine.Admits (step hdr fuel) (Keeps hdr fuel) (new a f r b) ops) ∧
    (Machine.Admits (step hdr fuel) (NoSwap hdr fuel) (new a f r b) ops →
      Holds hdr fuel (fun s => ∃ l, Sound hdr s l) (new a f r b) ops) := by
  have h : Sound hdr (new a f r b : SemanticPacketQueue π) [] := sound_new a f r b
  constructor
  · exact holds_correct_iff h ⟨rfl, rfl⟩ (by simpa using hfuel) hproper
  · exact holds_sound h (by simpa using hfuel) hproper

/-- Acknowledgements of one flow, by their numbers. -/
def acks (n : ℕ) : PacketHeader := ⟨PT_ACK, 40, 1, 0, 2, 0, n, 0⟩

theorem acks_proper (ops : List (Op ℕ)) (h : ops = [.enque 1, .enque 2]) :
    Machine.Admits (step acks 3) (Proper 3) (new false true false false) ops := by
  subst h
  refine Machine.admits_cons ?_ rfl (Machine.admits_cons ?_ rfl trivial)
  · exact ⟨by decide, by decide⟩
  · exact ⟨by decide, by decide⟩

theorem queue_counts_acks :
    let ops : List (Op ℕ) := [.enque 1, .enque 2]
    ops.length < 3 ∧
    (Holds acks 3 (Correct acks) (new false true false false) ops ↔
      Machine.Admits (step acks 3) (Keeps acks 3) (new false true false false) ops) ∧
    (Machine.Admits (step acks 3) (NoSwap acks 3) (new false true false false) ops →
      Holds acks 3 (fun s => ∃ l, Sound acks s l) (new false true false false) ops) :=
  ⟨by decide, queue_counts acks (by decide) (acks_proper _ rfl)⟩

/-- The second of two acknowledgements purges the first, which still counts as unmarked. -/
theorem filter_miscounts : ¬ ∀ ops : List (Op ℕ),
    Machine.Admits (step acks 3) (Proper 3) (new false true false false) ops →
    Holds acks 3 (Correct acks) (new false true false false) ops := by
  intro h
  obtain ⟨t, os, ht, l, hl, hm⟩ := (h [.enque 1, .enque 2] (acks_proper _ rfl)).run
  have hcount : (Machine.run (step acks 3) (new false true false false) [.enque 1, .enque 2]).map
      (fun r => (r.1.len_, r.1.marked_count_ + r.1.unmarked_count_)) = some (1, 2) := by decide
  rw [ht] at hcount
  simp only [Option.map_some, Option.some.injEq, Prod.mk.injEq] at hcount
  have hlen : t.len_ = l.length := hl.len
  have htotal := hm.total
  omega

end Ns2.SemanticPacketQueue
