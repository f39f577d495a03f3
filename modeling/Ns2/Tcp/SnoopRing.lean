import Ns2.Tcp.Snoop

/-! The packets of the snoop agent as a list in its ring, and what each step makes of the list. -/

namespace Ns2

namespace Snoop

open OptionRing

/-- A flag of one bit is set if its bit is. -/
theorem and_flag {f flag : BitVec 16} {k : ℕ} (hk : k < 16) (hflag : flag = BitVec.twoPow 16 k) :
    (f &&& flag != 0) = f.getLsbD k := by
  rw [hflag, BitVec.and_twoPow]
  cases h : f.getLsbD k with
  | false => simp
  | true =>
    have hne : BitVec.twoPow 16 k ≠ 0 := by
      intro h0
      have := congrArg (·.getLsbD k) h0
      simp [hk] at this
    simpa [bne_iff_ne] using hne

theorem is_full (s : Snoop) : s.is SNOOP_FULL = s.fstate_.getLsbD 3 :=
  and_flag (by decide) (by decide)

theorem is_closed (s : Snoop) : s.is SNOOP_CLOSED = s.fstate_.getLsbD 1 :=
  and_flag (by decide) (by decide)

theorem or_full_bit (f : BitVec 16) : (f ||| SNOOP_FULL).getLsbD 3 = true := by
  rw [BitVec.getLsbD_or, show SNOOP_FULL.getLsbD 3 = true by decide, Bool.or_true]

theorem or_full_other (f : BitVec 16) {k : ℕ} (hk : SNOOP_FULL.getLsbD k = false) :
    (f ||| SNOOP_FULL).getLsbD k = f.getLsbD k := by
  rw [BitVec.getLsbD_or, hk, Bool.or_false]

theorem clear_full_bit (f : BitVec 16) : (f &&& ~~~SNOOP_FULL).getLsbD 3 = false := by
  rw [BitVec.getLsbD_and, show (~~~SNOOP_FULL).getLsbD 3 = false by decide, Bool.and_false]

theorem clear_full_other (f : BitVec 16) {k : ℕ} (hk : (~~~SNOOP_FULL).getLsbD k = true) :
    (f &&& ~~~SNOOP_FULL).getLsbD k = f.getLsbD k := by
  rw [BitVec.getLsbD_and, hk, Bool.and_true]

/-- The list lies in the ring from the tail up to the head; it is sorted, above the last
acknowledgement, and not above what was seen; the flag tells if the ring is full. -/
structure Ring (s : Snoop) (l : List SnoopPacket) : Prop where
  holds : Holds s.maxbufs_ s.buftail_ s.pkts_ l
  tail_lt : s.buftail_ < s.maxbufs_
  head : s.bufhead_ = (s.buftail_ + l.length) % s.maxbufs_
  sorted : l.Pairwise (·.seqno < ·.seqno)
  above : ∀ p ∈ l, s.lastAck_ < p.seqno
  seen : ∀ p ∈ l, p.seqno ≤ s.lastSeen_
  full : s.is SNOOP_FULL = true ↔ l.length = s.maxbufs_
  not_closed : s.is SNOOP_CLOSED = false

/-- The pending event is a packet of the list. -/
def Pending (s : Snoop) (l : List SnoopPacket) : Prop :=
  ∀ e, s.toutPending_ = some e → ∃ p ∈ l, p.id = e

theorem Pending.none {s : Snoop} (h : s.toutPending_ = none) (l : List SnoopPacket) :
    Pending s l := by
  intro e he
  rw [h] at he
  cases he

namespace Ring

variable {s : Snoop} {l : List SnoopPacket}

theorem first (h : Ring s l) : s.pkts_ s.buftail_ = l.head? := h.holds.first h.tail_lt

theorem head_eq_tail (h : Ring s l) :
    s.bufhead_ = s.buftail_ ↔ l.length = 0 ∨ l.length = s.maxbufs_ := by
  have htail := h.tail_lt
  have hlen := h.holds.length
  rw [h.head]
  constructor
  · intro he
    by_cases hfull : l.length = s.maxbufs_
    · exact .inr hfull
    · left
      exact RingWindow.slot_inj (n := s.maxbufs_) (h := s.buftail_) (i := l.length) (j := 0)
        (by omega) (by omega) (by rw [he, Nat.add_zero, Nat.mod_eq_of_lt htail])
  · rintro (h0 | hn)
    · rw [h0, Nat.add_zero, Nat.mod_eq_of_lt htail]
    · rw [hn, Nat.add_mod_right, Nat.mod_eq_of_lt htail]

theorem empty_iff (h : Ring s l) : s.empty_ = true ↔ l = [] := by
  have hpos := h.tail_lt
  rw [empty_, Bool.and_eq_true, beq_iff_eq, h.head_eq_tail, Bool.not_eq_true', ← Bool.not_eq_true,
    h.full, ← List.length_eq_zero_iff]
  omega

end Ring

/-- A packet with number `seq` is to go to the gap at index `k`. -/
structure Ready (s : Snoop) (l : List SnoopPacket) (seq : ℤ) (k : ℕ) : Prop where
  gap : OptionRing.Gap s.maxbufs_ s.buftail_ s.pkts_ l k
  tail_lt : s.buftail_ < s.maxbufs_
  le_length : k ≤ l.length
  room : l.length < s.maxbufs_
  head : s.bufhead_ = (s.buftail_ + (l.length + 1)) % s.maxbufs_
  sorted : l.Pairwise (·.seqno < ·.seqno)
  above : ∀ p ∈ l, s.lastAck_ < p.seqno
  seen : ∀ p ∈ l, p.seqno ≤ s.lastSeen_
  before : ∀ p ∈ l.take k, p.seqno < seq
  behind : ∀ p ∈ l.drop k, seq < p.seqno
  fresh : s.lastAck_ < seq
  not_full : s.is SNOOP_FULL = false
  not_closed : s.is SNOOP_CLOSED = false

theorem insertIdx_eq {α : Type*} (l : List α) {k : ℕ} (hk : k ≤ l.length) (x : α) :
    l.insertIdx k x = l.take k ++ x :: l.drop k := by
  apply List.ext_getElem?
  intro i
  rw [List.getElem?_insertIdx]
  grind

namespace Ready

variable {s : Snoop} {l : List SnoopPacket} {seq : ℤ} {k : ℕ}

theorem mem_insert (h : Ready s l seq k) {x p : SnoopPacket} :
    p ∈ l.insertIdx k x ↔ p = x ∨ p ∈ l := List.mem_insertIdx h.le_length

theorem sorted_insert (h : Ready s l seq k) {x : SnoopPacket} (hx : x.seqno = seq) :
    (l.insertIdx k x).Pairwise (·.seqno < ·.seqno) := by
  rw [insertIdx_eq l h.le_length, List.pairwise_append, List.pairwise_cons]
  have hcross : ∀ p ∈ l.take k, ∀ q ∈ l.drop k, p.seqno < q.seqno := fun p hp q hq =>
    (h.before p hp).trans (h.behind q hq)
  refine ⟨h.sorted.sublist (List.take_sublist k l), ⟨fun q hq => hx ▸ h.behind q hq,
    h.sorted.sublist (List.drop_sublist k l)⟩, fun p hp q hq => ?_⟩
  rcases List.mem_cons.mp hq with rfl | hq
  · exact hx ▸ h.before p hp
  · exact hcross p hp q hq

/-- A gap between packets is not where the head is. -/
theorem slot_ne_head (h : Ready s l seq k) (hk : k ≠ 0) (hlt : k < l.length) :
    (s.buftail_ + k) % s.maxbufs_ ≠ s.bufhead_ := by
  have hroom := h.room
  rw [h.head]
  intro he
  by_cases hfull : l.length + 1 = s.maxbufs_
  · have := RingWindow.slot_inj (n := s.maxbufs_) (h := s.buftail_) (i := k) (j := 0) (by omega)
      (by omega) (by rw [he, hfull, Nat.add_mod_right, Nat.add_zero])
    exact hk this
  · have := RingWindow.slot_inj (by omega) (by omega) he
    omega

/-- The flag after the packet is in its slot. -/
theorem full_iff (h : Ready s l seq k) :
    s.bufhead_ = s.buftail_ ↔ l.length + 1 = s.maxbufs_ := by
  have htail := h.tail_lt
  have hroom := h.room
  rw [h.head]
  constructor
  · intro he
    by_contra hne
    have := RingWindow.slot_inj (n := s.maxbufs_) (h := s.buftail_) (i := l.length + 1) (j := 0)
      (by omega) (by omega) (by rw [he, Nat.add_zero, Nat.mod_eq_of_lt htail])
    omega
  · intro he
    rw [he, Nat.add_mod_right, Nat.mod_eq_of_lt htail]

end Ready

/-- The packet as it is saved. -/
def savedPacket (s : Snoop) (now : ℚ) (seq : ℤ) (i : ℕ) : SnoopPacket :=
  ⟨s.fresh, seq, 0, if seq < s.lastSeen_ ∧ s.buftail_ = i then 1 else 0, now⟩

theorem save_eq (s : Snoop) (now : ℚ) (seq : ℤ) (i : ℕ) :
    s.save now seq i = ({ s with
      pkts_ := Function.update s.pkts_ i (some (s.savedPacket now seq i))
      fresh := s.fresh + 1
      fstate_ := if s.bufhead_ = s.buftail_ then s.fstate_ ||| SNOOP_FULL else s.fstate_
      expNextAck_ := if seq < s.lastSeen_ then (s.buftail_ : ℤ) else s.expNextAck_
      lastSeen_ := if seq < s.lastSeen_ then s.lastSeen_ else seq }, decide (seq < s.lastSeen_)) := by
  by_cases htail : s.buftail_ = i
  · subst htail
    by_cases hfull : s.bufhead_ = s.buftail_ <;> by_cases hseq : seq < s.lastSeen_ <;>
      simp [save, savepkt_, savedPacket, modify, setFlag, hfull, hseq]
  · by_cases hfull : s.bufhead_ = s.buftail_ <;> by_cases hseq : seq < s.lastSeen_ <;>
      simp [save, savepkt_, savedPacket, setFlag, hfull, hseq, htail]

/-- The new packet is in the list, and all the others stay. -/
theorem save_ring {s : Snoop} {l : List SnoopPacket} {seq : ℤ} {k : ℕ} (h : Ready s l seq k)
    (now : ℚ) {i : ℕ} (hi : i = (s.buftail_ + k) % s.maxbufs_) :
    Ring (s.save now seq i).1 (l.insertIdx k (s.savedPacket now seq i)) := by
  have hroom := h.room
  have hlen : (l.insertIdx k (s.savedPacket now seq i)).length = l.length + 1 :=
    List.length_insertIdx_of_le_length h.le_length _
  rw [save_eq]
  refine ⟨?_, h.tail_lt, ?_, h.sorted_insert rfl, fun p hp => ?_, fun p hp => ?_, ?_, ?_⟩
  · have hfill := h.gap.fill h.le_length h.room (s.savedPacket now seq i)
    rwa [← hi] at hfill
  · rw [hlen]
    exact h.head
  · rcases h.mem_insert.mp hp with rfl | hp
    · exact h.fresh
    · exact h.above p hp
  · dsimp only
    rcases h.mem_insert.mp hp with rfl | hp
    · split_ifs with hlt
      · exact hlt.le
      · exact le_refl _
    · have := h.seen p hp
      split_ifs <;> omega
  · have hnot := h.not_full
    rw [is_full] at hnot ⊢
    rw [hlen, ← h.full_iff]
    dsimp only
    split_ifs with hfull
    · exact iff_of_true (or_full_bit _) hfull
    · exact iff_of_false (ne_of_eq_of_ne hnot (by decide)) hfull
  · have hnot := h.not_closed
    rw [is_closed] at hnot ⊢
    dsimp only
    split_ifs
    · exact (or_full_other _ (by decide)).trans hnot
    · exact hnot

/-- The numbers of a packet that its header fields do not touch. -/
def name (p : SnoopPacket) : ℕ × ℤ := (p.id, p.seqno)

/-- What a list of packets says about sequence numbers is said about their names. -/
theorem exists_name {l l' : List SnoopPacket} (h : l'.map name = l.map name) {p : SnoopPacket}
    (hp : p ∈ l') : ∃ q ∈ l, q.id = p.id ∧ q.seqno = p.seqno := by
  have hmem : name p ∈ l.map name := h ▸ List.mem_map_of_mem hp
  obtain ⟨q, hq, hname⟩ := List.mem_map.mp hmem
  exact ⟨q, hq, congrArg Prod.fst hname, congrArg Prod.snd hname⟩

theorem map_set_name {l : List SnoopPacket} {k : ℕ} {p q : SnoopPacket} (hk : l[k]? = some p)
    (hq : name q = name p) : (l.set k q).map name = l.map name := by
  obtain ⟨hlt, hval⟩ := List.getElem?_eq_some_iff.mp hk
  have hlt' : k < (l.map name).length := by rwa [List.length_map]
  have hp : (l.map name)[k] = name p := by rw [List.getElem_map, hval]
  rw [List.map_set, hq, ← hp, List.set_getElem_self]

/-- Other header fields in one packet of the ring. -/
theorem Ring.modify {s : Snoop} {l : List SnoopPacket} (h : Ring s l) {k : ℕ} {p : SnoopPacket}
    (hk : l[k]? = some p) {f : SnoopPacket → SnoopPacket} (hf : name (f p) = name p) {i : ℕ}
    (hi : i = (s.buftail_ + k) % s.maxbufs_) : Ring (s.modify i f) (l.set k (f p)) := by
  have hlen := h.holds.length
  have hlt : k < l.length := (List.getElem?_eq_some_iff.mp hk).1
  have hname := map_set_name hk hf
  have hcell : s.pkts_ i = some p := by rw [hi, h.holds.cells k (by omega), hk]
  refine ⟨?_, h.tail_lt, ?_, ?_, fun q hq => ?_, fun q hq => ?_, ?_, h.not_closed⟩
  · have hset := h.holds.set hlt (f p)
    rw [← hi] at hset
    rw [Snoop.modify, hcell]
    exact hset
  · rw [List.length_set]
    exact h.head
  · have hsort : (l.map name).Pairwise (fun a b => a.2 < b.2) := List.pairwise_map.mpr h.sorted
    rw [← hname] at hsort
    exact (List.pairwise_map (f := name) (R := fun a b => a.2 < b.2)).mp hsort
  · obtain ⟨r, hr, -, hseq⟩ := exists_name hname hq
    exact hseq ▸ h.above r hr
  · obtain ⟨r, hr, -, hseq⟩ := exists_name hname hq
    exact hseq ▸ h.seen r hr
  · rw [List.length_set]
    exact h.full

/-- Where a search can end. -/
inductive Found (s : Snoop) (l : List SnoopPacket) (seq : ℤ) : Place → Prop
  | cached (j p) (hp : l[j]? = some p) (h : p.seqno = seq) :
      Found s l seq (.cached ((s.buftail_ + j) % s.maxbufs_))
  | middle (j p) (hp : l[j]? = some p) (h : seq < p.seqno) (hb : ∀ q ∈ l.take j, q.seqno < seq) :
      Found s l seq (.middle ((s.buftail_ + j) % s.maxbufs_))
  | behind (hb : ∀ q ∈ l, q.seqno < seq) : Found s l seq (.behind s.bufhead_)

theorem search_found {s : Snoop} {l : List SnoopPacket} (h : Ring s l)
    (hroom : l.length < s.maxbufs_) (seq : ℤ) {f k : ℕ} (hk : k ≤ l.length) (hf : l.length - k < f)
    (hb : ∀ q ∈ l.take k, q.seqno < seq) :
    ∃ place, s.search seq f ((s.buftail_ + k) % s.maxbufs_) = some place ∧ Found s l seq place := by
  induction f generalizing k with
  | zero => omega
  | succ f ih =>
    rcases Nat.lt_or_eq_of_le hk with hlt | rfl
    · have hne : (s.buftail_ + k) % s.maxbufs_ ≠ s.bufhead_ := by
        rw [h.head]
        intro he
        have := RingWindow.slot_inj (by omega) hroom he
        omega
      obtain ⟨p, hp⟩ : ∃ p, l[k]? = some p := ⟨_, List.getElem?_eq_getElem hlt⟩
      have hcell : s.pkts_ ((s.buftail_ + k) % s.maxbufs_) = some p := by
        rw [h.holds.cells k (by omega), hp]
      rw [search, if_neg hne, hcell]
      dsimp only
      by_cases heq : p.seqno = seq
      · exact ⟨_, if_pos heq, .cached k p hp heq⟩
      · by_cases hgt : p.seqno > seq
        · exact ⟨_, by rw [if_neg heq, if_pos hgt], .middle k p hp hgt hb⟩
        · rw [if_neg heq, if_neg hgt, next_slot]
          refine ih hlt (by omega) fun q hq => ?_
          rw [List.take_add_one, hp, List.mem_append] at hq
          rcases hq with hq | hq
          · exact hb q hq
          · rw [Option.toList_some, List.mem_singleton] at hq
            subst hq
            omega
    · rw [← h.head, search, if_pos rfl]
      exact ⟨_, rfl, .behind fun q hq => hb q (by rwa [List.take_length])⟩

/-- Every packet of the first list is in the second one, possibly with other header fields. -/
def Keeps (l l' : List SnoopPacket) : Prop := ∀ p ∈ l, ∃ q ∈ l', q.id = p.id

theorem keeps_set {l : List SnoopPacket} {k : ℕ} {p q : SnoopPacket} (hk : l[k]? = some p)
    (hq : name q = name p) : Keeps l (l.set k q) := by
  intro r hr
  obtain ⟨r', hr', hid, -⟩ := exists_name (map_set_name hk hq).symm hr
  exact ⟨r', hr', hid⟩

theorem Pending.keeps {s s' : Snoop} {l l' : List SnoopPacket} (h : Pending s l) (hl : Keeps l l')
    (hs : s'.toutPending_ = s.toutPending_) : Pending s' l' := by
  intro e he
  rw [hs] at he
  obtain ⟨p, hp, hid⟩ := h e he
  obtain ⟨q, hq, hqid⟩ := hl p hp
  exact ⟨q, hq, hqid.trans hid⟩

section

variable {s : Snoop} {l : List SnoopPacket} {seq : ℤ}

theorem Ring.not_full (h : Ring s l) (hroom : l.length < s.maxbufs_) :
    s.is SNOOP_FULL = false := by
  rw [← Bool.not_eq_true, h.full]
  omega

/-- The packet goes behind the others. -/
theorem Ring.ready_behind (h : Ring s l) (hroom : l.length < s.maxbufs_) (hack : s.lastAck_ < seq)
    (hb : ∀ q ∈ l, q.seqno < seq) :
    Ready { s with bufhead_ := next s.maxbufs_ s.bufhead_ } l seq l.length where
  gap := h.holds.gap_behind
  tail_lt := h.tail_lt
  le_length := le_refl _
  room := hroom
  head := by
    dsimp only
    rw [h.head, next_slot]
  sorted := h.sorted
  above := h.above
  seen := h.seen
  before q hq := hb q (by rwa [List.take_length] at hq)
  behind q hq := by simp at hq
  fresh := hack
  not_full := h.not_full hroom
  not_closed := h.not_closed

/-- The head, counted from the slot in front of the tail. -/
theorem Ring.head_prev (h : Ring s l) :
    s.bufhead_ = (prev s.maxbufs_ s.buftail_ + (l.length + 1)) % s.maxbufs_ := by
  rw [slot_prev h.tail_lt, h.head]

/-- The packet goes in front of the others. -/
theorem Ring.ready_front (h : Ring s l) (hroom : l.length < s.maxbufs_) (hack : s.lastAck_ < seq)
    (hb : ∀ q ∈ l, seq < q.seqno) :
    Ready { s with buftail_ := prev s.maxbufs_ s.buftail_ } l seq 0 where
  gap := h.holds.gap h.tail_lt
  tail_lt := prev_lt h.tail_lt
  le_length := Nat.zero_le _
  room := hroom
  head := h.head_prev
  sorted := h.sorted
  above := h.above
  seen := h.seen
  before q hq := by simp at hq
  behind q hq := hb q hq
  fresh := hack
  not_full := h.not_full hroom
  not_closed := h.not_closed

theorem Ring.ready_middle (h : Ring s l) (hroom : l.length < s.maxbufs_) (hack : s.lastAck_ < seq)
    {j : ℕ} {p : SnoopPacket} (hp : l[j]? = some p) (hgt : seq < p.seqno)
    (hb : ∀ q ∈ l.take j, q.seqno < seq) :
    Ready (s.openSlot ((s.buftail_ + j) % s.maxbufs_)) l seq j ∧
      prev s.maxbufs_ ((s.buftail_ + j) % s.maxbufs_) =
        ((s.openSlot ((s.buftail_ + j) % s.maxbufs_)).buftail_ + j) % s.maxbufs_ := by
  obtain ⟨hlt, hval⟩ := List.getElem?_eq_some_iff.mp hp
  have htail := h.tail_lt
  have hslot : prev s.maxbufs_ ((s.buftail_ + j) % s.maxbufs_) =
      (prev s.maxbufs_ s.buftail_ + j) % s.maxbufs_ := by
    rw [← slot_prev htail, prev_slot (by omega)]
  have hshift := shift_gap (i := 0) (k := j) (f := s.maxbufs_ + 1) (by omega) htail (Nat.zero_le j)
    (by omega) (h.holds.gap htail)
  have h0 : (s.buftail_ + 0) % s.maxbufs_ = s.buftail_ := Nat.mod_eq_of_lt htail
  rw [h0] at hshift
  refine ⟨⟨?_, prev_lt htail, hlt.le, hroom, h.head_prev, h.sorted, h.above, h.seen, hb, ?_, hack,
    h.not_full hroom, h.not_closed⟩, hslot⟩
  · have hset := hshift.update (k := j) (by omega) (s.pkts_ (prev s.maxbufs_ s.buftail_))
    rw [← hslot] at hset
    exact hset
  · intro q hq
    have hdrop : l.drop j = p :: l.drop (j + 1) := by
      rw [List.drop_eq_getElem_cons hlt, hval]
    have hsort := h.sorted.sublist (List.drop_sublist j l)
    rw [hdrop] at hq hsort
    rcases List.mem_cons.mp hq with rfl | hq
    · exact hgt
    · exact hgt.trans ((List.pairwise_cons.mp hsort).1 q hq)

theorem keeps_insertIdx {k : ℕ} (hk : k ≤ l.length) (x : SnoopPacket) :
    Keeps l (l.insertIdx k x) := fun p hp => ⟨p, (List.mem_insertIdx hk).mpr (.inr hp), rfl⟩

theorem save_pending (s : Snoop) (now : ℚ) (seq : ℤ) (i : ℕ) :
    (s.save now seq i).1.toutPending_ = s.toutPending_ := by rw [save_eq]

/-- A packet that finds room, or that is acknowledged already. -/
theorem snoop_insert_ring (h : Ring s l) (now : ℚ)
    (hroom : s.lastAck_ < seq → l.length < s.maxbufs_) :
    ∃ s' tail l', s.snoop_insert now seq = some (s', tail) ∧ Ring s' l' ∧ Keeps l l' ∧
      s'.toutPending_ = s.toutPending_ := by
  by_cases hack : seq ≤ s.lastAck_
  · exact ⟨s, false, l, by rw [snoop_insert, if_pos hack], h, fun p hp => ⟨p, hp, rfl⟩, rfl⟩
  · have hroom := hroom (not_le.mp hack)
    have hack' := not_le.mp hack
    have hfull := h.not_full hroom
    rw [snoop_insert, if_neg hack, hfull]
    dsimp only
    simp only [Bool.false_eq_true, if_false]
    by_cases hbehind : seq > s.lastSeen_ ∨ s.pkts_ s.buftail_ = none
    · have hb : ∀ q ∈ l, q.seqno < seq := by
        intro q hq
        rcases hbehind with hgt | hnone
        · exact (h.seen q hq).trans_lt hgt
        · rw [h.first, List.head?_eq_none_iff] at hnone
          simp [hnone] at hq
      have hready := h.ready_behind hroom hack' hb
      rw [if_pos hbehind]
      exact ⟨_, _, _, rfl, save_ring hready now h.head, keeps_insertIdx (le_refl _) _,
        save_pending ..⟩
    · rw [if_neg hbehind]
      obtain ⟨p, l₁, rfl⟩ : ∃ p l₁, l = p :: l₁ := by
        rw [not_or] at hbehind
        refine List.exists_cons_of_ne_nil fun hnil => hbehind.2 ?_
        rw [h.first, hnil]
        rfl
      have hfirst : s.pkts_ s.buftail_ = some p := by
        rw [h.first]
        rfl
      rw [hfirst]
      dsimp only
      by_cases hfront : seq < p.seqno
      · have hb : ∀ q ∈ p :: l₁, seq < q.seqno := by
          intro q hq
          rcases List.mem_cons.mp hq with rfl | hq
          · exact hfront
          · exact hfront.trans ((List.pairwise_cons.mp h.sorted).1 q hq)
        rw [if_pos hfront]
        have hslot : prev s.maxbufs_ s.buftail_ =
            (prev s.maxbufs_ s.buftail_ + 0) % s.maxbufs_ := by
          rw [Nat.add_zero, Nat.mod_eq_of_lt (prev_lt h.tail_lt)]
        exact ⟨_, _, _, rfl, save_ring (h.ready_front hroom hack' hb) now hslot,
          keeps_insertIdx (Nat.zero_le _) _, save_pending ..⟩
      · obtain ⟨place, hplace, hfound⟩ := search_found h hroom seq (f := s.maxbufs_ + 1) (k := 0)
          (Nat.zero_le _) (by omega) (by simp)
        have h0 : (s.buftail_ + 0) % s.maxbufs_ = s.buftail_ := Nat.mod_eq_of_lt h.tail_lt
        rw [h0] at hplace
        rw [if_neg hfront, hplace]
        cases hfound with
        | cached j q hq hseq =>
          exact ⟨_, _, _, rfl, h.modify hq rfl rfl, keeps_set hq rfl, rfl⟩
        | middle j q hq hgt hb =>
          obtain ⟨hready, hslot⟩ := h.ready_middle hroom hack' hq hgt hb
          have hj : j ≠ 0 := by
            rintro rfl
            obtain rfl : p = q := by simpa using hq
            exact hfront hgt
          have hne : prev s.maxbufs_ ((s.buftail_ + j) % s.maxbufs_) ≠ s.bufhead_ := fun he =>
            hready.slot_ne_head hj (List.getElem?_eq_some_iff.mp hq).1 (hslot.symm.trans he)
          have hext : (s.openSlot ((s.buftail_ + j) % s.maxbufs_)).extend
              (prev s.maxbufs_ ((s.buftail_ + j) % s.maxbufs_)) =
              s.openSlot ((s.buftail_ + j) % s.maxbufs_) := if_neg hne
          dsimp only
          rw [hext]
          exact ⟨_, _, _, rfl, save_ring hready now hslot, keeps_insertIdx hready.le_length _,
            save_pending ..⟩
        | behind hb =>
          have hready := h.ready_behind hroom hack' hb
          have hext : s.extend s.bufhead_ =
              { s with bufhead_ := next s.maxbufs_ s.bufhead_ } := if_pos rfl
          dsimp only
          rw [hext]
          exact ⟨_, _, _, rfl, save_ring hready now h.head, keeps_insertIdx (le_refl _) _,
            save_pending ..⟩

end

end Snoop

end Ns2
