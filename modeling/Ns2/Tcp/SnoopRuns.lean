import Ns2.Tcp.SnoopRing

/-! The snoop agent over whole runs: its ring, its flags and its pending event are sound as long as no
packet has to make room for another one. -/

namespace Ns2

namespace Snoop

open OptionRing

/-- The packets from the tail up to the head are sorted and above the last acknowledgement, the flags
say what they should, and the pending event is one of these packets. -/
def Sound (s : Snoop) : Prop :=
  ∃ l, Holds s.maxbufs_ s.buftail_ s.pkts_ l ∧
    s.bufhead_ = (s.buftail_ + l.length) % s.maxbufs_ ∧
    l.Pairwise (·.seqno < ·.seqno) ∧ (∀ p ∈ l, s.lastAck_ < p.seqno) ∧
    (s.is SNOOP_FULL = true ↔ l.length = s.maxbufs_) ∧ s.is SNOOP_CLOSED = false ∧ Pending s l

/-- A new packet for the cache comes when it is full and replaces the least recently used. -/
def Evicts (s : Snoop) : Event → Prop
  | .data _ seq room => s.lru_ = true ∧ s.is SNOOP_FULL = true ∧ s.lastAck_ < seq ∧ room = true ∧
      ¬ (s.is SNOOP_ALIVE = true ∧ seq = 0)
  | _ => False

instance (s : Snoop) (e : Event) : Decidable (Evicts s e) := by
  cases e <;> unfold Evicts <;> infer_instance

def Good (s : Snoop) : Prop := ∃ l, Ring s l ∧ Pending s l

theorem Good.sound {s : Snoop} (h : Good s) : Sound s := by
  obtain ⟨l, hr, hp⟩ := h
  exact ⟨l, hr.holds, hr.head, hr.sorted, hr.above, hr.full, hr.not_closed, hp⟩

section

variable {s : Snoop} {l : List SnoopPacket}

/-- The ring does not depend on the pending event and on the duplicate acknowledgements expected. -/
theorem Ring.fields (h : Ring s l) (e : Option ℕ) (x y : ℤ) :
    Ring { s with toutPending_ := e, expNextAck_ := x, expDupacks_ := y } l :=
  ⟨h.holds, h.tail_lt, h.head, h.sorted, h.above, h.seen, h.full, h.not_closed⟩

theorem Ring.schedule (h : Ring s l) (hp : Pending s l) :
    Ring s.schedule l ∧ Pending s.schedule l := by
  rw [Snoop.schedule]
  split_ifs with hcond
  · refine ⟨h.fields _ _ _, fun e he => ?_⟩
    dsimp only at he
    rw [h.first] at he
    obtain ⟨p, hhead, hid⟩ := Option.map_eq_some_iff.mp he
    exact ⟨p, List.mem_of_mem_head? hhead, hid⟩
  · exact ⟨h, hp⟩

/-- The packet at the tail is pending when it is sent again. -/
theorem Ring.rxmit {p : SnoopPacket} (h : Ring s l) (hp : Pending s l)
    (hfirst : s.pkts_ s.buftail_ = some p) (now : ℚ) : Good (s.snoop_rxmit now p).1 := by
  rw [snoop_rxmit]
  split_ifs with hmax
  · have h0 : l[0]? = some p := by
      rw [← List.head?_eq_getElem?, ← h.first, hfirst]
    have htail : s.buftail_ = (s.buftail_ + 0) % s.maxbufs_ := (Nat.mod_eq_of_lt h.tail_lt).symm
    have hm := h.modify h0 (f := fun p => { p with sndTime := now, numRxmit := p.numRxmit + 1 })
      rfl htail
    have hkeeps : Keeps l (l.set 0 { p with sndTime := now, numRxmit := p.numRxmit + 1 }) :=
      keeps_set h0 rfl
    refine ⟨_, hm.fields _ _ _, fun e he => ?_⟩
    obtain rfl : p.id = e := Option.some.inj he
    exact hkeeps p (List.mem_of_getElem? h0)
  · exact ⟨l, h, hp⟩

/-- The timer takes the pending event away first. -/
theorem Ring.timeout (h : Ring s l) (now : ℚ) : Good (s.timeout now).1 := by
  have hn : Ring { s with toutPending_ := none } l := h.fields none _ _
  have hnone : Good { s with toutPending_ := none } := ⟨l, hn, .none rfl l⟩
  rw [Snoop.timeout]
  dsimp only
  cases hfirst : s.pkts_ s.buftail_ with
  | none => exact hnone
  | some p =>
    dsimp only
    obtain ⟨l', hr, hp⟩ := hn.rxmit (.none rfl l) hfirst now
    split_ifs
    · exact hnone
    · exact ⟨l', hr.fields _ _ _, hp⟩
    · exact ⟨l', hr, hp⟩
    · exact hnone

theorem Ring.check (h : Ring s l) (hp : Pending s l) (now bound : ℚ) :
    ∃ s' o, s.check_rxmit now bound = some (s', o) ∧ Good s' := by
  rw [check_rxmit]
  split_ifs with hempty
  · exact ⟨s, _, rfl, l, h, hp⟩
  · obtain ⟨p, hp'⟩ : ∃ p, l.head? = some p := by
      rw [h.empty_iff] at hempty
      exact Option.isSome_iff_exists.mp (List.isSome_head?.mpr hempty)
    have hfirst := h.first.trans hp'
    rw [hfirst]
    dsimp only
    split_ifs
    · exact ⟨_, _, rfl, h.rxmit hp hfirst now⟩
    · exact ⟨s, _, rfl, l, h, hp⟩

/-- What the loop leaves: the packets from the first one on that is not acknowledged. -/
theorem cleanLoop_spec (ack : ℤ) {f i : ℕ} (hl : Holds s.maxbufs_ i s.pkts_ l) (hi : i < s.maxbufs_)
    (hne : l ≠ []) (hf : l.length ≤ f) (hhead : s.bufhead_ = (i + l.length) % s.maxbufs_) :
    ∃ s' i', s.cleanLoop ack f i = some (s', i') ∧
      Holds s.maxbufs_ i' s'.pkts_ (l.dropWhile fun p => p.seqno ≤ ack) ∧ i' < s.maxbufs_ ∧
      s.bufhead_ = (i' + (l.dropWhile fun p => p.seqno ≤ ack).length) % s.maxbufs_ ∧
      s' = { s with
        pkts_ := s'.pkts_
        fstate_ := if l.dropWhile (fun p => p.seqno ≤ ack) = l then s.fstate_
          else s.fstate_ &&& ~~~SNOOP_FULL } := by
  induction f generalizing s l i with
  | zero => exact absurd (List.eq_nil_of_length_eq_zero (by omega)) hne
  | succ f ih =>
    obtain ⟨p, l, rfl⟩ := List.exists_cons_of_ne_nil hne
    have hcell : s.pkts_ i = some p := hl.first hi
    rw [cleanLoop, hcell]
    dsimp only
    by_cases hack : p.seqno ≤ ack
    · have hpop := hl.pop hi
      have hshort : l.dropWhile (fun p => p.seqno ≤ ack) ≠ p :: l := fun he => by
        have := (List.dropWhile_sublist (fun p : SnoopPacket => decide (p.seqno ≤ ack)) (l := l)).length_le
        rw [he, List.length_cons] at this
        omega
      have hdrop : (p :: l).dropWhile (fun p => p.seqno ≤ ack) =
          l.dropWhile fun p => p.seqno ≤ ack := List.dropWhile_cons_of_pos (by simpa using hack)
      have hhead' : s.bufhead_ = (next s.maxbufs_ i + l.length) % s.maxbufs_ := by
        rw [hhead, next, Nat.mod_add_mod, List.length_cons, Nat.add_assoc, Nat.add_comm 1]
      have hlen := hl.length
      rw [List.length_cons] at hlen hf
      have hi' := next_lt (i.zero_le.trans_lt hi) i
      rw [if_pos hack, hdrop, if_neg hshort]
      by_cases hstop : next s.maxbufs_ i = s.bufhead_
      · obtain rfl : l = [] := by
          refine List.eq_nil_of_length_eq_zero (RingWindow.slot_inj (n := s.maxbufs_)
            (h := next s.maxbufs_ i) (i := l.length) (j := 0) (by omega) (by omega) ?_)
          rw [← hhead', Nat.add_zero, Nat.mod_eq_of_lt hi', hstop]
        exact ⟨_, _, if_neg (not_not.mpr hstop), hpop, hi', hhead', rfl⟩
      · have hne' : l ≠ [] := by
          rintro rfl
          rw [List.length_nil, Nat.add_zero, Nat.mod_eq_of_lt hi'] at hhead'
          exact hstop hhead'.symm
        obtain ⟨s', i', hloop, hholds, hlt, hbuf, hs'⟩ := ih
          (s := { s.clearFlag SNOOP_FULL with pkts_ := Function.update s.pkts_ i none })
          hpop hi' hne' (by omega) hhead'
        refine ⟨s', i', (if_pos hstop).trans hloop, hholds, hlt, hbuf, ?_⟩
        rw [hs']
        dsimp only [clearFlag]
        rw [BitVec.and_assoc, BitVec.and_self, ite_self]
    · have hdrop : (p :: l).dropWhile (fun p => p.seqno ≤ ack) = p :: l :=
        List.dropWhile_cons_of_neg (by simpa using hack)
      rw [if_neg hack, hdrop, if_pos rfl]
      exact ⟨s, i, rfl, hl, hi, hhead, rfl⟩

theorem above_of_dropWhile (ack : ℤ) (h : l.Pairwise (·.seqno < ·.seqno)) :
    ∀ q ∈ l.dropWhile fun p => p.seqno ≤ ack, ack < q.seqno := by
  induction l with
  | nil => simp
  | cons p l ih =>
    obtain ⟨hp, hl⟩ := List.pairwise_cons.mp h
    by_cases hack : p.seqno ≤ ack
    · rw [List.dropWhile_cons_of_pos (by simpa using hack)]
      exact ih hl
    · rw [List.dropWhile_cons_of_neg (by simpa using hack)]
      intro q hq
      rcases List.mem_cons.mp hq with rfl | hq
      · exact not_le.mp hack
      · exact (not_le.mp hack).trans (hp q hq)

/-- The flag and the tail after the loop. -/
theorem Ring.afterLoop {l' : List SnoopPacket} {a : ℕ → Option SnoopPacket} {i : ℕ} (h : Ring s l)
    (hne : l ≠ []) (hsub : l'.Sublist l) (ha : Holds s.maxbufs_ i a l') (hi : i < s.maxbufs_)
    (hhead : s.bufhead_ = (i + l'.length) % s.maxbufs_) (t : Snoop)
    (ht : t = { s with
      pkts_ := a
      fstate_ := if l' = l then s.fstate_ else s.fstate_ &&& ~~~SNOOP_FULL }) :
    Ring (if i ≠ t.buftail_ ∨ t.bufhead_ ≠ t.buftail_ then
      { t.clearFlag SNOOP_FULL with buftail_ := i } else t) l' := by
  have hlen := h.holds.length
  have hcases : ∀ f : BitVec 16, (f.getLsbD 3 = true ↔ l'.length = s.maxbufs_) →
      f.getLsbD 1 = false → Ring { s with pkts_ := a, fstate_ := f, buftail_ := i } l' :=
    fun f h3 h1 => by
      refine ⟨ha, hi, hhead, h.sorted.sublist hsub, fun p hp => h.above p (hsub.subset hp),
        fun p hp => h.seen p (hsub.subset hp), ?_, ?_⟩
      · rw [is_full]
        exact h3
      · rw [is_closed]
        exact h1
  have h1 : s.fstate_.getLsbD 1 = false := by
    rw [← is_closed]
    exact h.not_closed
  have h1' : (s.fstate_ &&& ~~~SNOOP_FULL).getLsbD 1 = false := by
    rw [clear_full_other _ (by decide), h1]
  have hbit : ¬ (s.fstate_ &&& ~~~SNOOP_FULL).getLsbD 3 = true := by
    rw [clear_full_bit]
    decide
  have hpos := List.length_pos_of_ne_nil hne
  subst ht
  by_cases he : l' = l
  · subst he
    -- nothing was freed
    have hit : i = s.buftail_ := by
      have hcast := h.head.symm.trans hhead
      have := Nat.ModEq.add_right_cancel' (n := s.maxbufs_) l'.length hcast
      rw [Nat.ModEq, Nat.mod_eq_of_lt h.tail_lt, Nat.mod_eq_of_lt hi] at this
      exact this.symm
    subst hit
    dsimp only
    rw [if_pos rfl]
    by_cases hfull : l'.length = s.maxbufs_
    · have hbuf := h.head_eq_tail.mpr (.inr hfull)
      rw [if_neg (by simp [hbuf])]
      exact hcases _ (by rw [← is_full]; exact h.full) h1
    · have hbuf : s.bufhead_ ≠ s.buftail_ := fun hb => by
        rcases h.head_eq_tail.mp hb with h0 | hn
        · omega
        · exact hfull hn
      rw [if_pos (.inr hbuf)]
      exact hcases _ (iff_of_false hbit hfull) h1'
  · have hshort : l'.length ≠ s.maxbufs_ := fun hl => he (hsub.eq_of_length_le (by omega))
    have hring : Ring { s with
        pkts_ := a, fstate_ := s.fstate_ &&& ~~~SNOOP_FULL, buftail_ := i } l' :=
      hcases _ (iff_of_false hbit hshort) h1'
    dsimp only
    rw [if_neg he]
    by_cases hcond : i ≠ s.buftail_ ∨ s.bufhead_ ≠ s.buftail_
    · rw [if_pos hcond]
      dsimp only [clearFlag]
      rw [BitVec.and_assoc, BitVec.and_self]
      exact hring
    · rw [if_neg hcond]
      have hit : i = s.buftail_ := not_not.mp (not_or.mp hcond).1
      subst hit
      exact hring

/-- The ring without the packets that are acknowledged. -/
theorem Ring.cleanbufs (h : Ring s l) (ack : ℤ) :
    ∃ s' l', s.snoop_cleanbufs_ ack = some s' ∧ Ring s' l' ∧ Pending s' l' ∧
      ∀ q ∈ l', ack < q.seqno := by
  have hn : Ring { s with toutPending_ := none } l := h.fields none _ _
  rw [snoop_cleanbufs_]
  dsimp only
  by_cases hempty : empty_ { s with toutPending_ := none } = true
  · rw [if_pos hempty]
    obtain rfl := hn.empty_iff.mp hempty
    exact ⟨_, [], rfl, hn, .none rfl _, fun q hq => absurd hq List.not_mem_nil⟩
  · have hne : l ≠ [] := fun he => hempty (hn.empty_iff.mpr he)
    have hlen := h.holds.length
    obtain ⟨s', i', hloop, hholds, hlt, hbuf, hs'⟩ := cleanLoop_spec ack hn.holds hn.tail_lt hne
      (f := s.maxbufs_ + 1) (by omega) hn.head
    rw [if_neg hempty, hloop]
    generalize hl' : l.dropWhile (fun p => p.seqno ≤ ack) = l' at hholds hbuf hs'
    have hsub : l'.Sublist l := hl' ▸ List.dropWhile_sublist _
    have habove : ∀ q ∈ l', ack < q.seqno := hl' ▸ above_of_dropWhile ack h.sorted
    have hring := hn.afterLoop hne hsub hholds hlt hbuf s' hs'
    have hpend : (if i' ≠ s'.buftail_ ∨ s'.bufhead_ ≠ s'.buftail_ then
        { s'.clearFlag SNOOP_FULL with buftail_ := i' } else s').toutPending_ = none := by
      have hp : s'.toutPending_ = none := by rw [hs']
      split_ifs <;> exact hp
    obtain ⟨hr, hp⟩ := hring.schedule (.none hpend l')
    exact ⟨_, l', rfl, hr, hp, habove⟩

/-- Flags that do not concern the ring. -/
theorem Ring.flags (h : Ring s l) {f : BitVec 16} (h3 : f.getLsbD 3 = s.fstate_.getLsbD 3)
    (h1 : f.getLsbD 1 = s.fstate_.getLsbD 1) : Ring { s with fstate_ := f } l := by
  refine ⟨h.holds, h.tail_lt, h.head, h.sorted, h.above, h.seen, ?_, ?_⟩
  · have := h.full
    rw [is_full] at this ⊢
    dsimp only
    rwa [h3]
  · have := h.not_closed
    rw [is_closed] at this ⊢
    dsimp only
    rwa [h1]

theorem Ring.ack (h : Ring s l) (hp : Pending s l) (now : ℚ) (thresh ack : ℤ) :
    ∃ s' o, s.snoop_ack now thresh ack = some (s', o) ∧ Good s' := by
  have hsame : Good s := ⟨l, h, hp⟩
  have hnack : Ring (s.clearFlag SNOOP_NOACK) l := by
      refine h.flags ?_ ?_ <;> simp [SNOOP_NOACK]
  rw [snoop_ack]
  by_cases hold : (s.is SNOOP_CLOSED || decide (s.lastAck_ > ack)) = true
  · rw [if_pos hold]
    exact ⟨s, _, rfl, hsame⟩
  · rw [if_neg hold]
    by_cases hdup : s.lastAck_ = ack
    · rw [if_pos hdup]
      cases hfirst : s.pkts_ s.buftail_ with
      | none => exact ⟨s, _, rfl, hsame⟩
      | some p =>
        have hrx : ∀ x y : ℤ,
            Good (snoop_rxmit { s with expDupacks_ := x, expNextAck_ := y } now p).1 :=
          fun x y => Ring.rxmit (s := { s with expDupacks_ := x, expNextAck_ := y })
            (h.fields _ _ _) hp hfirst now
        have hf : ∀ x y : ℤ, Good { s with expDupacks_ := x, expNextAck_ := y } :=
          fun x y => ⟨l, h.fields _ _ _, hp⟩
        dsimp only
        split_ifs <;>
          first
          | exact ⟨_, _, rfl, hrx _ _⟩
          | exact ⟨_, _, rfl, hf _ _⟩
    · obtain ⟨s', l', hc, hr, hp', habove⟩ := hnack.cleanbufs ack
      rw [if_neg hdup, hc]
      exact ⟨_, _, rfl, l', ⟨hr.holds, hr.tail_lt, hr.head, hr.sorted, habove, hr.seen, hr.full,
        hr.not_closed⟩, hp'⟩

theorem ring_reset (hpos : 0 < s.maxbufs_) : Ring s.reset [] where
  holds := .nil fun _ _ => rfl
  tail_lt := hpos
  head := (Nat.zero_mod _).symm
  sorted := .nil
  above p hp := absurd hp List.not_mem_nil
  seen p hp := absurd hp List.not_mem_nil
  full := by
    rw [is_full]
    exact iff_of_false (show ¬ (0 : BitVec 16).getLsbD 3 = true by decide) hpos.ne
  not_closed := by
    rw [is_closed]
    exact show (0 : BitVec 16).getLsbD 1 = false by decide

/-- `snoop_data` behind the reset at a first packet. -/
theorem Ring.insert (h : Ring s l) (hp : Pending s l) (now : ℚ) (seq : ℤ) (room : Bool)
    (hspared : ¬ (s.lru_ = true ∧ s.is SNOOP_FULL = true ∧ s.lastAck_ < seq ∧ room = true)) :
    ∃ s', (if s.is SNOOP_FULL && !s.lru_ then
        some (if seq > s.lastSeen_ then { s with lastSeen_ := seq } else s)
      else do
        let (s, tail) ← s.insertIf now seq room
        let s := if tail then { s with toutPending_ := none } else s
        some s.schedule) = some s' ∧ Good s' := by
  by_cases hfull : (s.is SNOOP_FULL && !s.lru_) = true
  · rw [if_pos hfull]
    refine ⟨_, rfl, l, ?_, ?_⟩
    · split_ifs with hseen
      · exact ⟨h.holds, h.tail_lt, h.head, h.sorted, h.above,
          fun p hq => (h.seen p hq).trans (le_of_lt hseen), h.full, h.not_closed⟩
      · exact h
    · split_ifs <;> exact hp
  · rw [if_neg hfull]
    have hinsert : ∃ s' tail l', s.insertIf now seq room = some (s', tail) ∧ Ring s' l' ∧
        Keeps l l' ∧ s'.toutPending_ = s.toutPending_ := by
      rw [insertIf]
      by_cases hroom : room = true
      · rw [if_pos hroom]
        refine snoop_insert_ring h now fun hack => lt_of_le_of_ne h.holds.length fun hlen => ?_
        have hf := h.full.mpr hlen
        refine hspared ⟨?_, hf, hack, hroom⟩
        simpa [hf] using hfull
      · rw [if_neg hroom]
        exact ⟨s, false, l, rfl, h, fun p hp => ⟨p, hp, rfl⟩, rfl⟩
    obtain ⟨s', tail, l', hins, hr, hk, ht⟩ := hinsert
    have hp' := hp.keeps hk ht
    rw [hins]
    refine ⟨_, rfl, l', ?_⟩
    cases tail with
    | false => exact hr.schedule hp'
    | true =>
      exact Ring.schedule (s := { s' with toutPending_ := none }) (hr.fields none _ _)
        (.none rfl l')

theorem Ring.data (h : Ring s l) (hp : Pending s l) (now : ℚ) (seq : ℤ) (room : Bool)
    (hspared : ¬ Evicts s (.data now seq room)) :
    ∃ s', s.snoop_data now seq room = some s' ∧ Good s' := by
  have hset : ∀ {t : Snoop} {l : List SnoopPacket}, Ring t l → Ring (t.setFlag SNOOP_ALIVE) l :=
    fun ht => ht.flags (by simp [SNOOP_ALIVE]) (by simp [SNOOP_ALIVE])
  have hfull : ∀ t : Snoop, (t.setFlag SNOOP_ALIVE).is SNOOP_FULL = t.is SNOOP_FULL := fun t => by
    rw [is_full, is_full]
    simp [setFlag, SNOOP_ALIVE]
  rw [snoop_data]
  by_cases hfirst : (s.is SNOOP_ALIVE && seq == 0) = true
  · rw [if_pos hfirst]
    have hring := hset (ring_reset (s := s) (Nat.zero_lt_of_lt h.tail_lt))
    refine hring.insert (.none rfl []) now seq room ?_
    rw [hfull, is_full]
    rintro ⟨-, hf, -⟩
    exact absurd hf (show ¬ (0 : BitVec 16).getLsbD 3 = true by decide)
  · rw [if_neg hfirst]
    refine (hset h).insert hp now seq room ?_
    rw [hfull]
    rintro ⟨hlru, hf, hack, hroom⟩
    refine hspared ⟨hlru, hf, hack, hroom, fun hz => hfirst ?_⟩
    simpa using hz

theorem save_closed {now : ℚ} {seq : ℤ} {i : ℕ} (h : s.fstate_.getLsbD 1 = true) :
    (s.save now seq i).1.fstate_.getLsbD 1 = true := by
  rw [save_eq]
  dsimp only
  split_ifs
  · exact (or_full_other _ (by decide)).trans h
  · exact h

/-- Room is made by setting every flag but the one that is meant. -/
theorem insert_closed {now : ℚ} {seq : ℤ} {s' : Snoop} {tail : Bool} (hack : s.lastAck_ < seq)
    (hfull : s.is SNOOP_FULL = true) (h : s.snoop_insert now seq = some (s', tail)) :
    s'.fstate_.getLsbD 1 = true := by
  have hroom : s.makeRoom.fstate_.getLsbD 1 = true := by
    change (s.fstate_ ||| ~~~SNOOP_FULL).getLsbD 1 = true
    rw [BitVec.getLsbD_or, show (~~~SNOOP_FULL).getLsbD 1 = true by decide, Bool.or_true]
  have hext : ∀ (t : Snoop) (i : ℕ), (t.extend i).fstate_ = t.fstate_ := fun t i => by
    rw [extend]
    split_ifs <;> rfl
  rw [snoop_insert, if_neg (not_le.mpr hack), if_pos hfull] at h
  dsimp only at h
  split_ifs at h
  · rw [← (Prod.mk.inj (Option.some.inj h)).1]
    exact save_closed hroom
  · split at h
    · cases h
    · split_ifs at h
      · rw [← (Prod.mk.inj (Option.some.inj h)).1]
        exact save_closed hroom
      · split at h
        · cases h
        · rw [← (Prod.mk.inj (Option.some.inj h)).1]
          exact hroom
        · rw [← (Prod.mk.inj (Option.some.inj h)).1]
          exact save_closed (by rw [hext]; exact hroom)
        · rw [← (Prod.mk.inj (Option.some.inj h)).1]
          exact save_closed (by rw [hext]; exact hroom)

theorem schedule_fstate (s : Snoop) : s.schedule.fstate_ = s.fstate_ := by
  rw [Snoop.schedule]
  split_ifs <;> rfl

theorem evicts_closed {e : Event} {s' : Snoop} {o : List SnoopAction} (he : Evicts s e)
    (h : s.step e = some (s', o)) : s'.is SNOOP_CLOSED = true := by
  cases e with
  | data now seq room =>
    obtain ⟨hlru, hfull, hack, hroom, hfirst⟩ := he
    have hfull' : (s.setFlag SNOOP_ALIVE).is SNOOP_FULL = true := by
      rw [is_full] at hfull ⊢
      simpa [setFlag, SNOOP_ALIVE] using hfull
    have hno : ¬ ((s.setFlag SNOOP_ALIVE).is SNOOP_FULL && !(s.setFlag SNOOP_ALIVE).lru_) = true := by
      change ¬ ((s.setFlag SNOOP_ALIVE).is SNOOP_FULL && !s.lru_) = true
      simp [hlru]
    have hfirst' : ¬ (s.is SNOOP_ALIVE && seq == 0) = true := by simpa using hfirst
    rw [step, snoop_data, if_neg hfirst', if_neg hno, insertIf, if_pos hroom] at h
    cases hins : (s.setFlag SNOOP_ALIVE).snoop_insert now seq with
    | none =>
      rw [hins] at h
      cases h
    | some r =>
      obtain ⟨t, tail⟩ := r
      have hclosed := insert_closed (s := s.setFlag SNOOP_ALIVE) hack hfull' hins
      rw [hins] at h
      rw [← (Prod.mk.inj (Option.some.inj h)).1, is_closed, schedule_fstate]
      split_ifs <;> exact hclosed
  | ack now thresh ack => exact he.elim
  | timeout now => exact he.elim
  | check now bound => exact he.elim

end

theorem good_new (maxbufs : ℕ) (lru : Bool) : Good (new maxbufs lru) := by
  have hpos : 0 < (new maxbufs lru).maxbufs_ := by
    dsimp only [new]
    split_ifs
    · decide
    · omega
  exact ⟨[], ring_reset hpos, .none rfl []⟩

theorem Good.step {s : Snoop} (h : Good s) {e : Event} (he : ¬ Evicts s e) :
    ∃ s' o, s.step e = some (s', o) ∧ Good s' := by
  obtain ⟨l, hr, hp⟩ := h
  cases e with
  | data now seq room =>
    obtain ⟨s', hs', hg⟩ := hr.data hp now seq room he
    exact ⟨s', [], by rw [Snoop.step, hs']; rfl, hg⟩
  | ack now thresh ack => exact hr.ack hp now thresh ack
  | timeout now => exact ⟨_, _, rfl, hr.timeout now⟩
  | check now bound => exact hr.check hp now bound

/-- A run is sound in all its states if and only if no step of it makes room in a full cache. -/
theorem run_sound (maxbufs : ℕ) (lru : Bool) (es : List Event) :
    Machine.Always step Sound (new maxbufs lru) es ↔
      Machine.Admits step (fun s e => ¬ Evicts s e) (new maxbufs lru) es := by
  refine Machine.always_iff (I := Good) (fun s h => h.sound) (fun s e h he => h.step he)
    (fun s e s' o _ he hs hsound => ?_) (good_new maxbufs lru) es
  obtain ⟨l, -, -, -, -, -, hclosed, -⟩ := hsound
  rw [evicts_closed (not_not.mp he) hs] at hclosed
  cases hclosed

/-- Two packets in a cache of one: the flags say closed, and the pending event is the packet that was
freed. -/
theorem sound_of_evict : ∃ s o, Machine.run step (new 1 true) [.data 0 1 true, .data 1 2 true] =
      some (s, o) ∧ s.is SNOOP_CLOSED = true ∧ s.toutPending_ = some 0 ∧
      (s.pkts_ 0).map (·.id) = some 1 ∧ ¬ Sound s := by
  refine ⟨_, _, rfl, by decide, by decide, by decide, fun h => ?_⟩
  obtain ⟨l, -, -, -, -, -, hclosed, -⟩ := h
  exact absurd hclosed (by decide)

end Snoop

end Ns2
