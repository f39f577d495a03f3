import Ns2.Tcp.ScoreBoardRanges

/-! Cleaning the scoreboard, and the pass of an update over its nodes. -/

namespace Ns2.ScoreBoard1

open ScoreBoardNode1

/-- What holds of the counters and pointers of a board with these nodes. -/
structure Good (b : ScoreBoard1) (nodes : List ScoreBoardNode1) : Prop where
  tiles : ∃ lo hi, Tiles lo hi nodes
  sack : b.sack_out_ = packets .sacked nodes
  lost : b.fack_out_ = packets .lost nodes
  ptr : ∀ a, b.nxt_to_retrx_ = some a → ∃ n ∈ nodes, n.addr = a
  ids : Ids b.fresh nodes

theorem good_nil {b : ScoreBoard1} (hs : b.sack_out_ = 0) (hl : b.fack_out_ = 0)
    (hn : b.nxt_to_retrx_ = none) : Good b [] where
  tiles := ⟨0, 0, rfl⟩
  sack := hs
  lost := hl
  ptr := by
    intro a ha
    rw [hn] at ha
    cases ha
  ids := ⟨List.nodup_nil, by simp⟩

theorem discount_spec {b : ScoreBoard1} {n : ScoreBoardNode1} {rest : List ScoreBoardNode1} {k : ℤ}
    (h : Good b (n :: rest)) (hk : k ≤ n.getLength) :
    discount b n.flag_ k = some { b with
      sack_out_ := b.sack_out_ - if n.flag_ = .sacked then k else 0
      fack_out_ := b.fack_out_ - if n.flag_ = .lost then k else 0 } := by
  obtain ⟨lo, hi, ht⟩ := h.tiles
  have hs := h.sack
  have hl := h.lost
  have h1 := packets_nonneg ht.2.2 .sacked
  have h2 := packets_nonneg ht.2.2 .lost
  rw [packets_cons] at hs hl
  cases hf : n.flag_ with
  | sacked =>
    simp only [hf, if_true] at hs
    simp only [discount, if_pos (by omega : 0 ≤ b.sack_out_ - k), reduceCtorEq, if_false, if_true,
      sub_zero]
  | lost =>
    simp only [hf, if_true] at hl
    simp only [discount, if_pos (by omega : 0 ≤ b.fack_out_ - k), reduceCtorEq, if_false, if_true,
      sub_zero]
  | inflight => simp [discount]
  | retransmitted => simp [discount]

theorem shouldClean_of_lt {n : ScoreBoardNode1} {k : ℤ} (h : k < n.seq_) : n.shouldClean k = 0 := by
  rw [shouldClean, if_pos h]

theorem shouldClean_all {n : ScoreBoardNode1} {k : ℤ} (h : n.seq_ ≤ k) (he : n.getEnd ≤ k) :
    n.shouldClean k = -1 := by
  rw [shouldClean, if_neg (by omega), if_pos]
  rw [getEnd] at he
  split_ifs at he with hr
  · exact .inl hr
  · exact .inr he

theorem shouldClean_part {n : ScoreBoardNode1} {k : ℤ} (h : n.seq_ ≤ k) (he : k < n.getEnd) :
    n.shouldClean k = k + 1 - n.seq_ ∧ n.flag_ ≠ .retransmitted := by
  have hr : n.flag_ ≠ .retransmitted := by
    intro hr
    rw [getEnd, if_pos hr] at he
    omega
  rw [getEnd, if_neg hr] at he
  refine ⟨?_, hr⟩
  rw [shouldClean, if_neg (by omega), if_neg]
  rintro (hr' | hle)
  · exact hr hr'
  · omega

theorem Good.dropHead {b : ScoreBoard1} {n : ScoreBoardNode1} {rest : List ScoreBoardNode1}
    (h : Good b (n :: rest)) : Good (ScoreBoard1.dropHead { b with
      sack_out_ := b.sack_out_ - if n.flag_ = .sacked then n.getLength else 0
      fack_out_ := b.fack_out_ - if n.flag_ = .lost then n.getLength else 0 } n rest) rest where
  tiles := by
    obtain ⟨lo, hi, ht⟩ := h.tiles
    exact ⟨_, hi, ht.2.2⟩
  sack := by
    have := h.sack
    rw [packets_cons] at this
    show b.sack_out_ - _ = _
    omega
  lost := by
    have := h.lost
    rw [packets_cons] at this
    show b.fack_out_ - _ = _
    omega
  ptr := by
    intro a ha
    simp only [ScoreBoard1.dropHead] at ha
    split_ifs at ha with hp
    · obtain ⟨m, hm, rfl⟩ := Option.map_eq_some_iff.mp ha
      exact ⟨m, List.mem_of_mem_head? hm, rfl⟩
    · obtain ⟨m, hm, rfl⟩ := h.ptr a ha
      rcases List.mem_cons.mp hm with rfl | hm
      · exact absurd ha hp
      · exact ⟨m, hm, rfl⟩
  ids := h.ids.sublist (List.sublist_cons_self n rest)

/-- Cleaning never fails, and leaves nothing exactly if all packets are acknowledged. -/
theorem cleanRtxQueue_spec {last_ack : ℤ} {l : List ScoreBoardNode1} {b : ScoreBoard1} {c : Bool}
    {f : ℕ} (h : Good b l) : ∃ b' c' f', cleanRtxQueue last_ack l b c f = some (b', c', f') ∧
      Good b' b'.nodes ∧ b'.fack_ = b.fack_ ∧ (b'.nodes = [] ↔ ∀ n ∈ l, n.getEnd ≤ last_ack) := by
  induction l generalizing b c f with
  | nil => exact ⟨_, c, f, rfl, ⟨h.tiles, h.sack, h.lost, h.ptr, h.ids⟩, rfl, by simp⟩
  | cons n rest ih =>
    obtain ⟨lo, hi, ht⟩ := h.tiles
    have hne : n.seq_ ≤ n.getEnd := ht.le_end (by simp)
    have hpos := getLength_pos hne
    have hs := h.sack
    have hl := h.lost
    rw [packets_cons] at hs hl
    rcases lt_or_ge last_ack n.seq_ with hlt | hge
    · simp only [cleanRtxQueue, shouldClean_of_lt hlt, if_true]
      refine ⟨_, c, f, rfl, ⟨h.tiles, h.sack, h.lost, h.ptr, h.ids⟩, rfl, ?_⟩
      constructor
      · rintro ⟨⟩
      · intro hall
        have := hall n (by simp)
        omega
    · rcases le_or_gt n.getEnd last_ack with hall | hpart
      · -- the whole node goes
        simp only [cleanRtxQueue, shouldClean_all hge hall]
        rw [if_neg (by decide), if_pos (by decide), discount_spec h le_rfl, Option.bind_some,
          if_pos (by decide)]
        obtain ⟨b', c', f', h1, h2, h3, h4⟩ := ih h.dropHead
        refine ⟨b', c', f', h1, h2, h3, h4.trans ?_⟩
        simp [hall]
      · -- the first packets of the node go
        obtain ⟨hcmp, hr⟩ := shouldClean_part hge hpart
        have hlen : last_ack + 1 - n.seq_ ≤ n.getLength := by
          rw [getEnd, if_neg hr] at hpart
          rw [getLength, if_neg hr]
          omega
        simp only [cleanRtxQueue, hcmp]
        rw [if_neg (by omega), if_neg (by omega), discount_spec h hlen, Option.bind_some,
          if_neg (by omega)]
        refine ⟨_, c, f, rfl, ⟨⟨last_ack + 1, hi, rfl, ?_, ?_⟩, ?_, ?_, ?_, ?_⟩, rfl, ?_⟩
        · rw [getEnd, if_neg hr] at hpart
          simp only [getEnd, hr, if_false]
          omega
        · have := ht.2.2
          simp only [getEnd, hr, if_false] at this ⊢
          exact this
        · simp only [packets_cons, getLength, hr, if_false] at hs ⊢
          split_ifs at hs ⊢ <;> omega
        · simp only [packets_cons, getLength, hr, if_false] at hl ⊢
          split_ifs at hl ⊢ <;> omega
        · intro a ha
          obtain ⟨m, hm, rfl⟩ := h.ptr a ha
          rcases List.mem_cons.mp hm with rfl | hm
          · exact ⟨_, List.mem_cons_self, rfl⟩
          · exact ⟨m, List.mem_cons_of_mem _ hm, rfl⟩
        · exact h.ids.congr rfl
        · constructor
          · rintro ⟨⟩
          · intro hall
            have := hall n (by simp)
            omega

/-! ### The pass -/

theorem tiles_last {lo hi : ℤ} {n : ScoreBoardNode1} {l : List ScoreBoardNode1} :
    Tiles lo hi (n :: l).reverse ↔ Tiles lo n.seq_ l.reverse ∧ n.seq_ ≤ n.getEnd ∧
      hi = n.getEnd + 1 := by
  rw [List.reverse_cons, tiles_append]
  constructor
  · rintro ⟨mid, h1, h2, h3, h4⟩
    exact ⟨h2 ▸ h1, h2 ▸ h3, h4.symm⟩
  · rintro ⟨h1, h2, rfl⟩
    exact ⟨n.seq_, h1, rfl, h2, rfl⟩

theorem mergeNode_tiles {lo : ℤ} {done : List ScoreBoardNode1} {now : ScoreBoardNode1}
    (h : Tiles lo now.seq_ done.reverse) (hne : now.seq_ ≤ now.getEnd) :
    Tiles lo (now.getEnd + 1) (mergeNode done now).reverse := by
  cases done with
  | nil => exact tiles_last.mpr ⟨h, hne, rfl⟩
  | cons prev done =>
    rw [mergeNode]
    split_ifs with hm
    · obtain ⟨h1, h2, h3⟩ := tiles_last.mp h
      have hr : prev.flag_ ≠ .retransmitted := hm.2 ▸ hm.1
      simp only [getEnd, hm.1, hr, if_false] at h2 h3 hne ⊢
      refine tiles_last.mpr ⟨h1, ?_, ?_⟩
      · simp only [getEnd, hr, if_false]
        omega
      · simp only [getEnd, hr, if_false]
    · exact tiles_last.mpr ⟨h, hne, rfl⟩

theorem mergeNode_packets {lo : ℤ} {done : List ScoreBoardNode1} {now : ScoreBoardNode1}
    (h : Tiles lo now.seq_ done.reverse) (f : SkbFlag) :
    packets f (mergeNode done now) = packets f (now :: done) := by
  cases done with
  | nil => rfl
  | cons prev done =>
    rw [mergeNode]
    split_ifs with hm
    · obtain ⟨h1, h2, h3⟩ := tiles_last.mp h
      have hr : prev.flag_ ≠ .retransmitted := hm.2 ▸ hm.1
      simp only [packets_cons, getLength, getEnd, hm.2, hr, if_false] at h3 ⊢
      split_ifs <;> omega
    · rfl

theorem mergeNode_ids {fresh : ℕ} {done rest : List ScoreBoardNode1} {now : ScoreBoardNode1}
    (h : Ids fresh (done ++ now :: rest)) : Ids fresh (mergeNode done now ++ rest) := by
  cases done with
  | nil => exact h
  | cons prev done =>
    rw [mergeNode]
    split_ifs
    · exact (h.sublist ((List.sublist_cons_self now rest).append_left (prev :: done))).congr (by simp)
    · exact h.perm (@List.perm_middle _ now (prev :: done) rest).symm

/-- The nodes of the list stay, up to their edges. -/
theorem mergeNode_mem {done : List ScoreBoardNode1} {now n : ScoreBoardNode1} (h : n ∈ done) :
    ∃ m ∈ mergeNode done now, m.addr = n.addr := by
  cases done with
  | nil => cases h
  | cons prev done =>
    rw [mergeNode]
    split_ifs
    · rcases List.mem_cons.mp h with rfl | h
      · exact ⟨_, List.mem_cons_self, rfl⟩
      · exact ⟨n, List.mem_cons_of_mem _ h, rfl⟩
    · exact ⟨n, List.mem_cons_of_mem _ h, rfl⟩

theorem mergeNode_now {done : List ScoreBoardNode1} {now : ScoreBoardNode1}
    (h : ∀ n ∈ done, n.flag_ ≠ now.flag_) : now ∈ mergeNode done now := by
  cases done with
  | nil => exact List.mem_singleton_self now
  | cons prev done =>
    rw [mergeNode, if_neg fun hm => h prev (by simp) hm.2.symm]
    exact List.mem_cons_self

theorem mergeNode_flag {done : List ScoreBoardNode1} {now n : ScoreBoardNode1}
    (h : n ∈ mergeNode done now) : n.flag_ = now.flag_ ∨ ∃ m ∈ done, m.flag_ = n.flag_ := by
  cases done with
  | nil => exact .inl (congrArg _ (List.mem_singleton.mp h))
  | cons prev done =>
    rw [mergeNode] at h
    split_ifs at h with hm
    · rcases List.mem_cons.mp h with rfl | h
      · exact .inl hm.2.symm
      · exact .inr ⟨n, List.mem_cons_of_mem _ h, rfl⟩
    · rcases List.mem_cons.mp h with rfl | h
      · exact .inl rfl
      · exact .inr ⟨n, h, rfl⟩

/-- What holds when the pass has come to the packet `mid`. -/
structure PassInv (b : ScoreBoard1) (done rest : List ScoreBoardNode1) (lo mid hi : ℤ) : Prop where
  behind : Tiles lo mid done.reverse
  ahead : Tiles mid hi rest
  sack : b.sack_out_ = packets .sacked (done ++ rest)
  lost : b.fack_out_ = packets .lost (done ++ rest)
  ptr : ∀ a, b.nxt_to_retrx_ = some a → ∃ n ∈ done, n.addr = a
  some_lost : ∀ n ∈ done, n.flag_ = .lost → b.nxt_to_retrx_ ≠ none
  ids : Ids b.fresh (done ++ rest)

theorem PassInv.good {b : ScoreBoard1} {done rest : List ScoreBoardNode1} {lo mid hi : ℤ}
    (h : PassInv b done rest lo mid hi) :
    Good { b with nodes := done.reverse ++ rest } (done.reverse ++ rest) where
  tiles := ⟨lo, hi, tiles_append.mpr ⟨mid, h.behind, h.ahead⟩⟩
  sack := by simpa using h.sack
  lost := by simpa using h.lost
  ptr := by
    intro a ha
    obtain ⟨n, hn, he⟩ := h.ptr a ha
    exact ⟨n, by simp [hn], he⟩
  ids := h.ids.perm ((List.reverse_perm done).append_right rest)

/-- A node is relabelled, and merged with the last one or not. -/
theorem PassInv.merge {b b' : ScoreBoard1} {done rest rest' : List ScoreBoardNode1}
    {now now' : ScoreBoardNode1} {lo mid hi : ℤ} (h : PassInv b done (now :: rest) lo mid hi)
    (hr : Relabels b now rest b' now' rest')
    (hn : b'.nxt_to_retrx_ = if now'.flag_ = .lost then b.nxt_to_retrx_.or (some now.addr)
      else b.nxt_to_retrx_) :
    mid ≤ now'.getEnd ∧ PassInv b' (mergeNode done now') rest' lo (now'.getEnd + 1) hi := by
  obtain ⟨h1, h2, h3⟩ := hr.tiles mid hi h.ahead
  have hdone : Tiles lo now'.seq_ done.reverse := h1.symm ▸ h.behind
  have hs := h.sack
  have hl := h.lost
  have hs' := hr.sack
  have hl' := hr.lost
  rw [packets_append] at hs hl
  refine ⟨h2, mergeNode_tiles hdone (h1.trans_le h2), h3, ?_, ?_, ?_, ?_,
    mergeNode_ids (hr.ids done h.ids)⟩
  · rw [packets_append, mergeNode_packets hdone, packets_cons]
    rw [packets_cons _ now'] at hs'
    omega
  · rw [packets_append, mergeNode_packets hdone, packets_cons]
    rw [packets_cons _ now'] at hl'
    omega
  · -- the pointer is to a node that is done, or to this one, which is then the first lost one
    intro a ha
    rw [hn] at ha
    have hold : b.nxt_to_retrx_ = some a → ∃ n ∈ mergeNode done now', n.addr = a := by
      intro hold
      obtain ⟨n, hnd, rfl⟩ := h.ptr a hold
      exact mergeNode_mem hnd
    split_ifs at ha with hf
    · cases hp : b.nxt_to_retrx_ with
      | some a' =>
        rw [hp] at ha
        exact hold (hp.trans ha)
      | none =>
        rw [hp] at ha
        obtain rfl := Option.some.inj ha
        refine ⟨now', mergeNode_now fun n hnd hfn => ?_, hr.addr⟩
        exact h.some_lost n hnd (hfn.trans hf) hp
    · exact hold ha
  · intro n hnm hf hnone
    rw [hn] at hnone
    split_ifs at hnone with hf'
    · simp at hnone
    · rcases mergeNode_flag hnm with hfn | ⟨m, hm, hfm⟩
      · exact hf' (hfn.symm.trans hf)
      · exact h.some_lost m hm (hfm.trans hf) hnone

/-- The list is extended up to `fack_`. -/
theorem PassInv.extend {b : ScoreBoard1} {done rest : List ScoreBoardNode1} {lo mid hi : ℤ}
    (h : PassInv b done rest lo mid hi) :
    ∃ hi', (ScoreBoard1.extend b done rest).2.fack_ = b.fack_ ∧
      PassInv (ScoreBoard1.extend b done rest).2 done (ScoreBoard1.extend b done rest).1 lo mid hi' ∧
      max hi' (b.fack_ + 1) = max hi (b.fack_ + 1) := by
  unfold ScoreBoard1.extend
  split
  · next prev tail =>
    obtain ⟨-, -, hmid⟩ := tiles_last.mp h.behind
    split_ifs with hlt
    · have hhi : hi = mid := h.ahead.symm
      refine ⟨b.fack_ + 1, rfl, ⟨h.behind, ⟨hmid.symm, ?_, rfl⟩, ?_, ?_, h.ptr, h.some_lost, ?_⟩, ?_⟩
      · show mid ≤ b.fack_
        omega
      · simpa [alloc] using h.sack
      · simpa [alloc] using h.lost
      · exact h.ids.insert rfl
      · omega
    · exact ⟨hi, rfl, h, rfl⟩
  · exact ⟨hi, rfl, h, rfl⟩

theorem traverse_spec (dupack th : ℤ) {fuel : ℕ} {p : Pass} {done rest : List ScoreBoardNode1}
    {lo mid hi : ℤ} (h : PassInv p.board done rest lo mid hi)
    (hfuel : max hi (p.board.fack_ + 1) - mid < fuel) :
    ∃ b f, traverse dupack th fuel p done rest = some (b, f) ∧ Good b b.nodes := by
  induction fuel generalizing p done rest mid hi with
  | zero =>
    have := h.ahead.le
    omega
  | succ fuel ih =>
    cases rest with
    | nil =>
      have hgood := h.good
      rw [List.append_nil] at hgood
      exact ⟨_, _, rfl, hgood⟩
    | cons now rest =>
      rw [traverse]
      split_ifs with hstop
      · exact ⟨_, _, rfl, h.good⟩
      · obtain ⟨⟨p', now', rest'⟩, he⟩ : ∃ r, processNode dupack th p now rest = r := ⟨_, rfl⟩
        obtain ⟨hr, hn⟩ := processNode_spec dupack th p now rest
        rw [he] at hr hn ⊢
        obtain ⟨h1, h2⟩ := h.merge hr hn
        obtain ⟨hi', h3, h4, h5⟩ := h2.extend
        have hfack : p'.board.fack_ = p.board.fack_ := hr.fack
        dsimp only
        apply ih h4
        dsimp only at h1 h3 h5 ⊢
        push_cast at hfuel
        omega

end Ns2.ScoreBoard1
