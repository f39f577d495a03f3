import Ns2.Dccp.NonceEcho

/-! Merging one ack vector into another. -/

namespace Ns2

open ByteRecords RunLength

namespace AckVector

/-- The states after the packets of `w` below `q` have been merged into `v`. -/
def mergedState (v w : AckVector) (q s : ℕ) : Option PacketState :=
  if v.seq_tail_ ≤ s ∧ (s ≤ v.seq_head_ ∨ ∃ t ∈ w.nums, s ≤ t ∧ t < q) then
    some (((v.getState s).getD .notRecv).cons
      ((if s < q then w.getState s else none).getD .notRecv))
  else none

variable {v w : AckVector} {l m : List Byte}

theorem cons_notRecv (s : PacketState) : s.cons .notRecv = s := by cases s <;> rfl

/-- A packet that is added to a vector that is not empty. -/
theorem Stores.addPacket_some (h : v.Stores l) (hl : l ≠ []) {s : BitVec 32} {x : PacketState}
    (hnear : v.seq_head_ ≤ s.toNat + 2 ^ 31) (hok : (v.addPacket s.toNat x).2 = true) :
    (∃ l', (v.addPacket s.toNat x).1.Stores l' ∧ l' ≠ []) ∧
      (v.addPacket s.toNat x).1.seq_tail_ = v.seq_tail_ ∧ v.seq_tail_ ≤ s.toNat ∧
      (v.addPacket s.toNat x).1.seq_head_ = max v.seq_head_ s.toNat ∧
      ∀ t, (v.addPacket s.toNat x).1.getState t =
        if v.seq_tail_ ≤ t ∧ t ≤ max v.seq_head_ s.toNat then
          some (((v.getState t).getD .notRecv).cons (if t = s.toNat then x else .notRecv))
        else none := by
  obtain ⟨l', hl', hstates, hhead⟩ := (h.addState s.isLt (fun _ => hnear) x tries).made hok
  have hreports := h.reports.added (fun _ => hnear) hok
  change (v.addPacket s.toNat x).1.Stores l' at hl'
  change (v.addPacket s.toNat x).1.seq_head_ = _ at hhead
  generalize (v.addPacket s.toNat x).1 = v' at *
  have hne' : l' ≠ [] := by
    rintro rfl
    exact addedStates_ne_nil _ _ _ _ hstates.symm
  have hL : statesOf l ≠ [] := fun h => hl (statesOf_eq_nil.mp h)
  have hseqs := h.seqs hl
  have hseqs' := hl'.seqs hne'
  have hlen := congrArg List.length hstates
  have hrange : v'.seq_tail_ = v.seq_tail_ ∧ v.seq_tail_ ≤ s.toNat ∧
      v'.seq_head_ = max v.seq_head_ s.toNat := by
    by_cases hlt : v.seq_head_ < s.toNat
    · rw [if_pos (.inr hlt)] at hhead
      rw [addedStates, if_neg hL, if_pos hlt, List.length_cons, List.length_append,
        List.length_replicate] at hlen
      omega
    · rw [if_neg (by simp [hl, hlt])] at hhead
      rw [addedStates, if_neg hL, if_neg hlt, List.length_modify] at hlen
      have htail : v.seq_tail_ ≤ s.toNat := by
        by_contra hold
        have hnone : v.getState s.toNat = none := by
          rw [h.getState_eq, if_pos (by omega), List.getElem?_eq_none (by omega)]
        rw [addPacket, addState_old (fun hz => hl (h.size_eq_zero.mp hz)) (by omega) hnear hnone x]
          at hok
        exact Bool.noConfusion hok
      omega
  refine ⟨⟨l', hl', hne'⟩, hrange.1, hrange.2.1, hrange.2.2, fun t => ?_⟩
  rw [hreports.state]
  have hmem : t ∈ v'.nums ↔ v.seq_tail_ ≤ t ∧ t ≤ max v.seq_head_ s.toNat := by
    rw [hl'.mem_nums, hrange.1, hrange.2.2]
    exact and_iff_right hne'
  by_cases hin : v.seq_tail_ ≤ t ∧ t ≤ max v.seq_head_ s.toNat
  · rw [if_pos (hmem.mpr hin), if_pos hin]
    by_cases hts : t = s.toNat
    · rw [if_pos hts.symm, if_pos hts, stateOf_append, stateOf_toList]
    · rw [if_neg (Ne.symm hts), if_neg hts, stateOf_toList, cons_notRecv]
  · rw [if_neg (mt hmem.mp hin), if_neg hin]

theorem Stores.getState_none (h : v.Stores l) {s : ℕ} (hs : s ∉ v.nums) : v.getState s = none := by
  rw [h.reports.state, if_neg hs]

theorem Stores.getState_some (h : v.Stores l) {s : ℕ} (hs : s ∈ v.nums) :
    v.getState s = some ((v.getState s).getD .notRecv) := by
  have := h.reports.state s
  rw [if_pos hs] at this
  rw [this, Option.getD_some]

theorem getD_mergedState (hv : v.Stores l) (hw : w.Stores m) {q s : ℕ} (hs : v.seq_tail_ ≤ s) :
    (mergedState v w q s).getD .notRecv = ((v.getState s).getD .notRecv).cons
      ((if s < q then w.getState s else none).getD .notRecv) := by
  by_cases hin : s ≤ v.seq_head_ ∨ ∃ t ∈ w.nums, s ≤ t ∧ t < q
  · rw [mergedState, if_pos ⟨hs, hin⟩, Option.getD_some]
  · have hvs : v.getState s = none := hv.getState_none fun hmem =>
      hin (.inl (hv.mem_nums.mp hmem).2.2)
    have hws : (if s < q then w.getState s else none) = none := by
      split_ifs with hlt
      · exact hw.getState_none fun hmem => hin (.inr ⟨s, hmem, le_rfl, hlt⟩)
      · rfl
    rw [mergedState, if_neg (fun h => hin h.2), hvs, hws]
    rfl

/-- `u` is `v` after the packets of `w` below `q` have been merged into it. -/
structure MergedTo (v w u : AckVector) (q : ℕ) : Prop where
  stores : ∃ k, u.Stores k ∧ k ≠ []
  tail : u.seq_tail_ = v.seq_tail_
  head : u.seq_head_ = v.seq_head_ ∨
    v.seq_head_ ≤ u.seq_head_ ∧ u.seq_head_ ∈ w.nums ∧ u.seq_head_ < q
  states (s : ℕ) : u.getState s = mergedState v w q s

theorem MergedTo.start (hv : v.Stores l) (hl : l ≠ []) (hw : w.Stores m) :
    MergedTo v w v w.seq_tail_ where
  stores := ⟨l, hv, hl⟩
  tail := rfl
  head := .inl rfl
  states s := by
    have hw' : (if s < w.seq_tail_ then w.getState s else none) = none := by
      split_ifs with hlt
      · exact hw.getState_none fun hmem => absurd (hw.mem_nums.mp hmem).2.1 (by omega)
      · rfl
    have hnone : ¬ ∃ t ∈ w.nums, s ≤ t ∧ t < w.seq_tail_ := fun ⟨t, ht, _, hlt⟩ =>
      absurd (hw.mem_nums.mp ht).2.1 (by omega)
    have hmem : s ∈ v.nums ↔ v.seq_tail_ ≤ s ∧ s ≤ v.seq_head_ := by
      rw [hv.mem_nums]
      exact and_iff_right hl
    by_cases hs : s ∈ v.nums
    · have hs' := hmem.mp hs
      rw [mergedState, if_pos ⟨hs'.1, .inl hs'.2⟩, hw', Option.getD_none, cons_notRecv]
      exact hv.getState_some hs
    · rw [mergedState, if_neg (fun h => hs (hmem.mpr ⟨h.1, h.2.resolve_right hnone⟩)),
        hv.getState_none hs]

variable {u : AckVector} {q : ℕ}

theorem MergedTo.same {u' : AckVector} {k : List Byte} (h : MergedTo v w u q) (hu : u.Stores k)
    (hk : k ≠ []) (hu' : u'.Stores k) (hs : Same u u') : MergedTo v w u' q where
  stores := ⟨k, hu', hk⟩
  tail := hs.seq_tail.trans h.tail
  head := by
    rw [hs.seq_head]
    exact h.head
  states s := by rw [getState_same hu hu' hs, h.states]

/-- A packet that is older than the vector makes no difference. -/
theorem MergedTo.skip (h : MergedTo v w u q) (hq : q < v.seq_tail_) : MergedTo v w u (q + 1) where
  stores := h.stores
  tail := h.tail
  head := h.head.imp_right fun h => ⟨h.1, h.2.1, Nat.lt_succ_of_lt h.2.2⟩
  states s := by
    rw [h.states, mergedState, mergedState]
    by_cases hs : v.seq_tail_ ≤ s
    · have hex : (∃ t ∈ w.nums, s ≤ t ∧ t < q) ↔ ∃ t ∈ w.nums, s ≤ t ∧ t < q + 1 :=
        ⟨fun ⟨t, ht, h1, h2⟩ => ⟨t, ht, h1, by omega⟩, fun ⟨t, ht, h1, h2⟩ => ⟨t, ht, h1, by omega⟩⟩
      simp only [hex, show ¬ s < q by omega, show ¬ s < q + 1 by omega, if_false]
    · rw [if_neg (fun h => hs h.1), if_neg (fun h => hs h.1)]

theorem MergedTo.add (hv : v.Stores l) (hw : w.Stores m) (h : MergedTo v w u q)
    (hq : q ∈ w.nums) (hlt : q < 2 ^ 32) (hnear : u.seq_head_ ≤ q + 2 ^ 31) {x : PacketState}
    (hx : w.getState q = some x) (hok : (u.addPacket q x).2 = true) :
    MergedTo v w (u.addPacket q x).1 (q + 1) := by
  obtain ⟨k, hu, hk⟩ := h.stores
  have hqn : (BitVec.ofNat 32 q).toNat = q := by
    rw [BitVec.toNat_ofNat, Nat.mod_eq_of_lt hlt]
  have hadd := @Stores.addPacket_some u k hu hk (BitVec.ofNat 32 q) x (by rwa [hqn])
    (by rwa [hqn])
  rw [hqn] at hadd
  obtain ⟨hstores, htail, hle, hhead, hstates⟩ := hadd
  refine ⟨hstores, htail.trans h.tail, ?_, fun s => ?_⟩
  · rw [hhead]
    rcases h.head with he | ⟨h1, h2, h3⟩
    · rcases le_total u.seq_head_ q with hle | hle
      · exact .inr (by rw [max_eq_right hle]; exact ⟨by omega, hq, Nat.lt_succ_self q⟩)
      · exact .inl (by rw [max_eq_left hle, he])
    · exact .inr (by rw [max_eq_right h3.le]; exact ⟨by omega, hq, Nat.lt_succ_self q⟩)
  · have hrange : s ≤ max u.seq_head_ q ↔ s ≤ v.seq_head_ ∨ ∃ t ∈ w.nums, s ≤ t ∧ t < q + 1 := by
      rw [le_max_iff]
      constructor
      · rintro (hs | hs)
        · rcases h.head with he | ⟨-, h2, h3⟩
          · exact .inl (he ▸ hs)
          · exact .inr ⟨_, h2, hs, Nat.lt_succ_of_lt h3⟩
        · exact .inr ⟨q, hq, hs, Nat.lt_succ_self q⟩
      · rintro (hs | ⟨t, -, h1, h2⟩)
        · rcases h.head with he | ⟨h1, -, -⟩ <;> exact .inl (by omega)
        · exact .inr (by omega)
    rw [hstates, h.tail, mergedState]
    simp only [hrange]
    by_cases hin : v.seq_tail_ ≤ s ∧ (s ≤ v.seq_head_ ∨ ∃ t ∈ w.nums, s ≤ t ∧ t < q + 1)
    · rw [if_pos hin, if_pos hin, h.states, getD_mergedState hv hw hin.1]
      congr 1
      rcases lt_trichotomy s q with hsq | rfl | hsq
      · rw [if_pos hsq, if_neg (show ¬ s = q by omega), if_pos (by omega), cons_notRecv]
      · rw [if_neg (lt_irrefl s), if_pos rfl, if_pos (Nat.lt_succ_self s), hx, Option.getD_none,
          cons_notRecv, Option.getD_some]
      · rw [if_neg (by omega), if_neg (by omega), if_neg (by omega), cons_notRecv]
    · rw [if_neg hin, if_neg hin]

end AckVector

end Ns2
