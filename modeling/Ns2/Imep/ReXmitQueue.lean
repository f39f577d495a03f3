import Ns2.Imep.ResponseList

/-! The packets that wait for acks, and what an ack or the loss of a neighbour does to them. -/

namespace Ns2

open ByteRecords (Byte field)

/-- An entry of the queue; `p` is where the packet lies. -/
structure Rexent where
  rexmit_at : ℚ
  p : ℕ
  packet : ImepPacket
  rexmits_left : ℕ

abbrev ReXmitQ := List Rexent

namespace ReXmitQ

def insert (r : Rexent) : ReXmitQ → ReXmitQ
  | [] => [r]
  | i :: q => if r.rexmit_at < i.rexmit_at then r :: i :: q else i :: insert r q

def remove (p : ℕ) (q : ReXmitQ) : ReXmitQ := q.eraseP fun i => i.p = p

/-- The packet that lies at `p` is written to. -/
def store (p : ℕ) (packet : ImepPacket) (q : ReXmitQ) : ReXmitQ :=
  q.map fun i => if i.p = p then { i with packet := packet } else i

/-- The outer `none` is the end of the program. -/
def findObjectSequence (seqno : Byte) : ReXmitQ → Option (Option Rexent)
  | [] => some none
  | i :: q => i.packet.findObjectBlock.bind fun ob =>
    match ob with
    | none => findObjectSequence seqno q
    | some ob =>
      if i.packet.bytes ob ≠ seqno then findObjectSequence seqno q
      else if field i.packet.bytes (ob + 3) 5 = 0 then none
      else some (some i)

def removeObjectResponse (q : ReXmitQ) (i : Rexent) (index : ImepAddr) : Option ReXmitQ :=
  (i.packet.removeResponse index).map fun o =>
    o.elim (q.remove i.p) fun packet => q.store i.p packet

/-- `imep_ack_input`, for one ack of this node's objects -/
def imepAckInput (q : ReXmitQ) (saddr : ImepAddr) (seqno : Byte) : Option ReXmitQ :=
  (q.findObjectSequence seqno).bind fun i => i.elim (some q) fun i =>
    q.removeObjectResponse i saddr

def purgeReXmitQ (index : ImepAddr) : ReXmitQ → Option ReXmitQ
  | [] => some []
  | i :: q => (i.packet.removeResponse index).bind fun o => (purgeReXmitQ index q).map fun q' =>
    o.elim q' fun packet => { i with packet := packet } :: q'

/-- The packets lie at different places, and each of them waits for an ack. -/
structure Sound (q : ReXmitQ) : Prop where
  nodup : (q.map Rexent.p).Nodup
  waits : ∀ i ∈ q, ∃ ob r, i.packet.Waits ob r

end ReXmitQ

inductive ReXmitEvent where
  | ack (saddr : ImepAddr) (seqno : Byte)
  | loss (index : ImepAddr)

/-- What the loops leave of an entry. -/
def Rexent.after (index : ImepAddr) (i : Rexent) : Option Rexent :=
  (i.packet.removeResponse index).join.map fun packet => { i with packet := packet }

/-- Only those that were meant have left the list, or the queue with it. -/
def Rexent.LosesOnly (meant : ImepAddr → Prop) (i : Rexent) : Option Rexent → Prop
  | none => ∀ b ∈ i.packet.waiting, meant b
  | some i' => ∀ b, i'.packet.waiting.count b < i.packet.waiting.count b → meant b

/-- The responder acked this very packet, or was purged. -/
def ReXmitEvent.means (i : Rexent) (b : ImepAddr) : ReXmitEvent → Prop
  | ack saddr seqno => b = saddr ∧ i.packet.ob_sequence = some seqno
  | loss index => b = index

namespace ReXmitQ

def handle (q : ReXmitQ) : ReXmitEvent → Option ReXmitQ
  | .ack saddr seqno => q.imepAckInput saddr seqno
  | .loss index => q.purgeReXmitQ index

structure LosesOnly (meant : Rexent → ImepAddr → Prop) (q q' : ReXmitQ) : Prop where
  lists : ∀ i ∈ q, ∀ i' ∈ q', i'.p = i.p → i.LosesOnly (meant i) (some i')
  packets : ∀ i ∈ q, (∀ i' ∈ q', i'.p ≠ i.p) → i.LosesOnly (meant i) none

/-- The event does what it means, and an ack that is seen again does nothing. -/
def Right (q : ReXmitQ) (e : ReXmitEvent) : Prop :=
  ∃ q', q.handle e = some q' ∧ LosesOnly (fun i b => e.means i b) q q' ∧
    ∀ saddr seqno, e = .ack saddr seqno → q'.handle e = some q'

variable {q q' : ReXmitQ} {i : Rexent} {index saddr : ImepAddr} {seqno : Byte}

theorem after_p {i' : Rexent} (h : i.after index = some i') : i'.p = i.p := by
  obtain ⟨packet, -, rfl⟩ := Option.map_eq_some_iff.1 h
  rfl

theorem losesOnly_filterMap {meant : Rexent → ImepAddr → Prop} (hq : q.Sound)
    {f : Rexent → Option Rexent} (hf : ∀ i i', f i = some i' → i'.p = i.p) :
    LosesOnly meant q (q.filterMap f) ↔ ∀ i ∈ q, i.LosesOnly (meant i) (f i) := by
  have hinj := List.inj_on_of_nodup_map hq.nodup
  constructor
  · intro h i hi
    cases hfi : f i with
    | none =>
      refine h.packets i hi fun i' hi' hp => ?_
      obtain ⟨j, hj, hfj⟩ := List.mem_filterMap.1 hi'
      obtain rfl : j = i := hinj hj hi ((hf j i' hfj).symm.trans hp)
      rw [hfi] at hfj
      cases hfj
    | some i' => exact h.lists i hi i' (List.mem_filterMap.2 ⟨i, hi, hfi⟩) (hf i i' hfi)
  · intro h
    refine ⟨fun i hi i' hi' hp => ?_, fun i hi hgone => ?_⟩
    · obtain ⟨j, hj, hfj⟩ := List.mem_filterMap.1 hi'
      obtain rfl : j = i := hinj hj hi ((hf j i' hfj).symm.trans hp)
      exact hfj ▸ h j hj
    · cases hfi : f i with
      | none => exact hfi ▸ h i hi
      | some i' => exact absurd (hf i i' hfi) (hgone i' (List.mem_filterMap.2 ⟨i, hi, hfi⟩))

theorem after_kept {ob r : ℕ} (h : i.packet.Waits ob r) (hindex : ¬i.packet.Takes index) :
    i.after index = some i := by rw [Rexent.after, h.kept hindex]; rfl

theorem after_leaves {ob r : ℕ} (h : i.packet.Waits ob r) (hindex : i.packet.Takes index)
    (hone : i.packet.waiting.length = 1) : i.after index = none := by
  rw [Rexent.after, h.leaves hindex hone]; rfl

theorem after_shrinks {ob r : ℕ} (h : i.packet.Waits ob r) (hindex : i.packet.Takes index)
    (htwo : i.packet.waiting.length ≠ 1) : ∃ packet, i.packet.Shrunk packet ob r index ∧
      i.after index = some { i with packet := packet } := by
  obtain ⟨packet, hrun, hpacket⟩ := h.shrinks hindex htwo
  exact ⟨packet, hpacket, by rw [Rexent.after, hrun]; rfl⟩

/-- Who is not on the list is mistaken for the word behind it, and the last responder goes. -/
theorem after_losesOnly_iff {ob r : ℕ} (h : i.packet.Waits ob r) (index : ImepAddr) :
    i.LosesOnly (· = index) (i.after index) ↔
      (index ∉ i.packet.waiting → i.packet.behind ≠ some index) := by
  have hpos : 0 < i.packet.waiting.length := h.length_waiting ▸ h.field_pos
  by_cases hindex : i.packet.Takes index
  · by_cases hone : i.packet.waiting.length = 1
    · obtain ⟨b, hb⟩ := List.length_eq_one_iff.1 hone
      rw [after_leaves h hindex hone, Rexent.LosesOnly]
      rw [ImepPacket.Takes, hb] at hindex
      simp only [hb, List.mem_singleton, forall_eq] at hindex ⊢
      tauto
    · obtain ⟨packet, hpacket, hrun⟩ := after_shrinks h hindex hone
      rw [hrun, Rexent.LosesOnly, hpacket.waiting]
      by_cases hmem : index ∈ i.packet.waiting
      · refine iff_of_true (fun b hb => ?_) (absurd hmem)
        rw [(swapRemove_perm hmem).count_eq] at hb
        by_contra hne
        rw [List.count_erase_of_ne hne] at hb
        exact lt_irrefl _ hb
      · refine iff_of_false (fun hall => ?_) fun hbehind => hbehind hmem (hindex.resolve_left hmem)
        have hne := List.ne_nil_of_length_pos hpos
        have hlast := hall (i.packet.waiting.getLast hne) (by
          have hsplit := congrArg (List.count (i.packet.waiting.getLast hne))
            (List.dropLast_append_getLast hne)
          rw [List.count_append, List.count_singleton_self] at hsplit
          rw [swapRemove_of_notMem hmem]
          omega)
        exact hmem (hlast ▸ List.getLast_mem hne)
  · rw [after_kept h hindex]
    refine iff_of_true (fun b hb => absurd hb (lt_irrefl _)) fun _ hbehind => hindex (.inr hbehind)

theorem after_waits {ob r : ℕ} (h : i.packet.Waits ob r) {i' : Rexent}
    (hrun : i.after index = some i') : i'.packet.Waits ob r := by
  by_cases hindex : i.packet.Takes index
  · by_cases hone : i.packet.waiting.length = 1
    · rw [after_leaves h hindex hone] at hrun
      cases hrun
    · obtain ⟨packet, hpacket, hsome⟩ := after_shrinks h hindex hone
      obtain rfl := Option.some.inj (hsome.symm.trans hrun)
      exact hpacket.waits
  · obtain rfl := Option.some.inj ((after_kept h hindex).symm.trans hrun)
    exact h

theorem Sound.filterMap (hq : q.Sound) {f : Rexent → Option Rexent}
    (hf : ∀ i i', f i = some i' → i' = i ∨ i.after index = some i') : Sound (q.filterMap f) := by
  have hp : ∀ i i', f i = some i' → i'.p = i.p := fun i i' h => by
    rcases hf i i' h with rfl | h
    · rfl
    · exact after_p h
  refine ⟨?_, fun i' hi' => ?_⟩
  · have hnodup := hq.nodup
    rw [List.Nodup, List.pairwise_map] at hnodup ⊢
    refine List.Pairwise.filterMap f (fun i j hne i' hi' j' hj' => ?_) hnodup
    rwa [hp i i' hi', hp j j' hj']
  · obtain ⟨i, hi, hfi⟩ := List.mem_filterMap.1 hi'
    obtain ⟨ob, r, h⟩ := hq.waits i hi
    rcases hf i i' hfi with rfl | hrun
    · exact ⟨ob, r, h⟩
    · exact ⟨ob, r, after_waits h hrun⟩

theorem removeResponse_after {ob r : ℕ} (h : i.packet.Waits ob r) (index : ImepAddr) :
    ∃ o, i.packet.removeResponse index = some o ∧
      i.after index = o.map fun packet => { i with packet := packet } :=
  ⟨_, h.removeResponse_eq index, by rw [Rexent.after, h.removeResponse_eq]; rfl⟩

theorem purgeReXmitQ_eq (hq : q.Sound) (index : ImepAddr) :
    purgeReXmitQ index q = some (q.filterMap (Rexent.after index)) := by
  obtain ⟨-, hwaits⟩ := hq
  induction q with
  | nil => rfl
  | cons i q ih =>
    obtain ⟨ob, r, h⟩ := hwaits i List.mem_cons_self
    obtain ⟨o, hrun, hafter⟩ := removeResponse_after h index
    have hrest := ih fun j hj => hwaits j (List.mem_cons_of_mem _ hj)
    rw [purgeReXmitQ, hrun, Option.bind_some, hrest, List.filterMap_cons, hafter]
    cases o <;> rfl

/-- The first packet with the number is the one that the ack is taken for. -/
def acked (q : ReXmitQ) (seqno : Byte) : List Rexent :=
  q.filter fun i => i.packet.ob_sequence = some seqno

theorem findObjectSequence_eq (hq : q.Sound) (seqno : Byte) :
    q.findObjectSequence seqno = some (q.acked seqno).head? := by
  obtain ⟨-, hwaits⟩ := hq
  induction q with
  | nil => rfl
  | cons i q ih =>
    obtain ⟨ob, r, h⟩ := hwaits i List.mem_cons_self
    have hpos := h.field_pos
    have hrest := ih fun j hj => hwaits j (List.mem_cons_of_mem _ hj)
    have hseq : i.packet.ob_sequence = some (i.packet.bytes ob) := by
      rw [ImepPacket.ob_sequence, h.block]
      rfl
    rw [findObjectSequence, h.block, Option.bind_some, acked, List.filter_cons, hseq]
    by_cases hs : i.packet.bytes ob = seqno
    · simp [hs, Nat.ne_of_gt hpos]
    · simp [hs, hrest, acked]

/-- What an ack makes of an entry, if it is taken for the one at `p`. -/
def ackedAt (p : ℕ) (saddr : ImepAddr) (i : Rexent) : Option Rexent :=
  if i.p = p then i.after saddr else some i

theorem ackedAt_p (p : ℕ) (saddr : ImepAddr) (i i' : Rexent) (h : ackedAt p saddr i = some i') :
    i'.p = i.p := by
  rw [ackedAt] at h
  split_ifs at h
  · exact after_p h
  · rw [Option.some.inj h]

theorem remove_eq {p : ℕ} (hq : (q.map Rexent.p).Nodup) :
    q.remove p = q.filterMap fun j => if j.p = p then none else some j := by
  induction q with
  | nil => rfl
  | cons i q ih =>
    obtain ⟨hi, hq⟩ := List.nodup_cons.1 hq
    by_cases hp : i.p = p
    · have hrest : q.filterMap (fun j => if j.p = p then none else some j) = q := by
        conv_rhs => rw [← List.filterMap_some (l := q)]
        refine List.filterMap_congr fun j hj => if_neg fun h => hi ?_
        exact List.mem_map.2 ⟨j, hj, h.trans hp.symm⟩
      simp [remove, hp, hrest]
    · simpa [remove, hp] using ih hq

theorem removeObjectResponse_eq (hq : q.Sound) (hi : i ∈ q) (saddr : ImepAddr) :
    q.removeObjectResponse i saddr = some (q.filterMap (ackedAt i.p saddr)) := by
  obtain ⟨ob, r, h⟩ := hq.waits i hi
  obtain ⟨o, hrun, hafter⟩ := removeResponse_after h saddr
  have hinj : ∀ j ∈ q, j.p = i.p → j = i := fun j hj hp =>
    List.inj_on_of_nodup_map hq.nodup hj hi hp
  rw [removeObjectResponse, hrun, Option.map_some]
  refine congrArg some ?_
  cases o with
  | none =>
    rw [Option.elim_none, remove_eq hq.nodup]
    refine List.filterMap_congr fun j hj => ?_
    rw [ackedAt]
    split_ifs with hp
    · rw [hinj j hj hp, hafter]
      rfl
    · rfl
  | some packet =>
    rw [Option.elim_some, store, ← List.filterMap_eq_map']
    refine List.filterMap_congr fun j hj => ?_
    rw [ackedAt]
    split_ifs with hp
    · rw [hinj j hj hp, hafter]
      rfl
    · rfl

theorem imepAckInput_eq (hq : q.Sound) (saddr : ImepAddr) (seqno : Byte) :
    q.imepAckInput saddr seqno = some (match q.acked seqno with
      | [] => q
      | i :: _ => q.filterMap (ackedAt i.p saddr)) := by
  rw [imepAckInput, findObjectSequence_eq hq, Option.bind_some]
  cases hacked : q.acked seqno with
  | nil => rfl
  | cons i rest =>
    have hi : i ∈ q := List.mem_of_mem_filter (hacked ▸ List.mem_cons_self)
    exact removeObjectResponse_eq hq hi saddr

theorem Sound.imepAckInput (hq : q.Sound) (hrun : q.imepAckInput saddr seqno = some q') :
    q'.Sound := by
  rw [imepAckInput_eq hq, Option.some.injEq] at hrun
  cases hacked : q.acked seqno with
  | nil => rw [← hrun, hacked]; exact hq
  | cons i rest =>
    rw [← hrun, hacked]
    refine @Sound.filterMap q saddr hq _ fun j j' h => ?_
    rw [ackedAt] at h
    split_ifs at h
    · exact .inr h
    · exact .inl (Option.some.inj h).symm

theorem after_ne {ob r : ℕ} (h : i.packet.Waits ob r) (hindex : i.packet.Takes index) :
    i.after index ≠ some i := by
  have hpos : 0 < i.packet.waiting.length := h.length_waiting ▸ h.field_pos
  intro hrun
  by_cases hone : i.packet.waiting.length = 1
  · rw [after_leaves h hindex hone] at hrun
    cases hrun
  · obtain ⟨packet, hpacket, hsome⟩ := after_shrinks h hindex hone
    have hpk : packet = i.packet := congrArg Rexent.packet (Option.some.inj (hsome.symm.trans hrun))
    have hlen := congrArg List.length hpacket.waiting
    rw [length_swapRemove, hpk] at hlen
    omega

theorem mem_acked {rest : List Rexent} (h : q.acked seqno = i :: rest) :
    i ∈ q ∧ i.packet.ob_sequence = some seqno := by
  have hi : i ∈ q.acked seqno := h ▸ List.mem_cons_self
  simpa [acked] using hi

theorem imepAckInput_fixed_iff (hq : q.Sound) : q.imepAckInput saddr seqno = some q ↔
    ∀ i ∈ (q.acked seqno).head?, ¬i.packet.Takes saddr := by
  rw [imepAckInput_eq hq, Option.some.injEq]
  cases hacked : q.acked seqno with
  | nil => simp
  | cons i rest =>
    obtain ⟨hi, -⟩ := mem_acked hacked
    obtain ⟨ob, r, h⟩ := hq.waits i hi
    have hinj : ∀ j ∈ q, j.p = i.p → j = i := fun j hj hp =>
      List.inj_on_of_nodup_map hq.nodup hj hi hp
    simp only [List.head?_cons, Option.mem_def, Option.some.injEq, forall_eq']
    constructor
    · intro hfix hindex
      rw [← hfix] at hi
      obtain ⟨j, hj, hrun⟩ := List.mem_filterMap.1 hi
      obtain rfl := hinj j hj (ackedAt_p _ _ _ _ hrun).symm
      rw [ackedAt, if_pos rfl] at hrun
      exact after_ne h hindex hrun
    · intro hindex
      conv_rhs => rw [← List.filterMap_some (l := q)]
      refine List.filterMap_congr fun j hj => ?_
      rw [ackedAt]
      split_ifs with hp
      · rw [hinj j hj hp, after_kept h hindex]
      · rfl

theorem after_sequence {ob r : ℕ} (h : i.packet.Waits ob r) {i' : Rexent}
    (hrun : i.after index = some i') : i'.packet.ob_sequence = i.packet.ob_sequence := by
  by_cases hindex : i.packet.Takes index
  · by_cases hone : i.packet.waiting.length = 1
    · rw [after_leaves h hindex hone] at hrun
      cases hrun
    · obtain ⟨packet, hpacket, hsome⟩ := after_shrinks h hindex hone
      obtain rfl := Option.some.inj (hsome.symm.trans hrun)
      exact hpacket.sequence
  · obtain rfl := Option.some.inj ((after_kept h hindex).symm.trans hrun)
    rfl

/-- The packet that was acked may be gone; the others with its number are still there. -/
theorem acked_filterMap (hq : q.Sound) {rest : List Rexent} (hacked : q.acked seqno = i :: rest) :
    acked (q.filterMap (ackedAt i.p saddr)) seqno = (i.after saddr).toList ++ rest := by
  have hsub : (i :: rest).Sublist q := hacked ▸ List.filter_sublist
  have hnodup := hq.nodup.sublist (hsub.map Rexent.p)
  have hseq : ∀ j ∈ q, ∀ j', ackedAt i.p saddr j = some j' →
      j'.packet.ob_sequence = j.packet.ob_sequence := fun j hj j' h => by
    obtain ⟨ob, r, hw⟩ := hq.waits j hj
    rw [ackedAt] at h
    split_ifs at h
    · exact after_sequence hw h
    · rw [Option.some.inj h]
  calc acked (q.filterMap (ackedAt i.p saddr)) seqno
      = (q.acked seqno).filterMap (ackedAt i.p saddr) := by
        rw [acked, acked, List.filter_filterMap, List.filterMap_filter]
        refine List.filterMap_congr fun j hj => ?_
        cases hrun : ackedAt i.p saddr j with
        | none => simp
        | some j' => simp [hseq j hj j' hrun, Option.filter]
    _ = (i.after saddr).toList ++ rest := by
        rw [hacked, List.filterMap_cons, ackedAt, if_pos rfl]
        have hrest : rest.filterMap (ackedAt i.p saddr) = rest := by
          conv_rhs => rw [← List.filterMap_some (l := rest)]
          refine List.filterMap_congr fun j hj => if_neg fun hp => ?_
          exact (List.nodup_cons.1 hnodup).1 (List.mem_map.2 ⟨j, hj, hp⟩)
        cases i.after saddr <;> simp [hrest]

/-- An ack of a responder that is on no list must not be found behind it; and for a second ack, it
must have been there once, not at the end, and no packet with the same number may follow the one
that it removed. -/
def Safe (q : ReXmitQ) : ReXmitEvent → Prop
  | .loss index => ∀ i ∈ q, index ∉ i.packet.waiting → i.packet.behind ≠ some index
  | .ack saddr seqno => ∀ i rest, q.acked seqno = i :: rest →
      (saddr ∉ i.packet.waiting → i.packet.behind ≠ some saddr) ∧
      (saddr ∈ i.packet.waiting →
        if i.packet.waiting.length = 1 then ∀ j ∈ rest.head?, ¬j.packet.Takes saddr
        else i.packet.waiting.count saddr = 1 ∧ i.packet.waiting.getLast? ≠ some saddr)

theorem losesOnly_ack_iff (hq : q.Sound) {rest : List Rexent}
    (hacked : q.acked seqno = i :: rest) :
    LosesOnly (fun j b => (ReXmitEvent.ack saddr seqno).means j b) q
        (q.filterMap (ackedAt i.p saddr)) ↔
      (saddr ∉ i.packet.waiting → i.packet.behind ≠ some saddr) := by
  obtain ⟨hi, hseq⟩ := mem_acked hacked
  obtain ⟨ob, r, h⟩ := hq.waits i hi
  have hmeans : (fun b => (ReXmitEvent.ack saddr seqno).means i b) = (· = saddr) := by
    funext b
    simp [ReXmitEvent.means, hseq]
  rw [losesOnly_filterMap hq (ackedAt_p i.p saddr), ← after_losesOnly_iff h, ← hmeans]
  constructor
  · intro hall
    have := hall i hi
    rwa [ackedAt, if_pos rfl] at this
  · intro hone j hj
    rw [ackedAt]
    split_ifs with hp
    · rw [List.inj_on_of_nodup_map hq.nodup hj hi hp]
      exact hone
    · exact fun b hb => absurd hb (lt_irrefl _)

/-- What the second ack meets. -/
theorem second_iff (hq : q.Sound) {rest : List Rexent} (hacked : q.acked seqno = i :: rest)
    (hfirst : saddr ∉ i.packet.waiting → i.packet.behind ≠ some saddr) :
    (∀ j ∈ ((i.after saddr).toList ++ rest).head?, ¬j.packet.Takes saddr) ↔
      (saddr ∈ i.packet.waiting →
        if i.packet.waiting.length = 1 then ∀ j ∈ rest.head?, ¬j.packet.Takes saddr
        else i.packet.waiting.count saddr = 1 ∧ i.packet.waiting.getLast? ≠ some saddr) := by
  obtain ⟨hi, -⟩ := mem_acked hacked
  obtain ⟨ob, r, h⟩ := hq.waits i hi
  by_cases hmem : saddr ∈ i.packet.waiting
  · have hindex : i.packet.Takes saddr := .inl hmem
    simp only [hmem, true_implies]
    split_ifs with hone
    · rw [after_leaves h hindex hone]
      rfl
    · obtain ⟨packet, hpacket, hrun⟩ := after_shrinks h hindex hone
      have hcount : saddr ∉ packet.waiting ↔ i.packet.waiting.count saddr = 1 := by
        have := List.count_pos_iff.2 hmem
        rw [hpacket.waiting, (swapRemove_perm hmem).mem_iff, ← List.count_eq_zero,
          List.count_erase_self]
        omega
      simp [hrun, ImepPacket.Takes, hpacket.behind, hcount]
  · have hindex : ¬i.packet.Takes saddr := fun h => h.elim hmem (hfirst hmem)
    simp [after_kept h hindex, hindex, hmem]

/-- The exact condition for an ack or a loss to do what it means. -/
theorem right_iff_safe (hq : q.Sound) (e : ReXmitEvent) : q.Right e ↔ q.Safe e := by
  cases e with
  | loss index =>
    have hloses : LosesOnly (fun j b => (ReXmitEvent.loss index).means j b) q
        (q.filterMap (Rexent.after index)) ↔ q.Safe (.loss index) := by
      rw [losesOnly_filterMap hq fun j j' => after_p, Safe]
      refine forall₂_congr fun j hj => ?_
      obtain ⟨ob, r, h⟩ := hq.waits j hj
      exact after_losesOnly_iff h index
    rw [← hloses, Right, handle, purgeReXmitQ_eq hq]
    simp
  | ack saddr seqno =>
    rw [Right, handle]
    cases hacked : q.acked seqno with
    | nil =>
      have hfix : q.imepAckInput saddr seqno = some q :=
        (imepAckInput_fixed_iff hq).2 (by simp [hacked])
      refine iff_of_true ⟨q, hfix, ?_, ?_⟩ (by simp [Safe, hacked])
      · refine ⟨fun j hj j' hj' hp b hb => ?_, fun j hj hgone => absurd rfl (hgone j hj)⟩
        rw [List.inj_on_of_nodup_map hq.nodup hj' hj hp] at hb
        exact absurd hb (lt_irrefl _)
      · rintro _ _ ⟨⟩
        exact hfix
    | cons i rest =>
      have hrun : q.imepAckInput saddr seqno = some (q.filterMap (ackedAt i.p saddr)) := by
        rw [imepAckInput_eq hq, hacked]
      have hsafe : q.Safe (.ack saddr seqno) ↔
          (saddr ∉ i.packet.waiting → i.packet.behind ≠ some saddr) ∧
          (saddr ∈ i.packet.waiting →
            if i.packet.waiting.length = 1 then ∀ j ∈ rest.head?, ¬j.packet.Takes saddr
            else i.packet.waiting.count saddr = 1 ∧ i.packet.waiting.getLast? ≠ some saddr) := by
        rw [Safe, hacked]
        constructor
        · exact fun h => h i rest rfl
        · rintro h _ _ ⟨⟩
          exact h
      have hsecond := @imepAckInput_fixed_iff _ saddr seqno (hq.imepAckInput hrun)
      rw [acked_filterMap hq hacked] at hsecond
      rw [hsafe, hrun]
      constructor
      · rintro ⟨q', hq', hloses, hagain⟩
        obtain rfl := Option.some.inj hq'
        have hfirst := (losesOnly_ack_iff hq hacked).1 hloses
        exact ⟨hfirst, (second_iff hq hacked hfirst).1 (hsecond.1 (hagain _ _ rfl))⟩
      · rintro ⟨hfirst, hrest⟩
        refine ⟨_, rfl, (losesOnly_ack_iff hq hacked).2 hfirst, ?_⟩
        rintro _ _ ⟨⟩
        exact hsecond.2 ((second_iff hq hacked hfirst).2 hrest)

/-- The object block 7, with an empty object, for the neighbours 1, 2 and 3. -/
def threeWaiting : ReXmitQ := [{
  rexmit_at := 0
  p := 0
  packet := {
    imep_block_flags := blockFlagObject
    imep_length := 22
    bytes := fun i =>
      [0, 0, 0, 0, 7, 2, 1, 3, 0, 0, 0, 1, 0, 0, 0, 2, 0, 0, 0, 3, 0, 0, 0].getD i 0 }
  rexmits_left := 2 }]

theorem threeWaiting_sound : threeWaiting.Sound :=
  ⟨by decide, fun i hi => by
    obtain rfl := List.mem_singleton.1 hi
    exact ⟨4, 11, by decide, by decide⟩⟩

theorem threeWaiting_right : threeWaiting.Sound ∧
    (threeWaiting.Right (.ack 1 7) ↔ threeWaiting.Safe (.ack 1 7)) :=
  ⟨threeWaiting_sound, right_iff_safe threeWaiting_sound (.ack 1 7)⟩

/-- The second ack of neighbour 3 takes neighbour 2 off the list. -/
theorem threeWaiting_wrong : ¬∀ (q : ReXmitQ) (e : ReXmitEvent), q.Sound → q.Right e := by
  intro hall
  obtain ⟨q', hrun, -, hagain⟩ := hall threeWaiting (.ack 3 7) threeWaiting_sound
  have hfirst : (threeWaiting.handle (.ack 3 7)).map (List.map fun i => i.packet.waiting) =
      some [[1, 2]] := by decide
  have hsecond : ((threeWaiting.handle (.ack 3 7)).bind fun q => q.handle (.ack 3 7)).map
      (List.map fun i => i.packet.waiting) = some [[1]] := by decide
  rw [hrun] at hfirst hsecond
  rw [Option.bind_some, hagain 3 7 rfl, hfirst] at hsecond
  exact absurd hsecond (by decide)

end ReXmitQ

end Ns2
