import Mathlib.Data.Finset.Fold
import Ns2.Dccp.AckVectorRuns
import Ns2.Dccp.DccpOptions

/-! The nonce echo of an ack vector, kept in one byte over additions, vectors that are sent and
acknowledgements of these, and the check of it at the sender. -/

namespace Ns2

open ByteRecords RunLength

/-- `dccp_ecn_codepoint` -/
inductive EcnCodepoint where
  | ect0
  | ect1
  | notEct
  | ce
  deriving DecidableEq

namespace EcnCodepoint

def num : EcnCodepoint → Byte
  | ect0 => 0
  | ect1 => 1
  | notEct => 2
  | ce => 3

/-- The state of a packet with a code point. -/
def state (ecn : EcnCodepoint) : PacketState := if ecn = ce then .ecn else .recv

end EcnCodepoint

namespace AckVector

/-- `addPacket` with a code point and `addNonce` -/
def addNonce (v : AckVector) (seqnum : ℕ) (ecn : EcnCodepoint) : AckVector × Bool :=
  let r := v.addPacket seqnum ecn.state
  if r.2 = true ∧ (ecn = .ect0 ∨ ecn = .ect1) then ({ r.1 with ene_ := r.1.ene_ ^^^ ecn.num }, r.2)
  else r

/-- Whether a vector that was sent is acknowledged. -/
def acked (acknum : ℕ) (ackv : Option AckVector) (elm : AckHistEntry) : Bool :=
  match ackv with
  | none => acknum = elm.seq_sent_
  | some ackv =>
    ackv.getState elm.seq_sent_ = some .recv ∨ ackv.getState elm.seq_sent_ = some .ecn

def ackRecv (v : AckVector) (acknum : ℕ) (ackv : Option AckVector) : AckVector :=
  match v.ack_hist_.dropWhile (fun elm => !acked acknum ackv elm) with
  | [] => v
  | elm :: _ =>
    { ({ v with ene_ := v.ene_ ^^^ elm.ene_ } : AckVector).removePackets elm.ack_num_ with
      ack_hist_ := (v.ack_hist_.takeWhile fun elm => !acked acknum ackv elm).map fun e =>
        { e with ene_ := e.ene_ ^^^ elm.ene_ } }

inductive EchoCall where
  | addPacket (seqnum : BitVec 32) (ecn : EcnCodepoint)
  | sendAckVector (seqnum acknum : BitVec 32) (o : DccpOptions)
  | ackRecv (acknum : BitVec 32) (ackv : Option AckVector)

def echoStep (v : AckVector) : EchoCall → Option (AckVector × Bool)
  | .addPacket seqnum ecn => some (v.addNonce seqnum.toNat ecn)
  | .sendAckVector seqnum acknum o =>
    (v.sendAckVector seqnum.toNat acknum.toNat o).map fun r => (r.1, true)
  | .ackRecv acknum ackv => some (v.ackRecv acknum.toNat ackv, true)

end AckVector

/-- What the sender keeps of a packet. -/
structure SendHistEntry where
  seq_num_ : ℕ
  ecn_ : Byte

def findPacketInSendHistory (seq_num : ℕ) (start_elm : List SendHistEntry) : List SendHistEntry :=
  start_elm.dropWhile fun elm => elm.seq_num_ > seq_num

/-- The echo that the sender computes from the packets of a vector. -/
def computeEcho : List (ℕ × PacketState) → List SendHistEntry → Byte → Byte
  | [], _, ene => ene
  | (seqnum, state) :: ps, elm, ene =>
    if state = .recv then
      match findPacketInSendHistory seqnum elm with
      | [] => ene
      | e :: es =>
        if e.seq_num_ = seqnum then computeEcho ps (e :: es) (ene ^^^ e.ecn_)
        else computeEcho ps (e :: es) ene
    else computeEcho ps elm ene

/-- The check of the agent for the packets that are read from a vector. -/
def nonceCheck (high_ack_recv_ hist_last_seq_ : ℕ) (send_hist_ : List SendHistEntry)
    (ackv_recv_ : AckVector) (ps : List (ℕ × PacketState)) : Bool :=
  if ackv_recv_.seq_head_ ≥ high_ack_recv_ ∧ hist_last_seq_ ≤ ackv_recv_.seq_tail_ then
    computeEcho ps send_hist_ 0 = ackv_recv_.ene_
  else true

namespace AckVector

/-- The packets that the vector reports as received. -/
def received (v : AckVector) : Finset ℕ :=
  v.nums.toFinset.filter fun s => v.getState s = some .recv

/-- A nonce as it is added up. -/
def bit (b : Bool) : Byte := if b then 1 else 0

/-- The sum of the nonces of some packets. -/
def nonceSum (nonce : ℕ → Bool) (A : Finset ℕ) : Byte :=
  A.fold (· ^^^ ·) 0 fun s => bit (nonce s)

/-- A packet as it was sent, or marked on its way. -/
def Honest (nonce : ℕ → Bool) : EchoCall → Prop
  | .addPacket seqnum ecn => ecn ≠ .ce → nonce seqnum.toNat = decide (ecn = .ect1)
  | _ => True

instance (nonce : ℕ → Bool) : ∀ c, Decidable (Honest nonce c)
  | .addPacket seqnum ecn =>
    inferInstanceAs (Decidable (ecn ≠ .ce → nonce seqnum.toNat = decide (ecn = .ect1)))
  | .sendAckVector _ _ _ => inferInstanceAs (Decidable True)
  | .ackRecv _ _ => inferInstanceAs (Decidable True)

/-- A packet with a nonce is new to the vector and to the vectors in flight. -/
def Fresh (v : AckVector) : EchoCall → Prop
  | .addPacket seqnum ecn =>
    (v.size_ ≠ 0 → v.seq_head_ ≤ seqnum.toNat + 2 ^ 31) ∧
      (ecn = .ect1 → (v.getState seqnum.toNat).getD .notRecv = .notRecv ∧
        ∀ elm ∈ v.ack_hist_, elm.ack_num_ < seqnum.toNat)
  | _ => True

instance (v : AckVector) : ∀ c, Decidable (v.Fresh c)
  | .addPacket seqnum ecn => inferInstanceAs (Decidable ((v.size_ ≠ 0 →
      v.seq_head_ ≤ seqnum.toNat + 2 ^ 31) ∧ (ecn = .ect1 →
        (v.getState seqnum.toNat).getD .notRecv = .notRecv ∧
          ∀ elm ∈ v.ack_hist_, elm.ack_num_ < seqnum.toNat)))
  | .sendAckVector _ _ _ => inferInstanceAs (Decidable True)
  | .ackRecv _ _ => inferInstanceAs (Decidable True)

/-- The echo is the sum of the nonces of the packets that are reported, and so is the echo of every
vector in flight for the packets that it acknowledges. -/
structure Echoes (nonce : ℕ → Bool) (v : AckVector) : Prop where
  stores : ∃ l, v.Stores l
  ene : v.ene_ = nonceSum nonce v.received
  hist : ∀ e ∈ v.ack_hist_, e.ene_ = nonceSum nonce (v.received.filter (· ≤ e.ack_num_))
  sorted : v.ack_hist_.Pairwise fun e e' => e'.ack_num_ ≤ e.ack_num_

variable {nonce : ℕ → Bool} {v v' : AckVector} {l : List Byte}

theorem nonceSum_insert {A : Finset ℕ} {s : ℕ} (hs : s ∉ A) :
    nonceSum nonce (insert s A) = nonceSum nonce A ^^^ bit (nonce s) := by
  rw [nonceSum, Finset.fold_insert hs, BitVec.xor_comm]
  rfl

theorem nonceSum_filter (A : Finset ℕ) (p : ℕ → Prop) [DecidablePred p] :
    nonceSum nonce (A.filter p) ^^^ nonceSum nonce (A.filter fun s => ¬ p s) =
      nonceSum nonce A := by
  induction A using Finset.induction_on with
  | empty =>
    rw [Finset.filter_empty, Finset.filter_empty]
    exact BitVec.xor_self
  | insert s A hs ih =>
    have hnot : ∀ q : ℕ → Prop, ∀ [DecidablePred q], s ∉ A.filter q :=
      fun q _ hmem => hs (Finset.mem_filter.mp hmem).1
    rw [nonceSum_insert hs, ← ih, Finset.filter_insert, Finset.filter_insert]
    by_cases hp : p s
    · rw [if_pos hp, if_neg (not_not.mpr hp), nonceSum_insert (hnot p), BitVec.xor_assoc,
        BitVec.xor_assoc, BitVec.xor_comm (bit _)]
    · rw [if_neg hp, if_pos hp, nonceSum_insert (hnot _), BitVec.xor_assoc]

theorem xor_cancel_left (a b : Byte) : a ^^^ (a ^^^ b) = b := by
  rw [← BitVec.xor_assoc, BitVec.xor_self, BitVec.zero_xor]

theorem Stores.mem_received (h : v.Stores l) {s : ℕ} :
    s ∈ v.received ↔ v.getState s = some .recv := by
  rw [received, Finset.mem_filter, List.mem_toFinset, and_iff_right_iff_imp]
  intro hs
  rw [h.getState_eq] at hs
  split_ifs at hs with hle
  have hlt := (List.getElem?_eq_some_iff.mp hs).1
  have hl : l ≠ [] := by
    rintro rfl
    exact absurd hlt (Nat.not_lt_zero _)
  have hseqs := h.seqs hl
  exact h.mem_nums.mpr ⟨hl, by omega, hle⟩

/-- The states of a vector, as if each had been added at once. -/
theorem Stores.reports (h : v.Stores l) : v.Reports fun s => (v.getState s).toList := by
  have hout : ∀ s, s ∉ v.nums → v.getState s = none := fun s hs => by
    rw [h.getState_eq]
    split_ifs with hle
    · by_cases hl : l = []
      · rw [hl]
        rfl
      · have hseqs := h.seqs hl
        have htail : ¬ v.seq_tail_ ≤ s := fun ht => hs (h.mem_nums.mpr ⟨hl, ht, hle⟩)
        exact List.getElem?_eq_none (by omega)
    · rfl
  have hin : ∀ s, s ∈ v.nums → v.getState s ≠ none := fun s hs => by
    obtain ⟨hl, ht, hle⟩ := h.mem_nums.mp hs
    have hseqs := h.seqs hl
    rw [h.getState_eq, if_pos hle]
    intro hnone
    have := List.getElem?_eq_none_iff.mp hnone
    omega
  refine ⟨⟨l, h⟩, fun s => ?_, fun s hs => ?_⟩
  · by_cases hs : s ∈ v.nums
    · obtain ⟨x, hx⟩ := Option.ne_none_iff_exists'.mp (hin s hs)
      rw [if_pos hs, hx]
      exact congrArg some (notRecv_cons x).symm
    · rw [if_neg hs, hout s hs]
  · rw [hout s hs]
    rfl

theorem mem_received_of_reports {added : ℕ → List PacketState} (h : v.Reports added) {s : ℕ} :
    s ∈ v.received ↔ stateOf (added s) = .recv := by
  obtain ⟨l, hl⟩ := h.stores
  rw [hl.mem_received, h.state]
  by_cases hs : s ∈ v.nums
  · rw [if_pos hs]
    exact ⟨Option.some.inj, congrArg some⟩
  · rw [if_neg hs, h.outside s hs]
    exact iff_of_false (Option.some_ne_none _).symm PacketState.noConfusion

theorem stateOf_toList (o : Option PacketState) : stateOf o.toList = o.getD .notRecv := by
  cases o with
  | none => rfl
  | some x => exact notRecv_cons x

/-- What an addition changes of the packets that are reported. -/
theorem Stores.received_addPacket (h : v.Stores l) {seqnum : BitVec 32} {state : PacketState}
    (hc : v.Unwrapped (.addPacket seqnum state)) (hstate : state = .recv ∨ state = .ecn) :
    (v.addPacket seqnum.toNat state).1.received =
      if (v.addPacket seqnum.toNat state).2 = true ∧ state = .recv ∧
          (v.getState seqnum.toNat).getD .notRecv = .notRecv then
        insert seqnum.toNat v.received
      else v.received := by
  by_cases hok : (v.addPacket seqnum.toNat state).2 = true
  · have hadded := h.reports.added hc hok
    ext s
    rw [mem_received_of_reports hadded]
    have hmem : s ∈ v.received ↔ (v.getState s).getD .notRecv = .recv := by
      rw [mem_received_of_reports h.reports, stateOf_toList]
    by_cases hs : seqnum.toNat = s
    · subst hs
      rw [if_pos rfl, stateOf_append, stateOf_toList]
      split_ifs with hnew
      · rw [hnew.2.1, hnew.2.2]
        exact iff_of_true rfl (Finset.mem_insert_self _ _)
      · rw [hmem]
        cases hold : (v.getState seqnum.toNat).getD .notRecv with
        | notRecv =>
          rcases hstate with rfl | rfl
          · exact absurd ⟨hok, rfl, hold⟩ hnew
          · decide
        | _ => rcases hstate with rfl | rfl <;> decide
    · rw [if_neg hs, stateOf_toList, ← hmem]
      split_ifs with hnew
      · rw [Finset.mem_insert]
        exact ⟨.inr, fun hor => hor.resolve_left fun he => hs he.symm⟩
      · rfl
  · rw [if_neg fun hn => hok hn.1]
    have hfail : (v.call (.addPacket seqnum state)).2 = false := Bool.eq_false_of_not_eq_true hok
    obtain ⟨hstores, hsame⟩ := call_failed h hc hfail
    ext s
    rw [h.mem_received, ← getState_same h hstores hsame]
    exact hstores.mem_received

theorem Stores.received_removePackets (h : v.Stores l) (seqnum : ℕ) :
    (v.removePackets seqnum).received = v.received.filter fun s => ¬ s ≤ seqnum := by
  ext s
  rw [mem_received_of_reports (h.reports.removed seqnum), Finset.mem_filter,
    mem_received_of_reports h.reports]
  by_cases hs : s ≤ seqnum
  · rw [if_pos hs]
    exact iff_of_false PacketState.noConfusion (fun hn => hn.2 hs)
  · rw [if_neg hs]
    exact ⟨fun hr => ⟨hr, hs⟩, And.left⟩

/-- What does not touch the cells. -/
theorem Stores.received_congr (h : v.Stores l) (h' : v'.Stores l)
    (hhead : v'.seq_head_ = v.seq_head_) : v'.received = v.received := by
  ext s
  rw [h.mem_received, h'.mem_received, h.getState_eq, h'.getState_eq, hhead]

theorem Stores.ene (h : v.Stores l) (b : Byte) : Stores { v with ene_ := b } l := by
  obtain ⟨h2, hn, hfits, hsize, hholds, hhead, htail, hseqs, hbelow⟩ := h
  exact ⟨h2, hn, hfits, hsize, hholds, hhead, htail, hseqs, hbelow⟩

theorem Stores.hist (h : v.Stores l) (hist : List AckHistEntry) :
    Stores { v with ack_hist_ := hist } l := by
  obtain ⟨h2, hn, hfits, hsize, hholds, hhead, htail, hseqs, hbelow⟩ := h
  exact ⟨h2, hn, hfits, hsize, hholds, hhead, htail, hseqs, hbelow⟩

theorem nonceSum_bit (nonce : ℕ → Bool) (A : Finset ℕ) : ∃ b, nonceSum nonce A = bit b := by
  induction A using Finset.induction_on with
  | empty => exact ⟨false, rfl⟩
  | insert s A hs ih =>
    obtain ⟨b, hb⟩ := ih
    refine ⟨xor b (nonce s), ?_⟩
    rw [nonceSum_insert hs, hb]
    cases b <;> cases nonce s <;> decide

theorem Echoes.addPacket (h : v.Echoes nonce) {seqnum : BitVec 32} {ecn : EcnCodepoint}
    (hfresh : v.Fresh (.addPacket seqnum ecn)) (hhonest : Honest nonce (.addPacket seqnum ecn)) :
    (v.addNonce seqnum.toNat ecn).1.Echoes nonce := by
  obtain ⟨l, hl⟩ := h.stores
  have hwrap : l ≠ [] → v.seq_head_ ≤ seqnum.toNat + 2 ^ 31 :=
    fun hne => hfresh.1 fun hz => hne (hl.size_eq_zero.mp hz)
  have hstate : ecn.state = .recv ∨ ecn.state = .ecn := by cases ecn <;> decide
  have hgives := hl.addState seqnum.isLt hwrap ecn.state tries
  change Gives _ _ _ _ (v.addPacket seqnum.toNat ecn.state) at hgives
  have hreceived := @Stores.received_addPacket v l hl seqnum ecn.state hfresh.1 hstate
  have hstores : ∃ l', (v.addPacket seqnum.toNat ecn.state).1.Stores l' := by
    cases hok : (v.addPacket seqnum.toNat ecn.state).2 with
    | true =>
      obtain ⟨l', hl', -⟩ := hgives.made hok
      exact ⟨l', hl'⟩
    | false => exact ⟨l, (hgives.failed hok).1⟩
  generalize hr : v.addPacket seqnum.toNat ecn.state = r at hgives hreceived hstores
  rw [addNonce, hr]
  dsimp only
  obtain ⟨l', hl'⟩ := hstores
  by_cases hone : r.2 = true ∧ ecn = .ect1
  · -- the nonce is added to the echo, and to none of the vectors in flight
    obtain ⟨hok, rfl⟩ := hone
    obtain ⟨hnew, hflight⟩ := hfresh.2 rfl
    have hnonce : nonce seqnum.toNat = true := hhonest (by decide)
    have hout : seqnum.toNat ∉ v.received := fun hmem => by
      rw [hl.mem_received.mp hmem] at hnew
      exact PacketState.noConfusion hnew
    rw [if_pos ⟨hok, rfl, hnew⟩] at hreceived
    have hene := hl'.ene (r.1.ene_ ^^^ EcnCodepoint.ect1.num)
    have hcongr := hl'.received_congr hene rfl
    rw [if_pos ⟨hok, .inr rfl⟩]
    refine ⟨⟨l', hene⟩, ?_, fun e he => ?_, ?_⟩
    · rw [hcongr, hreceived, nonceSum_insert hout, ← h.ene, hnonce]
      exact congrArg (· ^^^ _) hgives.ene
    · have he' : e ∈ v.ack_hist_ := hgives.hist ▸ he
      have := hflight e he'
      rw [hcongr, hreceived, Finset.filter_insert, if_neg (by omega)]
      exact h.hist e he'
    · change r.1.ack_hist_.Pairwise _
      rw [hgives.hist]
      exact h.sorted
  · -- a packet without a nonce
    have hkeep : ∀ w : AckVector, w.Stores l' → w.ene_ = v.ene_ → w.seq_head_ = r.1.seq_head_ →
        w.ack_hist_ = v.ack_hist_ → w.Echoes nonce := fun w hw hene hhead hhist => by
      have hcongr := hl'.received_congr hw hhead
      have hsum : ∀ p : ℕ → Prop, ∀ [DecidablePred p],
          nonceSum nonce (w.received.filter p) = nonceSum nonce (v.received.filter p) := by
        intro p _
        rw [hcongr, hreceived]
        split_ifs with hnew
        · have hzero : nonce seqnum.toNat = false := by
            rw [hhonest fun hce => by rw [hce] at hnew; exact PacketState.noConfusion hnew.2.1]
            exact decide_eq_false fun he => hone ⟨hnew.1, he⟩
          have hout : seqnum.toNat ∉ v.received.filter p := fun hmem => by
            have hold := hnew.2.2
            rw [hl.mem_received.mp (Finset.mem_filter.mp hmem).1] at hold
            exact PacketState.noConfusion hold
          rw [Finset.filter_insert]
          split_ifs
          · rw [nonceSum_insert hout, hzero]
            exact BitVec.xor_zero
          · rfl
        · rfl
      refine ⟨⟨l', hw⟩, ?_, fun e he => ?_, ?_⟩
      · have hall := hsum fun _ => True
        rw [Finset.filter_true, Finset.filter_true] at hall
        rw [hene, hall]
        exact h.ene
      · rw [hhist] at he
        rw [hsum]
        exact h.hist e he
      · rw [hhist]
        exact h.sorted
    split_ifs with hect
    · have hzero : ecn = .ect0 := hect.2.resolve_right fun he => hone ⟨hect.1, he⟩
      refine hkeep _ (hl'.ene _) ?_ rfl hgives.hist
      dsimp only
      rw [hzero]
      exact BitVec.xor_zero.trans hgives.ene
    · exact hkeep _ hl' hgives.ene rfl hgives.hist

theorem Echoes.sendAckVector (h : v.Echoes nonce) {seqnum acknum : ℕ} {o o' : DccpOptions}
    (hsend : v.sendAckVector seqnum acknum o = some (v', o')) : v'.Echoes nonce := by
  obtain ⟨l, hl⟩ := h.stores
  have hne : l ≠ [] := by
    rintro rfl
    have hsize := hl.size
    unfold AckVector.sendAckVector at hsend
    rw [if_pos (show v.size_ = 0 from hsize)] at hsend
    split_ifs at hsend
  have hr : ¬ v.Refuses seqnum acknum o := fun hr => by
    rw [hl.sendAckVector_refused hne hr] at hsend
    cases hsend
  rw [hl.sendAckVector_eq hne hr] at hsend
  obtain ⟨rfl, -⟩ := Prod.mk.inj (Option.some.inj hsend)
  have hcongr := hl.received_congr (hl.hist (⟨seqnum, v.seq_head_, v.ene_⟩ :: v.ack_hist_)) rfl
  have hold : ∀ elm ∈ v.ack_hist_, elm.ack_num_ ≤ v.seq_head_ := by
    have hfirst : ∀ elm ∈ v.ack_hist_.head?, elm.ack_num_ ≤ v.seq_head_ := fun elm helm => by
      by_contra hgt
      exact hr (.inr (.inr (.inr (.inr ⟨elm, helm, .inr (by omega)⟩))))
    have hsorted := h.sorted
    intro elm helm
    cases hhist : v.ack_hist_ with
    | nil =>
      rw [hhist] at helm
      exact absurd helm List.not_mem_nil
    | cons first rest =>
      rw [hhist] at helm hsorted hfirst
      have hhead := hfirst first rfl
      rcases List.mem_cons.mp helm with rfl | hmem
      · exact hhead
      · exact (List.rel_of_pairwise_cons hsorted hmem).trans hhead
  refine ⟨⟨l, hl.hist _⟩, by rw [hcongr]; exact h.ene, fun e he => ?_,
    List.pairwise_cons.mpr ⟨hold, h.sorted⟩⟩
  rw [hcongr]
  rcases List.mem_cons.mp he with rfl | he
  · have hall : v.received.filter (· ≤ v.seq_head_) = v.received :=
      Finset.filter_true_of_mem fun s hs => by
        have hstate := hl.mem_received.mp hs
        rw [hl.getState_eq] at hstate
        split_ifs at hstate with hle
        exact hle
    dsimp only
    rw [hall]
    exact h.ene
  · exact h.hist e he

theorem Echoes.ackRecv (h : v.Echoes nonce) (acknum : ℕ) (ackv : Option AckVector) :
    (v.ackRecv acknum ackv).Echoes nonce := by
  rw [AckVector.ackRecv]
  have hsplit := List.takeWhile_append_dropWhile
    (p := fun elm => !acked acknum ackv elm) (l := v.ack_hist_)
  generalize hd : v.ack_hist_.dropWhile (fun elm => !acked acknum ackv elm) = older at hsplit
  generalize v.ack_hist_.takeWhile (fun elm => !acked acknum ackv elm) = newer at hsplit
  cases older with
  | nil => exact h
  | cons elm older =>
    obtain ⟨l, hl⟩ := h.stores
    have hsorted := h.sorted
    have hhist := h.hist
    rw [← hsplit] at hsorted hhist
    obtain ⟨hnewer, -, hbetween⟩ := List.pairwise_append.mp hsorted
    have helm := hhist elm (by simp)
    obtain ⟨l', hl', -, -, -, hene⟩ := (hl.ene (v.ene_ ^^^ elm.ene_)).removePackets elm.ack_num_
    have hreceived := (hl.ene (v.ene_ ^^^ elm.ene_)).received_removePackets elm.ack_num_
    rw [hl.received_congr (hl.ene (v.ene_ ^^^ elm.ene_)) rfl] at hreceived
    dsimp only
    generalize ({ v with ene_ := v.ene_ ^^^ elm.ene_ } : AckVector).removePackets elm.ack_num_ = w
      at hl' hene hreceived
    have hcongr := fun hist => hl'.received_congr (hl'.hist hist) rfl
    refine ⟨⟨l', hl'.hist _⟩, ?_, fun e he => ?_, ?_⟩
    · rw [hcongr, hreceived]
      change w.ene_ = _
      rw [hene]
      split_ifs with hnil
      · -- everything is acknowledged
        rw [← hreceived]
        have hempty : w.received = ∅ := Finset.eq_empty_of_forall_notMem fun s hs => by
          have hstate := hl'.mem_received.mp hs
          rw [hl'.getState_eq, hnil.1] at hstate
          split_ifs at hstate
          cases hstate
        rw [hempty]
        rfl
      · change v.ene_ ^^^ elm.ene_ = _
        rw [h.ene, helm, ← nonceSum_filter v.received (· ≤ elm.ack_num_), BitVec.xor_comm,
          xor_cancel_left]
    · obtain ⟨e, hmem, rfl⟩ := List.mem_map.mp he
      have hle : elm.ack_num_ ≤ e.ack_num_ := hbetween e hmem elm List.mem_cons_self
      have hupto : (v.received.filter (· ≤ e.ack_num_)).filter (· ≤ elm.ack_num_) =
          v.received.filter (· ≤ elm.ack_num_) := by
        rw [Finset.filter_filter]
        apply Finset.filter_congr
        intro s _
        omega
      dsimp only
      rw [hcongr, hreceived, hhist e (List.mem_append_left _ hmem), helm,
        ← nonceSum_filter (v.received.filter (· ≤ e.ack_num_)) (· ≤ elm.ack_num_), hupto,
        BitVec.xor_comm, xor_cancel_left, Finset.filter_comm]
    · exact List.pairwise_map.mpr hnewer

/-- What an honest sender keeps of the packets from `hist_last_seq_` on. -/
structure SendHistory (nonce : ℕ → Bool) (hist_last_seq_ : ℕ) (send_hist_ : List SendHistEntry) :
    Prop where
  sorted : send_hist_.Pairwise fun e e' => e'.seq_num_ < e.seq_num_
  ecn : ∀ e ∈ send_hist_, e.ecn_ = bit (nonce e.seq_num_)
  kept : ∀ s, hist_last_seq_ ≤ s → nonce s = true → ∃ e ∈ send_hist_, e.seq_num_ = s

/-- The sum of the nonces of the packets that a list gives as received. -/
def listSum (nonce : ℕ → Bool) : List (ℕ × PacketState) → Byte
  | [] => 0
  | (s, state) :: ps =>
    if state = .recv then bit (nonce s) ^^^ listSum nonce ps else listSum nonce ps

theorem listSum_eq_zero {ps : List (ℕ × PacketState)} (h : ∀ p ∈ ps, nonce p.1 = false) :
    listSum nonce ps = 0 := by
  induction ps with
  | nil => rfl
  | cons p ps ih =>
    have hp := h p List.mem_cons_self
    have hps := ih fun q hq => h q (List.mem_cons_of_mem p hq)
    rw [listSum, hps, hp]
    split_ifs <;> rfl

theorem listSum_map {L : List ℕ} (hL : L.Nodup) (f : ℕ → PacketState) :
    listSum nonce (L.map fun s => (s, f s)) =
      nonceSum nonce (L.toFinset.filter fun s => f s = .recv) := by
  induction L with
  | nil => rfl
  | cons s L ih =>
    obtain ⟨hs, hL⟩ := List.nodup_cons.mp hL
    rw [List.map_cons, listSum, ih hL, List.toFinset_cons, Finset.filter_insert]
    split_ifs with hrecv
    · have hout : s ∉ L.toFinset.filter fun s => f s = .recv := fun hmem =>
        hs (List.mem_toFinset.mp (Finset.mem_filter.mp hmem).1)
      rw [nonceSum_insert hout, BitVec.xor_comm]
    · rfl

/-- The sender finds the nonce of every packet that is reported. -/
theorem computeEcho_eq {ps : List (ℕ × PacketState)} {elm : List SendHistEntry}
    (hps : ps.Pairwise fun p q => q.1 < p.1)
    (hsorted : elm.Pairwise fun e e' => e'.seq_num_ < e.seq_num_)
    (hecn : ∀ e ∈ elm, e.ecn_ = bit (nonce e.seq_num_))
    (hkept : ∀ p ∈ ps, nonce p.1 = true → ∃ e ∈ elm, e.seq_num_ = p.1) (ene : Byte) :
    computeEcho ps elm ene = ene ^^^ listSum nonce ps := by
  induction ps generalizing elm ene with
  | nil => exact BitVec.xor_zero.symm
  | cons p ps ih =>
    obtain ⟨s, state⟩ := p
    obtain ⟨hbelow, hps⟩ := List.pairwise_cons.mp hps
    have hkept' : ∀ q ∈ ps, nonce q.1 = true → ∃ e ∈ elm, e.seq_num_ = q.1 :=
      fun q hq => hkept q (List.mem_cons_of_mem _ hq)
    rw [computeEcho, listSum]
    by_cases hrecv : state = .recv
    swap
    · rw [if_neg hrecv, if_neg hrecv]
      exact ih hps hsorted hecn hkept' ene
    rw [if_pos hrecv, if_pos hrecv]
    have hfound : ∀ e ∈ elm, e.seq_num_ ≤ s → e ∈ findPacketInSendHistory s elm := by
      intro e he hle
      have hsplit := List.takeWhile_append_dropWhile
        (p := fun elm : SendHistEntry => decide (elm.seq_num_ > s)) (l := elm)
      rw [← hsplit] at he
      refine (List.mem_append.mp he).resolve_left fun htake => ?_
      have hgt := List.mem_takeWhile_imp (p := fun elm : SendHistEntry =>
        decide (elm.seq_num_ > s)) htake
      have := of_decide_eq_true hgt
      omega
    have hsub : (findPacketInSendHistory s elm).Sublist elm := List.dropWhile_sublist _
    cases hfind : findPacketInSendHistory s elm with
    | nil =>
      -- no packet from here on has a nonce
      have hzero : ∀ q ∈ (s, state) :: ps, nonce q.1 = false := fun q hq => by
        by_contra hone
        obtain ⟨e, he, hes⟩ := hkept q hq (by simpa using hone)
        have hle : q.1 ≤ s := by
          rcases List.mem_cons.mp hq with rfl | hq
          · exact le_rfl
          · exact (hbelow q hq).le
        have hmem := hfound e he (by omega)
        rw [hfind] at hmem
        exact absurd hmem List.not_mem_nil
      have hs : nonce s = false := hzero (s, state) List.mem_cons_self
      rw [listSum_eq_zero fun q hq => hzero q (List.mem_cons_of_mem _ hq), hs]
      exact BitVec.xor_zero.symm
    | cons e es =>
      rw [hfind] at hfound hsub
      have hle : e.seq_num_ ≤ s := by
        have hhead := List.head?_dropWhile_not (fun elm => decide (elm.seq_num_ > s)) elm
        rw [show elm.dropWhile (fun elm => decide (elm.seq_num_ > s)) = e :: es from hfind] at hhead
        simpa using hhead
      have hsorted' := hsorted.sublist hsub
      have hrest := fun ene => ih hps hsorted' (fun e' he' => hecn e' (hsub.subset he'))
        (fun q hq hone => by
          obtain ⟨e', he', hq'⟩ := hkept' q hq hone
          have := hbelow q hq
          exact ⟨e', hfound e' he' (by omega), hq'⟩) ene
      dsimp only
      split_ifs with hat
      · rw [hrest, hecn e (hsub.subset List.mem_cons_self), hat, BitVec.xor_assoc]
      · have hzero : nonce s = false := by
          by_contra hone
          obtain ⟨e', he', hs⟩ := hkept (s, state) List.mem_cons_self (by simpa using hone)
          rcases List.mem_cons.mp (hfound e' he' (by omega)) with rfl | hes
          · exact hat hs
          · have := List.rel_of_pairwise_cons hsorted' hes
            dsimp only at hs
            omega
        rw [hrest, hzero]
        exact (congrArg _ BitVec.zero_xor).symm

theorem setAckVector_ene {vect : List Byte} {s : ℕ} {ene : Byte} {t : ℕ} {w : AckVector}
    (h : v.setAckVector vect s ene t = (w, true)) : w.ene_ = ene := by
  induction t generalizing v with
  | zero => exact Bool.noConfusion (Prod.mk.inj h).2
  | succ t ih =>
    rw [setAckVector] at h
    split_ifs at h
    · rw [doubleAnd] at h
      split at h
      · exact Bool.noConfusion (Prod.mk.inj h).2
      · exact ih h
    · obtain ⟨rfl, -⟩ := Prod.mk.inj h
      rfl

/-- The check of a vector whose echo is right. -/
theorem Stores.nonceCheck (h : v.Stores l) (hene : v.ene_ = nonceSum nonce v.received)
    (high_ack_recv_ : ℕ) {hist_last_seq_ : ℕ} {send_hist_ : List SendHistEntry}
    (hhist : SendHistory nonce hist_last_seq_ send_hist_) :
    ∃ ps, WalkLists v.nextPacket v.startPacketWalk ps ∧
      Ns2.nonceCheck high_ack_recv_ hist_last_seq_ send_hist_ v ps = true := by
  have hreports := h.reports
  obtain ⟨hdown, -⟩ := h.walks hreports.state
  refine ⟨_, hdown, ?_⟩
  rw [Ns2.nonceCheck]
  split_ifs with hcheck
  · have hnodup : v.nums.reverse.Nodup := by
      rw [List.nodup_reverse, h.nums_eq]
      exact List.nodup_range'
    have hreceived : v.nums.reverse.toFinset.filter
        (fun s => stateOf (v.getState s).toList = .recv) = v.received := by
      ext s
      rw [Finset.mem_filter, List.mem_toFinset, List.mem_reverse, mem_received_of_reports hreports,
        and_iff_right_iff_imp]
      intro hs
      by_contra hout
      rw [hreports.outside s hout] at hs
      cases hs
    apply decide_eq_true
    rw [computeEcho_eq ?_ hhist.sorted hhist.ecn ?_, listSum_map hnodup, hreceived, hene]
    · exact BitVec.zero_xor
    · rw [h.nums_eq, List.pairwise_map, List.pairwise_reverse]
      exact List.pairwise_lt_range'
    · intro p hp hone
      obtain ⟨s, hs, rfl⟩ := List.mem_map.mp hp
      obtain ⟨-, htail, -⟩ := h.mem_nums.mp (List.mem_reverse.mp hs)
      exact hhist.kept s (hcheck.2.trans htail) hone
  · rfl

/-- In a run where every packet with a nonce is new when it is added, the echo is the sum of the
nonces of the packets that are reported, and the sender accepts the vector. -/
theorem run_echoes {n : ℕ} (h2 : 2 ≤ n) (hn : n ≤ maxAckvSize) {calls : List EchoCall}
    (hcalls : Machine.Admits echoStep (fun v c => v.Fresh c ∧ Honest nonce c) (ofSize n) calls)
    {results : List Bool} (hrun : Machine.run echoStep (ofSize n) calls = some (v, results)) :
    v.ene_ = nonceSum nonce v.received ∧
      ∀ (m : ℕ) (vect : List Byte), 2 ≤ m → m ≤ maxAckvSize → v.getAckVector v.size_ = .ok vect →
        ∃ w, (ofSize m).setAckVector vect v.seq_head_
            (1 - (DccpOptions.ackVectorN1 - v.optionType)) tries = (w, true) ∧
          ∀ (high_ack_recv_ hist_last_seq_ : ℕ) (send_hist_ : List SendHistEntry),
            SendHistory nonce hist_last_seq_ send_hist_ →
            ∃ ps, WalkLists w.nextPacket w.startPacketWalk ps ∧
              Ns2.nonceCheck high_ack_recv_ hist_last_seq_ send_hist_ w ps = true := by
  have hstart : (ofSize n).Echoes nonce :=
    ⟨⟨[], ofSize_stores h2 hn⟩, rfl, fun e he => absurd he List.not_mem_nil, List.Pairwise.nil⟩
  have h : v.Echoes nonce := by
    refine Machine.run_invariant (fun s i s' o hs hi hstep => ?_) hstart hcalls hrun
    cases i with
    | addPacket seqnum ecn =>
      obtain ⟨rfl, -⟩ := Prod.mk.inj (Option.some.inj hstep)
      exact hs.addPacket hi.1 hi.2
    | sendAckVector seqnum acknum o =>
      obtain ⟨⟨w, o'⟩, hsend, hw⟩ := Option.map_eq_some_iff.mp hstep
      obtain ⟨rfl, -⟩ := Prod.mk.inj hw
      exact hs.sendAckVector hsend
    | ackRecv acknum ackv =>
      obtain ⟨rfl, -⟩ := Prod.mk.inj (Option.some.inj hstep)
      exact hs.ackRecv acknum.toNat ackv
  refine ⟨h.ene, fun m vect hm hm' hvect => ?_⟩
  obtain ⟨l, hl⟩ := h.stores
  have hne : l ≠ [] := by
    rintro rfl
    rw [getAckVector, if_pos (show v.size_ = 0 from hl.size)] at hvect
    cases hvect
  rw [hl.getAckVector_eq hne] at hvect
  obtain rfl := Except.ok.inj hvect
  have hseqs := hl.seqs hne
  have hmax : l.length ≤ maxAckvSize := hl.fits.trans hl.le_max
  have hecho : 1 - (DccpOptions.ackVectorN1 - v.optionType) = v.ene_ := by
    obtain ⟨b, hb⟩ := nonceSum_bit nonce v.received
    rw [optionType, h.ene, hb]
    cases b <;> decide
  obtain ⟨w, hset, hw, hhead⟩ := setAckVector_stores hm hm' hne
    (by have : maxAckvSize ≤ m * 2 ^ 16 := by unfold maxAckvSize; omega
        omega) hmax (by omega) hl.below (1 - (DccpOptions.ackVectorN1 - v.optionType))
  refine ⟨w, hset, fun high last hist hhist => hw.nonceCheck ?_ high hhist⟩
  rw [setAckVector_ene hset, hecho, hl.received_congr hw hhead]
  exact h.ene

theorem run_echoes_late : ∃ v results,
    Machine.run echoStep (ofSize 2) [.addPacket 5 .ect1, .addPacket 8 .ce,
      .sendAckVector 3 8 ⟨[], 100⟩, .addPacket 7 .ect0, .addPacket 9 .ect1, .ackRecv 3 none] =
        some (v, results) ∧ v.ene_ = nonceSum (fun s => s = 5 ∨ s = 9) v.received := by
  obtain ⟨⟨v, results⟩, hrun⟩ := Option.isSome_iff_exists.mp
    (show (Machine.run echoStep (ofSize 2) [.addPacket 5 .ect1, .addPacket 8 .ce,
      .sendAckVector 3 8 ⟨[], 100⟩, .addPacket 7 .ect0, .addPacket 9 .ect1,
      .ackRecv 3 none]).isSome = true by decide +kernel)
  exact ⟨v, results, hrun, (@run_echoes _ _ 2 (by decide) (by decide) _ (by decide +kernel) _
    hrun).1⟩

/-- A duplicate takes the nonce out of the echo. -/
theorem echo_of_duplicate :
    ¬ ∀ (nonce : ℕ → Bool) (calls : List EchoCall), (∀ c ∈ calls, Honest nonce c) →
      ∀ v results, Machine.run echoStep (ofSize 2) calls = some (v, results) →
        v.ene_ = nonceSum nonce v.received := by
  intro h
  have hdup := h (fun _ => true) [.addPacket 5 .ect1, .addPacket 5 .ect1] (by decide) _ _ rfl
  revert hdup
  decide +kernel

end AckVector

end Ns2
