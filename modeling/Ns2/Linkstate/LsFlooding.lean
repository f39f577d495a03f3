import Ns2.Linkstate.LsHandlers

/-! A message of `regenAndSend` carries no link states: its receivers keep what they have. -/

namespace Ns2

namespace LsWork

variable {w w' : LsWork}

/-- Without the topology message nothing is flooded. -/
theorem Does.quiet {F : LsMessage → Prop} (h : Does F False w w') {msg : LsMessage}
    {lsl : List LsLinkState} (hw : .flooded msg lsl ∈ w'.events) : .flooded msg lsl ∈ w.events := by
  induction h with
  | same _ _ he => exact he ▸ hw
  | routes w => simpa [report] using hw
  | flood h => exact h.elim
  | file w peerId _ => simpa [messageOut, report] using hw
  | @resend w w' peerId h =>
    obtain ⟨r, w₁, -, ⟨-, -, qs, -, he⟩, rfl⟩ := resendMessages_spec h
    simpa [he] using hw
  | cancel w _ => exact hw
  | ack _ => exact hw
  | trans _ _ ih ih' => exact ih (ih' hw)

/-- A flooded message carries nothing, and its list is the link state that is stored for its
origin. -/
def Stored (w : LsWork) (msg : LsMessage) (lsl : List LsLinkState) : Prop :=
  msg.type_ = .lsa ∧ msg.contentPtr_ = .null ∧
    w.self.linkStateDatabase_.find msg.originNodeId_ = some lsl

theorem bufferAll_same (w : LsWork) (exception origin : ℤ) (msg : LsMessage) :
    (w.bufferAll exception origin msg).self.linkStateDatabase_ = w.self.linkStateDatabase_ ∧
      (w.bufferAll exception origin msg).events = w.events := by
  unfold bufferAll
  generalize w.self.peerIdList_ = ps
  induction ps generalizing w with
  | nil => exact ⟨rfl, rfl⟩
  | cons p ps ih =>
    rw [List.foldl_cons, (ih _).1, (ih _).2]
    split_ifs <;> exact ⟨rfl, rfl⟩

theorem regenAndSend_spec {exception origin : ℤ} {lsl : List LsLinkState}
    (h : w.regenAndSend exception origin lsl = some w') :
    w'.self.linkStateDatabase_ = w.self.linkStateDatabase_ ∧
      ∃ msg, w'.events = w.events ++ [.flooded msg lsl] ∧ msg.type_ = .lsa ∧
        msg.contentPtr_ = .null ∧ msg.originNodeId_ = origin := by
  cases lsl with
  | nil => cases h
  | cons l lsl =>
    obtain ⟨⟨c, msg⟩, hnew, rfl⟩ := Option.map_eq_some_iff.mp h
    have hfresh := LsMessageCenter.newMessage_fresh hnew
    obtain ⟨h1, h2⟩ := bufferAll_same { w with msgctr := c.assign _ } exception origin
      { msg with sequenceNumber_ := l.sequenceNumber_, originNodeId_ := origin }
    exact ⟨h1, _, congrArg (· ++ _) h2, hfresh.type_, hfresh.content, rfl⟩

/-- The origins of the map differ, so that no later one replaces what was stored. -/
theorem compareTopo_stored {neighborId : ℤ} {msgId : LsSeq} {changed b : Bool}
    {recs : List (ℤ × List LsLinkState)} (hrecs : recs.Pairwise fun a b => a.1 < b.1)
    (hw : ∀ msg lsl, .flooded msg lsl ∈ w.events →
      w.Stored msg lsl ∧ ∀ r ∈ recs, msg.originNodeId_ < r.1)
    (h : compareTopo neighborId msgId w changed recs = some (w', b)) :
    ∀ msg lsl, .flooded msg lsl ∈ w'.events → w'.Stored msg lsl := by
  induction recs generalizing w changed with
  | nil =>
    cases hmsg : w.msgctr.retrieveMessagePtr msgId with
    | none =>
      unfold compareTopo at h
      simp [hmsg] at h
    | some m =>
      unfold compareTopo at h
      simp only [hmsg, Option.some.injEq, Prod.mk.injEq] at h
      exact fun msg lsl hm => h.1 ▸ (hw msg lsl (h.1 ▸ hm)).1
  | cons r recs ih =>
    obtain ⟨hr, hrecs⟩ := List.pairwise_cons.mp hrecs
    have htail : ∀ msg lsl, .flooded msg lsl ∈ w.events →
        w.Stored msg lsl ∧ ∀ r ∈ recs, msg.originNodeId_ < r.1 := fun msg lsl hm =>
      ⟨(hw msg lsl hm).1, fun r hr => (hw msg lsl hm).2 r (List.mem_cons_of_mem _ hr)⟩
    cases hmsg : w.msgctr.retrieveMessagePtr msgId with
    | none =>
      unfold compareTopo at h
      simp [hmsg] at h
    | some m =>
      unfold compareTopo at h
      simp only [hmsg] at h
      split_ifs at h
      · exact ih hrecs htail h
      · obtain ⟨b, -, h⟩ := Option.bind_eq_some_iff.mp h
        split_ifs at h
        · obtain ⟨w₁, h1, h2⟩ := Option.bind_eq_some_iff.mp h
          obtain ⟨hdb, m, he, htype, hcontent, horigin⟩ := regenAndSend_spec h1
          refine ih hrecs (fun msg lsl hm => ?_) h2
          rw [he] at hm
          rcases List.mem_append.mp hm with hm | hm
          · obtain ⟨⟨h3, h4, h5⟩, h6⟩ := hw msg lsl hm
            refine ⟨⟨h3, h4, ?_⟩, (htail msg lsl hm).2⟩
            rw [hdb, SortedMap.find_set, if_neg (h6 r (by simp)).ne]
            exact h5
          · obtain ⟨rfl, rfl⟩ := LsEvent.flooded.inj (List.mem_singleton.mp hm)
            refine ⟨⟨htype, hcontent, ?_⟩, fun r' hr' => horigin ▸ hr r' hr'⟩
            rw [hdb, horigin, SortedMap.find_set, if_pos rfl]
        · exact ih hrecs htail h

theorem sendAck_same {nbrId origin : ℤ} {type : LsMessageType} {seq : LsSeq}
    (h : w.sendAck nbrId type origin seq = some w') :
    w'.self = w.self ∧ w'.events = w.events := by
  obtain ⟨⟨c, msg⟩, -, rfl⟩ := Option.map_eq_some_iff.mp h
  exact ⟨sendMessage_self _ _ _, sendMessage_events _ _ _⟩

theorem receiveTopo_stored {db : ℤ → LsTopoMap} {neighborId : ℤ} {m : LsMessage}
    (hw : w.events = []) (h : w.receiveTopo db neighborId m = some w') :
    ∀ msg lsl, .flooded msg lsl ∈ w'.events → w'.Stored msg lsl := by
  obtain ⟨w₁, h1, h⟩ := Option.bind_eq_some_iff.mp h
  have hw₁ : w₁.events = [] := (sendAck_same h1).2.trans hw
  dsimp only at h
  split_ifs at h with hnew
  · split at h
    · obtain rfl := Option.some.inj h
      simp [hw₁]
    · cases h
    · obtain ⟨⟨w₂, changed⟩, h2, rfl⟩ := Option.map_eq_some_iff.mp h
      have hstored := compareTopo_stored (SortedMap.sorted _) (by simp [hw₁]) h2
      dsimp only
      split_ifs
      · exact fun msg lsl hm => hstored msg lsl (by simpa [report] using hm)
      · exact hstored
  · obtain rfl := Option.some.inj h
    simp [hw₁]

theorem forward_database (w : LsWork) (senderId : ℤ) (msg : LsMessage) :
    (w.forward senderId msg).self.linkStateDatabase_ = w.self.linkStateDatabase_ := by
  unfold forward
  generalize w.self.peerIdList_ = ps
  induction ps generalizing w with
  | nil => rfl
  | cons p ps ih =>
    rw [List.foldl_cons, ih]
    split_ifs
    · rfl
    · rw [sendMessage_self]
      rfl
    · rfl

/-- Without content the database stays. -/
theorem receiveLSA_null {senderId : ℤ} {msg : LsMessage} (hmsg : msg.contentPtr_ = .null)
    (h : w.receiveLSA senderId msg = some w') :
    w'.self.linkStateDatabase_ = w.self.linkStateDatabase_ := by
  obtain ⟨w₁, h1, h⟩ := Option.bind_eq_some_iff.mp h
  rw [← (sendAck_same h1).1]
  dsimp only at h
  rw [hmsg] at h
  split_ifs at h
  · rw [← Option.some.inj h]
  · rw [← Option.some.inj h, forward_database]
  · rw [← Option.some.inj h]

end LsWork

namespace LsNet

open LsWork

/-- The packet at `i` takes the message from a peer to the node `dst`. -/
structure Delivers (net : LsNet) (i : ℕ) (src dst : ℤ) (msg : LsMessage) : Prop where
  packet : ∃ msgId, net.packets[i]? = some ⟨src, dst, msgId⟩ ∧
    net.msgctr.retrieveMessagePtr msgId = some msg
  peer : src ∈ (net.node dst).peerIdList_
  valid : src ≠ lsInvalidNodeId

/-- The delivery is the work of the receiver. -/
theorem Delivers.step {net net' : LsNet} {i : ℕ} {src dst : ℤ} {msg : LsMessage}
    {os : List (ℤ × LsEvent)} (h : Delivers net i src dst msg)
    (hs : net.step (.deliver i) = some (net', os)) :
    ∃ msgId w, net.msgctr.retrieveMessagePtr msgId = some msg ∧
      LsWork.receiveMessage (fun n => (net.node n).linkStateDatabase_)
        ⟨net.node dst, net.msgctr, [], []⟩ src msgId = some w ∧
      Acts net dst w net' os ∧
      net'.packets = net.packets.eraseIdx i ++ w.sent.map fun x => ⟨dst, x.1, x.2⟩ := by
  obtain ⟨msgId, hp, hmsg⟩ := h.packet
  simp only [LsNet.step, hp, RtProtoLS.findPeerNodeId] at hs
  obtain ⟨w, hw, he⟩ := Option.map_eq_some_iff.mp hs
  simp only [if_pos h.peer] at hw
  obtain ⟨rfl, rfl⟩ := Prod.mk.inj he
  exact ⟨msgId, w, hmsg, hw, ⟨rfl, rfl, rfl⟩, rfl⟩

theorem step_stored {net net' : LsNet} {op : LsOp} {os : List (ℤ × LsEvent)} {f : ℤ}
    {msg : LsMessage} {lsl : List LsLinkState} (h : net.step op = some (net', os))
    (hf : (f, .flooded msg lsl) ∈ os) :
    msg.type_ = .lsa ∧ msg.contentPtr_ = .null ∧
      (net'.node f).linkStateDatabase_.find msg.originNodeId_ = some lsl := by
  by_cases htopo : net.ReceivesTopo op
  · obtain ⟨i, p, m, rfl, hp, hm, htype⟩ := htopo
    simp only [step, hp] at h
    obtain ⟨w, hw, ha⟩ := act_acts h
    obtain rfl : os = w.events.map fun e => (p.dst, e) := ha.events
    obtain ⟨e, he, heq⟩ := List.mem_map.mp hf
    obtain ⟨rfl, rfl⟩ := Prod.mk.inj heq
    have hstored : w.Stored msg lsl := by
      simp only [LsWork.receiveMessage, hm, htype] at hw
      split_ifs at hw
      · rw [← Option.some.inj hw] at he
        cases he
      · exact receiveTopo_stored rfl hw msg lsl he
    rw [ha.node, Function.update_self]
    exact hstored
  · obtain ⟨n, w, hdoes, ha⟩ := step_does (F := fun _ => True) (fun _ _ => trivial) (by
      cases op <;> simp [Files]) h
    rw [ha.events] at hf
    obtain ⟨e, he, heq⟩ := List.mem_map.mp hf
    obtain ⟨rfl, rfl⟩ := Prod.mk.inj heq
    simp only [htopo] at hdoes
    cases hdoes.quiet he

/-- A node that floods a link state stores it; whoever then receives the message stores that link
state for its origin exactly if it did before. -/
theorem flooded_agrees {net₁ net₂ : LsNet} {op : LsOp} {os : List (ℤ × LsEvent)} {f : ℤ}
    {msg : LsMessage} {lsl : List LsLinkState} (h : net₁.step op = some (net₂, os))
    (hf : (f, .flooded msg lsl) ∈ os) :
    (net₂.node f).linkStateDatabase_.find msg.originNodeId_ = some lsl ∧
      ∀ (net₃ net₄ : LsNet) (i : ℕ) (peerId : ℤ) (os' : List (ℤ × LsEvent)),
        Delivers net₃ i f peerId msg → net₃.step (.deliver i) = some (net₄, os') →
        ((net₄.node peerId).linkStateDatabase_.find msg.originNodeId_ = some lsl ↔
          (net₃.node peerId).linkStateDatabase_.find msg.originNodeId_ = some lsl) := by
  obtain ⟨htype, hcontent, hdb⟩ := step_stored h hf
  refine ⟨hdb, fun net₃ net₄ i peerId os' hdel hs => ?_⟩
  obtain ⟨msgId, w, hmsg, hw, ha, -⟩ := hdel.step hs
  simp only [LsWork.receiveMessage, hmsg, htype, if_neg hdel.valid] at hw
  rw [ha.node, Function.update_self, receiveLSA_null hcontent hw]

/-- Three nodes in a line, the first link down. -/
def line : LsNet :=
  .init (fun n => if n = 1 then [0, 2] else if n = 0 ∨ n = 2 then [1] else [])
    (fun n => if n = 0 then [⟨1, .down, 1, 0⟩]
      else if n = 1 then [⟨0, .up, 1, 0⟩, ⟨2, .up, 1, 0⟩]
      else if n = 2 then [⟨1, .up, 1, 0⟩] else [])
    (fun _ => []) 12

/-- The first link comes up: node 0 sends its link state, which is lost, and its topology. -/
def lineUp : List LsOp :=
  [.intfChanged 0 [⟨1, .up, 1, 0⟩], .sendBufferedMessages 0, .lose 0]

/-- What node 1 makes of the topology. -/
def regenerated : LsMessage := ⟨.lsa, 5, 1, 0, .null⟩

theorem flooded_agrees_line : ∃ net₁ os₁ net₂ os₂,
    Machine.run step line lineUp = some (net₁, os₁) ∧ net₁.step (.deliver 0) = some (net₂, os₂) ∧
    (net₂.node 1).linkStateDatabase_.find 0 = some [⟨1, .up, 1, 1⟩] ∧
    ∀ (net₃ net₄ : LsNet) (i : ℕ) (peerId : ℤ) (os' : List (ℤ × LsEvent)),
      Delivers net₃ i 1 peerId regenerated → net₃.step (.deliver i) = some (net₄, os') →
      ((net₄.node peerId).linkStateDatabase_.find 0 = some [⟨1, .up, 1, 1⟩] ↔
        (net₃.node peerId).linkStateDatabase_.find 0 = some [⟨1, .up, 1, 1⟩]) := by
  have h : (Machine.run step line lineUp).any (fun r => (r.1.step (.deliver 0)).any fun q =>
    (1, .flooded regenerated [⟨1, .up, 1, 1⟩]) ∈ q.2) = true := by decide
  obtain ⟨⟨net₁, os₁⟩, h1, h⟩ := (Option.any_eq_true _ _).mp h
  obtain ⟨⟨net₂, os₂⟩, h2, h⟩ := (Option.any_eq_true _ _).mp h
  exact ⟨net₁, os₁, net₂, os₂, h1, h2, flooded_agrees h2 (of_decide_eq_true h)⟩

/-- The last node takes the message for new, and still knows nothing of the first. -/
theorem flooded_disagrees : ¬ ∀ peers links delays max_size ops net₁ os f msg lsl i peerId,
    Machine.run step (.init peers links delays max_size) ops = some (net₁, os) →
    (f, .flooded msg lsl) ∈ os.flatten → Delivers net₁ i f peerId msg →
    peerId ≠ msg.originNodeId_ →
    (LsMessageHistory.isNewMessage (net₁.node peerId).lsaHistory_ msg).2 = true →
    ∃ net₂ os₂, net₁.step (.deliver i) = some (net₂, os₂) ∧
      (net₂.node peerId).linkStateDatabase_.find msg.originNodeId_ = some lsl := fun hall => by
  have h : (Machine.run step line (lineUp ++ [.deliver 0, .sendBufferedMessages 1, .lose 0])).any
      (fun r => (1, .flooded regenerated [⟨1, .up, 1, 1⟩]) ∈ r.2.flatten ∧
        r.1.packets = [⟨1, 2, 5⟩] ∧ r.1.msgctr.retrieveMessagePtr 5 = some regenerated ∧
        1 ∈ (r.1.node 2).peerIdList_ ∧
        (LsMessageHistory.isNewMessage (r.1.node 2).lsaHistory_ regenerated).2 = true ∧
        (r.1.step (.deliver 0)).all fun q =>
          ((q.1.node 2).linkStateDatabase_.find 0).isNone) = true := by decide
  obtain ⟨⟨net₁, os⟩, h1, h⟩ := (Option.any_eq_true _ _).mp h
  obtain ⟨hf, hpackets, hmsg, hpeer, hnew, hstep⟩ := of_decide_eq_true h
  obtain ⟨net₂, os₂, h2, hfind⟩ := hall _ _ _ _ _ net₁ os 1 regenerated _ 0 2 h1 hf
    ⟨⟨5, by rw [hpackets]; rfl, hmsg⟩, hpeer, by decide⟩ (by decide) hnew
  rw [h2] at hstep
  have hnone : (net₂.node 2).linkStateDatabase_.find 0 = none := by simpa using hstep
  cases hnone.symm.trans hfind

end LsNet

end Ns2
