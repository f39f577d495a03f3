import Ns2.Linkstate.LsNetwork

/-! What the handlers of a node do to its unacknowledged records and what they report, and from
it what a step of the network does. -/

namespace Ns2

namespace LsMessageCenter

def Stores (c : LsMessageCenter) (msg : LsMessage) : Prop :=
  ∃ k, c.lsa_messages.find k = some msg ∨ c.other_messages.find k = some msg

/-- The ids of the other messages are even, and the topology messages that are stored have their
own numbers. -/
structure Sound (c : LsMessageCenter) : Prop where
  even : c.current_other_id.val % 2 = 0
  topo : ∀ msg, c.Stores msg → msg.type_ = .tpm → msg.sequenceNumber_ = msg.messageId_

theorem stores_of_retrieve {c : LsMessageCenter} {msgId : LsSeq} {msg : LsMessage}
    (h : c.retrieveMessagePtr msgId = some msg) : c.Stores msg := by
  unfold retrieveMessagePtr at h
  split_ifs at h
  · exact ⟨msgId, .inl h⟩
  · exact ⟨msgId, .inr h⟩

theorem nextId_even {i : LsSeq} (h : i.val % 2 = 0) : (nextId i).val % 2 = 0 := by
  have htwo : ∀ j : LsSeq, (j + 2).val % 2 = j.val % 2 := fun j => by
    rw [Fin.val_add, Nat.mod_mod_of_dvd _ (by norm_num : 2 ∣ 2 ^ 32)]
    exact Nat.add_mod_right j.val 2
  unfold nextId
  split_ifs
  · rw [htwo, htwo, h]
  · rw [htwo, h]

/-- A message as `newMessage` makes it. -/
structure Fresh (c : LsMessageCenter) (nodeId : ℤ) (type : LsMessageType) (c' : LsMessageCenter)
    (msg : LsMessage) : Prop where
  type_ : msg.type_ = type
  number : msg.sequenceNumber_ = msg.messageId_
  origin : msg.originNodeId_ = nodeId
  content : msg.contentPtr_ = .null
  sound : c.Sound → c'.Sound
  other : type ≠ .lsa → type ≠ .tpm → msg.messageId_ = c.current_other_id
  kept : type = .lsa ∨ type = .tpm → c'.other_messages = c.other_messages

theorem find_eraseFirst {α : Type*} {m : SortedMap LsSeq α} {k : LsSeq} {a : α}
    (h : m.eraseFirst.find k = some a) : m.find k = some a :=
  SortedMap.mem_entries.mp (List.mem_of_mem_tail (SortedMap.mem_entries.mpr h))

theorem insertMessage_find {max_size : ℕ} {storage storage' : SortedMap LsSeq LsMessage}
    {msg : LsMessage} (h : insertMessage max_size storage msg = some storage') {k : LsSeq}
    {m : LsMessage} (hm : storage'.find k = some m) : m = msg ∨ storage.find k = some m := by
  unfold insertMessage at h
  extract_lets storage₁ at h
  split at h
  · obtain rfl := Option.some.inj h
    rw [SortedMap.find_set] at hm
    split_ifs at hm
    · exact .inl (Option.some.inj hm).symm
    · right
      simp only [storage₁] at hm
      split_ifs at hm
      · exact find_eraseFirst hm
      · exact hm
  · cases h

theorem newMessage_fresh {c c' : LsMessageCenter} {nodeId : ℤ} {type : LsMessageType}
    {msg : LsMessage} (h : c.newMessage nodeId type = some (c', msg)) :
    Fresh c nodeId type c' msg := by
  unfold newMessage at h
  extract_lets c₁ at h
  have hother : c₁.current_other_id = c.current_other_id := by
    simp only [c₁]
    split <;> rfl
  have hmsgs : c₁.other_messages = c.other_messages := by
    simp only [c₁]
    split <;> rfl
  have hlsa : c₁.lsa_messages = c.lsa_messages := by
    simp only [c₁]
    split <;> rfl
  by_cases ht : type = .lsa ∨ type = .tpm
  · rw [if_pos ht] at h
    obtain ⟨storage, hs, he⟩ := Option.map_eq_some_iff.mp h
    obtain ⟨rfl, rfl⟩ := Prod.mk.inj he
    refine ⟨rfl, rfl, rfl, rfl, fun hc => ⟨hother ▸ hc.even, ?_⟩,
      fun h1 h2 => absurd ht (not_or.mpr ⟨h1, h2⟩), fun _ => hmsgs⟩
    rintro m ⟨k, hm | hm⟩ htype
    · rcases insertMessage_find hs hm with rfl | hm
      · rfl
      · exact hc.topo m ⟨k, .inl (hlsa ▸ hm)⟩ htype
    · exact hc.topo m ⟨k, .inr (hmsgs ▸ hm)⟩ htype
  · rw [if_neg ht] at h
    obtain ⟨storage, hs, he⟩ := Option.map_eq_some_iff.mp h
    obtain ⟨rfl, rfl⟩ := Prod.mk.inj he
    refine ⟨rfl, rfl, rfl, rfl, fun hc => ⟨nextId_even (hother ▸ hc.even), ?_⟩,
      fun _ _ => hother, fun hc => absurd hc ht⟩
    rintro m ⟨k, hm | hm⟩ htype
    · exact hc.topo m ⟨k, .inl (hlsa ▸ hm)⟩ htype
    · rcases insertMessage_find hs hm with rfl | hm
      · rfl
      · exact hc.topo m ⟨k, .inr (hmsgs ▸ hm)⟩ htype

theorem Sound.assign {c : LsMessageCenter} (h : c.Sound) {msg : LsMessage}
    (hmsg : msg.type_ = .tpm → msg.sequenceNumber_ = msg.messageId_) : (c.assign msg).Sound := by
  have hset : ∀ {storage : SortedMap LsSeq LsMessage} {k : LsSeq} {m : LsMessage},
      (storage.set msg.messageId_ msg).find k = some m → m = msg ∨ storage.find k = some m := by
    intro storage k m hm
    rw [SortedMap.find_set] at hm
    split_ifs at hm
    · exact .inl (Option.some.inj hm).symm
    · exact .inr hm
  unfold LsMessageCenter.assign
  split_ifs
  · refine ⟨h.even, ?_⟩
    rintro m ⟨k, hm | hm⟩ htype
    · rcases hset hm with rfl | hm
      · exact hmsg htype
      · exact h.topo m ⟨k, .inl hm⟩ htype
    · exact h.topo m ⟨k, .inr hm⟩ htype
  · refine ⟨h.even, ?_⟩
    rintro m ⟨k, hm | hm⟩ htype
    · exact h.topo m ⟨k, .inl hm⟩ htype
    · rcases hset hm with rfl | hm
      · exact hmsg htype
      · exact h.topo m ⟨k, .inr hm⟩ htype

theorem Sound.delete {c : LsMessageCenter} (h : c.Sound) (msgId : LsSeq) :
    (c.deleteMessage msgId).Sound := by
  refine ⟨h.even, ?_⟩
  rintro m ⟨k, hm | hm⟩ htype
  · exact h.topo m ⟨k, .inl hm⟩ htype
  · change (c.other_messages.erase msgId).find k = some m at hm
    rw [SortedMap.find_erase] at hm
    split_ifs at hm
    exact h.topo m ⟨k, .inr hm⟩ htype

end LsMessageCenter

/-- An entry for a peer holds the record of a message. -/
def LsUnackPeer.Awaits (r : LsUnackPeer) : LsRecord → Prop
  | .topo msgId => msgId ≠ lsInvalidMessageId ∧ r.tpmSeq_ = msgId
  | .lsa origin msgId => ∃ e, r.lsaMap_.find origin = some e ∧ e.msgId_ = msgId

namespace LsWork

theorem sendMessage_self (w : LsWork) (destId : ℤ) (msgId : LsSeq) :
    (w.sendMessage destId msgId).self = w.self := by
  unfold sendMessage
  split_ifs <;> rfl

theorem sendMessage_msgctr (w : LsWork) (destId : ℤ) (msgId : LsSeq) :
    (w.sendMessage destId msgId).msgctr = w.msgctr := by
  unfold sendMessage
  split_ifs <;> rfl

theorem sendMessage_events (w : LsWork) (destId : ℤ) (msgId : LsSeq) :
    (w.sendMessage destId msgId).events = w.events := by
  unfold sendMessage
  split_ifs <;> rfl

/-- The changes of a handler that files messages of `F` only, and floods only if `topo`. -/
inductive Does (F : LsMessage → Prop) (topo : Prop) : LsWork → LsWork → Prop
  | same {w w' : LsWork} (hm : w'.self.ackManager_ = w.self.ackManager_)
      (hc : w.msgctr.Sound → w'.msgctr.Sound) (he : w'.events = w.events) : Does F topo w w'
  | routes (w : LsWork) : Does F topo w (w.report .routesChanged)
  | flood (h : topo) (w : LsWork) (msg : LsMessage) (lsl : List LsLinkState) :
      Does F topo w (w.report (.flooded msg lsl))
  | file (w : LsWork) (peerId : ℤ) {msg : LsMessage} (h : F msg) :
      Does F topo w (w.messageOut peerId msg)
  | resend {w w' : LsWork} {peerId : ℤ} (h : w.resendMessages peerId = some w') : Does F topo w w'
  | cancel (w : LsWork) (nbrId : ℤ) :
      Does F topo w { w with self.ackManager_ := w.self.ackManager_.cancelTimer nbrId }
  | ack {w : LsWork} {peerId : ℤ} {msg : LsMessage} {m : LsRetransmissionManager}
      (h : w.self.ackManager_.ackIn peerId msg = some m) :
      Does F topo w { w with self.ackManager_ := m }
  | trans {w w' w'' : LsWork} (h : Does F topo w w') (h' : Does F topo w' w'') : Does F topo w w''

variable {F : LsMessage → Prop} {topo : Prop} {w w' : LsWork}

theorem Does.refl (w : LsWork) : Does F topo w w := .same rfl id rfl

/-- A change of nothing but the message that was just made. -/
theorem Does.assign {type : LsMessageType} {nodeId : ℤ} {c : LsMessageCenter}
    {msg msg' : LsMessage} (hnew : w.msgctr.newMessage nodeId type = some (c, msg))
    (hc : w'.msgctr = c.assign msg') (hm : w'.self.ackManager_ = w.self.ackManager_)
    (he : w'.events = w.events)
    (hmsg : msg'.type_ = .tpm → msg'.sequenceNumber_ = msg'.messageId_) : Does F topo w w' :=
  .same hm (fun h => hc ▸ ((LsMessageCenter.newMessage_fresh hnew).sound h).assign hmsg) he

/-- `trans` from the last change back. -/
theorem Does.after {w₁ : LsWork} (h : Does F topo w₁ w') (h₁ : Does F topo w w₁) :
    Does F topo w w' := h₁.trans h

theorem Does.foldl {α : Type*} {f : LsWork → α → LsWork} (hf : ∀ w a, Does F topo w (f w a))
    (l : List α) (w : LsWork) : Does F topo w (l.foldl f w) := by
  induction l generalizing w with
  | nil => exact .refl w
  | cons a l ih => exact (hf w a).trans (ih (f w a))

theorem sendMessage_does (w : LsWork) (destId : ℤ) (msgId : LsSeq) :
    Does F topo w (w.sendMessage destId msgId) := by
  unfold sendMessage
  split_ifs
  · exact .same rfl id rfl
  · exact .refl w

/-- The reports gained are of records of the entry that are resent. -/
structure Resends (r : LsUnackPeer) (peerId : ℤ) (w w' : LsWork) : Prop where
  self : w'.self = w.self
  msgctr : w'.msgctr = w.msgctr
  events : ∃ qs : List LsRecord, (∀ q ∈ qs, r.Awaits q) ∧
    w'.events = w.events ++ qs.map (.resent peerId)

theorem Resends.next {r : LsUnackPeer} {peerId : ℤ} (h : Resends r peerId w w') (msgId : LsSeq)
    {q : LsRecord} (hq : r.Awaits q) : Resends r peerId w (w'.resendMessage peerId msgId q) := by
  obtain ⟨hself, hc, qs, hqs, he⟩ := h
  refine ⟨(sendMessage_self _ _ _).trans hself, (sendMessage_msgctr _ _ _).trans hc, qs ++ [q],
    ?_, ?_⟩
  · intro q' hq'
    rcases List.mem_append.mp hq' with hq' | hq'
    · exact hqs q' hq'
    · exact List.mem_singleton.mp hq' ▸ hq
  · simp [resendMessage, report, sendMessage_events, he]

theorem resendMessages_spec {peerId : ℤ} (h : w.resendMessages peerId = some w') :
    ∃ r w₁, w.self.ackManager_.find peerId = some r ∧ Resends r peerId w w₁ ∧
      w' = { w₁ with self.ackManager_ := w.self.ackManager_.set peerId { r with timer_ := true } } := by
  obtain ⟨r, hr, rfl⟩ := Option.map_eq_some_iff.mp h
  dsimp only
  have hall : ∀ (l : List (ℤ × LsIdSeq)) (w₁ : LsWork), (∀ e ∈ l, e ∈ r.lsaMap_.entries) →
      Resends r peerId w w₁ → Resends r peerId w (l.foldl (fun w e =>
        w.resendMessage peerId e.2.msgId_ (.lsa e.1 e.2.msgId_)) w₁) := by
    intro l
    induction l with
    | nil => exact fun w₁ _ h₁ => h₁
    | cons e l ih =>
      exact fun w₁ hl h₁ => ih _ (fun e' he' => hl e' (List.mem_cons_of_mem _ he'))
        (h₁.next _ ⟨e.2, SortedMap.mem_entries.mp (hl e (by simp)), rfl⟩)
  have hstart : Resends r peerId w w := ⟨rfl, rfl, [], by simp, by simp⟩
  split_ifs with htopo
  · have htpm : r.Awaits (.topo r.tpmSeq_) := ⟨htopo, rfl⟩
    have hw := hall r.lsaMap_.entries _ (fun e he => he) (hstart.next r.tpmSeq_ htpm)
    exact ⟨r, _, hr, hw, by rw [hw.self]⟩
  · have hw := hall r.lsaMap_.entries w (fun e he => he) hstart
    exact ⟨r, _, hr, hw, by rw [hw.self]⟩

theorem sendAck_does {nbrId origin : ℤ} {type : LsMessageType} {seq : LsSeq}
    (htype : type ≠ .tpm) (h : w.sendAck nbrId type origin seq = some w') : Does F topo w w' := by
  obtain ⟨⟨c, msg⟩, hnew, rfl⟩ := Option.map_eq_some_iff.mp h
  dsimp only
  have hfresh := LsMessageCenter.newMessage_fresh hnew
  refine .after (sendMessage_does _ _ _) (.assign hnew rfl rfl rfl fun hm => ?_)
  exact absurd (hfresh.type_.symm.trans hm) htype

theorem sendTopo_does {neighborId : ℤ} (h : w.sendTopo neighborId = some w') :
    Does F topo w w' := by
  obtain ⟨⟨c, msg⟩, hnew, rfl⟩ := Option.map_eq_some_iff.mp h
  dsimp only
  have hfresh := LsMessageCenter.newMessage_fresh hnew
  exact .assign hnew rfl rfl rfl fun _ => hfresh.number

theorem sendLinkStates_does {buffer : Bool} (hF : ∀ msg, msg.sequenceNumber_ = msg.messageId_ → F msg)
    (h : w.sendLinkStates buffer = some w') : Does F topo w w' := by
  unfold sendLinkStates at h
  split at h
  · exact Option.some.inj h ▸ .refl w
  · split at h
    · exact Option.some.inj h ▸ .refl w
    · exact Option.some.inj h ▸ .refl w
    · obtain ⟨⟨c, msg⟩, hnew, rfl⟩ := Option.map_eq_some_iff.mp h
      dsimp only
      have hfresh := LsMessageCenter.newMessage_fresh hnew
      refine .after (.foldl (fun w peerId => ?_) _ _)
        (.assign hnew rfl rfl rfl fun _ => hfresh.number)
      split_ifs
      · exact .same rfl id rfl
      · exact (sendMessage_does _ _ _).trans (.file _ _ (hF _ hfresh.number))
      · exact .refl w

theorem checkLinks_does {news olds : List LsLinkState} (h : w.checkLinks news olds = some w') :
    Does F topo w w' := by
  induction news generalizing w olds with
  | nil =>
    rw [checkLinks] at h
    exact Option.some.inj h ▸ .refl w
  | cons new news ih =>
    cases olds with
    | nil => cases h
    | cons old olds =>
      rw [checkLinks] at h
      split_ifs at h
      · exact (Does.cancel w _).trans (ih h)
      · exact ih h
      · obtain ⟨w₁, h1, h2⟩ := Option.bind_eq_some_iff.mp h
        exact (sendTopo_does h1).trans (ih h2)

theorem linkStateChanged_does (hF : ∀ msg, msg.sequenceNumber_ = msg.messageId_ → F msg)
    (h : w.linkStateChanged = some w') : Does F topo w w' := by
  obtain ⟨oldlsl, -, h⟩ := Option.bind_eq_some_iff.mp h
  obtain ⟨w₁, h1, h2⟩ := Option.bind_eq_some_iff.mp h
  refine .after (checkLinks_does h2) ?_
  split_ifs at h1
  · exact .after (sendLinkStates_does hF h1) (.same rfl id rfl)
  · exact Option.some.inj h1 ▸ .same rfl id rfl

theorem flush_does {l : List (ℤ × LsSeq)}
    (hF : ∀ e ∈ l, ∀ msg, w.msgctr.retrieveMessagePtr e.2 = some msg → F msg)
    (h : w.flush l = some w') : Does F topo w w' := by
  induction l generalizing w with
  | nil => exact Option.some.inj h ▸ .refl w
  | cons e l ih =>
    obtain ⟨msg, hmsg, h⟩ := Option.bind_eq_some_iff.mp h
    refine .trans (.file w e.1 (hF e (by simp) msg hmsg))
      (.trans (sendMessage_does _ _ _) (ih ?_ h))
    intro e' he' msg'
    rw [sendMessage_msgctr]
    exact hF e' (List.mem_cons_of_mem _ he') msg'

theorem sendBufferedMessages_does
    (hF : ∀ e ∈ w.self.messageBuffer_, ∀ msg, w.msgctr.retrieveMessagePtr e.2 = some msg → F msg)
    (h : w.sendBufferedMessages = some w') : Does F topo w w' := by
  obtain ⟨w₁, h1, rfl⟩ := Option.map_eq_some_iff.mp h
  exact (flush_does hF h1).trans (.same rfl id rfl)

theorem receiveAck_does {neighborId : ℤ} {msg : LsMessage}
    (h : w.receiveAck neighborId msg = some w') : Does F topo w w' := by
  obtain ⟨m, hm, rfl⟩ := Option.map_eq_some_iff.mp h
  exact .ack hm

theorem forward_does {senderId : ℤ} {msg : LsMessage} (hF : F msg) (w : LsWork) :
    Does F topo w (w.forward senderId msg) := by
  refine .foldl (fun w peerId => ?_) _ w
  split_ifs
  · exact .refl w
  · exact (Does.file w peerId hF).trans (sendMessage_does _ _ _)
  · exact .refl w

theorem receiveLSA_does {senderId : ℤ} {msg : LsMessage} (hF : F msg)
    (h : w.receiveLSA senderId msg = some w') : Does F topo w w' := by
  obtain ⟨w₁, h1, h⟩ := Option.bind_eq_some_iff.mp h
  refine (sendAck_does (by decide) h1).trans ?_
  dsimp only at h
  generalize hw₂ : { w₁ with self.lsaHistory_ := _ } = w₂ at h
  have h2 : Does F topo w₁ w₂ := by
    subst hw₂
    exact .same rfl id rfl
  have h3 : Does F topo w₁ (w₂.forward senderId msg) := h2.trans (forward_does hF w₂)
  generalize w₂.forward senderId msg = w₃ at h h3
  split_ifs at h with horigin hnew
  · exact Option.some.inj h ▸ .refl w₁
  · split at h
    · exact Option.some.inj h ▸ h3
    · cases h
    · obtain rfl := Option.some.inj h
      refine h3.trans ?_
      split_ifs
      · exact .after (.routes _) (.same rfl id rfl)
      · exact .same rfl id rfl
  · exact Option.some.inj h ▸ h2

theorem bufferAll_does (w : LsWork) (exception origin : ℤ) (msg : LsMessage) :
    Does F topo w (w.bufferAll exception origin msg) := by
  refine .foldl (fun w peerId => ?_) _ w
  split_ifs
  · exact .refl w
  · exact .same rfl id rfl

theorem regenAndSend_does (htopo : topo) {exception origin : ℤ} {lsl : List LsLinkState}
    (h : w.regenAndSend exception origin lsl = some w') : Does F topo w w' := by
  cases lsl with
  | nil => cases h
  | cons l lsl =>
    obtain ⟨⟨c, msg⟩, hnew, rfl⟩ := Option.map_eq_some_iff.mp h
    dsimp only
    have hfresh := LsMessageCenter.newMessage_fresh hnew
    refine .after (.flood htopo _ _ _) (.after (bufferAll_does _ _ _ _)
      (.assign hnew rfl rfl rfl fun hm => ?_))
    cases hfresh.type_.symm.trans hm

theorem compareTopo_does (htopo : topo) {neighborId : ℤ} {msgId : LsSeq} {changed b : Bool}
    {recs : List (ℤ × List LsLinkState)}
    (h : compareTopo neighborId msgId w changed recs = some (w', b)) : Does F topo w w' := by
  induction recs generalizing w changed with
  | nil =>
    cases hmsg : w.msgctr.retrieveMessagePtr msgId with
    | none =>
      unfold compareTopo at h
      simp [hmsg] at h
    | some msg =>
      unfold compareTopo at h
      simp only [hmsg, Option.some.injEq, Prod.mk.injEq] at h
      exact h.1 ▸ .refl w
  | cons r recs ih =>
    cases hmsg : w.msgctr.retrieveMessagePtr msgId with
    | none =>
      unfold compareTopo at h
      simp [hmsg] at h
    | some msg =>
      unfold compareTopo at h
      simp only [hmsg] at h
      split_ifs at h
      · exact ih h
      · obtain ⟨b, -, h⟩ := Option.bind_eq_some_iff.mp h
        split_ifs at h
        · obtain ⟨w₁, h1, h2⟩ := Option.bind_eq_some_iff.mp h
          exact .after (.after (ih h2) (regenAndSend_does htopo h1)) (.same rfl id rfl)
        · exact ih h

theorem receiveTopo_does (htopo : topo) {db : ℤ → LsTopoMap} {neighborId : ℤ} {msg : LsMessage}
    (h : w.receiveTopo db neighborId msg = some w') : Does F topo w w' := by
  obtain ⟨w₁, h1, h⟩ := Option.bind_eq_some_iff.mp h
  refine (sendAck_does (by decide) h1).trans ?_
  dsimp only at h
  split_ifs at h with hnew
  · split at h
    · exact Option.some.inj h ▸ .same rfl id rfl
    · cases h
    · obtain ⟨⟨w₂, changed⟩, h2, rfl⟩ := Option.map_eq_some_iff.mp h
      dsimp only
      split_ifs
      · exact .after (.after (.routes _) (compareTopo_does htopo h2)) (.same rfl id rfl)
      · exact .after (compareTopo_does htopo h2) (.same rfl id rfl)
  · exact Option.some.inj h ▸ .same rfl id rfl

theorem receiveMessage_does {db : ℤ → LsTopoMap} {senderId : ℤ} {msgId : LsSeq}
    (htopo : ∀ msg, w.msgctr.retrieveMessagePtr msgId = some msg → msg.type_ = .tpm → topo)
    (hF : ∀ msg, w.msgctr.retrieveMessagePtr msgId = some msg → msg.type_ = .lsa → F msg)
    (h : w.receiveMessage db senderId msgId = some w') : Does F topo w w' := by
  unfold receiveMessage at h
  split_ifs at h
  · exact Option.some.inj h ▸ .refl w
  · split at h
    · exact Option.some.inj h ▸ .refl w
    · next msg hmsg =>
      split at h
      · next htype => exact receiveTopo_does (htopo msg hmsg htype) h
      · next htype => exact receiveLSA_does (hF msg hmsg htype) h
      · obtain ⟨w₁, h1, rfl⟩ := Option.map_eq_some_iff.mp h
        exact (receiveAck_does h1).trans (.same rfl (fun hc => hc.delete msgId) rfl)
      · obtain ⟨w₁, h1, rfl⟩ := Option.map_eq_some_iff.mp h
        exact (receiveAck_does h1).trans (.same rfl (fun hc => hc.delete msgId) rfl)
      · exact Option.some.inj h ▸ .refl w

end LsWork

namespace LsNet

open LsWork

/-- Every message that the step files has `F`. -/
def Files (F : LsMessage → Prop) (net : LsNet) : LsOp → Prop
  | .sendBufferedMessages n => ∀ e ∈ (net.node n).messageBuffer_, ∀ msg,
      net.msgctr.retrieveMessagePtr e.2 = some msg → F msg
  | .deliver i => ∀ p msg, net.packets[i]? = some p →
      net.msgctr.retrieveMessagePtr p.msgId = some msg → msg.type_ = .lsa → F msg
  | _ => True

/-- The step receives a topology message. -/
def ReceivesTopo (net : LsNet) (op : LsOp) : Prop :=
  ∃ i p msg, op = .deliver i ∧ net.packets[i]? = some p ∧
    net.msgctr.retrieveMessagePtr p.msgId = some msg ∧ msg.type_ = .tpm

/-- A step is the work of one node, or of none. -/
structure Acts (net : LsNet) (n : ℤ) (w : LsWork) (net' : LsNet) (os : List (ℤ × LsEvent)) :
    Prop where
  node : net'.node = Function.update net.node n w.self
  msgctr : net'.msgctr = w.msgctr
  events : os = w.events.map fun e => (n, e)

theorem act_acts {net net' : LsNet} {n : ℤ} {f : LsWork → Option LsWork} {os : List (ℤ × LsEvent)}
    (h : net.act n f = some (net', os)) :
    ∃ w, f ⟨net.node n, net.msgctr, [], []⟩ = some w ∧ Acts net n w net' os := by
  obtain ⟨w, hw, he⟩ := Option.map_eq_some_iff.mp h
  obtain ⟨rfl, rfl⟩ := Prod.mk.inj he
  exact ⟨w, hw, rfl, rfl, rfl⟩

theorem step_does {F : LsMessage → Prop} {net net' : LsNet} {op : LsOp} {os : List (ℤ × LsEvent)}
    (hF : ∀ msg, msg.sequenceNumber_ = msg.messageId_ → F msg) (hok : net.Files F op)
    (h : net.step op = some (net', os)) :
    ∃ n w, Does F (net.ReceivesTopo op) ⟨net.node n, net.msgctr, [], []⟩ w ∧
      Acts net n w net' os := by
  have hnone : ∀ ps, Acts net 0 ⟨net.node 0, net.msgctr, [], []⟩ ⟨net.node, net.msgctr, ps⟩ [] :=
    fun ps => ⟨(Function.update_eq_self 0 net.node).symm, rfl, rfl⟩
  cases op with
  | intfChanged n links =>
    rw [step] at h
    obtain ⟨w, hw, ha⟩ := act_acts h
    exact ⟨n, w, .after (linkStateChanged_does hF hw) (.same rfl id rfl), ha⟩
  | sendUpdates n =>
    rw [step] at h
    obtain ⟨w, hw, ha⟩ := act_acts h
    exact ⟨n, w, @sendLinkStates_does F _ _ w false hF hw, ha⟩
  | sendBufferedMessages n =>
    obtain ⟨w, hw, ha⟩ := act_acts h
    exact ⟨n, w, sendBufferedMessages_does hok hw, ha⟩
  | deliver i =>
    simp only [step] at h
    split at h
    · cases h
      exact ⟨0, _, .refl _, hnone _⟩
    · next p hp =>
      obtain ⟨w, hw, ha⟩ := act_acts h
      refine ⟨p.dst, w, receiveMessage_does (fun msg hmsg htype => ?_) (fun msg => hok p msg hp) hw,
        ha.node, ha.msgctr, ha.events⟩
      exact ⟨i, p, msg, rfl, hp, hmsg, htype⟩
  | lose i =>
    cases h
    exact ⟨0, _, .refl _, hnone _⟩
  | timeout n peerId =>
    obtain ⟨w, hw, ha⟩ := act_acts h
    unfold timeout at hw
    split_ifs at hw
    · exact ⟨n, w, .resend hw, ha⟩
    · exact ⟨n, w, Option.some.inj hw ▸ .refl _, ha⟩

end LsNet

end Ns2
