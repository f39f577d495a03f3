import Ns2.Linkstate.LsFlooding

/-! A message numbered by its own id is never sent again once its acknowledgement has come back. -/

namespace Ns2

/-- The message is not the regenerated one of an older sequence number. -/
def LsMessage.OwnNumber (msg : LsMessage) : Prop := msg.sequenceNumber_ = msg.messageId_

/-- The message acknowledges the record. -/
def LsMessage.Acks (ack : LsMessage) : LsRecord → Prop
  | .topo msgId => ack.type_ = .tpmack ∧ ack.sequenceNumber_ = msgId
  | .lsa origin msgId =>
    ack.type_ = .lsaack ∧ ack.originNodeId_ = origin ∧ ack.sequenceNumber_ = msgId

namespace LsUnackPeer

/-- The timer runs while a record waits, and every record is filed under the id of its message. -/
structure Sound (r : LsUnackPeer) : Prop where
  armed : ¬ r.acked → r.timer_ = true
  number : ∀ o e, r.lsaMap_.find o = some e → e.seq_ = e.msgId_

theorem sound_init : init.Sound := ⟨fun h => absurd ⟨rfl, rfl⟩ h, fun _ _ h => nomatch h⟩

variable {r : LsUnackPeer}

theorem not_awaits_acked (h : r.acked) (q : LsRecord) : ¬ r.Awaits q := by
  cases q with
  | topo msgId => exact fun hq => hq.1 (hq.2 ▸ h.1)
  | lsa o msgId =>
    rintro ⟨e, he, -⟩
    have hmem := SortedMap.mem_entries.mpr he
    rw [h.2] at hmem
    cases hmem

theorem messageOut_number (h : r.Sound) {msg : LsMessage} (hmsg : msg.OwnNumber) :
    ∀ o e, (r.messageOut msg).lsaMap_.find o = some e → e.seq_ = e.msgId_ := by
  intro o e he
  unfold messageOut at he
  split at he
  · exact h.number o e he
  · rw [SortedMap.find_set] at he
    split_ifs at he
    · exact Option.some.inj he ▸ hmsg
    · exact h.number o e he
  · exact h.number o e he

theorem messageOut_awaits {msg : LsMessage} (hmsg : msg.OwnNumber) {q : LsRecord}
    (hq : (r.messageOut msg).Awaits q) : r.Awaits q ∨ msg.record = some q := by
  unfold messageOut at hq
  split at hq
  · next htype =>
    cases q with
    | topo msgId => exact .inr (by simp [LsMessage.record, htype, ← hq.2, hmsg.symm])
    | lsa o msgId => exact .inl hq
  · next htype =>
    cases q with
    | topo msgId => exact .inl hq
    | lsa o msgId =>
      obtain ⟨e, he, rfl⟩ := hq
      rw [SortedMap.find_set] at he
      split_ifs at he with ho
      · exact .inr (by simp [LsMessage.record, htype, ho, ← Option.some.inj he])
      · exact .inl ⟨e, he, rfl⟩
  · exact .inl hq

/-- An acknowledgement erases the record that it is for, and no other. -/
theorem ackIn_awaits (h : r.Sound) {ack : LsMessage} {q₀ : LsRecord} (hack : ack.Acks q₀)
    (q : LsRecord) : (r.ackIn ack).Awaits q ↔ r.Awaits q ∧ q ≠ q₀ := by
  have hkept : r.ackIn ack = r → ¬ r.Awaits q₀ → ((r.ackIn ack).Awaits q ↔ r.Awaits q ∧ q ≠ q₀) :=
    fun he hno => by
      rw [he]
      exact ⟨fun hq => ⟨hq, fun heq => hno (heq ▸ hq)⟩, And.left⟩
  cases q₀ with
  | topo msgId =>
    obtain ⟨htype, hseq⟩ := hack
    by_cases ht : r.tpmSeq_ = msgId
    · rw [ackIn, htype]
      simp only [hseq, if_pos ht]
      cases q with
      | topo msgId' =>
        constructor
        · exact fun hq => absurd hq.2.symm hq.1
        · exact fun hq => absurd (congrArg LsRecord.topo (hq.1.2.symm.trans ht)) hq.2
      | lsa o msgId' => exact ⟨fun hq => ⟨hq, by simp⟩, And.left⟩
    · refine hkept ?_ fun hq => ht hq.2
      rw [ackIn, htype]
      simp only [hseq, if_neg ht]
  | lsa o msgId =>
    obtain ⟨htype, ho, hseq⟩ := hack
    cases hfind : r.lsaMap_.find o with
    | none =>
      refine hkept ?_ fun ⟨e, he, _⟩ => by cases hfind.symm.trans he
      rw [ackIn, htype]
      simp only [ho, hfind]
    | some e =>
      have hnumber := h.number o e hfind
      by_cases he : e.msgId_ = msgId
      · rw [ackIn, htype]
        simp only [ho, hfind, hseq, hnumber, if_pos he]
        cases q with
        | topo msgId' => exact ⟨fun hq => ⟨hq, by simp⟩, And.left⟩
        | lsa o' msgId' =>
          simp only [Awaits, SortedMap.find_erase]
          by_cases hoo : o' = o
          · subst hoo
            simp only [if_pos, hfind]
            constructor
            · rintro ⟨e', he', -⟩
              cases he'
            · rintro ⟨⟨e', he', rfl⟩, hne⟩
              exact absurd (by rw [← Option.some.inj he', he]) hne
          · simp [hoo]
      · refine hkept ?_ ?_
        · rw [ackIn, htype]
          simp only [ho, hfind, hseq, hnumber, if_neg he]
        · rintro ⟨e', he', heq⟩
          rw [hfind] at he'
          exact he (Option.some.inj he' ▸ heq)

theorem ackIn_subset {msg : LsMessage} {q : LsRecord} (hq : (r.ackIn msg).Awaits q) :
    r.Awaits q := by
  unfold ackIn at hq
  split at hq
  · split_ifs at hq
    · cases q with
      | topo msgId => exact absurd hq.2.symm hq.1
      | lsa o msgId => exact hq
    · exact hq
  · split at hq
    · split_ifs at hq
      · cases q with
        | topo msgId => exact hq
        | lsa o msgId =>
          obtain ⟨e, he, hid⟩ := hq
          rw [SortedMap.find_erase] at he
          split_ifs at he
          exact ⟨e, he, hid⟩
      · exact hq
    · exact hq
  · exact hq

theorem ackIn_number (h : r.Sound) (ack : LsMessage) :
    ∀ o e, (r.ackIn ack).lsaMap_.find o = some e → e.seq_ = e.msgId_ := by
  intro o e he
  unfold ackIn at he
  split at he
  · split_ifs at he <;> exact h.number o e he
  · split at he
    · split_ifs at he
      · rw [SortedMap.find_erase] at he
        split_ifs at he
        exact h.number o e he
      · exact h.number o e he
    · exact h.number o e he
  · exact h.number o e he

end LsUnackPeer

namespace RtProtoLS

def Sound (s : RtProtoLS) : Prop := ∀ p r, s.ackManager_.find p = some r → r.Sound

/-- A record waits for the acknowledgement of a peer. -/
def Awaits (s : RtProtoLS) (peerId : ℤ) (q : LsRecord) : Prop :=
  ∃ r, s.ackManager_.find peerId = some r ∧ r.Awaits q

theorem sound_init (nodeId : ℤ) (peers : LsNodeIdList) (links : List LsLinkState)
    (delays : List ℤ) : (init nodeId peers links delays).Sound := by
  change ∀ p r, SortedMap.find (LsRetransmissionManager.initTimeout .empty delays) p = some r →
    r.Sound
  suffices h : ∀ m : LsRetransmissionManager, (∀ p r, m.find p = some r → r.Sound) →
      ∀ p r, SortedMap.find (m.initTimeout delays) p = some r → r.Sound from
    h .empty fun p r h => nomatch h
  unfold LsRetransmissionManager.initTimeout
  induction delays with
  | nil => exact fun m hm => hm
  | cons d ds ih =>
    refine fun m hm => ih _ fun p r hr => ?_
    rw [SortedMap.find_set] at hr
    split_ifs at hr
    · exact Option.some.inj hr ▸ LsUnackPeer.sound_init
    · exact hm p r hr

end RtProtoLS

namespace LsRetransmissionManager

variable {m m' : LsRetransmissionManager}

/-- The entry of one peer is replaced. -/
theorem sound_set (hm : ∀ p r, m.find p = some r → r.Sound) {peerId : ℤ} {r : LsUnackPeer}
    (hr : r.Sound) : ∀ p r', SortedMap.find (m.set peerId r) p = some r' → r'.Sound := by
  intro p r' h
  rw [SortedMap.find_set] at h
  split_ifs at h
  · exact Option.some.inj h ▸ hr
  · exact hm p r' h

theorem ackIn_subset {peerId : ℤ} {msg : LsMessage} (h : m.ackIn peerId msg = some m') (p : ℤ)
    (q : LsRecord) (hq : ∃ r, m'.find p = some r ∧ r.Awaits q) :
    ∃ r, m.find p = some r ∧ r.Awaits q := by
  unfold ackIn at h
  split at h
  · exact Option.some.inj h ▸ hq
  · next r hfind =>
    have hset : ∀ b, (∃ r', SortedMap.find (m.set peerId { r.ackIn msg with timer_ := b }) p =
        some r' ∧ r'.Awaits q) → ∃ r, m.find p = some r ∧ r.Awaits q := by
      rintro b ⟨r', hr', hq⟩
      rw [SortedMap.find_set] at hr'
      split_ifs at hr' with hp
      · rw [← Option.some.inj hr'] at hq
        exact ⟨r, hp ▸ hfind, LsUnackPeer.ackIn_subset (by cases q <;> exact hq)⟩
      · exact ⟨r', hr', hq⟩
    dsimp only at h
    split_ifs at h
    · exact Option.some.inj h ▸ hq
    · exact hset false (Option.some.inj h ▸ hq)
    · exact hset (r.ackIn msg).timer_ (Option.some.inj h ▸ hq)

/-- The acknowledgement of a peer is processed, and erases the record that it is for. -/
theorem ackIn_spec (hm : ∀ p r, m.find p = some r → r.Sound) (peerId : ℤ) (ack : LsMessage) :
    ∃ m', m.ackIn peerId ack = some m' ∧ (∀ p r, m'.find p = some r → r.Sound) ∧
      ∀ q₀, ack.Acks q₀ → ∀ p q, (∃ r, m'.find p = some r ∧ r.Awaits q) ↔
        (∃ r, m.find p = some r ∧ r.Awaits q) ∧ ¬ (p = peerId ∧ q = q₀) := by
  unfold ackIn
  cases hfind : m.find peerId with
  | none =>
    refine ⟨m, rfl, hm, fun q₀ _ p q => ⟨fun h => ⟨h, ?_⟩, And.left⟩⟩
    rintro ⟨rfl, -⟩
    obtain ⟨r, hr, -⟩ := h
    cases hfind.symm.trans hr
  | some r =>
    have hr := hm peerId r hfind
    dsimp only
    by_cases hacked : r.acked
    · rw [if_pos hacked]
      refine ⟨m, rfl, hm, fun q₀ _ p q => ⟨fun h => ⟨h, ?_⟩, And.left⟩⟩
      rintro ⟨rfl, -⟩
      obtain ⟨r', hr', hq⟩ := h
      rw [hfind] at hr'
      exact LsUnackPeer.not_awaits_acked (Option.some.inj hr' ▸ hacked) q hq
    · rw [if_neg hacked]
      have htimer := hr.armed hacked
      have hkeeps : (r.ackIn ack).timer_ = r.timer_ := by
        unfold LsUnackPeer.ackIn
        split
        · split_ifs <;> rfl
        · split
          · split_ifs <;> rfl
          · rfl
        · rfl
      have hset : ∀ b, ∀ q₀, ack.Acks q₀ → ∀ p q,
          (∃ r', SortedMap.find (m.set peerId { r.ackIn ack with timer_ := b }) p = some r' ∧
            r'.Awaits q) ↔
          (∃ r, m.find p = some r ∧ r.Awaits q) ∧ ¬ (p = peerId ∧ q = q₀) := by
        intro b q₀ hack p q
        rw [SortedMap.find_set]
        by_cases hp : p = peerId
        · subst hp
          have hiff := LsUnackPeer.ackIn_awaits hr hack q
          have hsame : LsUnackPeer.Awaits { r.ackIn ack with timer_ := b } q ↔
              (r.ackIn ack).Awaits q := by
            cases q <;> exact Iff.rfl
          simp [hfind, hsame, hiff]
        · simp [hp]
      rw [hkeeps, if_pos htimer]
      by_cases hdone : (r.ackIn ack).acked
      · rw [if_pos hdone]
        exact ⟨_, rfl, sound_set hm ⟨fun h => absurd hdone h, LsUnackPeer.ackIn_number hr ack⟩,
          hset false⟩
      · rw [if_neg hdone]
        have he : r.ackIn ack = { r.ackIn ack with timer_ := true } := by
          rw [← htimer, ← hkeeps]
        rw [he]
        exact ⟨_, rfl, sound_set hm ⟨fun _ => rfl, LsUnackPeer.ackIn_number hr ack⟩, hset true⟩

end LsRetransmissionManager

namespace LsWork

variable {topo : Prop} {w w' : LsWork}

theorem Does.sound (h : Does LsMessage.OwnNumber topo w w') (hw : w.self.Sound) :
    w'.self.Sound := by
  induction h with
  | same hm _ _ => exact fun p r hr => hw p r (hm ▸ hr)
  | routes w => exact hw
  | flood _ w _ _ => exact hw
  | file w peerId hmsg =>
    refine LsRetransmissionManager.sound_set hw ⟨fun _ => rfl, ?_⟩
    cases hfind : w.self.ackManager_.find peerId with
    | none => exact LsUnackPeer.messageOut_number LsUnackPeer.sound_init hmsg
    | some r => exact LsUnackPeer.messageOut_number (hw peerId r hfind) hmsg
  | resend h =>
    obtain ⟨r, w₁, hr, -, rfl⟩ := resendMessages_spec h
    exact LsRetransmissionManager.sound_set hw ⟨fun _ => rfl, (hw _ r hr).number⟩
  | cancel w nbrId =>
    change ∀ p r, SortedMap.find (w.self.ackManager_.cancelTimer nbrId) p = some r → r.Sound
    unfold LsRetransmissionManager.cancelTimer
    split
    · exact hw
    · exact LsRetransmissionManager.sound_set hw LsUnackPeer.sound_init
  | @ack w peerId msg m h =>
    obtain ⟨m', h1, h2, -⟩ := LsRetransmissionManager.ackIn_spec hw peerId msg
    obtain rfl := Option.some.inj (h.symm.trans h1)
    exact h2
  | trans _ _ ih ih' => exact ih' (ih hw)

theorem Does.center {F : LsMessage → Prop} (h : Does F topo w w') (hw : w.msgctr.Sound) :
    w'.msgctr.Sound := by
  induction h with
  | same _ hc _ => exact hc hw
  | routes w => exact hw
  | flood _ w _ _ => exact hw
  | file w peerId _ => exact hw
  | resend h =>
    obtain ⟨r, w₁, -, hres, rfl⟩ := resendMessages_spec h
    exact hres.msgctr ▸ hw
  | cancel w nbrId => exact hw
  | ack _ => exact hw
  | trans _ _ ih ih' => exact ih' (ih hw)

/-- The message of the record is filed for the peer, by what is reported. -/
def Filed (peerId : ℤ) (q : LsRecord) (es : List LsEvent) : Prop :=
  ∃ msg : LsMessage, msg.record = some q ∧ .filed peerId msg ∈ es

theorem Filed.mono {peerId : ℤ} {q : LsRecord} {es es' : List LsEvent} (h : Filed peerId q es)
    (hes : ∀ e ∈ es, e ∈ es') : Filed peerId q es' := by
  obtain ⟨msg, hmsg, he⟩ := h
  exact ⟨msg, hmsg, hes _ he⟩

/-- What waits or is resent has waited before, or is filed. -/
structure Traced (w w' : LsWork) : Prop where
  events : ∀ e ∈ w.events, e ∈ w'.events
  awaits : ∀ p q, w'.self.Awaits p q → w.self.Awaits p q ∨ Filed p q w'.events
  resent : ∀ p q, .resent p q ∈ w'.events →
    .resent p q ∈ w.events ∨ w.self.Awaits p q ∨ Filed p q w'.events

theorem Traced.trans {w'' : LsWork} (h : Traced w w') (h' : Traced w' w'') : Traced w w'' where
  events e he := h'.events e (h.events e he)
  awaits p q hq := by
    rcases h'.awaits p q hq with hq | hq
    · exact (h.awaits p q hq).imp_right fun hf => hf.mono h'.events
    · exact .inr hq
  resent p q hq := by
    rcases h'.resent p q hq with hq | hq | hq
    · exact (h.resent p q hq).imp_right fun hf => hf.imp_right fun hf => hf.mono h'.events
    · exact .inr ((h.awaits p q hq).imp_right fun hf => hf.mono h'.events)
    · exact .inr (.inr hq)

/-- An entry that is set only to what it held. -/
theorem awaits_set {s : RtProtoLS} {peerId : ℤ} {r : LsUnackPeer} {p : ℤ} {q : LsRecord}
    (h : ∃ r', SortedMap.find (s.ackManager_.set peerId r) p = some r' ∧ r'.Awaits q) :
    s.Awaits p q ∨ p = peerId ∧ r.Awaits q := by
  obtain ⟨r', hr', hq⟩ := h
  rw [SortedMap.find_set] at hr'
  split_ifs at hr' with hp
  · exact .inr ⟨hp, Option.some.inj hr' ▸ hq⟩
  · exact .inl ⟨r', hr', hq⟩

theorem Does.traced (h : Does LsMessage.OwnNumber topo w w') (hw : w.self.Sound) : Traced w w' := by
  induction h with
  | @same w w' hm _ he =>
    refine ⟨fun e => by rw [he]; exact id, fun p q hq => ?_, fun p q hq => .inl (he ▸ hq)⟩
    unfold RtProtoLS.Awaits at hq ⊢
    exact .inl (hm ▸ hq)
  | routes w =>
    exact ⟨fun e he => List.mem_append_left _ he, fun p q hq => .inl hq, fun p q hq =>
      .inl (by simpa [report] using hq)⟩
  | flood _ w _ _ =>
    exact ⟨fun e he => List.mem_append_left _ he, fun p q hq => .inl hq, fun p q hq =>
      .inl (by simpa [report] using hq)⟩
  | @file w peerId msg hmsg =>
    refine ⟨fun e he => List.mem_append_left _ he, fun p q hq => ?_, fun p q hq =>
      .inl (by simpa [messageOut, report] using hq)⟩
    rcases awaits_set hq with hq | ⟨rfl, hq⟩
    · exact .inl hq
    · have hsame : ((w.self.ackManager_.find p).getD .init |>.messageOut msg).Awaits q := by
        cases q <;> exact hq
      rcases LsUnackPeer.messageOut_awaits hmsg hsame with hq | hq
      · cases hfind : w.self.ackManager_.find p with
        | none =>
          rw [hfind] at hq
          exact absurd hq (LsUnackPeer.not_awaits_acked ⟨rfl, rfl⟩ q)
        | some r =>
          rw [hfind] at hq
          exact .inl ⟨r, hfind, hq⟩
      · exact .inr ⟨msg, hq, List.mem_append_right _ (by simp)⟩
  | @resend w w' peerId h =>
    obtain ⟨r, w₁, hr, ⟨hself, -, qs, hqs, he⟩, rfl⟩ := resendMessages_spec h
    refine ⟨fun e he' => by rw [he]; exact List.mem_append_left _ he', fun p q hq => .inl ?_,
      fun p q hq => ?_⟩
    · rcases awaits_set hq with hq | ⟨rfl, hq'⟩
      · exact hq
      · exact ⟨r, hr, by cases q <;> exact hq'⟩
    · rw [he] at hq
      rcases List.mem_append.mp hq with hq | hq
      · exact .inl hq
      · obtain ⟨q', hq', heq⟩ := List.mem_map.mp hq
        obtain ⟨rfl, rfl⟩ := LsEvent.resent.inj heq
        exact .inr (.inl ⟨r, hr, hqs q' hq'⟩)
  | cancel w nbrId =>
    refine ⟨fun e he => he, fun p q hq => .inl ?_, fun p q hq => .inl hq⟩
    change ∃ r, SortedMap.find (w.self.ackManager_.cancelTimer nbrId) p = some r ∧ r.Awaits q at hq
    unfold LsRetransmissionManager.cancelTimer at hq
    split at hq
    · exact hq
    · rcases awaits_set hq with hq | ⟨-, hq⟩
      · exact hq
      · exact absurd hq (LsUnackPeer.not_awaits_acked ⟨rfl, rfl⟩ q)
  | @ack w peerId msg m h =>
    exact ⟨fun e he => he, fun p q hq => .inl (LsRetransmissionManager.ackIn_subset h p q hq),
      fun p q hq => .inl hq⟩
  | trans h _ ih ih' => exact (ih hw).trans (ih' (h.sound hw))

/-- Nothing is taken from what is sent, and the acknowledgements that are stored stay. -/
structure Keeps (w w' : LsWork) : Prop where
  sent : ∀ x ∈ w.sent, x ∈ w'.sent
  stored : w'.msgctr.other_messages = w.msgctr.other_messages

theorem Keeps.refl (w : LsWork) : Keeps w w := ⟨fun _ h => h, rfl⟩

theorem Keeps.after {w'' : LsWork} (h' : Keeps w' w'') (h : Keeps w w') : Keeps w w'' :=
  ⟨fun x hx => h'.sent x (h.sent x hx), h'.stored.trans h.stored⟩

theorem Keeps.foldl {α : Type*} {f : LsWork → α → LsWork} (hf : ∀ w a, Keeps w (f w a))
    (l : List α) (w : LsWork) : Keeps w (l.foldl f w) := by
  induction l generalizing w with
  | nil => exact .refl w
  | cons a l ih => exact (ih (f w a)).after (hf w a)

theorem report_keeps (w : LsWork) (e : LsEvent) : Keeps w (w.report e) := ⟨fun _ h => h, rfl⟩

theorem sendMessage_keeps (w : LsWork) (destId : ℤ) (msgId : LsSeq) :
    Keeps w (w.sendMessage destId msgId) := by
  unfold sendMessage
  split_ifs
  · exact ⟨fun x hx => List.mem_append_left _ hx, rfl⟩
  · exact .refl w

theorem forward_keeps (w : LsWork) (senderId : ℤ) (msg : LsMessage) :
    Keeps w (w.forward senderId msg) := by
  refine .foldl (fun w peerId => ?_) _ w
  split_ifs
  · exact .refl w
  · exact .after (sendMessage_keeps _ _ _) ⟨fun x hx => hx, rfl⟩
  · exact .refl w

theorem bufferAll_keeps (w : LsWork) (exception origin : ℤ) (msg : LsMessage) :
    Keeps w (w.bufferAll exception origin msg) := by
  refine .foldl (fun w peerId => ?_) _ w
  split_ifs
  · exact .refl w
  · exact ⟨fun x hx => hx, rfl⟩

theorem regenAndSend_keeps {exception origin : ℤ} {lsl : List LsLinkState}
    (h : w.regenAndSend exception origin lsl = some w') : Keeps w w' := by
  cases lsl with
  | nil => cases h
  | cons l lsl =>
    obtain ⟨⟨c, msg⟩, hnew, rfl⟩ := Option.map_eq_some_iff.mp h
    have hfresh := LsMessageCenter.newMessage_fresh hnew
    have hlsa : msg.type_ = .lsa ∨ msg.type_ = .tpm := .inl hfresh.type_
    dsimp only
    refine .after (report_keeps _ _) (.after (bufferAll_keeps _ _ _ _) ⟨fun x hx => hx, ?_⟩)
    simp only [LsMessageCenter.assign, if_pos hlsa]
    exact hfresh.kept (.inl rfl)

theorem compareTopo_keeps {neighborId : ℤ} {msgId : LsSeq} {changed b : Bool}
    {recs : List (ℤ × List LsLinkState)}
    (h : compareTopo neighborId msgId w changed recs = some (w', b)) : Keeps w w' := by
  induction recs generalizing w changed with
  | nil =>
    cases hmsg : w.msgctr.retrieveMessagePtr msgId with
    | none =>
      unfold compareTopo at h
      simp [hmsg] at h
    | some msg =>
      unfold compareTopo at h
      simp only [hmsg, Option.some.injEq, Prod.mk.injEq] at h
      exact h.1 ▸ .refl w
  | cons r recs ih =>
    cases hmsg : w.msgctr.retrieveMessagePtr msgId with
    | none =>
      unfold compareTopo at h
      simp [hmsg] at h
    | some msg =>
      unfold compareTopo at h
      simp only [hmsg] at h
      split_ifs at h
      · exact ih h
      · obtain ⟨b, -, h⟩ := Option.bind_eq_some_iff.mp h
        split_ifs at h
        · obtain ⟨w₁, h1, h2⟩ := Option.bind_eq_some_iff.mp h
          exact ((ih h2).after (regenAndSend_keeps h1)).after ⟨fun x hx => hx, rfl⟩
        · exact ih h

/-- The acknowledgement is stored and on its way. -/
def AckSent (w : LsWork) (nbrId : ℤ) (ack : LsMessage) : Prop :=
  ∃ k, (nbrId, k) ∈ w.sent ∧ LsMessageCenter.isLSA k = false ∧
    w.msgctr.other_messages.find k = some ack

theorem AckSent.keeps {nbrId : ℤ} {ack : LsMessage} (h : AckSent w nbrId ack) (hk : Keeps w w') :
    AckSent w' nbrId ack := by
  obtain ⟨k, h1, h2, h3⟩ := h
  exact ⟨k, hk.sent _ h1, h2, hk.stored ▸ h3⟩

theorem sendAck_sent {nbrId origin : ℤ} {type : LsMessageType} {seq : LsSeq}
    (htype : type = .lsaack ∨ type = .tpmack) (hpeer : nbrId ∈ w.self.peerIdList_)
    (hw : w.msgctr.Sound) (h : w.sendAck nbrId type origin seq = some w') :
    ∃ ack : LsMessage, AckSent w' nbrId ack ∧ ack.type_ = type ∧ ack.originNodeId_ = origin ∧
      ack.sequenceNumber_ = seq := by
  obtain ⟨⟨c, msg⟩, hnew, rfl⟩ := Option.map_eq_some_iff.mp h
  have hfresh := LsMessageCenter.newMessage_fresh hnew
  have hlsa : type ≠ .lsa := by
    rcases htype with rfl | rfl <;> decide
  have htpm : type ≠ .tpm := by
    rcases htype with rfl | rfl <;> decide
  have hno : ¬ (msg.type_ = .lsa ∨ msg.type_ = .tpm) := by
    rw [hfresh.type_]
    exact not_or.mpr ⟨hlsa, htpm⟩
  refine ⟨{ msg with originNodeId_ := origin, sequenceNumber_ := seq },
    ⟨msg.messageId_, ?_, ?_, ?_⟩, hfresh.type_, rfl, rfl⟩
  · simp [sendMessage, hpeer]
  · simp [LsMessageCenter.isLSA, hfresh.other hlsa htpm, hw.even]
  · dsimp only
    rw [sendMessage_msgctr]
    simp only [LsMessageCenter.assign, if_neg hno]
    rw [SortedMap.find_set, if_pos rfl]

theorem receiveLSA_acks {senderId : ℤ} {msg : LsMessage} (hpeer : senderId ∈ w.self.peerIdList_)
    (hw : w.msgctr.Sound) (h : w.receiveLSA senderId msg = some w') :
    ∃ ack : LsMessage, AckSent w' senderId ack ∧
      ack.Acks (.lsa msg.originNodeId_ msg.messageId_) := by
  obtain ⟨w₁, h1, h⟩ := Option.bind_eq_some_iff.mp h
  obtain ⟨ack, hsent, hack⟩ := sendAck_sent (.inl rfl) hpeer hw h1
  refine ⟨ack, hsent.keeps ?_, hack⟩
  dsimp only at h
  generalize hw₂ : { w₁ with self.lsaHistory_ := _ } = w₂ at h
  have h2 : Keeps w₁ w₂ := by
    subst hw₂
    exact ⟨fun x hx => hx, rfl⟩
  have h3 : Keeps w₁ (w₂.forward senderId msg) := (forward_keeps w₂ _ _).after h2
  generalize w₂.forward senderId msg = w₃ at h h3
  split_ifs at h
  · exact Option.some.inj h ▸ .refl w₁
  · split at h
    · exact Option.some.inj h ▸ h3
    · cases h
    · obtain rfl := Option.some.inj h
      refine .after ?_ h3
      split_ifs <;> exact ⟨fun x hx => hx, rfl⟩
  · exact Option.some.inj h ▸ h2

theorem receiveTopo_acks {db : ℤ → LsTopoMap} {neighborId : ℤ} {msg : LsMessage}
    (hpeer : neighborId ∈ w.self.peerIdList_) (hw : w.msgctr.Sound) (hmsg : msg.OwnNumber)
    (h : w.receiveTopo db neighborId msg = some w') :
    ∃ ack : LsMessage, AckSent w' neighborId ack ∧ ack.Acks (.topo msg.messageId_) := by
  obtain ⟨w₁, h1, h⟩ := Option.bind_eq_some_iff.mp h
  obtain ⟨ack, hsent, htype, -, hseq⟩ := sendAck_sent (.inr rfl) hpeer hw h1
  refine ⟨ack, hsent.keeps ?_, htype, hseq.trans hmsg⟩
  dsimp only at h
  split_ifs at h
  · split at h
    · exact Option.some.inj h ▸ ⟨fun x hx => hx, rfl⟩
    · cases h
    · obtain ⟨⟨w₂, changed⟩, h2, rfl⟩ := Option.map_eq_some_iff.mp h
      have h3 : Keeps w₁ w₂ := (compareTopo_keeps h2).after ⟨fun x hx => hx, rfl⟩
      dsimp only
      split_ifs
      · exact (report_keeps _ _).after h3
      · exact h3
  · exact Option.some.inj h ▸ ⟨fun x hx => hx, rfl⟩

end LsWork

namespace LsNet

open LsWork

def Sound (net : LsNet) : Prop := net.msgctr.Sound ∧ ∀ n, (net.node n).Sound

/-- No message with the number of another is filed: none that is regenerated. -/
def OwnNumbers (net : LsNet) (op : LsOp) : Prop := net.Files LsMessage.OwnNumber op

/-- A run of admitted steps leads from one network to the other, with what it reports. -/
def Reaches (ok : LsNet → LsOp → Prop) (net net' : LsNet) (es : List (ℤ × LsEvent)) : Prop :=
  ∃ ops os, Machine.run step net ops = some (net', os) ∧ Machine.Admits step ok net ops ∧
    es = os.flatten

theorem sound_init (peers : ℤ → LsNodeIdList) (links : ℤ → List LsLinkState)
    (delays : ℤ → List ℤ) (max_size : ℕ) : (init peers links delays max_size).Sound :=
  ⟨⟨show (2 : LsSeq).val % 2 = 0 by decide, fun _ ⟨_, h⟩ => nomatch h⟩, fun n => RtProtoLS.sound_init n _ _ _⟩

/-- What node `n` resends or waits for, it did before, or it has filed it since. -/
structure Traces (net net' : LsNet) (es : List (ℤ × LsEvent)) : Prop where
  awaits : ∀ n p q, (net'.node n).Awaits p q → (net.node n).Awaits p q ∨
    ∃ msg : LsMessage, msg.record = some q ∧ (n, .filed p msg) ∈ es
  resent : ∀ n p q, (n, .resent p q) ∈ es → (net.node n).Awaits p q ∨
    ∃ msg : LsMessage, msg.record = some q ∧ (n, .filed p msg) ∈ es

theorem step_sound {net net' : LsNet} {op : LsOp} {os : List (ℤ × LsEvent)} (h : net.Sound)
    (hok : net.OwnNumbers op) (hs : net.step op = some (net', os)) :
    net'.Sound ∧ Traces net net' os := by
  obtain ⟨n, w, hdoes, ha⟩ := step_does (fun _ hm => hm) hok hs
  have htraced := hdoes.traced (h.2 n)
  refine ⟨⟨ha.msgctr ▸ hdoes.center h.1, fun m => ?_⟩, ⟨fun m p q hq => ?_, fun m p q hq => ?_⟩⟩
  · rw [ha.node]
    by_cases hm : m = n
    · rw [hm, Function.update_self]
      exact hdoes.sound (h.2 n)
    · rw [Function.update_of_ne hm]
      exact h.2 m
  · rw [ha.node] at hq
    by_cases hm : m = n
    · subst hm
      rw [Function.update_self] at hq
      refine (htraced.awaits p q hq).imp_right fun ⟨msg, hmsg, he⟩ => ⟨msg, hmsg, ?_⟩
      exact ha.events ▸ List.mem_map_of_mem he
    · rw [Function.update_of_ne hm] at hq
      exact .inl hq
  · rw [ha.events] at hq
    obtain ⟨e, he, heq⟩ := List.mem_map.mp hq
    obtain ⟨rfl, rfl⟩ := Prod.mk.inj heq
    rcases htraced.resent p q he with hq | hq | ⟨msg, hmsg, he⟩
    · cases hq
    · exact .inl hq
    · exact .inr ⟨msg, hmsg, ha.events ▸ List.mem_map_of_mem he⟩

theorem Traces.trans {net net' net'' : LsNet} {es es' : List (ℤ × LsEvent)}
    (h : Traces net net' es) (h' : Traces net' net'' es') : Traces net net'' (es ++ es') where
  awaits n p q hq := by
    rcases h'.awaits n p q hq with hq | ⟨msg, hmsg, he⟩
    · exact (h.awaits n p q hq).imp_right fun ⟨msg, hmsg, he⟩ =>
        ⟨msg, hmsg, List.mem_append_left _ he⟩
    · exact .inr ⟨msg, hmsg, List.mem_append_right _ he⟩
  resent n p q hq := by
    rcases List.mem_append.mp hq with hq | hq
    · exact (h.resent n p q hq).imp_right fun ⟨msg, hmsg, he⟩ =>
        ⟨msg, hmsg, List.mem_append_left _ he⟩
    · rcases h'.resent n p q hq with hq | ⟨msg, hmsg, he⟩
      · exact (h.awaits n p q hq).imp_right fun ⟨msg, hmsg, he⟩ =>
          ⟨msg, hmsg, List.mem_append_left _ he⟩
      · exact .inr ⟨msg, hmsg, List.mem_append_right _ he⟩

theorem Reaches.sound {net net' : LsNet} {es : List (ℤ × LsEvent)} (h : net.Sound)
    (hr : Reaches OwnNumbers net net' es) : net'.Sound ∧ Traces net net' es := by
  obtain ⟨ops, os, hrun, hok, rfl⟩ := hr
  induction ops generalizing net os with
  | nil =>
    obtain ⟨rfl, rfl⟩ := Prod.mk.inj (Option.some.inj hrun)
    exact ⟨h, fun n p q hq => .inl hq, fun n p q hq => by cases hq⟩
  | cons op ops ih =>
    obtain ⟨net₁, o, os', h1, h2, rfl⟩ := Machine.run_cons_eq_some hrun
    obtain ⟨hsound, htraces⟩ := step_sound h hok.1 h1
    obtain ⟨h3, h4⟩ := ih hsound _ h2 (hok.2 net₁ o h1)
    exact ⟨h3, htraces.trans h4⟩

/-- The delivery of packet `i` has made `dst` acknowledge the record `q` to `src`: whenever that
acknowledgement is delivered it clears `q` and nothing else, and then `q` is not resent unless it is
filed anew. -/
def Settles (ok : LsNet → LsOp → Prop) (net₁ net₂ : LsNet) (i : ℕ) (src dst : ℤ) (q : LsRecord) :
    Prop :=
  ∃ sent k ack, net₂.packets = net₁.packets.eraseIdx i ++ sent ∧ ⟨dst, src, k⟩ ∈ sent ∧
    net₂.msgctr.retrieveMessagePtr k = some ack ∧
    ∀ net₃ es₃ j, Reaches ok net₂ net₃ es₃ → Delivers net₃ j dst src ack →
      ∃ net₄ es₄, net₃.step (.deliver j) = some (net₄, es₄) ∧
        (∀ p r, (net₄.node src).Awaits p r ↔
          (net₃.node src).Awaits p r ∧ ¬ (p = dst ∧ r = q)) ∧
        ∀ net₅ es₅, Reaches ok net₄ net₅ es₅ →
          (∀ msg : LsMessage, msg.record = some q → (src, .filed dst msg) ∉ es₅) →
          (src, .resent dst q) ∉ es₅

theorem deliver_ack {net : LsNet} {j : ℕ} {src dst : ℤ} {ack : LsMessage} {q : LsRecord}
    (h : net.Sound) (hack : ack.Acks q) (hd : Delivers net j dst src ack) :
    ∃ net' es, net.step (.deliver j) = some (net', es) ∧ net'.Sound ∧
      ∀ p r, (net'.node src).Awaits p r ↔ (net.node src).Awaits p r ∧ ¬ (p = dst ∧ r = q) := by
  obtain ⟨k, hp, hmsg⟩ := hd.packet
  obtain ⟨m, hm, hsound, hclears⟩ := LsRetransmissionManager.ackIn_spec (h.2 src) dst ack
  have htype : ack.type_ = .lsaack ∨ ack.type_ = .tpmack := by
    cases q with
    | topo msgId => exact .inr hack.1
    | lsa o msgId => exact .inl hack.1
  have hreceive : LsWork.receiveMessage (fun n => (net.node n).linkStateDatabase_)
      ⟨net.node src, net.msgctr, [], []⟩ dst k =
      some ⟨{ net.node src with ackManager_ := m }, net.msgctr.deleteMessage k, [], []⟩ := by
    rcases htype with htype | htype <;>
      simp only [LsWork.receiveMessage, hmsg, htype, if_neg hd.valid, LsWork.receiveAck, hm,
        Option.map_some]
  have hs : net.step (.deliver j) =
      some (⟨Function.update net.node src { net.node src with ackManager_ := m },
        net.msgctr.deleteMessage k, net.packets.eraseIdx j ++ []⟩, []) := by
    simp only [step, hp, act, RtProtoLS.findPeerNodeId, if_pos hd.peer, hreceive, Option.map_some,
      List.map_nil]
  refine ⟨_, _, hs, ⟨h.1.delete k, fun n => ?_⟩, fun p r => ?_⟩
  · by_cases hn : n = src
    · subst hn
      simp only [Function.update_self]
      exact hsound
    · simpa only [Function.update_of_ne hn] using h.2 n
  · simp only [Function.update_self]
    exact hclears q hack p r

theorem acks_settle {peers : ℤ → LsNodeIdList} {links : ℤ → List LsLinkState}
    {delays : ℤ → List ℤ} {max_size : ℕ} {net₁ net₂ : LsNet} {es₁ es₂ : List (ℤ × LsEvent)} {i : ℕ}
    {src dst : ℤ} {msg : LsMessage} {q : LsRecord}
    (h₁ : Reaches OwnNumbers (.init peers links delays max_size) net₁ es₁)
    (hd : Delivers net₁ i src dst msg) (hq : msg.record = some q)
    (hok : net₁.OwnNumbers (.deliver i)) (hs : net₁.step (.deliver i) = some (net₂, es₂)) :
    Settles OwnNumbers net₁ net₂ i src dst q := by
  have hsound₁ := (Reaches.sound (sound_init peers links delays max_size) h₁).1
  have hsound₂ := (step_sound hsound₁ hok hs).1
  obtain ⟨msgId, w, hmsg, hw, ha, hpackets⟩ := hd.step hs
  have hacked : ∃ ack : LsMessage, AckSent w src ack ∧ ack.Acks q := by
    unfold LsMessage.record at hq
    simp only [LsWork.receiveMessage, hmsg, if_neg hd.valid] at hw
    split at hq
    · next htype =>
      obtain rfl := Option.some.inj hq
      rw [htype] at hw
      exact receiveTopo_acks hd.peer hsound₁.1
        (hsound₁.1.topo msg (LsMessageCenter.stores_of_retrieve hmsg) htype) hw
    · next htype =>
      obtain rfl := Option.some.inj hq
      rw [htype] at hw
      exact receiveLSA_acks hd.peer hsound₁.1 hw
    · cases hq
  obtain ⟨ack, ⟨k, hsent, hk, hfind⟩, hack⟩ := hacked
  have hretrieve : net₂.msgctr.retrieveMessagePtr k = some ack := by
    rw [ha.msgctr, LsMessageCenter.retrieveMessagePtr, hk]
    exact hfind
  refine ⟨_, k, ack, hpackets, List.mem_map.mpr ⟨(src, k), hsent, rfl⟩, hretrieve, ?_⟩
  intro net₃ es₃ j h₃ hd₃
  have hsound₃ := (h₃.sound hsound₂).1
  obtain ⟨net₄, es₄, hs₄, hsound₄, hclears⟩ := deliver_ack hsound₃ hack hd₃
  refine ⟨net₄, es₄, hs₄, hclears, fun net₅ es₅ h₅ hfiled hres => ?_⟩
  rcases (h₅.sound hsound₄).2.resent src dst q hres with hw | ⟨msg', hmsg', he⟩
  · exact ((hclears dst q).mp hw).2 ⟨rfl, rfl⟩
  · exact hfiled msg' hmsg' he

/-- Node 1 advertises its links, and node 0 receives that. -/
theorem acks_settle_line : ∃ net₁ net₂ es₁ es₂, Reaches OwnNumbers line net₁ es₁ ∧
    net₁.step (.deliver 0) = some (net₂, es₂) ∧ Settles OwnNumbers net₁ net₂ 0 1 0 (.lsa 1 1) := by
  have h : (Machine.run step line [.sendUpdates 1]).any (fun r =>
      r.1.packets = [⟨1, 0, 1⟩, ⟨1, 2, 1⟩] ∧ 1 ∈ (r.1.node 0).peerIdList_ ∧
      (r.1.step (.deliver 0)).isSome ∧ r.1.msgctr.retrieveMessagePtr 1 =
        some ⟨.lsa, 1, 1, 1, .lsl [⟨0, .up, 1, 1⟩, ⟨2, .up, 1, 1⟩]⟩) = true := by decide
  obtain ⟨⟨net₁, os⟩, h1, h⟩ := (Option.any_eq_true _ _).mp h
  obtain ⟨hpackets, hpeer, hstep, hmsg⟩ := of_decide_eq_true h
  obtain ⟨⟨net₂, es₂⟩, h2⟩ := Option.isSome_iff_exists.mp hstep
  have hreach : Reaches OwnNumbers line net₁ os.flatten :=
    ⟨_, os, h1, ⟨trivial, fun _ _ _ => trivial⟩, rfl⟩
  have hok : net₁.OwnNumbers (.deliver 0) := by
    intro p msg hp hm _
    rw [hpackets] at hp
    cases hp
    cases hmsg.symm.trans hm
    rfl
  exact ⟨net₁, net₂, _, es₂, hreach, h2, acks_settle hreach
    ⟨⟨1, by rw [hpackets]; rfl, hmsg⟩, hpeer, by decide⟩ rfl hok h2⟩

/-- The acknowledgement of the regenerated message carries its id, and is compared with the older
number: the record stays. -/
theorem acks_miss : ¬ ∀ peers links delays max_size net₁ net₂ es₁ es₂ i src dst msg q,
    Reaches (fun _ _ => True) (.init peers links delays max_size) net₁ es₁ →
    Delivers net₁ i src dst msg → msg.record = some q →
    net₁.step (.deliver i) = some (net₂, es₂) →
    Settles (fun _ _ => True) net₁ net₂ i src dst q := fun hall => by
  have h : (Machine.run step line (lineUp ++ [.deliver 0, .sendBufferedMessages 1, .lose 0])).any
      (fun r => r.1.packets = [⟨1, 2, 5⟩] ∧ 1 ∈ (r.1.node 2).peerIdList_ ∧
        r.1.msgctr.retrieveMessagePtr 5 = some regenerated ∧
        (r.1.step (.deliver 0)).any fun q => q.1.packets = [⟨2, 1, 4⟩] ∧
          2 ∈ (q.1.node 1).peerIdList_ ∧
          q.1.msgctr.retrieveMessagePtr 4 = some ⟨.lsaack, 4, 5, 0, .null⟩ ∧
          (q.1.step (.deliver 0)).any fun t => ((t.1.node 1).ackManager_.find 2).any fun r =>
            r.lsaMap_.find 0 = some ⟨5, 1⟩) = true := by decide
  obtain ⟨⟨net₁, os⟩, h1, h⟩ := (Option.any_eq_true _ _).mp h
  obtain ⟨hpackets₁, hpeer₁, hmsg₁, h⟩ := of_decide_eq_true h
  obtain ⟨⟨net₂, es₂⟩, h2, h⟩ := (Option.any_eq_true _ _).mp h
  obtain ⟨hpackets₂, hpeer₂, hmsg₂, h⟩ := of_decide_eq_true h
  obtain ⟨⟨net₄, es₄⟩, h4, h⟩ := (Option.any_eq_true _ _).mp h
  obtain ⟨r, hr, h⟩ := (Option.any_eq_true _ _).mp h
  obtain ⟨sent, k, ack, hsent, hk, hack, hsettles⟩ :=
    hall _ _ _ _ net₁ net₂ os.flatten es₂ 0 1 2 regenerated (.lsa 0 5)
      ⟨_, os, h1, Machine.admits_true _ _ _, rfl⟩
      ⟨⟨5, by rw [hpackets₁]; rfl, hmsg₁⟩, hpeer₁, by decide⟩ rfl h2
  rw [hpackets₁, hpackets₂] at hsent
  obtain rfl : [⟨2, 1, 4⟩] = sent := by simpa using hsent
  obtain rfl : k = 4 := by simpa using hk
  obtain rfl := Option.some.inj (hmsg₂.symm.trans hack)
  obtain ⟨net, es, hs, hclears, -⟩ := hsettles net₂ [] 0 ⟨[], [], rfl, trivial, rfl⟩
    ⟨⟨4, by rw [hpackets₂]; rfl, hmsg₂⟩, hpeer₂, by decide⟩
  obtain ⟨rfl, rfl⟩ := Prod.mk.inj (Option.some.inj (h4.symm.trans hs))
  have hwaits : (net₄.node 1).Awaits 2 (.lsa 0 5) := ⟨r, hr, _, of_decide_eq_true h, rfl⟩
  exact ((hclears 2 (.lsa 0 5)).mp hwaits).2 ⟨rfl, rfl⟩

end LsNet

end Ns2
