import Ns2.Satellite.Hdlc

/-! The send buffer of an HDLC connection holds the frames above the highest ack exactly as long as
no acknowledgement passes over one of them. -/

namespace Ns2

namespace ARQstate

variable {P : Type} {h : HdlcSettings} {a b c : ARQstate P} {n : ℤ}

def numbers (a : ARQstate P) : List ℕ := a.sendBuf_.map Prod.fst

/-- The buffer holds exactly the frames numbered `highest_ack_ + 1` to `seqno_ - 1`. -/
def Buffered (a : ARQstate P) : Prop :=
  a.numbers = (List.range a.seqno_).filter fun k : ℕ => a.highest_ack_ < k

instance : Decidable a.Buffered := inferInstanceAs (Decidable (_ = _))

structure Sound (a : ARQstate P) : Prop where
  buffered : a.Buffered
  lowest : -1 ≤ a.highest_ack_
  below : a.highest_ack_ < a.seqno_
  unconnected : a.SABME_req_ ≠ 2 → a.t_seqno_ = 0 ∧ a.recv_seqno_ = -1
  request : a.SABME_req_ ≤ 2
  silent : a.SABME_req_ = 0 → a.rtx_timer_ = false
  saved : a.save_ = true → a.delay_timer_ = true

structure Connected (a : ARQstate P) : Prop extends Sound a where
  confirmed : a.SABME_req_ = 2

theorem SameBuffer.buffered (hab : SameBuffer a b) : b.Buffered ↔ a.Buffered := by
  simp [Buffered, numbers, hab.buf, hab.seqno, hab.highest]

theorem Connected.same (hc : Connected a) (hab : SameBuffer a b) : Connected b where
  buffered := hab.buffered.mpr hc.buffered
  lowest := hab.highest ▸ hc.lowest
  below := by simpa [hab.highest, hab.seqno] using hc.below
  unconnected h2 := absurd (hab.sabme.trans hc.confirmed) h2
  request := (hab.sabme.trans hc.confirmed).le
  silent h0 := by simp [hab.sabme, hc.confirmed] at h0
  saved := hab.saved hc.saved
  confirmed := hab.sabme.trans hc.confirmed

/-! ### The numbers in the buffer -/

theorem frames_above {m : ℤ} (hm : -1 ≤ m) (s : ℕ) :
    ((List.range s).filter fun k : ℕ => m < k) =
      List.range' (m + 1).toNat (s - (m + 1).toNat) := by
  induction s with
  | zero => simp
  | succ s ih =>
    rw [List.range_succ, List.filter_append, ih]
    by_cases hs : m < (s : ℤ)
    · have hlen : s + 1 - (m + 1).toNat = s - (m + 1).toNat + 1 := by omega
      have hend : (m + 1).toNat + (s - (m + 1).toNat) = s := by omega
      simp [hs, hlen, List.range'_1_concat, hend]
    · have hlen : s + 1 - (m + 1).toNat = 0 := by omega
      have hlen' : s - (m + 1).toNat = 0 := by omega
      simp [hs, hlen, hlen']

theorem getPkt_isSome {buffer : List (ℕ × P)} :
    (getPkt buffer n).isSome ↔ ∃ k ∈ buffer.map Prod.fst, (k : ℤ) = n := by
  simp [getPkt]

theorem Sound.getPkt_iff (hs : Sound a) :
    (getPkt a.sendBuf_ n).isSome ↔ a.highest_ack_ < n ∧ n < a.seqno_ := by
  have hlow := hs.lowest
  rw [getPkt_isSome]
  change (∃ k ∈ a.numbers, (k : ℤ) = n) ↔ _
  rw [hs.buffered]
  simp only [List.mem_filter, List.mem_range, decide_eq_true_eq]
  constructor
  · rintro ⟨k, ⟨hk, hak⟩, rfl⟩
    exact ⟨hak, by omega⟩
  · rintro ⟨han, hn⟩
    exact ⟨n.toNat, ⟨by omega, by omega⟩, by omega⟩

theorem Sound.exists_pkt (hs : Sound a) (h1 : a.highest_ack_ < n) (h2 : n < a.seqno_) :
    ∃ dp, getPkt a.sendBuf_ n = some dp :=
  Option.isSome_iff_exists.mp (hs.getPkt_iff.mpr ⟨h1, h2⟩)

theorem numbers_remove : (a.remove n).numbers = a.numbers.eraseP fun k : ℕ => (k : ℤ) = n := by
  simp [numbers, remove, List.eraseP_map, Function.comp_def]

/-- The next frame is the first of the buffer. -/
theorem Sound.remove_next (hs : Sound a) (hn : n = a.highest_ack_ + 1) (h2 : n < a.seqno_) :
    { a.remove n with highest_ack_ := n }.Buffered := by
  have hlow := hs.lowest
  change (a.remove n).numbers = (List.range a.seqno_).filter fun k : ℕ => n < k
  have hlen : a.seqno_ - (a.highest_ack_ + 1).toNat = a.seqno_ - (n + 1).toNat + 1 := by omega
  have hnext : (a.highest_ack_ + 1).toNat + 1 = (n + 1).toNat := by omega
  have hfirst : (((a.highest_ack_ + 1).toNat : ℕ) : ℤ) = n := by omega
  rw [numbers_remove, hs.buffered, frames_above hlow, frames_above (by omega), hlen,
    List.range'_succ, hnext, List.eraseP_cons_of_pos (by simpa using hfirst)]

/-- A frame that is passed over stays in the buffer. -/
theorem Sound.remove_later (hs : Sound a) (hn : a.highest_ack_ + 1 < n) (h2 : n < a.seqno_) :
    ¬ { a.remove n with highest_ack_ := n }.Buffered := by
  intro hb
  have hlow := hs.lowest
  change (a.remove n).numbers = (List.range a.seqno_).filter fun k : ℕ => n < k at hb
  have hmem : (a.highest_ack_ + 1).toNat ∈ (a.remove n).numbers := by
    rw [numbers_remove, List.mem_eraseP_of_neg (by simp; omega), hs.buffered]
    simp only [List.mem_filter, List.mem_range, decide_eq_true_eq]
    omega
  rw [hb] at hmem
  simp only [List.mem_filter, List.mem_range, decide_eq_true_eq] at hmem
  omega

/-! ### Receiving -/

theorem Connected.sendMuch (hc : Connected a) : ∃ b, a.sendMuch h = some b ∧ Sends a b :=
  ⟨_, if_pos hc.confirmed, sends_sendLoop _⟩

theorem exists_delayAck (hs : a.save_ = true → a.delay_timer_ = true) :
    ∃ b, a.delayAck h = some b := by
  rw [delayAck]
  split_ifs with hack hdelay hsave
  · exact ⟨_, rfl⟩
  · exact absurd (hs hsave) hdelay
  · exact ⟨_, rfl⟩
  · exact ⟨_, rfl⟩

theorem same_goBackNMode {r : HdlcSettings × ARQstate P} {k : ℕ} {p : P}
    (hr : a.goBackNMode h k p = some r) : SameBuffer a r.2 := by
  simp only [goBackNMode] at hr
  split at hr
  · obtain ⟨b, hb, rfl⟩ := Option.map_eq_some_iff.mp hr
    have htake : SameBuffer a a.takeInOrder := ⟨rfl, rfl, rfl, rfl, id⟩
    exact htake.trans ((sends_delayAck hb).trans (sends_sendUp p)).toSameBuffer
  · split_ifs at hr
    · obtain rfl := Option.some.inj hr
      exact ⟨rfl, rfl, rfl, rfl, id⟩
    · obtain rfl := Option.some.inj hr
      exact .refl
    · obtain rfl := Option.some.inj hr
      exact sends_ack.toSameBuffer

theorem exists_goBackNMode (hs : a.save_ = true → a.delay_timer_ = true) (k : ℕ) (p : P) :
    ∃ r, a.goBackNMode h k p = some r := by
  simp only [goBackNMode]
  split
  · obtain ⟨b, hb⟩ := @exists_delayAck P h a.takeInOrder hs
    exact ⟨_, by rw [hb]; rfl⟩
  · split_ifs <;> exact ⟨_, rfl⟩

theorem same_recvMode {r : HdlcSettings × ARQstate P} {k : ℕ} {p : P}
    (hr : a.recvMode h k p = some r) : SameBuffer a r.2 := by
  rw [recvMode] at hr
  split at hr
  · obtain rfl := Option.some.inj hr
    exact (sends_selectiveRepeatMode _ _).toSameBuffer
  · exact same_goBackNMode hr

theorem Connected.recvMode (hc : Connected a) (k : ℕ) (p : P) :
    ∃ r, a.recvMode h k p = some r := by
  rw [ARQstate.recvMode]
  split
  · exact ⟨_, rfl⟩
  · exact exists_goBackNMode hc.saved k p

theorem same_firstData (k : ℕ) : SameBuffer a (a.firstData k) := by
  rw [firstData]
  split <;> exact ⟨rfl, rfl, rfl, rfl, id⟩

theorem Sound.confirm (hs : Sound a) (h1 : a.SABME_req_ ≠ 1) : Connected a.confirm := by
  have h2 := hs.request
  rw [ARQstate.confirm]
  by_cases h0 : a.SABME_req_ = 0
  · rw [if_pos ⟨(hs.unconnected (by omega)).2, h0⟩]
    exact ⟨⟨hs.buffered, hs.lowest, hs.below, fun hne => absurd rfl hne, le_rfl, by simp, hs.saved⟩,
      rfl⟩
  · rw [if_neg fun hc => h0 hc.2]
    exact ⟨hs, by omega⟩

theorem confirm_same : a.confirm.sendBuf_ = a.sendBuf_ ∧ a.confirm.seqno_ = a.seqno_ ∧
    a.confirm.highest_ack_ = a.highest_ack_ := by
  rw [confirm]
  split <;> exact ⟨rfl, rfl, rfl⟩

/-! ### Acknowledgements -/

/-- A piggybacked ack is for the next frame, or says nothing new. -/
def PiggyInOrder (a : ARQstate P) (recv_seqno : ℤ) : Prop :=
  recv_seqno - 1 ≤ a.highest_ack_ ∨
    recv_seqno - 1 = a.highest_ack_ + 1 ∧ recv_seqno - 1 < a.seqno_

/-- `RR` is for the next frame, says nothing new, or is for a frame that was never numbered. -/
def RRInOrder (a : ARQstate P) (recv_seqno : ℤ) : Prop :=
  recv_seqno - 1 ≤ a.highest_ack_ + 1 ∨ a.seqno_ ≤ recv_seqno - 1

instance (n : ℤ) : Decidable (a.PiggyInOrder n) := inferInstanceAs (Decidable (_ ∨ _))

instance (n : ℤ) : Decidable (a.RRInOrder n) := inferInstanceAs (Decidable (_ ∨ _))

/-- The state with the frame `n` acknowledged, whatever becomes of the timer. -/
theorem Connected.acknowledged (hc : Connected a) (hn : n = a.highest_ack_ + 1)
    (h2 : n < a.seqno_) : Connected { a.remove n with highest_ack_ := n } where
  buffered := hc.remove_next hn h2
  lowest := by
    have hlow := hc.lowest
    change -1 ≤ n
    omega
  below := h2
  unconnected hne := absurd hc.confirmed hne
  request := hc.request
  silent h0 := hc.silent h0
  saved := hc.saved
  confirmed := hc.confirmed

theorem same_timers (c : Prop) [Decidable c] :
    SameBuffer a { (if c then a.set_rtx_timer else a.cancel_rtx_timer) with ntimeouts_ := 0 } := by
  split <;> exact ⟨rfl, rfl, rfl, rfl, id⟩

theorem Connected.handlePiggyAck (hc : Connected a) (ho : a.PiggyInOrder n) :
    ∃ b, a.handlePiggyAck n = some b ∧ Connected b := by
  simp only [ARQstate.handlePiggyAck]
  by_cases hnew : n - 1 > a.highest_ack_
  · obtain ⟨hn, h2⟩ := ho.resolve_left (by omega)
    obtain ⟨dp, hdp⟩ := hc.exists_pkt hnew h2
    rw [if_pos hnew, hdp]
    exact ⟨_, rfl, (hc.acknowledged hn h2).same (same_timers _)⟩
  · rw [if_neg hnew]
    exact ⟨_, rfl, hc.same ⟨rfl, rfl, rfl, rfl, id⟩⟩

theorem Connected.not_buffered_piggy (hc : Connected a) (ho : ¬ a.PiggyInOrder n)
    (hb : a.handlePiggyAck n = some b) : ¬ b.Buffered := by
  obtain ⟨hnew, hskip⟩ := not_or.mp ho
  simp only [ARQstate.handlePiggyAck] at hb
  rw [if_pos (by omega)] at hb
  cases hdp : getPkt a.sendBuf_ (n - 1) with
  | none => simp [hdp] at hb
  | some dp =>
    obtain ⟨h1, h2⟩ := hc.getPkt_iff.mp (Option.isSome_iff_exists.mpr ⟨dp, hdp⟩)
    rw [hdp] at hb
    obtain rfl := Option.some.inj hb
    intro hbuf
    exact hc.remove_later (by omega) h2 ((same_timers _).buffered.mp hbuf)

theorem Connected.handleRR (hc : Connected a) (ho : a.RRInOrder n) :
    ∃ b, a.handleRR h n = some b ∧ Connected b := by
  suffices hs : ∀ c, Connected c → ∃ b, c.sendMuch h = some b ∧ Connected b by
    simp only [ARQstate.handleRR]
    rw [if_neg (not_not.mpr hc.confirmed)]
    refine hs _ ?_
    by_cases hnew : n - 1 > a.highest_ack_
    · rw [if_pos hnew]
      by_cases hlast : n - 1 < a.seqno_
      · rw [if_pos (hc.getPkt_iff.mpr ⟨hnew, hlast⟩)]
        rcases ho with ho | ho
        · exact (hc.acknowledged (by omega) hlast).same (same_timers _)
        · omega
      · rw [if_neg fun hp => hlast (hc.getPkt_iff.mp hp).2]
        exact hc.same (same_timers _)
    · rw [if_neg hnew]
      exact hc.same ⟨rfl, rfl, rfl, rfl, id⟩
  intro c hc
  obtain ⟨b, hb, hcb⟩ := hc.sendMuch
  exact ⟨b, hb, hc.same hcb.toSameBuffer⟩

theorem Connected.not_buffered_RR (hc : Connected a) (ho : ¬ a.RRInOrder n)
    (hb : a.handleRR h n = some b) : ¬ b.Buffered := by
  obtain ⟨hskip, hlast⟩ := not_or.mp ho
  simp only [ARQstate.handleRR] at hb
  rw [if_neg (not_not.mpr hc.confirmed), if_pos (by omega),
    if_pos (hc.getPkt_iff.mpr ⟨by omega, by omega⟩)] at hb
  intro hbuf
  exact hc.remove_later (by omega) (by omega)
    ((same_timers _).buffered.mp ((Sends.of_sendMuch hb).buffered.mp hbuf))

theorem Connected.handleREJ (hc : Connected a) : ∃ b, a.handleREJ h n = some b ∧ Connected b := by
  have hto : Connected { a with t_seqno_ := n } := hc.same ⟨rfl, rfl, rfl, rfl, id⟩
  obtain ⟨b, hb, hsends⟩ := hto.sendMuch
  exact ⟨b, (if_neg (not_not.mpr hc.confirmed)).trans hb, hto.same hsends.toSameBuffer⟩

theorem Connected.handleSREJ (hc : Connected a) (h1 : a.highest_ack_ < n) (h2 : n < a.seqno_) :
    ∃ b, a.handleSREJ h n = some b ∧ Connected b := by
  obtain ⟨dp, hdp⟩ := hc.exists_pkt h1 h2
  rw [ARQstate.handleSREJ, if_neg (not_not.mpr hc.confirmed), hdp]
  exact ⟨_, rfl, hc.same (sends_output _ _).toSameBuffer⟩

theorem Sound.handleUA (hs : Sound a) : ∃ b, a.handleUA h = some b ∧ Sound b := by
  rw [ARQstate.handleUA]
  by_cases hu : a.t_seqno_ = 0 ∧ a.SABME_req_ = 1
  · rw [if_pos hu]
    have hc : Connected { a with SABME_req_ := 2 }.cancel_rtx_timer :=
      ⟨⟨hs.buffered, hs.lowest, hs.below, fun hne => absurd rfl hne, le_rfl, fun _ => rfl,
        hs.saved⟩, rfl⟩
    obtain ⟨b, hb, hsends⟩ := hc.sendMuch
    exact ⟨b, hb, (hc.same hsends.toSameBuffer).toSound⟩
  · rw [if_neg hu]
    exact ⟨a, rfl, hs⟩

theorem Sound.recvIframe (hs : Sound a) {k : ℕ} {p : P}
    (ho : a.SABME_req_ ≠ 1 → -1 < n → a.PiggyInOrder n) :
    ∃ r, a.recvIframe h n k p = some r ∧ Sound r.2 := by
  rw [ARQstate.recvIframe]
  by_cases h1 : a.SABME_req_ = 1
  · rw [if_pos h1]
    exact ⟨_, rfl, hs⟩
  · rw [if_neg h1]
    have hc := hs.confirm h1
    have hpiggy : ∃ b, (if n > -1 then a.confirm.handlePiggyAck n else some a.confirm) = some b ∧
        Connected b := by
      by_cases hn : n > -1
      · rw [if_pos hn]
        have hsame := @confirm_same P a
        exact hc.handlePiggyAck (by simpa [PiggyInOrder, hsame] using ho h1 hn)
      · rw [if_neg hn]
        exact ⟨_, rfl, hc⟩
    obtain ⟨b, hb, hcb⟩ := hpiggy
    have hfirst := hcb.same (same_firstData k)
    obtain ⟨r, hr⟩ := @Connected.recvMode P h _ hfirst k p
    have hcr := hfirst.same (same_recvMode hr)
    obtain ⟨d, hd, hsends⟩ := @Connected.sendMuch P r.1 r.2 hcr
    rw [hb, Option.bind_some, hr, Option.bind_some]
    split
    · rw [hd]
      exact ⟨_, rfl, (hcr.same hsends.toSameBuffer).toSound⟩
    · exact ⟨_, rfl, hcr.toSound⟩

theorem Sound.not_buffered_iframe (hs : Sound a) {k : ℕ} {p : P} {r : HdlcSettings × ARQstate P}
    (h1 : a.SABME_req_ ≠ 1) (hn : -1 < n) (ho : ¬ a.PiggyInOrder n)
    (hr : a.recvIframe h n k p = some r) : ¬ r.2.Buffered := by
  rw [ARQstate.recvIframe, if_neg h1, if_pos hn, Option.bind_eq_some_iff] at hr
  obtain ⟨b, hb, hr⟩ := hr
  obtain ⟨q, hq, hr⟩ := Option.bind_eq_some_iff.mp hr
  rw [if_pos hn, Option.map_eq_some_iff] at hr
  obtain ⟨d, hd, rfl⟩ := hr
  have hsame := @confirm_same P a
  have hnot := (hs.confirm h1).not_buffered_piggy (by simpa [PiggyInOrder, hsame] using ho) hb
  intro hbuf
  exact hnot ((same_firstData k).buffered.mp ((same_recvMode hq).buffered.mp
    ((Sends.of_sendMuch hd).buffered.mp hbuf)))

/-! ### The other events -/

theorem sound_newEntry (maxseen : ℤ) : Sound (newEntry maxseen : ARQstate P) :=
  ⟨rfl, le_rfl, by simp [newEntry], fun _ => ⟨rfl, rfl⟩, by simp [newEntry], fun _ => rfl,
    by simp [newEntry]⟩

theorem Sound.firstRequest (hs : Sound a) : Sound a.firstRequest := by
  rw [ARQstate.firstRequest]
  by_cases h0 : a.SABME_req_ = 0 ∧ a.t_seqno_ = 0
  · rw [if_pos h0]
    exact ⟨hs.buffered, hs.lowest, hs.below, fun _ => hs.unconnected (by simp [h0.1]),
      by simp [set_rtx_timer], fun h1 => by simp [set_rtx_timer] at h1, hs.saved⟩
  · rwa [if_neg h0]

theorem Sound.inSendBuffer (hs : Sound a) (p : P) : Sound (a.inSendBuffer h p) := by
  rw [ARQstate.inSendBuffer]
  split
  · exact hs
  · refine ⟨?_, hs.lowest, ?_, hs.unconnected, hs.request, hs.silent, hs.saved⟩
    · change (a.sendBuf_ ++ [(a.seqno_, p)]).map Prod.fst = _
      rw [List.map_append, List.range_succ, List.filter_append]
      exact congrArg₂ (· ++ ·) hs.buffered (by simp [hs.below])
    · exact hs.below.trans (by simp)

theorem Sound.delayTimeout (hs : Sound a) :
    Sound ({ a with delay_timer_ := false }.delayTimeout h) := by
  rw [ARQstate.delayTimeout]
  by_cases hsave : a.save_ = true
  · rw [if_pos hsave]
    by_cases h2 : a.SABME_req_ = 2
    · have hack : Sends { a with delay_timer_ := false } (ack h { a with delay_timer_ := false }) :=
        sends_ack
      have hsends : SameBuffer a { ack h { a with delay_timer_ := false } with save_ := false } :=
        ⟨hack.buf, hack.seqno, hack.highest, hack.sabme, fun _ hsave => by cases hsave⟩
      exact ((Connected.mk hs h2).same hsends).toSound
    · rw [ack, if_neg (by simp [(hs.unconnected h2).1])]
      exact ⟨hs.buffered, hs.lowest, hs.below, hs.unconnected, hs.request, hs.silent, by simp⟩
  · rw [if_neg hsave]
    exact ⟨hs.buffered, hs.lowest, hs.below, hs.unconnected, hs.request, hs.silent,
      fun h => absurd h hsave⟩

end ARQstate

namespace HDLC

variable {P : Type} {x y : HDLC P}

open ARQstate

/-- What the send buffer should hold. -/
def Right (x : HDLC P) : Prop := ∀ a ∈ x.list_head_, a.Buffered

instance : DecidablePred (Right : HDLC P → Prop) := fun x =>
  inferInstanceAs (Decidable (∀ a ∈ x.list_head_, a.Buffered))

def Kept (x : HDLC P) : Prop := ∀ a, x.list_head_ = some a → a.Sound

/-- An acknowledgement passes over no frame, an `SREJ` names a frame that is not acknowledged, and a
SABME request times out only before the first ack. -/
def Ok (x : HDLC P) : HdlcEvent P → Prop
  | .frame (.I_frame n _ _) _ => ∀ a, x.list_head_ = some a →
    a.SABME_req_ ≠ 1 → -1 < n → a.PiggyInOrder n
  | .frame (.S_frame .RR n) _ => ∀ a, x.list_head_ = some a → a.SABME_req_ = 2 → a.RRInOrder n
  | .frame (.S_frame .SREJ n) _ => ∀ a, x.list_head_ = some a → a.SABME_req_ = 2 →
    a.highest_ack_ < n ∧ n < a.seqno_
  | .rtxTimeout => ∀ a, x.list_head_ = some a → a.rtx_timer_ = true →
    a.ntimeouts_ + 1 ≤ x.settings.maxTimeouts_ → a.SABME_req_ ≠ 0 → a.t_seqno_ = 0 →
    a.highest_ack_ = -1 ∧ 0 < a.seqno_
  | _ => True

theorem kept_of {a : ARQstate P} {h : HdlcSettings} (ha : a.Sound) : Kept ⟨h, some a⟩ := by
  intro b hb
  obtain rfl := Option.some.inj hb
  exact ha

theorem kept_none (h : HdlcSettings) : Kept (⟨h, none⟩ : HDLC P) := by
  intro a ha
  cases ha

theorem Kept.withState (hx : Kept x) {handle : ARQstate P → Option (ARQstate P)}
    (hhandle : ∀ a, x.list_head_ = some a → a.Sound → ∃ b, handle a = some b ∧ b.Sound) :
    ∃ y o, x.withState handle = some (y, o) ∧ Kept y := by
  rw [HDLC.withState]
  cases ha : x.list_head_ with
  | none => exact ⟨x, [], rfl, hx⟩
  | some a =>
    obtain ⟨b, hb, hsound⟩ := hhandle a ha (hx a ha)
    exact ⟨_, _, by simp only [hb]; rfl, kept_of hsound⟩

/-- A handler for confirmed connections only. -/
theorem Sound.confirmed_or {a : ARQstate P} {handle : Option (ARQstate P)} (hs : a.Sound)
    (hno : a.SABME_req_ ≠ 2 → handle = some a)
    (hyes : Connected a → ∃ b, handle = some b ∧ Connected b) : ∃ b, handle = some b ∧ b.Sound := by
  by_cases h2 : a.SABME_req_ = 2
  · obtain ⟨b, hb, hcb⟩ := hyes ⟨hs, h2⟩
    exact ⟨b, hb, hcb.toSound⟩
  · exact ⟨a, hno h2, hs⟩

theorem Kept.recvOutgoing (hx : Kept x) (p : P) (maxseen : ℤ) :
    ∃ y o, x.recvOutgoing p maxseen = some (y, o) ∧ Kept y := by
  have hfound : Sound (x.list_head_.getD (newEntry maxseen)) := by
    cases ha : x.list_head_ with
    | none => exact sound_newEntry maxseen
    | some a => exact hx a ha
  simp only [HDLC.recvOutgoing]
  generalize x.list_head_.getD (newEntry maxseen) = a at hfound ⊢
  have hin := hfound.firstRequest.inSendBuffer (h := x.settings) p
  generalize a.firstRequest.inSendBuffer x.settings p = b at hin ⊢
  by_cases h2 : b.SABME_req_ = 2
  · obtain ⟨c, hc, hsends⟩ := @Connected.sendMuch P x.settings b ⟨hin, h2⟩
    rw [if_pos h2, hc]
    exact ⟨_, _, rfl, kept_of ((Connected.mk hin h2).same hsends.toSameBuffer).toSound⟩
  · rw [if_neg h2]
    exact ⟨_, _, rfl, kept_of hin⟩

theorem Kept.timeout {a : ARQstate P} (hs : a.Sound) (hrtx : a.rtx_timer_ = true)
    (hok : a.ntimeouts_ + 1 ≤ x.settings.maxTimeouts_ → a.SABME_req_ ≠ 0 → a.t_seqno_ = 0 →
      a.highest_ack_ = -1 ∧ 0 < a.seqno_) :
    ∃ y o, x.timeout a = some (y, o) ∧ Kept y := by
  have h0 : a.SABME_req_ ≠ 0 := fun h0 => by simp [hs.silent h0] at hrtx
  simp only [HDLC.timeout]
  split_ifs with hmax hsabme hall
  · exact ⟨_, _, rfl, kept_none _⟩
  · obtain ⟨hack, hpos⟩ := hok (not_lt.mp hmax) h0 hsabme.2
    obtain ⟨dp, hdp⟩ := hs.exists_pkt (n := 0) (by omega) (by omega)
    rw [hdp]
    exact ⟨_, _, rfl, kept_of ⟨hs.buffered, hs.lowest, hs.below, hs.unconnected, hs.request,
      fun h1 => absurd h1 h0, hs.saved⟩⟩
  all_goals
    have h2 : a.SABME_req_ = 2 := by
      by_contra h2
      exact hsabme ⟨h0, (hs.unconnected h2).1⟩
  · exact ⟨_, _, rfl, kept_of ⟨hs.buffered, hs.lowest, hs.below, fun hne => absurd h2 hne,
      hs.request, fun h1 => absurd h1 h0, hs.saved⟩⟩
  · have hc : Connected { a with
        rtx_timer_ := false
        ntimeouts_ := a.ntimeouts_ + 1
        t_seqno_ := a.highest_ack_ + 1 } :=
      ⟨⟨hs.buffered, hs.lowest, hs.below, fun hne => absurd h2 hne, hs.request, fun _ => rfl,
        hs.saved⟩, h2⟩
    obtain ⟨b, hb, hsends⟩ := hc.sendMuch
    exact ⟨_, _, by rw [hb]; rfl, kept_of (hc.same hsends.toSameBuffer).toSound⟩

theorem Kept.whenPending (hx : Kept x) {pending : ARQstate P → Bool}
    {expire : ARQstate P → Option (HDLC P × List P)}
    (hexpire : ∀ a, x.list_head_ = some a → pending a = true → a.Sound →
      ∃ y o, expire a = some (y, o) ∧ Kept y) :
    ∃ y o, x.whenPending pending expire = some (y, o) ∧ Kept y := by
  rw [HDLC.whenPending]
  cases ha : x.list_head_ with
  | none => exact ⟨x, [], rfl, hx⟩
  | some a =>
    by_cases hp : pending a = true
    · simpa [hp] using hexpire a ha hp (hx a ha)
    · exact ⟨x, [], by simp [hp], hx⟩

theorem Kept.step (hx : Kept x) {e : HdlcEvent P} (hok : Ok x e) :
    ∃ y o, x.step e = some (y, o) ∧ Kept y := by
  cases e with
  | outgoing p maxseen => exact hx.recvOutgoing p maxseen
  | frame f maxseen =>
    cases f with
    | I_frame n k p =>
      simp only [HDLC.step, recvIncoming]
      cases ha : x.list_head_ with
      | none => exact ⟨x, [], rfl, hx⟩
      | some a =>
        obtain ⟨r, hr, hs⟩ := (hx a ha).recvIframe (h := x.settings) (k := k) (p := p) (hok a ha)
        exact ⟨_, _, by simp only [hr]; rfl, kept_of hs⟩
    | S_frame stype n =>
      cases stype with
      | RR =>
        exact hx.withState fun a ha hs => Sound.confirmed_or hs (fun h2 => if_pos h2)
          fun hc => hc.handleRR (hok a ha hc.confirmed)
      | REJ =>
        exact hx.withState fun a _ hs => Sound.confirmed_or hs (fun h2 => if_pos h2)
          fun hc => hc.handleREJ
      | RNR => exact ⟨x, [], rfl, hx⟩
      | SREJ =>
        exact hx.withState fun a ha hs => Sound.confirmed_or hs (fun h2 => if_pos h2)
          fun hc => hc.handleSREJ (hok a ha hc.confirmed).1 (hok a ha hc.confirmed).2
    | U_frame utype =>
      cases utype with
      | SABME =>
        have hnew := @sound_newEntry P maxseen
        exact ⟨_, _, rfl, kept_of ⟨hnew.buffered, hnew.lowest, hnew.below, hnew.unconnected,
          hnew.request, hnew.silent, hnew.saved⟩⟩
      | UA => exact hx.withState fun a _ hs => hs.handleUA
  | rtxTimeout => exact hx.whenPending fun a ha hp hs => Kept.timeout hs hp (hok a ha hp)
  | delayTimeout => exact hx.whenPending fun a _ _ hs => ⟨_, _, rfl, kept_of hs.delayTimeout⟩
  | resetTimeout => exact hx.whenPending fun a _ _ _ => ⟨_, _, rfl, kept_none _⟩

theorem Kept.breaks (hx : Kept x) {e : HdlcEvent P} (hok : ¬ Ok x e) {o : List P}
    (hstep : x.step e = some (y, o)) : ¬ Right y := by
  cases e with
  | frame f maxseen =>
    cases f with
    | I_frame n k p =>
      simp only [Ok, not_forall] at hok
      obtain ⟨a, ha, h1, hn, ho⟩ := hok
      simp only [HDLC.step, recvIncoming, ha] at hstep
      obtain ⟨r, hr, hy⟩ := Option.map_eq_some_iff.mp hstep
      obtain ⟨rfl, -⟩ := Prod.mk.inj hy
      exact fun hright => (hx a ha).not_buffered_iframe h1 hn ho hr (hright _ rfl)
    | S_frame stype n =>
      cases stype with
      | RR =>
        simp only [Ok, not_forall] at hok
        obtain ⟨a, ha, h2, ho⟩ := hok
        simp only [HDLC.step, recvIncoming, HDLC.withState, ha] at hstep
        obtain ⟨b, hb, hy⟩ := Option.map_eq_some_iff.mp hstep
        obtain ⟨rfl, -⟩ := Prod.mk.inj hy
        exact fun hright => (Connected.mk (hx a ha) h2).not_buffered_RR ho hb (hright _ rfl)
      | SREJ =>
        simp only [Ok, not_forall] at hok
        obtain ⟨a, ha, h2, ho⟩ := hok
        have hnone : getPkt a.sendBuf_ n = none := by
          rwa [← Option.not_isSome_iff_eq_none, (hx a ha).getPkt_iff]
        simp [HDLC.step, recvIncoming, HDLC.withState, ha, handleSREJ, h2, hnone] at hstep
      | _ => exact absurd trivial hok
    | U_frame _ => exact absurd trivial hok
  | rtxTimeout =>
    simp only [Ok, not_forall] at hok
    obtain ⟨a, ha, hp, hmax, h0, ht, ho⟩ := hok
    have hnone : getPkt a.sendBuf_ 0 = none := by
      rw [← Option.not_isSome_iff_eq_none, (hx a ha).getPkt_iff]
      have := (hx a ha).lowest
      omega
    simp [HDLC.step, HDLC.whenPending, HDLC.timeout, ha, hp, not_lt.mpr hmax, h0, ht,
      hnone] at hstep
  | _ => exact absurd trivial hok

/-- The send buffer holds the frames above the highest ack, and every packet that is asked for is
found, in exactly the runs in which no acknowledgement passes over a frame, no `SREJ` names an
acknowledged frame and no SABME request times out after the first ack. -/
theorem always_buffered_iff (settings : HdlcSettings) (events : List (HdlcEvent P)) :
    Machine.Always HDLC.step Right (start settings) events ↔
      Machine.Admits HDLC.step Ok (start settings) events :=
  Machine.always_iff (fun _ hx a ha => (hx a ha).buffered) (fun _ _ hx hok => hx.step hok)
    (fun _ _ _ _ hx hok hstep => hx.breaks hok hstep) (kept_none settings) events

/-- The ack of the second frame leaves the first one in the buffer. -/
theorem ack_passes_over : ¬ Machine.Always HDLC.step Right (start ⟨4, 10, 3, false, false⟩)
    [.outgoing "a" 0, .outgoing "b" 0, .frame (.U_frame .UA) 0, .frame (.S_frame .RR 2) 0] := by
  decide

end HDLC

end Ns2
