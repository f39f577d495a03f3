import Ns2.Mac.Mac80211

/-! What is transmitted of one frame is bounded by the retry limits, but at the RTS threshold one
handler resets the counter that another one counts with. -/

namespace Ns2

namespace Mac802_11

variable {c : MacMib} {p : MacFrame} {asks medium : Bool} {ssrc slrc cw rts data : ℕ}
  {next : Option MacFrame}

/-- A frame of the threshold's size is counted by one counter where the other handlers use two. -/
def Clear (c : MacMib) (p : MacFrame) (slrc : ℕ) : Prop :=
  p.size = c.RTSThreshold → c.ShortRetryLimit = 1 ∧ slrc = 0

/-- The counters fit a frame that waits. Without an RTS, `ssrc_` counts the lost data frames; with
one it counts the RTS frames that were lost since the last data frame, and `slrc_` the data
frames. -/
inductive Fits (c : MacMib) (p : MacFrame) : Bool → ℕ → ℕ → ℕ → ℕ → Prop
  | plain {ssrc : ℕ} (hp : c.Short p) (hcast : p.broadcast = true → ssrc = 0)
    (hs : ssrc < c.ShortRetryLimit) (hl : 0 < c.LongRetryLimit) : Fits c p false ssrc 0 0 ssrc
  | asking {ssrc slrc rts : ℕ} (hp : ¬ c.Short p) (hc : Clear c p slrc)
    (hs : ssrc < c.ShortRetryLimit) (hl : slrc < c.LongRetryLimit) (hle : ssrc ≤ rts)
    (hrts : rts ≤ slrc * c.ShortRetryLimit + ssrc) : Fits c p true ssrc slrc rts slrc
  | cleared {slrc rts : ℕ} (hp : ¬ c.Short p) (hc : Clear c p slrc) (hs : 0 < c.ShortRetryLimit)
    (hl : slrc < c.LongRetryLimit) (hpos : 0 < rts)
    (hrts : rts ≤ slrc * c.ShortRetryLimit + c.ShortRetryLimit) : Fits c p false 0 slrc rts slrc

structure Bounded (c : MacMib) (rts data : ℕ) : Prop where
  rts : rts ≤ c.ShortRetryLimit * c.LongRetryLimit
  data : data ≤ max c.ShortRetryLimit c.LongRetryLimit

/-- The states of a node that sends. -/
inductive Inv (c : MacMib) : Mac802_11 → Prop
  | rest (cw : ℕ) (backoff : Bool) {rts data : ℕ} (hb : Bounded c rts data) :
    Inv c ⟨.MAC_IDLE, none, false, false, 0, 0, cw, false, false, backoff, rts, data⟩
  | waits (cw : ℕ) (backoff : Bool) {p : MacFrame} {asks : Bool} {ssrc slrc rts data : ℕ}
    (h : Fits c p asks ssrc slrc rts data) :
    Inv c ⟨.MAC_IDLE, some p, asks, true, ssrc, slrc, cw, false, !backoff, backoff, rts, data⟩
  | asks (cw : ℕ) {p : MacFrame} {ssrc slrc rts data : ℕ} (h : Fits c p true ssrc slrc rts data) :
    Inv c ⟨.MAC_RTS, some p, true, true, ssrc, slrc, cw, true, false, false, rts + 1, data⟩
  | sends (cw : ℕ) {p : MacFrame} {ssrc slrc rts data : ℕ} (h : Fits c p false ssrc slrc rts data) :
    Inv c ⟨.MAC_SEND, some p, false, true, ssrc, slrc, cw, true, false, false, rts, data + 1⟩

/-- As many rounds as data frames, and in each as many RTS frames as the short limit allows. -/
theorem le_rounds {short long slrc rts : ℕ} (h : rts ≤ slrc * short + short) (hl : slrc < long) :
    rts ≤ short * long :=
  calc rts ≤ (slrc + 1) * short := by rw [Nat.succ_mul]; exact h
    _ ≤ long * short := Nat.mul_le_mul_right short hl
    _ = short * long := Nat.mul_comm long short

theorem Fits.asked (h : Fits c p true ssrc slrc rts data) : Bounded c (rts + 1) data := by
  cases h with
  | asking hp hc hs hl hle hrts => exact ⟨le_rounds (by omega) hl, by omega⟩

theorem Fits.sent (h : Fits c p false ssrc slrc rts data) : Bounded c rts (data + 1) := by
  cases h with
  | plain hp hcast hs hl => exact ⟨Nat.zero_le _, by omega⟩
  | cleared hp hc hs hl hpos hrts => exact ⟨le_rounds hrts hl, by omega⟩

theorem Fits.bounded (h : Fits c p asks ssrc slrc rts data) : Bounded c rts data := by
  cases asks with
  | false => exact ⟨h.sent.rts, (Nat.le_succ data).trans h.sent.data⟩
  | true => exact ⟨(Nat.le_succ rts).trans h.asked.rts, h.asked.data⟩

theorem fits_new (hs : 0 < c.ShortRetryLimit) (hl : 0 < c.LongRetryLimit)
    (hp : p.broadcast = false → p.size = c.RTSThreshold → c.ShortRetryLimit = 1) :
    Fits c p (!decide (c.Short p)) 0 0 0 0 := by
  by_cases h : c.Short p
  · rw [decide_eq_true h]
    exact .plain h (fun _ => rfl) hs hl
  · rw [decide_eq_false h]
    have hcast : p.broadcast = false := by
      simp only [MacMib.Short, not_or, Bool.not_eq_true] at h
      exact h.2
    exact .asking h (fun he => ⟨hp hcast he, rfl⟩) hs hl (Nat.le_refl 0) (Nat.zero_le _)

/-- The wait of a frame is one of the two timers. -/
theorem sendWait_spec (s : Mac802_11) (medium : Bool) (hd : s.mhDefer_ = false) :
    ∃ backoff, s.sendWait c medium =
      some { s with mhDefer_ := !backoff, mhBackoff_ := backoff } := by
  obtain ⟨tx, pkt, asks, cb, ssrc, slrc, cw, send, defer, backoff, rts, data⟩ := s
  obtain rfl : defer = false := hd
  cases backoff with
  | true => exact ⟨true, rfl⟩
  | false =>
    simp only [sendWait, contend, startBackoff, startDefer, Bool.false_eq_true, if_false]
    split_ifs
    · exact ⟨true, rfl⟩
    · exact ⟨false, rfl⟩
    · exact ⟨true, rfl⟩

theorem send_spec (s : Mac802_11) (medium : Bool) (p : MacFrame) (hd : s.mhDefer_ = false)
    (hp : s.pktTx_ = none) (hr : s.pktRTS_ = false) :
    ∃ backoff, s.send c medium p =
      some { s with
        callback_ := true
        pktTx_ := some p
        pktRTS_ := !decide (c.Short p)
        rts := 0
        data := 0
        mhDefer_ := !backoff
        mhBackoff_ := backoff } := by
  simp only [send, sendDATA, sendRTS, hp, hr, Option.isSome_none, Bool.false_eq_true, if_false,
    Option.bind_eq_bind, Option.bind_some]
  exact sendWait_spec _ medium hd

/-- The handlers agree on which counter is the frame's. -/
def Fair (c : MacMib) (p : MacFrame) : Prop :=
  p.broadcast = false → p.size = c.RTSThreshold → c.ShortRetryLimit = 1

instance (p : MacFrame) : Decidable (Fair c p) := inferInstanceAs (Decidable (_ → _ → _))

theorem resume_waits (medium : Bool) (next : Option MacFrame) (tx : MacState) (cw : ℕ)
    (backoff : Bool) (h : Fits c p asks ssrc slrc rts data) :
    ∃ s', tx_resume c medium next
        ⟨tx, some p, asks, true, ssrc, slrc, cw, false, false, backoff, rts, data⟩ = some s' ∧
      Inv c s' := by
  cases backoff with
  | true =>
    refine ⟨_, ?_, .waits cw true h⟩
    cases asks <;> rfl
  | false =>
    simp only [tx_resume, resumeTx, contend, startBackoff, startDefer, Bool.or_false,
      Bool.false_eq_true, if_false]
    split_ifs
    · exact ⟨_, rfl, .waits cw true h⟩
    · exact ⟨_, rfl, .waits cw false h⟩
    · exact ⟨_, rfl, .waits cw true h⟩
    · exact ⟨_, rfl, .waits cw false h⟩
    · exact ⟨_, rfl, .waits cw false h⟩

theorem resume_rest (medium : Bool) (tx : MacState) (cw : ℕ) (backoff : Bool)
    (hs : 0 < c.ShortRetryLimit) (hl : 0 < c.LongRetryLimit) (hb : Bounded c rts data)
    (hnext : ∀ p ∈ next, Fair c p) :
    ∃ s', tx_resume c medium next
        ⟨tx, none, false, true, 0, 0, cw, false, false, backoff, rts, data⟩ = some s' ∧
      Inv c s' := by
  cases next with
  | none => exact ⟨_, rfl, .rest cw backoff hb⟩
  | some p =>
    obtain ⟨b, hsend⟩ := send_spec (c := c)
      ⟨tx, none, false, false, 0, 0, cw, false, false, backoff, rts, data⟩ medium p rfl rfl rfl
    refine ⟨_, ?_, .waits cw b (fits_new hs hl (hnext p rfl))⟩
    simp only [tx_resume, resumeTx, callback, hsend, Bool.or_false, Bool.false_eq_true, if_false,
      if_true, Option.map_some]

/-- `check_pktRTS` and `check_pktTx` put the frame on the air, or it waits once more. -/
theorem backoff_spec (cw : ℕ) {medium : Bool} (h : Fits c p asks ssrc slrc rts data)
    (hbusy : asks = false → medium = false → c.Short p) :
    ∃ s', backoffHandler c medium
        ⟨.MAC_IDLE, some p, asks, true, ssrc, slrc, cw, false, false, false, rts, data⟩ = some s' ∧
      Inv c s' := by
  cases asks with
  | true =>
    cases medium with
    | true => exact ⟨_, rfl, .asks cw h⟩
    | false => exact ⟨_, rfl, .waits (min (2 * cw + 1) c.CWMax) true h⟩
  | false =>
    cases medium with
    | true => exact ⟨_, rfl, .sends cw h⟩
    | false =>
      have hp := hbusy rfl rfl
      refine ⟨_, ?_, .waits (min (2 * cw + 1) c.CWMax) true h⟩
      simp [backoffHandler, check_pktRTS, check_pktTx, checkTx, is_idle, sendRTS, inc_cw,
        startBackoff, hp]

/-- The limit of the RTS frames is reached after a data frame was lost. -/
def Leaves (c : MacMib) (s : Mac802_11) (i : MacInput) : Prop :=
  i.event = .sendTimer ∧ s.tx_state_ = .MAC_RTS ∧ c.ShortRetryLimit ≤ s.ssrc_ + 1 ∧ s.slrc_ ≠ 0

instance (s : Mac802_11) (i : MacInput) : Decidable (Leaves c s i) :=
  inferInstanceAs (Decidable (_ ∧ _ ∧ _ ∧ _))

/-- The medium is taken when a data frame is due behind a CTS. -/
def Wastes (c : MacMib) (s : Mac802_11) (i : MacInput) : Prop :=
  (i.event = .backoff ∨ i.event = .defer) ∧ i.medium = false ∧ s.tx_state_ = .MAC_IDLE ∧
    s.pktRTS_ = false ∧ ∃ p ∈ s.pktTx_, ¬ c.Short p

instance (s : Mac802_11) (i : MacInput) : Decidable (Wastes c s i) :=
  inferInstanceAs (Decidable (_ ∧ _ ∧ _ ∧ _ ∧ _))

def Meets (c : MacMib) (s : Mac802_11) (i : MacInput) : Prop :=
  (∀ p ∈ i.frames, Fair c p) ∧ ¬ Leaves c s i ∧ ¬ Wastes c s i

instance (s : Mac802_11) (i : MacInput) : Decidable (Meets c s i) :=
  inferInstanceAs (Decidable (_ ∧ _ ∧ _))

theorem timer_asked (hs : 0 < c.ShortRetryLimit) (hl : 0 < c.LongRetryLimit)
    (h : Fits c p true ssrc slrc rts data) (hleaves : c.ShortRetryLimit ≤ ssrc + 1 → slrc = 0)
    (hnext : ∀ p ∈ next, Fair c p) :
    ∃ s', send_timer c medium next
        ⟨.MAC_RTS, some p, true, true, ssrc, slrc, cw, false, false, false, rts + 1, data⟩ =
          some s' ∧
      Inv c s' := by
  have hb := h.asked
  by_cases hlimit : c.ShortRetryLimit ≤ ssrc + 1
  · obtain rfl := hleaves hlimit
    obtain ⟨s', hres, hinv⟩ := resume_rest medium .MAC_RTS c.CWMin false hs hl hb hnext
    refine ⟨s', ?_, hinv⟩
    rw [← hres]
    simp [send_timer, sendTimeout, RetransmitRTS, rst_cw, hlimit]
  · cases h with
    | asking hp hc hs' hl' hle hrts =>
      have h' : Fits c p true (ssrc + 1) slrc (rts + 1) slrc :=
        .asking hp hc (by omega) hl' (by omega) (by omega)
      obtain ⟨s', hres, hinv⟩ := resume_waits medium next .MAC_RTS (min (2 * cw + 1) c.CWMax) true
        h'
      refine ⟨s', ?_, hinv⟩
      rw [← hres]
      simp [send_timer, sendTimeout, RetransmitRTS, inc_cw, startBackoff, hlimit]

theorem timer_sent (hs : 0 < c.ShortRetryLimit) (hl : 0 < c.LongRetryLimit)
    (h : Fits c p false ssrc slrc rts data) (hnext : ∀ p ∈ next, Fair c p) :
    ∃ s', send_timer c medium next
        ⟨.MAC_SEND, some p, false, true, ssrc, slrc, cw, false, false, false, rts, data + 1⟩ =
          some s' ∧
      Inv c s' := by
  have hb := h.sent
  have hrest : ∀ cw backoff, ∃ s', tx_resume c medium next
      ⟨.MAC_SEND, none, false, true, 0, 0, cw, false, false, backoff, rts, data + 1⟩ = some s' ∧
        Inv c s' := fun cw backoff =>
    resume_rest medium .MAC_SEND cw backoff hs hl hb hnext
  cases h with
  | plain hp hcast hs' hl' =>
    by_cases hbroad : p.broadcast = true
    · obtain rfl := hcast hbroad
      obtain ⟨s', hres, hinv⟩ := hrest c.CWMin true
      refine ⟨s', ?_, hinv⟩
      rw [← hres]
      simp [send_timer, sendTimeout, RetransmitDATA, retransmitTx, hbroad, rst_cw, startBackoff]
    · have hle : p.size ≤ c.RTSThreshold := (hp.resolve_right hbroad).le
      by_cases hlimit : c.ShortRetryLimit ≤ ssrc + 1
      · obtain ⟨s', hres, hinv⟩ := hrest c.CWMin false
        refine ⟨s', ?_, hinv⟩
        rw [← hres]
        simp [send_timer, sendTimeout, RetransmitDATA, retransmitTx, hbroad, rst_cw, hle, hlimit]
      · have h' : Fits c p false (ssrc + 1) 0 0 (ssrc + 1) :=
          .plain hp (fun h => absurd h hbroad) (by omega) hl
        obtain ⟨s', hres, hinv⟩ :=
          resume_waits medium next .MAC_SEND (min (2 * cw + 1) c.CWMax) true h'
        refine ⟨s', ?_, hinv⟩
        rw [← hres]
        simp [send_timer, sendTimeout, RetransmitDATA, retransmitTx, hbroad, retryDATA, sendRTS,
          inc_cw, startBackoff, hle, hlimit, hp]
  | cleared hp hc hs' hl' hpos hrts =>
    obtain ⟨hsize, hbroad⟩ := not_or.mp hp
    by_cases hle : p.size ≤ c.RTSThreshold
    · obtain ⟨hone, rfl⟩ := hc (by omega)
      obtain ⟨s', hres, hinv⟩ := hrest c.CWMin false
      refine ⟨s', ?_, hinv⟩
      rw [← hres]
      simp [send_timer, sendTimeout, RetransmitDATA, retransmitTx, hbroad, rst_cw, hle, hone]
    · by_cases hlimit : c.LongRetryLimit ≤ slrc + 1
      · obtain ⟨s', hres, hinv⟩ := hrest c.CWMin false
        refine ⟨s', ?_, hinv⟩
        rw [← hres]
        simp [send_timer, sendTimeout, RetransmitDATA, retransmitTx, hbroad, rst_cw, hle, hlimit]
      · have h' : Fits c p true 0 (slrc + 1) rts (slrc + 1) :=
          .asking hp (fun he => absurd he.le hle) hs (by omega) (Nat.zero_le _)
            (by rw [Nat.succ_mul]; exact hrts)
        obtain ⟨s', hres, hinv⟩ :=
          resume_waits medium next .MAC_SEND (min (2 * cw + 1) c.CWMax) true h'
        refine ⟨s', ?_, hinv⟩
        rw [← hres]
        simp [send_timer, sendTimeout, RetransmitDATA, retransmitTx, hbroad, retryDATA, sendRTS,
          inc_cw, startBackoff, hle, hlimit, hp]

theorem cts_spec (h : Fits c p true ssrc slrc rts data) :
    ∃ s', recvCTS c medium next
        ⟨.MAC_RTS, some p, true, true, ssrc, slrc, cw, true, false, false, rts + 1, data⟩ =
          some s' ∧
      Inv c s' := by
  cases h with
  | asking hp hc hs hl hle hrts =>
    have h' : Fits c p false 0 slrc (rts + 1) slrc :=
      .cleared hp hc (Nat.zero_lt_of_lt hs) hl (Nat.succ_pos rts) (by omega)
    exact resume_waits medium next _ _ _ h'

theorem ack_spec (hs : 0 < c.ShortRetryLimit) (hl : 0 < c.LongRetryLimit)
    (h : Fits c p false ssrc slrc rts data) (hnext : ∀ p ∈ next, Fair c p) :
    ∃ s', recvACK c medium next
        ⟨.MAC_SEND, some p, false, true, ssrc, slrc, cw, true, false, false, rts, data + 1⟩ =
          some s' ∧
      Inv c s' := by
  obtain ⟨s', hres, hinv⟩ := resume_rest medium .MAC_SEND c.CWMin true hs hl h.sent hnext
  refine ⟨s', ?_, hinv⟩
  rw [← hres]
  by_cases hle : p.size ≤ c.RTSThreshold
  · have hlong : slrc = 0 := by
      cases h with
      | plain => rfl
      | cleared hp hc => exact (hc (by have := (not_or.mp hp).1; omega)).2
    simp [recvACK, stopSend, acknowledged, hle, startBackoff, rst_cw, hlong]
  · have hshort : ssrc = 0 := by
      cases h with
      | plain hp hcast => exact hcast (hp.resolve_left (by omega))
      | cleared => rfl
    simp [recvACK, stopSend, acknowledged, hle, startBackoff, rst_cw, hshort]

theorem Inv.step (hs : 0 < c.ShortRetryLimit) (hl : 0 < c.LongRetryLimit) {s : Mac802_11}
    {i : MacInput} (h : Inv c s) (hi : Meets c s i) :
    ∃ s' o, step c s i = some (s', o) ∧ Inv c s' := by
  obtain ⟨hframes, hleaves, hwastes⟩ := hi
  obtain ⟨e, medium, next⟩ := i
  suffices hh : ∃ s', s.handle c ⟨e, medium, next⟩ e = some s' ∧ Inv c s' by
    obtain ⟨s', hh, hinv⟩ := hh
    exact ⟨s', (), by rw [Mac802_11.step, hh]; rfl, hinv⟩
  have hnext : ∀ p ∈ next, Fair c p := fun p hp =>
    hframes p (List.mem_append_right _ (Option.mem_toList.mpr hp))
  cases h with
  | rest cw backoff hb =>
    cases e with
    | send p =>
      obtain ⟨b, hsend⟩ := send_spec (c := c)
        ⟨.MAC_IDLE, none, false, false, 0, 0, cw, false, false, backoff, _, _⟩ medium p rfl rfl rfl
      exact ⟨_, hsend, .waits cw b (fits_new hs hl (hframes p List.mem_cons_self))⟩
    | backoff =>
      cases backoff with
      | false => exact ⟨_, rfl, .rest cw false hb⟩
      | true => exact ⟨_, rfl, .rest cw false hb⟩
    | defer => exact ⟨_, rfl, .rest cw backoff hb⟩
    | sendTimer => exact ⟨_, rfl, .rest cw backoff hb⟩
    | recvCTS => exact ⟨_, rfl, .rest cw backoff hb⟩
    | recvACK => exact ⟨_, rfl, .rest cw backoff hb⟩
  | @waits cw backoff p asks ssrc slrc rts data h =>
    have hbusy : e = .backoff ∨ e = .defer → asks = false → medium = false → c.Short p := by
      intro he hasks hm
      by_contra hp
      exact hwastes ⟨he, hm, rfl, hasks, p, rfl, hp⟩
    cases e with
    | send p => exact ⟨_, rfl, .waits cw backoff h⟩
    | backoff =>
      cases backoff with
      | false => exact ⟨_, rfl, .waits cw false h⟩
      | true => exact backoff_spec cw h (hbusy (.inl rfl))
    | defer =>
      cases backoff with
      | false =>
        obtain ⟨s', hs', hinv⟩ := backoff_spec cw h (hbusy (.inr rfl))
        refine ⟨s', ?_, hinv⟩
        rw [← hs']
        simp [handle, deferHandler]
      | true => exact ⟨_, rfl, .waits cw true h⟩
    | sendTimer => exact ⟨_, rfl, .waits cw backoff h⟩
    | recvCTS => exact ⟨_, rfl, .waits cw backoff h⟩
    | recvACK => exact ⟨_, rfl, .waits cw backoff h⟩
  | @asks cw p ssrc slrc rts data h =>
    cases e with
    | send p => exact ⟨_, rfl, .asks cw h⟩
    | backoff => exact ⟨_, rfl, .asks cw h⟩
    | defer => exact ⟨_, rfl, .asks cw h⟩
    | sendTimer =>
      refine timer_asked hs hl h (fun hlimit => ?_) hnext
      by_contra hne
      exact hleaves ⟨rfl, rfl, hlimit, hne⟩
    | recvCTS => exact cts_spec h
    | recvACK => exact ⟨_, rfl, .asks cw h⟩
  | sends cw h =>
    cases e with
    | send p => exact ⟨_, rfl, .sends cw h⟩
    | backoff => exact ⟨_, rfl, .sends cw h⟩
    | defer => exact ⟨_, rfl, .sends cw h⟩
    | sendTimer => exact timer_sent hs hl h hnext
    | recvCTS => exact ⟨_, rfl, .sends cw h⟩
    | recvACK => exact ack_spec hs hl h hnext

/-- Nothing is counted of a frame that has not been on the air, what is transmitted is bounded, and
a frame that waits has a timer that runs. -/
def Good (c : MacMib) (s : Mac802_11) : Prop :=
  (s.pktTx_ = none ∨ s.rts = 0 ∧ s.data = 0 → s.ssrc_ = 0 ∧ s.slrc_ = 0) ∧
    s.rts ≤ c.ShortRetryLimit * c.LongRetryLimit ∧
    s.data ≤ max c.ShortRetryLimit c.LongRetryLimit ∧
    (s.pktTx_ ≠ none → s.mhSend_ ∨ s.mhDefer_ ∨ s.mhBackoff_)

theorem Fits.uncounted (h : Fits c p asks ssrc slrc 0 0) : ssrc = 0 ∧ slrc = 0 := by
  cases h with
  | plain => exact ⟨rfl, rfl⟩
  | asking hp hc hs hl hle => exact ⟨Nat.le_zero.mp hle, rfl⟩
  | cleared hp hc hs hl hpos => exact absurd hpos (Nat.lt_irrefl 0)

theorem Inv.good {s : Mac802_11} (h : Inv c s) : Good c s := by
  cases h with
  | rest cw backoff hb => exact ⟨fun _ => ⟨rfl, rfl⟩, hb.rts, hb.data, fun h => absurd rfl h⟩
  | waits cw backoff h =>
    refine ⟨?_, h.bounded.rts, h.bounded.data, fun _ => ?_⟩
    · rintro (⟨⟨⟩⟩ | ⟨rfl, rfl⟩)
      exact h.uncounted
    · cases backoff <;> simp
  | asks cw h => exact ⟨by simp, h.asked.rts, h.asked.data, by simp⟩
  | sends cw h => exact ⟨by simp, h.sent.rts, h.sent.data, by simp⟩

theorem retries_bounded (c : MacMib) (hs : 1 ≤ c.ShortRetryLimit) (hl : 1 ≤ c.LongRetryLimit)
    (is : List MacInput) (h : Machine.Admits (step c) (Meets c) (new c) is) :
    Machine.Always (step c) (Good c) (new c) is := by
  have hnew : Inv c (new c) := .rest c.CWMin false ⟨Nat.zero_le _, Nat.zero_le _⟩
  have hdom := Machine.admits_true (step c) (new c) is
  exact Machine.always_of_admits (fun _ => Inv.good) (fun _ _ hinv _ hi => hinv.step hs hl hi) hnew
    hdom h

def defaultMib : MacMib := ⟨256, 7, 4, 31, 1023, true⟩

theorem retries_bounded_long : Machine.Always (step defaultMib) (Good defaultMib) (new defaultMib)
    [⟨.send ⟨300, false⟩, true, none⟩, ⟨.backoff, true, none⟩, ⟨.recvCTS, true, none⟩,
      ⟨.defer, true, none⟩, ⟨.sendTimer, true, none⟩, ⟨.backoff, true, none⟩,
      ⟨.recvCTS, true, none⟩, ⟨.defer, true, none⟩, ⟨.recvACK, true, none⟩] :=
  retries_bounded defaultMib (by decide) (by decide) _ (by decide)

/-- A frame of the threshold's size that waits to send its RTS. -/
def atThreshold (ssrc cw n : ℕ) : Mac802_11 :=
  ⟨.MAC_IDLE, some ⟨256, false⟩, true, true, ssrc, 0, cw, false, false, true, n, n⟩

/-- The RTS is answered, and the data frame is lost. -/
def lostRound : List MacInput :=
  [⟨.backoff, true, none⟩, ⟨.recvCTS, true, none⟩, ⟨.defer, true, none⟩, ⟨.sendTimer, true, none⟩]

/-- The CTS resets what the lost data frame counts. -/
theorem threshold_round (ssrc cw n : ℕ) :
    Machine.run (step defaultMib) (atThreshold ssrc cw n) lostRound =
      some (atThreshold 1 (min (2 * cw + 1) 1023) (n + 1), [(), (), (), ()]) := rfl

theorem threshold_rounds (n : ℕ) : ∃ is os ssrc cw,
    Machine.run (step defaultMib) (new defaultMib) is = some (atThreshold ssrc cw n, os) := by
  induction n with
  | zero => exact ⟨[⟨.send ⟨256, false⟩, true, none⟩], [()], 0, 31, rfl⟩
  | succ n ih =>
    obtain ⟨is, os, ssrc, cw, hrun⟩ := ih
    refine ⟨is ++ lostRound, os ++ [(), (), (), ()], 1, min (2 * cw + 1) 1023, ?_⟩
    rw [Machine.run_append, hrun, Option.bind_some, threshold_round ssrc cw n]
    rfl

/-- At the threshold, no bound holds: a frame whose RTS is always answered is sent for ever. Above
it, a frame whose RTS fails at last leaves the count of its lost data frames to the next one. -/
theorem threshold_unbounded : (¬ ∃ bound : ℕ → ℕ → ℕ, ∀ c is s os, 1 ≤ c.ShortRetryLimit →
      1 ≤ c.LongRetryLimit → Machine.run (step c) (new c) is = some (s, os) →
        s.data ≤ bound c.ShortRetryLimit c.LongRetryLimit) ∧
    ∃ s os, Machine.run (step ⟨256, 1, 4, 31, 1023, true⟩) (new ⟨256, 1, 4, 31, 1023, true⟩)
      (⟨.send ⟨300, false⟩, true, none⟩ :: lostRound ++
        [⟨.backoff, true, none⟩, ⟨.sendTimer, true, some ⟨300, false⟩⟩]) = some (s, os) ∧
      s.pktTx_ = some ⟨300, false⟩ ∧ s.data = 0 ∧ s.slrc_ = 1 := by
  refine ⟨?_, _, _, rfl, rfl, rfl, rfl⟩
  rintro ⟨bound, h⟩
  obtain ⟨is, os, ssrc, cw, hrun⟩ := threshold_rounds (bound 7 4 + 1)
  have hle := h defaultMib is _ os (by decide) (by decide) hrun
  exact absurd hle (Nat.not_succ_le_self _)

end Mac802_11

end Ns2
