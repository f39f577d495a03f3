import Ns2.Tcp.TcpAgent

/-! What a TCP sender keeps: its windows stay positive and what it sends fits into them, the timer
runs while there is something to acknowledge, and a timeout sends the first packet that is missing. -/

namespace Ns2

/-- Values that a simulation sets. -/
structure TcpConfig.Valid (c : TcpConfig) : Prop where
  wnd : 1 ≤ c.wnd
  wnd_restart : 1 ≤ c.wnd_restart
  decrease_num : 0 ≤ c.decrease_num
  increase_num : 0 ≤ c.increase_num
  maxcwnd : 0 ≤ c.maxcwnd
  numdupacks : 0 ≤ c.numdupacks
  size : 0 < c.size
  headersize : 0 ≤ c.headersize
  base : 0 < c.tcpip_base_hdr_size

namespace TcpAgent

theorem toInt_eq_floor {x : ℚ} (hx : 0 ≤ x) : toInt x = ⌊x⌋ := by
  rw [toInt, Int.tdiv_eq_ediv_of_nonneg (Rat.num_nonneg.mpr hx)]
  exact (Rat.floor_def x).symm

theorem toInt_nonneg {x : ℚ} (hx : 0 ≤ x) : 0 ≤ toInt x := by
  rw [toInt_eq_floor hx]
  exact Int.floor_nonneg.mpr hx

theorem one_le_toInt {x : ℚ} (hx : 1 ≤ x) : 1 ≤ toInt x := by
  rw [toInt_eq_floor (zero_le_one.trans hx)]
  exact Int.le_floor.mpr (by exact_mod_cast hx)

variable {c : TcpConfig} {s t : TcpAgent} {seqno : ℤ} {p : TcpPacket}

/-- The windows are not negative, and the threshold and the initial window not below one. -/
structure Window (s : TcpAgent) : Prop where
  cwnd : 0 ≤ s.cwnd
  ssthresh : 1 ≤ s.ssthresh
  dupwnd : 0 ≤ s.dupwnd
  wnd_init : 1 ≤ s.wnd_init

/-- The next packet is above those acknowledged and not above those that were sent, and the timer
runs while there are packets between. -/
structure Place (s : TcpAgent) : Prop where
  last_ack : s.last_ack = s.highest_ack
  low : -1 ≤ s.highest_ack
  next : s.highest_ack < s.t_seqno
  sent : s.t_seqno ≤ s.maxseq + 1
  timer : s.highest_ack < s.maxseq → s.rtx_timer = true

/-- A packet that was sent, and fits into the window of the receiver. -/
structure Fits (c : TcpConfig) (s : TcpAgent) (p : TcpPacket) : Prop where
  low : 0 ≤ p.seqno
  size : 0 < p.size
  sent : p.seqno ≤ s.maxseq
  wnd : p.seqno ≤ s.highest_ack + toInt c.wnd

/-- Nothing is taken back. -/
structure Grows (s t : TcpAgent) : Prop where
  maxseq : s.maxseq ≤ t.maxseq
  highest_ack : s.highest_ack ≤ t.highest_ack
  curseq : s.curseq ≤ t.curseq

theorem Grows.refl (s : TcpAgent) : Grows s s := ⟨le_rfl, le_rfl, le_rfl⟩

theorem Grows.trans {u : TcpAgent} (h1 : Grows s t) (h2 : Grows t u) : Grows s u :=
  ⟨h1.maxseq.trans h2.maxseq, h1.highest_ack.trans h2.highest_ack, h1.curseq.trans h2.curseq⟩

theorem Fits.mono (h : Fits c s p) (hst : Grows s t) : Fits c t p :=
  ⟨h.low, h.size, h.sent.trans hst.maxseq, h.wnd.trans (by have := hst.highest_ack; omega)⟩

/-- What a handler leaves and sends. -/
structure Result (c : TcpConfig) (s : TcpAgent) (r : TcpAgent × List TcpPacket) : Prop where
  window : r.1.Window
  place : r.1.Place
  grows : Grows s r.1
  fits : ∀ p ∈ r.2, Fits c r.1 p

theorem Result.refl (hw : s.Window) (hp : s.Place) : Result c s (s, []) :=
  ⟨hw, hp, .refl s, List.forall_mem_nil _⟩

theorem Result.before {r : TcpAgent × List TcpPacket} (h : Result c t r) (hst : Grows s t) :
    Result c s r := ⟨h.window, h.place, hst.trans h.grows, h.fits⟩

theorem Result.append {q : List TcpPacket} {r : TcpAgent × List TcpPacket}
    (h : Result c s (t, q)) (hr : Result c t r) : Result c s (r.1, q ++ r.2) :=
  ⟨hr.window, hr.place, h.grows.trans hr.grows,
    List.forall_mem_append.mpr ⟨fun p hp => (h.fits p hp).mono hr.grows, hr.fits⟩⟩

theorem windowd_nonneg (hc : c.Valid) (hw : s.Window) : 0 ≤ s.windowd c := by
  have h1 := hc.wnd
  have h2 := hw.cwnd
  have h3 : (0 : ℚ) ≤ s.dupwnd := by exact_mod_cast hw.dupwnd
  rw [windowd]
  split_ifs
  · exact le_min (by linarith) (by linarith)
  · exact h2
  · linarith

theorem window_nonneg (hc : c.Valid) (hw : s.Window) : 0 ≤ s.window c := by
  have h1 := one_le_toInt hc.wnd
  have h2 := toInt_nonneg hw.cwnd
  have h3 := hw.dupwnd
  rw [window]
  split_ifs
  · exact le_min (by omega) (by omega)
  · exact h2
  · omega

theorem window_le (hc : c.Valid) (hw : s.Window) : s.window c ≤ toInt c.wnd := by
  rw [window]
  split_ifs with h1 h2
  · exact min_le_right _ _
  · rw [toInt_eq_floor hw.cwnd, toInt_eq_floor (zero_le_one.trans hc.wnd)]
    exact Int.floor_le_floor h2.le
  · exact le_rfl

/-- With a congestion window of a packet, a packet may be sent. -/
theorem one_le_window (hc : c.Valid) (hw : s.Window) (hcwnd : 1 ≤ s.cwnd) : 1 ≤ s.window c := by
  have h1 := one_le_toInt hc.wnd
  have h2 := one_le_toInt hcwnd
  have h3 := hw.dupwnd
  rw [window]
  split_ifs
  · exact le_min (by omega) h1
  · exact h2
  · exact h1

theorem halfwin_nonneg (hc : c.Valid) (hw : s.Window) : 0 ≤ s.halfwin c := by
  have h1 := windowd_nonneg hc hw
  rw [halfwin]
  split_ifs
  · linarith
  · exact_mod_cast Int.tdiv_nonneg (window_nonneg hc hw) (by norm_num)

theorem decreasewin_nonneg (hc : c.Valid) (hw : s.Window) : 0 ≤ s.decreasewin c := by
  have h1 : (0 : ℚ) ≤ s.window c := by exact_mod_cast window_nonneg hc hw
  rw [decreasewin]
  split_ifs
  · exact mul_nonneg hc.decrease_num (windowd_nonneg hc hw)
  · exact_mod_cast toInt_nonneg (mul_nonneg hc.decrease_num h1)

theorem Window.slowdown (hc : c.Valid) (hw : s.Window) (sshalf : Bool) (close : Close) :
    (s.slowdown c sshalf close).Window := by
  refine ⟨?_, ?_, hw.dupwnd, hw.wnd_init⟩
  · cases close with
    | half =>
      dsimp only [TcpAgent.slowdown]
      split_ifs
      · exact halfwin_nonneg hc hw
      · exact decreasewin_nonneg hc hw
    | restart =>
      dsimp only [TcpAgent.slowdown]
      exact_mod_cast toInt_nonneg (zero_le_one.trans hc.wnd_restart)
    | one => exact zero_le_one
  · dsimp only [TcpAgent.slowdown]
    split_ifs <;> omega

theorem limited_slow_start_le (cwnd : ℚ) (max_ssthresh : ℤ) (increment : ℚ) :
    increment ≤ limited_slow_start cwnd max_ssthresh increment := by
  rw [limited_slow_start]
  split_ifs with h1
  · exact le_rfl
  · dsimp only
    generalize (if toInt (cwnd / ((max_ssthresh : ℚ) / 2)) > 0 then _ else _ : ℚ) = x
    split_ifs with h2
    · exact h2.le
    · exact le_rfl

theorem cwnd_le_increase (hc : c.Valid) (hw : s.Window) : s.cwnd ≤ (s.increase c).cwnd := by
  have hinc : 0 ≤ c.increase_num / s.cwnd := div_nonneg hc.increase_num hw.cwnd
  by_cases hlt : s.cwnd < s.ssthresh
  · rw [increase, if_pos hlt]
    exact le_add_of_nonneg_right zero_le_one
  · rw [increase, if_neg hlt]
    cases c.wnd_option with
    | count =>
      dsimp only
      split_ifs
      · exact le_add_of_nonneg_right zero_le_one
      · exact le_rfl
    | standard =>
      dsimp only
      split_ifs
      · exact le_add_of_nonneg_right (hinc.trans (limited_slow_start_le ..))
      · exact le_add_of_nonneg_right hinc

/-- All but the congestion window and the counters. -/
theorem increase_same (c : TcpConfig) (s : TcpAgent) :
    ∃ cwnd count, s.increase c = { s with cwnd := cwnd, count := count } := by
  by_cases hlt : s.cwnd < s.ssthresh
  · rw [increase, if_pos hlt]
    exact ⟨_, _, rfl⟩
  · rw [increase, if_neg hlt]
    cases c.wnd_option with
    | count =>
      dsimp only
      split_ifs <;> exact ⟨_, _, rfl⟩
    | standard => exact ⟨_, _, rfl⟩

theorem opencwnd_same (c : TcpConfig) (s : TcpAgent) :
    ∃ cwnd count, s.opencwnd c = { s with cwnd := cwnd, count := count } := by
  obtain ⟨cwnd, count, h⟩ := increase_same c s
  rw [opencwnd, h]
  split_ifs <;> exact ⟨_, _, rfl⟩

/-- The congestion window does not shrink, unless it is above its limit. -/
theorem le_opencwnd (hc : c.Valid) (hw : s.Window) :
    s.cwnd ≤ (s.opencwnd c).cwnd ∨ 1 ≤ (s.opencwnd c).cwnd := by
  rw [opencwnd]
  split_ifs with h
  · have h1 := hc.maxcwnd
    have h2 := h.1
    have h3 : (1 : ℤ) ≤ c.maxcwnd := by omega
    right
    change (1 : ℚ) ≤ c.maxcwnd
    exact_mod_cast h3
  · exact .inl (cwnd_le_increase hc hw)

theorem Window.opencwnd (hc : c.Valid) (hw : s.Window) : (s.opencwnd c).Window := by
  have hle := le_opencwnd hc hw
  obtain ⟨cwnd, count, h⟩ := opencwnd_same c s
  rw [h] at hle ⊢
  exact ⟨hle.elim hw.cwnd.trans zero_le_one.trans, hw.ssthresh, hw.dupwnd, hw.wnd_init⟩

theorem one_le_initial_window (h : 1 ≤ s.wnd_init) : 1 ≤ s.initial_window c := by
  rw [initial_window]
  cases s.wnd_init_option with
  | static => exact h
  | draft =>
    dsimp only
    split_ifs <;> norm_num

/-! ### Sending -/

theorem output_fst (c : TcpConfig) (s : TcpAgent) (seqno : ℤ) : (s.output c seqno).1 = { s with
    curseq := if seqno = 0 ∧ c.syn then s.curseq + 1 else s.curseq
    maxseq := if seqno > s.maxseq then seqno else s.maxseq
    rtx_timer := true } := by
  rw [output]
  split_ifs <;> rfl

theorem output_highest_ack (c : TcpConfig) (s : TcpAgent) (seqno : ℤ) :
    (s.output c seqno).1.highest_ack = s.highest_ack := by
  rw [output_fst]

theorem output_size (hc : c.Valid) (s : TcpAgent) (seqno : ℤ) : 0 < (s.output c seqno).2.size := by
  have h1 := hc.size
  have h2 := hc.headersize
  have h3 := hc.base
  rw [output]
  dsimp only
  split_ifs <;> omega

theorem grows_output (c : TcpConfig) (s : TcpAgent) (seqno : ℤ) :
    Grows s (s.output c seqno).1 := by
  rw [output_fst]
  refine ⟨?_, le_rfl, ?_⟩
  · dsimp only
    split_ifs <;> omega
  · dsimp only
    split_ifs <;> omega

theorem fits_output (hc : c.Valid) (hlow : 0 ≤ seqno)
    (hwnd : seqno ≤ s.highest_ack + toInt c.wnd) :
    Fits c (s.output c seqno).1 (s.output c seqno).2 := by
  refine ⟨hlow, output_size hc s seqno, ?_, ?_⟩
  · rw [output_fst]
    change seqno ≤ if seqno > s.maxseq then seqno else s.maxseq
    split_ifs <;> omega
  · rw [output_fst]
    exact hwnd

theorem Place.output (hp : s.Place) (c : TcpConfig) (seqno : ℤ) : (s.output c seqno).1.Place := by
  have hmax := (grows_output c s seqno).maxseq
  rw [output_fst] at hmax ⊢
  exact ⟨hp.last_ack, hp.low, hp.next, hp.sent.trans (Int.add_le_add_right hmax 1), fun _ => rfl⟩

theorem Window.output (hw : s.Window) (c : TcpConfig) (seqno : ℤ) :
    (s.output c seqno).1.Window := by
  rw [output_fst]
  exact ⟨hw.cwnd, hw.ssthresh, hw.dupwnd, hw.wnd_init⟩

/-- The next packet is sent. -/
def sendNext (c : TcpConfig) (s : TcpAgent) : TcpAgent :=
  { (s.output c s.t_seqno).1 with t_seqno := s.t_seqno + 1 }

theorem Place.low_next (hp : s.Place) : 0 ≤ s.t_seqno := by
  have h1 := hp.low
  have h2 := hp.next
  omega

theorem Place.sendNext (hp : s.Place) (c : TcpConfig) : (s.sendNext c).Place := by
  have h := hp.output c s.t_seqno
  have hmax : s.t_seqno ≤ (s.output c s.t_seqno).1.maxseq := by
    rw [output_fst]
    dsimp only
    split_ifs <;> omega
  refine ⟨h.last_ack, h.low, ?_, Int.add_le_add_right hmax 1, h.timer⟩
  have hnext := h.next
  rw [output_fst] at hnext
  change s.highest_ack < s.t_seqno at hnext
  rw [TcpAgent.sendNext, output_fst]
  dsimp only
  omega

theorem sendNext_result (hc : c.Valid) (hw : s.Window) (hp : s.Place)
    (hwnd : s.t_seqno ≤ s.highest_ack + toInt c.wnd) :
    Result c s (s.sendNext c, [(s.output c s.t_seqno).2]) := by
  have hw' := hw.output c s.t_seqno
  have hg := grows_output c s s.t_seqno
  have hf := fits_output (s := s) hc hp.low_next hwnd
  refine ⟨⟨hw'.cwnd, hw'.ssthresh, hw'.dupwnd, hw'.wnd_init⟩, hp.sendNext c,
    ⟨hg.maxseq, hg.highest_ack, hg.curseq⟩, fun p hmem => ?_⟩
  obtain rfl := List.mem_singleton.mp hmem
  exact ⟨hf.low, hf.size, hf.sent, hf.wnd⟩

theorem sendNext_same (c : TcpConfig) (s : TcpAgent) :
    (s.sendNext c).highest_ack = s.highest_ack ∧ (s.sendNext c).cwnd = s.cwnd ∧
      (s.sendNext c).dupwnd = s.dupwnd ∧ (s.sendNext c).rtx_timer = true ∧
      (s.sendNext c).t_seqno = s.t_seqno + 1 ∧
      (s.t_seqno ≠ 0 → (s.sendNext c).curseq = s.curseq) := by
  rw [sendNext, output_fst]
  exact ⟨rfl, rfl, rfl, rfl, rfl, fun h => if_neg fun h0 => h h0.1⟩

theorem sendLoop_succ (c : TcpConfig) (win : ℤ) (fuel : ℕ) (n : ℤ) (s : TcpAgent) :
    sendLoop c win (fuel + 1) n s =
      if s.t_seqno ≤ s.highest_ack + win ∧ s.t_seqno < s.curseq then
        if c.maxburst ≠ 0 ∧ n + 1 = c.maxburst then (s.sendNext c, [(s.output c s.t_seqno).2])
        else ((sendLoop c win fuel (n + 1) (s.sendNext c)).1,
          (s.output c s.t_seqno).2 :: (sendLoop c win fuel (n + 1) (s.sendNext c)).2)
      else (s, []) := rfl

theorem sendLoop_result (hc : c.Valid) {win : ℤ} (hwin : win ≤ toInt c.wnd) (fuel : ℕ) (n : ℤ)
    (hw : s.Window) (hp : s.Place) : Result c s (sendLoop c win fuel n s) := by
  induction fuel generalizing s n with
  | zero => exact .refl hw hp
  | succ fuel ih =>
    rw [sendLoop_succ]
    split_ifs with h1 h2
    · exact sendNext_result hc hw hp (by omega)
    · have hone := sendNext_result hc hw hp (by omega)
      exact hone.append (ih (n + 1) hone.window hone.place)
    · exact .refl hw hp

/-- What the loop leaves: the timer runs if it sent anything; it stops when there is nothing to
send, when the window is full, or after a burst. -/
theorem sendLoop_end (c : TcpConfig) {win : ℤ} {fuel : ℕ} {n : ℤ}
    (hfuel : s.highest_ack + win + 1 - s.t_seqno ≤ fuel) :
    (sendLoop c win fuel n s).1.highest_ack = s.highest_ack ∧
      (sendLoop c win fuel n s).1.cwnd = s.cwnd ∧
      (s.t_seqno ≠ 0 → 0 ≤ s.t_seqno → (sendLoop c win fuel n s).1.curseq = s.curseq) ∧
      ((sendLoop c win fuel n s).1.rtx_timer = true ∨ sendLoop c win fuel n s = (s, []) ∧
        (s.highest_ack + win < s.t_seqno ∨ s.curseq ≤ s.t_seqno)) := by
  induction fuel generalizing s n with
  | zero =>
    refine ⟨rfl, rfl, fun _ _ => rfl, .inr ⟨rfl, .inl ?_⟩⟩
    omega
  | succ fuel ih =>
    obtain ⟨hhigh, hcwnd, -, htimer, hnext, hcur⟩ := sendNext_same c s
    rw [sendLoop_succ]
    split_ifs with h1 h2
    · exact ⟨hhigh, hcwnd, fun h _ => hcur h, .inl htimer⟩
    · obtain ⟨i1, i2, i3, i4⟩ := @ih (s.sendNext c) (n + 1) (by omega)
      refine ⟨i1.trans hhigh, i2.trans hcwnd,
        fun h0 hle => (i3 (by omega) (by omega)).trans (hcur h0), .inl ?_⟩
      rcases i4 with i4 | ⟨i4, -⟩
      · exact i4
      · dsimp only
        rw [i4]
        exact htimer
    · refine ⟨rfl, rfl, fun _ _ => rfl, .inr ⟨rfl, ?_⟩⟩
      omega

end TcpAgent

end Ns2

namespace Ns2.TcpAgent

variable {c : TcpConfig} {s t : TcpAgent} {seqno : ℤ}

/-- A window that is too small for a packet opens again when the timer expires. -/
def Small (s : TcpAgent) : Prop := s.cwnd < 1 → s.rtx_timer = true

/-- Besides, the timer runs while there is something to send; and if it is set after an
acknowledgement was taken into account, it never stops. -/
structure Awake (c : TcpConfig) (s : TcpAgent) : Prop where
  small : s.Small
  waiting : s.t_seqno < s.curseq → s.rtx_timer = true
  steady : c.timerfix = true → 0 ≤ s.maxseq → s.rtx_timer = true

theorem awake_of_timer (h : s.rtx_timer = true) : Awake c s :=
  ⟨fun _ => h, fun _ => h, fun _ _ => h⟩

theorem send_much_result (hc : c.Valid) (hw : s.Window) (hp : s.Place) :
    Result c s (s.send_much c) := sendLoop_result hc (window_le hc hw) _ 0 hw hp

theorem send_much_end (c : TcpConfig) (s : TcpAgent) :
    (s.send_much c).1.highest_ack = s.highest_ack ∧ (s.send_much c).1.cwnd = s.cwnd ∧
      (s.t_seqno ≠ 0 → 0 ≤ s.t_seqno → (s.send_much c).1.curseq = s.curseq) ∧
      ((s.send_much c).1.rtx_timer = true ∨ s.send_much c = (s, []) ∧
        (s.highest_ack + s.window c < s.t_seqno ∨ s.curseq ≤ s.t_seqno)) :=
  sendLoop_end c (by omega)

theorem send_much_awake (hc : c.Valid) (hw : s.Window) (hp : s.Place) (hs : s.Small)
    (hsteady : c.timerfix = true → 0 ≤ s.maxseq → s.rtx_timer = true) :
    Awake c (s.send_much c).1 := by
  obtain ⟨-, -, -, htimer | ⟨hsame, hstop⟩⟩ := send_much_end c s
  · exact awake_of_timer htimer
  · rw [hsame]
    refine ⟨hs, fun hlt => ?_, hsteady⟩
    change s.t_seqno < s.curseq at hlt
    by_cases hcwnd : s.cwnd < 1
    · exact hs hcwnd
    · have hwin := one_le_window hc hw (not_lt.mp hcwnd)
      have hsent := hp.sent
      exact hp.timer (by omega)

/-- What an acknowledgement of new data leaves. -/
structure Acked (c : TcpConfig) (s : TcpAgent) (seqno : ℤ) (t : TcpAgent) : Prop where
  window : t.Window
  place : t.Place
  small : t.Small
  timer : c.timerfix = true → t.rtx_timer = true
  highest_ack : t.highest_ack = seqno
  maxseq : t.maxseq = s.maxseq
  curseq : t.curseq = s.curseq
  dupacks : t.dupacks = 0

theorem newack_eq (c : TcpConfig) (s : TcpAgent) (seqno : ℤ) :
    ∃ b, (c.timerfix = true ∨ seqno < s.maxseq ∨ s.cwnd < 1 → b = true) ∧
      s.newack c seqno = { s with
      dupacks := 0
      last_ack := seqno
      prev_highest_ack := s.highest_ack
      highest_ack := seqno
      t_seqno := if s.t_seqno < seqno + 1 then seqno + 1 else s.t_seqno
      rtx_timer := b } := by
  cases hfix : c.timerfix with
  | true =>
    rw [newack, hfix]
    refine ⟨_, fun _ => decide_eq_true (.inl ?_), rfl⟩
    dsimp only
    split_ifs <;> omega
  | false =>
    rw [newack, hfix]
    exact ⟨_, fun h => decide_eq_true (.inr (h.resolve_left (by simp))), rfl⟩

theorem newack_acked (hw : s.Window) (hp : s.Place) (hnew : s.highest_ack < seqno)
    (hle : seqno ≤ s.maxseq) (c : TcpConfig) : Acked c s seqno (s.newack c seqno) := by
  obtain ⟨b, hb, h⟩ := newack_eq c s seqno
  have hlow := hp.low
  have hsent := hp.sent
  rw [h]
  refine ⟨⟨hw.cwnd, hw.ssthresh, hw.dupwnd, hw.wnd_init⟩,
    ⟨rfl, by dsimp only; omega, ?_, ?_, fun hlt => hb (.inr (.inl hlt))⟩,
    fun hlt => hb (.inr (.inr hlt)), fun hfix => hb (.inl hfix), rfl, rfl, rfl, rfl⟩
  · dsimp only
    split_ifs <;> omega
  · dsimp only
    split_ifs <;> omega

theorem Acked.opencwnd (h : Acked c s seqno t) (hc : c.Valid) :
    Acked c s seqno (t.opencwnd c) := by
  have hw := h.window.opencwnd hc
  have hle := le_opencwnd hc h.window
  obtain ⟨cwnd, count, heq⟩ := opencwnd_same c t
  rw [heq] at hw hle ⊢
  obtain ⟨h1, h2, h3, h4, h5⟩ := h.place
  refine ⟨hw, ⟨h1, h2, h3, h4, h5⟩, fun hlt => h.small ?_, h.timer, h.highest_ack, h.maxseq,
    h.curseq, h.dupacks⟩
  rcases hle with hle | hle
  · exact lt_of_le_of_lt hle hlt
  · exact absurd hlt (not_lt.mpr hle)

theorem recv_newack_helper_acked (hc : c.Valid) (hw : s.Window) (hp : s.Place) {a : TcpAck}
    (hnew : s.highest_ack < a.seqno) (hle : a.seqno ≤ s.maxseq) :
    Acked c s a.seqno (s.recv_newack_helper c a) := by
  have h1 := newack_acked hw hp hnew hle c
  rw [recv_newack_helper]
  generalize s.newack c a.seqno = t at h1
  have h2 : Acked c s a.seqno (if (¬ t.ect ∨ ¬ a.ecnecho ∨ c.old_ecn ∧ t.ecn_burst) ∧
      (¬ c.control_increase ∨ t.network_limited c) then t.opencwnd c else t) := by
    split_ifs
    · exact h1.opencwnd hc
    · exact h1
  generalize (if (¬ t.ect ∨ ¬ a.ecnecho ∨ c.old_ecn ∧ t.ecn_burst) ∧
      (¬ c.control_increase ∨ t.network_limited c) then t.opencwnd c else t) = u at h2
  obtain ⟨⟨w1, w2, w3, w4⟩, ⟨p1, p2, p3, p4, p5⟩, hs, e1, e2, e3, e4, e5⟩ := h2
  split_ifs <;> exact ⟨⟨w1, w2, w3, w4⟩, ⟨p1, p2, p3, p4, p5⟩, hs, e1, e2, e3, e4, e5⟩

theorem recv_newack_acked (hc : c.Valid) (hw : s.Window) (hp : s.Place) {a : TcpAck}
    (hnew : s.highest_ack < a.seqno) (hle : a.seqno ≤ s.maxseq) :
    Acked c s a.seqno (s.recv_newack c a) := by
  rw [recv_newack]
  have hstart : ∀ t : TcpAgent, t.Window → t.Place → t.highest_ack = s.highest_ack →
      t.maxseq = s.maxseq → t.curseq = s.curseq → Acked c s a.seqno (t.recv_newack_helper c a) :=
    fun t hw' hp' h1 h2 h3 => by
      obtain ⟨i1, i2, i3, i4, i5, i6, i7, i8⟩ :=
        recv_newack_helper_acked hc hw' hp' (h1 ▸ hnew) (h2 ▸ hle)
      exact ⟨i1, i2, i3, i4, i5, i6.trans h2, i7.trans h3, i8⟩
  obtain ⟨p1, p2, p3, p4, p5⟩ := hp
  have hreno : Acked c s a.seqno (recv_newack_helper c (if c.reno then { s with
      last_cwnd_action := if s.last_cwnd_action = .dupack then .exited else s.last_cwnd_action
      dupwnd := 0 } else s) a) := by
    by_cases hr : c.reno = true
    · rw [if_pos hr]
      exact hstart _ ⟨hw.cwnd, hw.ssthresh, le_rfl, hw.wnd_init⟩ ⟨p1, p2, p3, p4, p5⟩ rfl rfl rfl
    · rw [if_neg hr]
      exact hstart s hw ⟨p1, p2, p3, p4, p5⟩ rfl rfl rfl
  generalize recv_newack_helper c _ a = t at hreno
  split_ifs
  · obtain ⟨hw', ⟨q1, q2, q3, q4, q5⟩, -, e1, e2, e3, e4, e5⟩ := hreno
    have hone := one_le_initial_window (c := c) hw'.wnd_init
    exact ⟨⟨zero_le_one.trans hone, hw'.ssthresh, hw'.dupwnd, hw'.wnd_init⟩, ⟨q1, q2, q3, q4, q5⟩,
      fun hlt => absurd hlt (not_lt.mpr hone), e1, e2, e3, e4, e5⟩
  · exact hreno

theorem Acked.grows (h : Acked c s seqno t) (hnew : s.highest_ack ≤ seqno) : Grows s t :=
  ⟨h.maxseq.ge, hnew.trans h.highest_ack.ge, h.curseq.ge⟩

/-- The first packet that is not acknowledged is sent. -/
theorem output_first (hc : c.Valid) (hw : s.Window) (hp : s.Place) :
    Result c s ((s.output c (s.last_ack + 1)).1, [(s.output c (s.last_ack + 1)).2]) := by
  have h1 := hp.low
  have h2 := one_le_toInt hc.wnd
  have h3 := hp.last_ack
  refine ⟨hw.output c _, hp.output c _, grows_output c s _, fun p hmem => ?_⟩
  obtain rfl := List.mem_singleton.mp hmem
  exact fits_output hc (by omega) (by omega)

theorem Place.reset_rtx_timer (hp : s.Place) (mild : Bool) : (s.reset_rtx_timer mild).Place := by
  have h1 := hp.next
  have h2 := hp.sent
  refine ⟨hp.last_ack, hp.low, ?_, ?_, fun _ => rfl⟩
  · dsimp only [TcpAgent.reset_rtx_timer]
    split_ifs <;> omega
  · dsimp only [TcpAgent.reset_rtx_timer]
    split_ifs <;> omega

theorem Result.of_first {u : TcpAgent} {seqno : ℤ} (h : Result c s ((u.output c seqno).1,
    [(u.output c seqno).2])) (hc : c.Valid) : Result c s
      ({ (u.output c seqno).1 with dupwnd := c.numdupacks }, [(u.output c seqno).2]) := by
  obtain ⟨⟨w1, w2, -, w4⟩, ⟨p1, p2, p3, p4, p5⟩, ⟨g1, g2, g3⟩, hf⟩ := h
  exact ⟨⟨w1, w2, hc.numdupacks, w4⟩, ⟨p1, p2, p3, p4, p5⟩, ⟨g1, g2, g3⟩, fun p hp =>
    ⟨(hf p hp).low, (hf p hp).size, (hf p hp).sent, (hf p hp).wnd⟩⟩

theorem retransmit_result (hc : c.Valid) (hw : s.Window) (hp : s.Place) :
    Result c s (s.retransmit c) ∧ (s.retransmit c).1.rtx_timer = true ∧
      (s.retransmit c).1.highest_ack = s.highest_ack := by
  obtain ⟨w1, w2, w3, w4⟩ := hw
  obtain ⟨p1, p2, p3, p4, p5⟩ := hp
  let u : TcpAgent := { s with recover := s.maxseq, last_cwnd_action := .dupack }
  have hw' : u.Window := ⟨w1, w2, w3, w4⟩
  have hslow : ∀ sshalf close, (u.slowdown c sshalf close).Place := fun _ _ => ⟨p1, p2, p3, p4, p5⟩
  have hgrow : ∀ sshalf close mild,
      Grows s ((u.slowdown c sshalf close).reset_rtx_timer mild) := fun _ _ _ =>
    ⟨le_rfl, le_rfl, le_rfl⟩
  rw [retransmit]
  by_cases hr : c.reno = true
  · rw [if_pos hr]
    have hw2 := hw'.slowdown hc true .half
    have hp2 := (hslow true .half).reset_rtx_timer true
    have hres := output_first hc (s := (u.slowdown c true .half).reset_rtx_timer true)
      ⟨hw2.cwnd, hw2.ssthresh, hw2.dupwnd, hw2.wnd_init⟩ hp2
    exact ⟨(hres.of_first hc).before (hgrow _ _ _), rfl, output_highest_ack ..⟩
  · rw [if_neg hr]
    have hw2 := hw'.slowdown hc true .one
    exact ⟨⟨⟨hw2.cwnd, hw2.ssthresh, hw2.dupwnd, hw2.wnd_init⟩,
      (hslow true .one).reset_rtx_timer false, hgrow _ _ _, List.forall_mem_nil _⟩, rfl, rfl⟩

theorem dupack_action_result (hc : c.Valid) (hw : s.Window) (hp : s.Place) :
    Result c s (s.dupack_action c) ∧
      ((s.dupack_action c).1.rtx_timer = true ∨ s.dupack_action c = (s, [])) ∧
      (s.dupack_action c).1.highest_ack = s.highest_ack := by
  have hre := retransmit_result hc hw hp
  rw [dupack_action]
  split_ifs with h1 h2 h3
  · exact ⟨hre.1, .inl hre.2.1, hre.2.2⟩
  · obtain ⟨p1, p2, p3, p4, p5⟩ := hp
    have hp2 : ({ s with last_cwnd_action := .dupack } : TcpAgent).Place := ⟨p1, p2, p3, p4, p5⟩
    have hp3 := hp2.reset_rtx_timer true
    have hres := output_first hc
      (s := ({ s with last_cwnd_action := .dupack } : TcpAgent).reset_rtx_timer true)
      ⟨hw.cwnd, hw.ssthresh, hw.dupwnd, hw.wnd_init⟩ hp3
    exact ⟨(hres.of_first hc).before ⟨le_rfl, le_rfl, le_rfl⟩, .inl rfl, output_highest_ack ..⟩
  · obtain ⟨p1, p2, p3, p4, p5⟩ := hp
    have hw2 : ({ s with last_cwnd_action := .dupack } : TcpAgent).Window :=
      ⟨hw.cwnd, hw.ssthresh, hw.dupwnd, hw.wnd_init⟩
    have hw3 := hw2.slowdown hc false .one
    have hp2 : (slowdown c { s with last_cwnd_action := .dupack } false .one).Place :=
      ⟨p1, p2, p3, p4, p5⟩
    exact ⟨⟨⟨hw3.cwnd, hw3.ssthresh, hw3.dupwnd, hw3.wnd_init⟩, hp2.reset_rtx_timer false,
      ⟨le_rfl, le_rfl, le_rfl⟩, List.forall_mem_nil _⟩, .inl rfl, rfl⟩
  · exact ⟨.refl hw hp, .inr rfl, rfl⟩
  · exact ⟨hre.1, .inl hre.2.1, hre.2.2⟩

theorem send_one_result (hc : c.Valid) (hw : s.Window) (hp : s.Place) :
    Result c s (s.send_one c) ∧
      ((s.send_one c).1.rtx_timer = true ∨ s.send_one c = (s, [])) ∧
      (s.send_one c).1.highest_ack = s.highest_ack := by
  rw [send_one]
  split_ifs with h
  · have hle : ((s.t_seqno - s.highest_ack : ℤ) : ℚ) ≤ c.wnd := by
      push_cast
      linarith [h.1]
    have hfloor := Int.le_floor.mpr hle
    rw [← toInt_eq_floor (zero_le_one.trans hc.wnd)] at hfloor
    obtain ⟨hhigh, -, -, htimer, -⟩ := sendNext_same c s
    exact ⟨sendNext_result hc hw hp (by omega), .inl htimer, hhigh⟩
  · exact ⟨.refl hw hp, .inr rfl, rfl⟩

theorem recv_dupack_result (hc : c.Valid) (hw : s.Window) (hp : s.Place) :
    Result c s (s.recv_dupack c) ∧ (Awake c s → Awake c (s.recv_dupack c).1) ∧
      (s.recv_dupack c).1.highest_ack = s.highest_ack := by
  obtain ⟨w1, w2, w3, w4⟩ := hw
  obtain ⟨p1, p2, p3, p4, p5⟩ := hp
  let u : TcpAgent := { s with dupacks := s.dupacks + 1 }
  have hw' : u.Window := ⟨w1, w2, w3, w4⟩
  have hp' : u.Place := ⟨p1, p2, p3, p4, p5⟩
  have hg : Grows s u := ⟨le_rfl, le_rfl, le_rfl⟩
  rw [recv_dupack]
  dsimp only
  by_cases h1 : s.dupacks + 1 = c.numdupacks ∧ (c.reno ∨ ¬ c.noFastRetrans)
  · rw [if_pos h1]
    obtain ⟨⟨⟨v1, v2, v3, v4⟩, ⟨q1, q2, q3, q4, q5⟩, ⟨g1, g2, g3⟩, hf⟩, hdone, hhigh⟩ :=
      dupack_action_result hc hw' hp'
    have hawake : Awake c s → Awake c (u.dupack_action c).1 := fun hs => by
      rcases hdone with hdone | hdone
      · exact awake_of_timer hdone
      · rw [hdone]
        exact ⟨hs.small, hs.waiting, hs.steady⟩
    by_cases h2 : c.reno ∧ ¬ c.exitFastRetrans
    · rw [if_pos h2]
      exact ⟨⟨⟨v1, v2, hc.numdupacks, v4⟩, ⟨q1, q2, q3, q4, q5⟩, ⟨g1, g2, g3⟩, fun p hp =>
        ⟨(hf p hp).low, (hf p hp).size, (hf p hp).sent, (hf p hp).wnd⟩⟩, fun hs =>
          ⟨(hawake hs).small, (hawake hs).waiting, (hawake hs).steady⟩, hhigh⟩
    · rw [if_neg h2]
      exact ⟨⟨⟨v1, v2, v3, v4⟩, ⟨q1, q2, q3, q4, q5⟩, ⟨g1, g2, g3⟩, hf⟩, hawake, hhigh⟩
  · rw [if_neg h1]
    split_ifs with h2 h3
    · exact ⟨⟨⟨w1, w2, by dsimp only; omega, w4⟩, ⟨p1, p2, p3, p4, p5⟩, ⟨le_rfl, le_rfl, le_rfl⟩,
        List.forall_mem_nil _⟩, fun hs => ⟨hs.small, hs.waiting, hs.steady⟩, rfl⟩
    · obtain ⟨hres, hdone, hhigh⟩ := send_one_result hc hw' hp'
      refine ⟨hres.before hg, fun hs => ?_, hhigh⟩
      rcases hdone with hdone | hdone
      · exact awake_of_timer hdone
      · change Awake c (u.send_one c).1
        rw [hdone]
        exact ⟨hs.small, hs.waiting, hs.steady⟩
    · exact ⟨.before (.refl hw' hp') hg, fun hs => ⟨hs.small, hs.waiting, hs.steady⟩, rfl⟩

theorem recv_end_result (hc : c.Valid) (hw : s.Window) (hp : s.Place) (a : TcpAck) :
    Result c s (s.recv_end c a) ∧ (Awake c s → Awake c (s.recv_end c a).1) ∧
      (s.recv_end c a).1.highest_ack = s.highest_ack := by
  rw [recv_end]
  split_ifs
  · exact ⟨send_much_result hc hw hp, fun hs => send_much_awake hc hw hp hs.small hs.steady,
      (send_much_end c s).1⟩
  · exact ⟨.refl hw hp, id, rfl⟩

theorem reactEcn_keeps (hc : c.Valid) (hw : s.Window) (hp : s.Place) (seqno : ℤ) :
    (s.reactEcn c seqno).Window ∧ (s.reactEcn c seqno).Place ∧ Grows s (s.reactEcn c seqno) ∧
      (s.reactEcn c seqno).maxseq = s.maxseq ∧ (s.reactEcn c seqno).highest_ack = s.highest_ack ∧
      (s.reactEcn c seqno).curseq = s.curseq := by
  obtain ⟨p1, p2, p3, p4, p5⟩ := hp
  rw [reactEcn]
  split_ifs
  · have hw' : ({ s with recover := s.maxseq, last_cwnd_action := .ecn } : TcpAgent).Window :=
      ⟨hw.cwnd, hw.ssthresh, hw.dupwnd, hw.wnd_init⟩
    exact ⟨hw'.slowdown hc true .half, ⟨p1, p2, p3, p4, p5⟩, ⟨le_rfl, le_rfl, le_rfl⟩, rfl, rfl,
      rfl⟩
  · exact ⟨hw, ⟨p1, p2, p3, p4, p5⟩, .refl s, rfl, rfl, rfl⟩

theorem reactEcn_timer (c : TcpConfig) (s : TcpAgent) (seqno : ℤ) :
    (s.reactEcn c seqno).rtx_timer = s.rtx_timer := by
  rw [reactEcn]
  split_ifs <;> rfl

/-- After an acknowledgement of new data more is sent. -/
theorem Acked.recv_end {a : TcpAck} (h : Acked c s a.seqno t) :
    t.recv_end c a = t.send_much c := by
  have hlast : a.seqno ≥ t.last_ack := (h.place.last_ack.trans h.highest_ack).le
  rw [TcpAgent.recv_end, if_pos ⟨.inl hlast, fun _ => .inl h.dupacks⟩]

/-- An acknowledgement of something that was sent. -/
theorem recv_result (hc : c.Valid) (hw : s.Window) (hp : s.Place) {a : TcpAck}
    (ha : a.seqno ≤ s.maxseq) : Result c s (s.recv c a) ∧
      (s.recv c a).1.highest_ack = max s.highest_ack a.seqno ∧
      (c.ecn = false ∨ c.timerfix = true → 0 ≤ s.maxseq → Awake c s →
        Awake c (s.recv c a).1) ∧
      (s.highest_ack < a.seqno → (s.recv c a).1.curseq = s.curseq) := by
  rw [recv]
  have hu : ∀ u, u = (if a.ecnecho ∧ c.ecn then s.reactEcn c a.seqno else s) →
      (u.Window ∧ u.Place ∧ Grows s u ∧ u.maxseq = s.maxseq ∧ u.highest_ack = s.highest_ack ∧
        u.curseq = s.curseq) ∧ (c.ecn = false ∨ s.rtx_timer = true → Awake c s → Awake c u) :=
      fun u hu => by
    split_ifs at hu with h
    · refine ⟨hu ▸ reactEcn_keeps hc hw hp a.seqno, fun hf _ => ?_⟩
      rcases hf with hf | hf
      · exact absurd h.2 (by simp [hf])
      · rw [hu]
        exact awake_of_timer ((reactEcn_timer c s a.seqno).trans hf)
    · rw [hu]
      exact ⟨⟨hw, hp, .refl s, rfl, rfl, rfl⟩, fun _ hs => hs⟩
  generalize (if a.ecnecho ∧ c.ecn then s.reactEcn c a.seqno else s) = u at hu
  obtain ⟨⟨hw', hp', hg, hmax, hhigh, hcur⟩, hsame⟩ := hu u rfl
  dsimp only
  have hlast := hp'.last_ack
  by_cases hnew : a.seqno > u.last_ack
  · rw [if_pos hnew]
    have hacked := recv_newack_acked hc hw' hp' (a := a) (by omega) (by omega)
    have hres : Result c u (u.recv_newack c a, []) :=
      ⟨hacked.window, hacked.place, hacked.grows (by omega), List.forall_mem_nil _⟩
    have hend := recv_end_result hc hacked.window hacked.place a
    have hlow := hp'.low
    have hnext := hacked.place.next
    have hack := hacked.highest_ack
    refine ⟨(hres.append hend.1).before hg, ?_, fun _ _ _ => ?_, fun _ => ?_⟩
    · rw [hend.2.2, hack, max_eq_right (by omega)]
    · rw [hacked.recv_end]
      exact send_much_awake hc hacked.window hacked.place hacked.small
        fun hfix _ => hacked.timer hfix
    · rw [hacked.recv_end, (send_much_end c _).2.2.1 (by omega) (by omega), hacked.curseq, hcur]
  · rw [if_neg hnew]
    have hmid : Result c u (if a.seqno = u.last_ack then u.recv_dupack c else (u, [])) ∧
        (Awake c u → Awake c (if a.seqno = u.last_ack then u.recv_dupack c else (u, [])).1) ∧
        (if a.seqno = u.last_ack then u.recv_dupack c else (u, [])).1.highest_ack =
          u.highest_ack := by
      split_ifs
      · exact recv_dupack_result hc hw' hp'
      · exact ⟨.refl hw' hp', id, rfl⟩
    generalize (if a.seqno = u.last_ack then u.recv_dupack c else (u, [])) = r at hmid
    obtain ⟨hres, hawake, hkeep⟩ := hmid
    obtain ⟨hend, hawake', hkeep'⟩ := recv_end_result hc hres.window hres.place a
    refine ⟨(hres.append hend).before hg, ?_, fun hf hmax hs => hawake' (hawake (hsame ?_ hs)),
      fun h => by omega⟩
    · rw [hkeep', hkeep, hhigh, max_eq_left (by omega)]
    · exact hf.imp id fun hfix => hs.steady hfix hmax

/-- Only windows change. -/
structure Same (s t : TcpAgent) : Prop where
  t_seqno : t.t_seqno = s.t_seqno
  curseq : t.curseq = s.curseq
  maxseq : t.maxseq = s.maxseq
  highest_ack : t.highest_ack = s.highest_ack
  last_ack : t.last_ack = s.last_ack
  rtx_timer : t.rtx_timer = s.rtx_timer

theorem Same.trans {u : TcpAgent} (h1 : Same s t) (h2 : Same t u) : Same s u :=
  ⟨h2.t_seqno.trans h1.t_seqno, h2.curseq.trans h1.curseq, h2.maxseq.trans h1.maxseq,
    h2.highest_ack.trans h1.highest_ack, h2.last_ack.trans h1.last_ack,
    h2.rtx_timer.trans h1.rtx_timer⟩

theorem Same.place (h : Same s t) (hp : s.Place) : t.Place := by
  obtain ⟨h1, -, h2, h3, h4, h5⟩ := h
  exact ⟨by rw [h4, h3, hp.last_ack], h3 ▸ hp.low, by rw [h3, h1]; exact hp.next,
    by rw [h1, h2]; exact hp.sent, by rw [h3, h2, h5]; exact hp.timer⟩

theorem slowdown_same (c : TcpConfig) (s : TcpAgent) (sshalf : Bool) (close : Close) :
    Same s (s.slowdown c sshalf close) := ⟨rfl, rfl, rfl, rfl, rfl, rfl⟩

theorem restart_keeps (hc : c.Valid) (hw : s.Window) :
    (s.restart c).Window ∧ 1 ≤ (s.restart c).cwnd ∧ Same s (s.restart c) := by
  have hrestart : (1 : ℚ) ≤ toInt c.wnd_restart := by exact_mod_cast one_le_toInt hc.wnd_restart
  have hinit : ∀ u, u = (if s.highest_ack = -1 ∧ s.wnd_init_option = .draft then
      ({ s with recover := s.maxseq, wnd_init_option := .static } : TcpAgent)
      else if s.highest_ack = -1 ∧ s.wnd_init_option = .static ∧ s.wnd_init > 1 ∧ c.bugfix_ss then
        { s with recover := s.maxseq, wnd_init := 1 }
      else { s with recover := s.maxseq }) → u.Window ∧ Same s u := fun u hu => by
    obtain ⟨w1, w2, w3, w4⟩ := hw
    split_ifs at hu <;> rw [hu]
    · exact ⟨⟨w1, w2, w3, w4⟩, ⟨rfl, rfl, rfl, rfl, rfl, rfl⟩⟩
    · exact ⟨⟨w1, w2, w3, le_rfl⟩, ⟨rfl, rfl, rfl, rfl, rfl, rfl⟩⟩
    · exact ⟨⟨w1, w2, w3, w4⟩, ⟨rfl, rfl, rfl, rfl, rfl, rfl⟩⟩
  rw [restart]
  dsimp only
  obtain ⟨hw', hsame⟩ := hinit _ rfl
  generalize (if s.highest_ack = -1 ∧ s.wnd_init_option = .draft then _ else _ : TcpAgent) = u at *
  split_ifs
  · exact ⟨hw'.slowdown hc false .one, le_rfl, hsame.trans (slowdown_same c u false .one)⟩
  · exact ⟨hw'.slowdown hc false .one, le_rfl, hsame.trans (slowdown_same c u false .one)⟩
  · have hw2 : ({ u with last_cwnd_action := .timeout } : TcpAgent).Window :=
      ⟨hw'.cwnd, hw'.ssthresh, hw'.dupwnd, hw'.wnd_init⟩
    refine ⟨hw2.slowdown hc true .restart, hrestart, hsame.trans ?_⟩
    exact ⟨rfl, rfl, rfl, rfl, rfl, rfl⟩

/-- The state with which a timeout begins to send: at the first packet that is not acknowledged,
with a window for it. -/
theorem timeout_eq (hc : c.Valid) (hw : s.Window) (hp : s.Place) : ∃ u : TcpAgent,
    s.timeout c = u.send_much c ∧ u.Window ∧ u.Place ∧ 1 ≤ u.cwnd ∧ u.rtx_timer = true ∧
      u.t_seqno = s.highest_ack + 1 ∧ u.highest_ack = s.highest_ack ∧ u.maxseq = s.maxseq ∧
      u.curseq = s.curseq := by
  obtain ⟨w1, w2, w3, w4⟩ := hw
  have hfirst : ∀ v, v = (if c.reno then { s with
      dupwnd := 0
      dupacks := 0
      recover := if c.bug_fix then s.maxseq else s.recover } else s) →
        v.Window ∧ Same s v := fun v hv => by
    by_cases hr : c.reno = true
    · rw [hv, if_pos hr]
      exact ⟨⟨w1, w2, le_rfl, w4⟩, ⟨rfl, rfl, rfl, rfl, rfl, rfl⟩⟩
    · rw [hv, if_neg hr]
      exact ⟨⟨w1, w2, w3, w4⟩, ⟨rfl, rfl, rfl, rfl, rfl, rfl⟩⟩
  obtain ⟨hv, hsame⟩ := hfirst _ rfl
  have hopen : ∀ x v : TcpAgent, x = (if v.cwnd < 1 then { v with cwnd := 1 } else v) → v.Window →
      x.Window ∧ 1 ≤ x.cwnd ∧ Same v x := fun x v hx hv => by
    split_ifs at hx with hlt <;> rw [hx]
    · exact ⟨⟨zero_le_one, hv.ssthresh, hv.dupwnd, hv.wnd_init⟩, le_rfl,
        ⟨rfl, rfl, rfl, rfl, rfl, rfl⟩⟩
    · exact ⟨hv, not_lt.mp hlt, ⟨rfl, rfl, rfl, rfl, rfl, rfl⟩⟩
  obtain ⟨hx, hone, hsame'⟩ := hopen _ _ rfl hv
  have hcut : ∀ x y : TcpAgent, y = (if x.highest_ack = x.maxseq ∧ ¬ c.slow_start_restart then x
      else x.restart c) → x.Window → 1 ≤ x.cwnd → y.Window ∧ 1 ≤ y.cwnd ∧ Same x y :=
    fun x y hy hx hone => by
      split_ifs at hy <;> rw [hy]
      · exact ⟨hx, hone, ⟨rfl, rfl, rfl, rfl, rfl, rfl⟩⟩
      · exact restart_keeps hc hx
  obtain ⟨hy, hone', hsame''⟩ := hcut _ _ rfl hx hone
  have hall := (hsame.trans hsame').trans hsame''
  have hplace := (hall.place hp).reset_rtx_timer false
  obtain ⟨q1, q2, q3, q4, q5⟩ := hplace
  refine ⟨_, rfl, ⟨hy.cwnd, hy.ssthresh, hy.dupwnd, hy.wnd_init⟩, ⟨q1, q2, q3, q4, q5⟩, hone', rfl,
    ?_, hall.highest_ack, hall.maxseq, hall.curseq⟩
  exact congrArg (· + 1) hall.highest_ack

/-- The retransmission timer expires. -/
theorem timeout_result (hc : c.Valid) (hw : s.Window) (hp : s.Place) :
    Result c s (s.timeout c) ∧ Awake c (s.timeout c).1 ∧
      (s.timeout c).1.highest_ack = s.highest_ack ∧
      (s.highest_ack + 1 < s.curseq → ∃ p ∈ (s.timeout c).2, p.seqno = s.highest_ack + 1) ∧
      (0 ≤ s.highest_ack → (s.timeout c).1.curseq = s.curseq) := by
  obtain ⟨u, heq, hw', hp', hone, htimer, hnext, hhigh, hmax, hcur⟩ := timeout_eq hc hw hp
  obtain ⟨e1, -, e3, e4⟩ := send_much_end c u
  have hg : Grows s u := ⟨hmax.ge, hhigh.ge, hcur.ge⟩
  have hlow := hp.low
  rw [heq]
  refine ⟨(send_much_result hc hw' hp').before hg, ?_, e1.trans hhigh, fun hlt => ?_, fun h0 => ?_⟩
  · rcases e4 with e4 | ⟨e4, -⟩
    · exact awake_of_timer e4
    · rw [e4]
      exact awake_of_timer htimer
  · have hwin := one_le_window hc hw' hone
    obtain ⟨fuel, hfuel⟩ : ∃ fuel, (u.highest_ack + u.window c + 1 - u.t_seqno).toNat = fuel + 1 :=
      Nat.exists_eq_succ_of_ne_zero (by omega)
    refine ⟨(u.output c u.t_seqno).2, ?_, hnext⟩
    rw [send_much, hfuel, sendLoop_succ, if_pos (by omega)]
    split_ifs <;> exact List.mem_cons_self
  · rw [e3 (by omega) (by omega), hcur]

theorem advanceby_result (hc : c.Valid) (hw : s.Window) (hp : s.Place) (delta : ℕ) :
    Result c s (s.advanceby c delta) ∧ (Awake c s → Awake c (s.advanceby c delta).1) := by
  obtain ⟨p1, p2, p3, p4, p5⟩ := hp
  let u : TcpAgent := { s with curseq := s.curseq + delta }
  have hw' : u.Window := ⟨hw.cwnd, hw.ssthresh, hw.dupwnd, hw.wnd_init⟩
  have hp' : u.Place := ⟨p1, p2, p3, p4, p5⟩
  have hg : Grows s u := ⟨le_rfl, le_rfl, by dsimp only [u]; omega⟩
  exact ⟨(send_much_result hc hw' hp').before hg, fun hs =>
    send_much_awake hc hw' hp' hs.small hs.steady⟩

theorem reset_keeps (hc : c.Valid) {wnd_init : ℚ} (hinit : 1 ≤ wnd_init) (opt : WndInitOption) :
    (reset c wnd_init opt).Window ∧ (reset c wnd_init opt).Place ∧
      Awake c (reset c wnd_init opt) := by
  have hwnd := one_le_toInt hc.wnd
  have hone : 1 ≤ (reset c wnd_init opt).cwnd := by
    rw [reset, set_initial_window]
    by_cases h : c.syn ∧ c.delay_growth
    · exact (if_pos h).ge
    · exact (if_neg h).symm ▸ one_le_initial_window hinit
  have hthresh : 1 ≤ (reset c wnd_init opt).ssthresh := by
    rw [reset, set_initial_window]
    dsimp only
    split_ifs <;> omega
  refine ⟨⟨zero_le_one.trans hone, hthresh, le_rfl, hinit⟩, ⟨rfl, le_rfl, ?_, le_rfl, ?_⟩,
    fun h => absurd h (not_lt.mpr hone), fun h => absurd h (lt_irrefl 0),
    fun _ h => absurd h (show ¬ (0 : ℤ) ≤ -1 by decide)⟩
  · exact neg_one_lt_zero
  · exact fun h => absurd h (lt_irrefl (-1 : ℤ))

end Ns2.TcpAgent
