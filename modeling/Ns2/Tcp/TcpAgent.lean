import Mathlib

/-! The one-way TCP senders Tahoe and Reno: their windows, what they send, and the retransmission
timer. -/

namespace Ns2

/-- `wnd_option_`, without the experimental ones -/
inductive WndOption
  | count
  | standard
  deriving DecidableEq

/-- `wnd_init_option_` -/
inductive WndInitOption
  | static
  | draft
  deriving DecidableEq

/-- `last_cwnd_action_` -/
inductive CwndAction
  | none
  | dupack
  | timeout
  | ecn
  | exited
  deriving DecidableEq

/-- What is bound from Tcl; `reno` chooses between `TcpAgent` and `RenoTcpAgent`. -/
structure TcpConfig where
  reno : Bool
  wnd : ℚ
  wnd_restart : ℚ
  wnd_option : WndOption
  decrease_num : ℚ
  increase_num : ℚ
  maxcwnd : ℤ
  numdupacks : ℤ
  max_ssthresh : ℤ
  maxburst : ℤ
  size : ℤ
  headersize : ℤ
  tcpip_base_hdr_size : ℤ
  useHeaders : Bool
  syn : Bool
  delay_growth : Bool
  bug_fix : Bool
  bugfix_ss : Bool
  noFastRetrans : Bool
  exitFastRetrans : Bool
  singledup : Bool
  aggressive_maxburst : Bool
  slow_start_restart : Bool
  restart_bugfix : Bool
  timerfix : Bool
  control_increase : Bool
  precision_reduce : Bool
  ecn : Bool
  old_ecn : Bool

/-- A data packet. -/
structure TcpPacket where
  seqno : ℤ
  size : ℤ
  deriving DecidableEq

/-- An acknowledgement, with the bits of its flags header that the sender reads. -/
structure TcpAck where
  seqno : ℤ
  ecnecho : Bool
  cong_action : Bool
  deriving DecidableEq

/-- The timer runs or not. -/
structure TcpAgent where
  t_seqno : ℤ
  curseq : ℤ
  maxseq : ℤ
  highest_ack : ℤ
  last_ack : ℤ
  prev_highest_ack : ℤ
  recover : ℤ
  dupacks : ℤ
  dupwnd : ℤ
  cwnd : ℚ
  ssthresh : ℤ
  count : ℤ
  wnd_init : ℚ
  wnd_init_option : WndInitOption
  last_cwnd_action : CwndAction
  first_decrease : Bool
  ect : Bool
  ecn_burst : Bool
  rtx_timer : Bool

namespace TcpAgent

/-- The conversion of a `double` to `int` -/
def toInt (x : ℚ) : ℤ := x.num.tdiv x.den

variable (c : TcpConfig) (s : TcpAgent)

def initial_window : ℚ :=
  match s.wnd_init_option with
  | .static => s.wnd_init
  | .draft => if c.size ≤ 1095 then 4 else if c.size < 2190 then 3 else 2

def set_initial_window : TcpAgent :=
  { s with cwnd := if c.syn ∧ c.delay_growth then 1 else s.initial_window c }

/-- The state that `reset` leaves. -/
def reset (wnd_init : ℚ) (wnd_init_option : WndInitOption) : TcpAgent :=
  set_initial_window c
    { t_seqno := 0
      curseq := 0
      maxseq := -1
      highest_ack := -1
      last_ack := -1
      prev_highest_ack := -1
      recover := 0
      dupacks := 0
      dupwnd := 0
      cwnd := 0
      ssthresh :=
        if c.max_ssthresh > 0 ∧ c.max_ssthresh < toInt c.wnd then c.max_ssthresh else toInt c.wnd
      count := 0
      wnd_init := wnd_init
      wnd_init_option := wnd_init_option
      last_cwnd_action := .none
      first_decrease := true
      ect := false
      ecn_burst := false
      rtx_timer := false }

def window : ℤ :=
  if c.reno then min (toInt s.cwnd + s.dupwnd) (toInt c.wnd)
  else if s.cwnd < c.wnd then toInt s.cwnd else toInt c.wnd

def windowd : ℚ :=
  if c.reno then min (s.cwnd + s.dupwnd) c.wnd else if s.cwnd < c.wnd then s.cwnd else c.wnd

/-- What `slowdown` makes of the congestion window. -/
inductive Close
  | half
  | restart
  | one
  deriving DecidableEq

def halfwin : ℚ := if c.precision_reduce then s.windowd c / 2 else ((s.window c).tdiv 2 : ℤ)

def decreasewin : ℚ :=
  if c.precision_reduce then c.decrease_num * s.windowd c else toInt (c.decrease_num * s.window c)

/-- `sshalf` is `CLOSE_SSTHRESH_HALF`. -/
def slowdown (sshalf : Bool) (close : Close) : TcpAgent :=
  let slowstart := s.cwnd < s.ssthresh
  let ssthresh :=
    if sshalf then
      if s.first_decrease ∨ slowstart ∨ s.last_cwnd_action = .timeout then toInt (s.halfwin c)
      else toInt (s.decreasewin c)
    else s.ssthresh
  let cwnd : ℚ :=
    match close with
    | .half =>
      if s.first_decrease ∨ slowstart ∨ c.decrease_num = 1 / 2 then s.halfwin c else s.decreasewin c
    | .restart => toInt c.wnd_restart
    | .one => 1
  { s with
    ssthresh := if ssthresh < 2 then 2 else ssthresh
    cwnd := cwnd
    count := 0
    first_decrease := false }

def limited_slow_start (cwnd : ℚ) (max_ssthresh : ℤ) (increment : ℚ) : ℚ :=
  if max_ssthresh ≤ 0 then increment
  else
    let round := toInt (cwnd / ((max_ssthresh : ℚ) / 2))
    let increment1 : ℚ := if round > 0 then 1 / round else 0
    if increment < increment1 then increment1 else increment

/-- The increase of `opencwnd`. -/
def increase : TcpAgent :=
  if s.cwnd < s.ssthresh then { s with cwnd := s.cwnd + 1 }
  else
    match c.wnd_option with
    | .count =>
      if s.count + 1 ≥ s.cwnd then { s with count := 0, cwnd := s.cwnd + 1 }
      else { s with count := s.count + 1 }
    | .standard =>
      let increment := c.increase_num / s.cwnd
      let increment :=
        if (s.last_cwnd_action = .none ∨ s.last_cwnd_action = .timeout) ∧ c.max_ssthresh > 0 then
          limited_slow_start s.cwnd c.max_ssthresh increment
        else increment
      { s with cwnd := s.cwnd + increment }

def opencwnd : TcpAgent :=
  let s := s.increase c
  if c.maxcwnd ≠ 0 ∧ toInt s.cwnd > c.maxcwnd then { s with cwnd := c.maxcwnd } else s

def set_rtx_timer : TcpAgent := { s with rtx_timer := true }

def reset_rtx_timer (mild : Bool) : TcpAgent :=
  { s with
    rtx_timer := true
    t_seqno := if mild then s.t_seqno else s.highest_ack + 1 }

def newtimer (seqno : ℤ) : TcpAgent :=
  { s with rtx_timer := decide (s.t_seqno > seqno ∨ seqno < s.maxseq ∨ s.cwnd < 1) }

/-- A packet is sent; the timer is set if it does not run. -/
def output (seqno : ℤ) : TcpAgent × TcpPacket :=
  let s := if seqno = 0 ∧ c.syn then { s with curseq := s.curseq + 1 } else s
  let size :=
    if seqno = 0 then if c.syn then c.tcpip_base_hdr_size else c.size
    else if c.useHeaders then c.size + c.headersize else c.size
  ({ s with
    maxseq := if seqno > s.maxseq then seqno else s.maxseq
    rtx_timer := true }, ⟨seqno, size⟩)

/-- The loop of `send_much`; the window does not change on the way. -/
def sendLoop (win : ℤ) : ℕ → ℤ → TcpAgent → TcpAgent × List TcpPacket
  | 0, _, s => (s, [])
  | fuel + 1, npackets, s =>
    if s.t_seqno ≤ s.highest_ack + win ∧ s.t_seqno < s.curseq then
      let r := s.output c s.t_seqno
      let s := { r.1 with t_seqno := s.t_seqno + 1 }
      if c.maxburst ≠ 0 ∧ npackets + 1 = c.maxburst then (s, [r.2])
      else
        let q := sendLoop win fuel (npackets + 1) s
        (q.1, r.2 :: q.2)
    else (s, [])

def send_much : TcpAgent × List TcpPacket :=
  sendLoop c (s.window c) (s.highest_ack + s.window c + 1 - s.t_seqno).toNat 0 s

def send_one : TcpAgent × List TcpPacket :=
  if s.t_seqno ≤ s.highest_ack + c.wnd ∧ s.t_seqno < s.curseq ∧
      s.t_seqno ≤ s.highest_ack + s.cwnd + s.dupacks then
    let r := s.output c s.t_seqno
    ({ r.1 with t_seqno := s.t_seqno + 1 }, [r.2])
  else (s, [])

/-- `TcpAgent::ecn`, the reaction to an echo. -/
def reactEcn (seqno : ℤ) : TcpAgent :=
  if seqno > s.recover ∨ s.last_cwnd_action = .timeout then
    slowdown c { s with recover := s.maxseq, last_cwnd_action := .ecn } true .half
  else s

def newack (seqno : ℤ) : TcpAgent :=
  let s := if c.timerfix then s else s.newtimer seqno
  let s := { s with
    dupacks := 0
    last_ack := seqno
    prev_highest_ack := s.highest_ack
    highest_ack := seqno
    t_seqno := if s.t_seqno < seqno + 1 then seqno + 1 else s.t_seqno }
  if c.timerfix then s.newtimer seqno else s

def network_limited : Bool := s.t_seqno > s.prev_highest_ack + s.window c

def recv_newack_helper (a : TcpAck) : TcpAgent :=
  let s := s.newack c a.seqno
  let s :=
    if (¬ s.ect ∨ ¬ a.ecnecho ∨ c.old_ecn ∧ s.ecn_burst) ∧
        (¬ c.control_increase ∨ s.network_limited c) then s.opencwnd c
    else s
  let s := if s.ect then { s with ecn_burst := a.ecnecho } else s
  if ¬ s.ect ∧ a.ecnecho ∧ ¬ a.cong_action then { s with ect := true } else s

/-- The state after a new acknowledgement, before anything is sent. -/
def recv_newack (a : TcpAck) : TcpAgent :=
  let s :=
    if c.reno then
      { s with
        last_cwnd_action := if s.last_cwnd_action = .dupack then .exited else s.last_cwnd_action
        dupwnd := 0 }
    else s
  let s := s.recv_newack_helper c a
  if s.last_ack = 0 ∧ c.delay_growth then { s with cwnd := s.initial_window c } else s

/-- `tahoe_action` and `reno_action` -/
def retransmit : TcpAgent × List TcpPacket :=
  let s := { s with recover := s.maxseq, last_cwnd_action := .dupack }
  if c.reno then
    let r := ((s.slowdown c true .half).reset_rtx_timer true).output c (s.last_ack + 1)
    ({ r.1 with dupwnd := c.numdupacks }, [r.2])
  else ((s.slowdown c true .one).reset_rtx_timer false, [])

def dupack_action : TcpAgent × List TcpPacket :=
  if s.highest_ack > s.recover ∨ ¬ c.bug_fix ∧ ¬ c.ecn ∨
      c.reno ∧ s.last_cwnd_action = .dupack ∨ c.bugfix_ss ∧ s.highest_ack = 0 then
    s.retransmit c
  else if c.ecn ∧ s.last_cwnd_action = .ecn then
    let s := { s with last_cwnd_action := .dupack }
    if c.reno then
      let r := (s.reset_rtx_timer true).output c (s.last_ack + 1)
      ({ r.1 with dupwnd := c.numdupacks }, [r.2])
    else ((s.slowdown c false .one).reset_rtx_timer false, [])
  else if c.bug_fix then (s, [])
  else s.retransmit c

/-- A duplicate acknowledgement. -/
def recv_dupack : TcpAgent × List TcpPacket :=
  let s := { s with dupacks := s.dupacks + 1 }
  if s.dupacks = c.numdupacks ∧ (c.reno ∨ ¬ c.noFastRetrans) then
    let r := s.dupack_action c
    (if c.reno ∧ ¬ c.exitFastRetrans then { r.1 with dupwnd := c.numdupacks } else r.1, r.2)
  else if c.reno ∧ s.dupacks > c.numdupacks ∧
      (¬ c.exitFastRetrans ∨ s.last_cwnd_action = .dupack) then
    ({ s with dupwnd := s.dupwnd + 1 }, [])
  else if s.dupacks < c.numdupacks ∧ c.singledup then s.send_one c
  else (s, [])

/-- The end of `recv`: more is sent, if the acknowledgement is valid. -/
def recv_end (a : TcpAck) : TcpAgent × List TcpPacket :=
  if (a.seqno ≥ s.last_ack ∨ c.aggressive_maxburst) ∧
      (c.reno → s.dupacks = 0 ∨ s.dupacks > c.numdupacks - 1) then s.send_much c
  else (s, [])

def recv (a : TcpAck) : TcpAgent × List TcpPacket :=
  let s := if a.ecnecho ∧ c.ecn then s.reactEcn c a.seqno else s
  let r :=
    if a.seqno > s.last_ack then (s.recv_newack c a, [])
    else if a.seqno = s.last_ack then s.recv_dupack c
    else (s, [])
  let q := r.1.recv_end c a
  (q.1, r.2 ++ q.2)

/-- What a timeout does if there is something to send again, or slow start is to be made after a
pause. -/
def restart : TcpAgent :=
  let s := { s with recover := s.maxseq }
  let s :=
    if s.highest_ack = -1 ∧ s.wnd_init_option = .draft then { s with wnd_init_option := .static }
    else if s.highest_ack = -1 ∧ s.wnd_init_option = .static ∧ s.wnd_init > 1 ∧ c.bugfix_ss then
      { s with wnd_init := 1 }
    else s
  if s.highest_ack = s.maxseq ∧ c.restart_bugfix then s.slowdown c false .one
  else if s.highest_ack < s.recover ∧ s.last_cwnd_action = .ecn then s.slowdown c false .one
  else slowdown c { s with last_cwnd_action := .timeout } true .restart

def timeout : TcpAgent × List TcpPacket :=
  let s :=
    if c.reno then
      { s with
        dupwnd := 0
        dupacks := 0
        recover := if c.bug_fix then s.maxseq else s.recover }
    else s
  let s := if s.cwnd < 1 then { s with cwnd := 1 } else s
  let s := if s.highest_ack = s.maxseq ∧ ¬ c.slow_start_restart then s else s.restart c
  send_much c { s.reset_rtx_timer false with last_cwnd_action := .timeout }

/-- The application has more to send. -/
def advanceby (delta : ℕ) : TcpAgent × List TcpPacket :=
  send_much c { s with curseq := s.curseq + delta }

end TcpAgent

end Ns2
