import Ns2.Tcp.AckerWindow
import Ns2.Tcp.TcpAgentSteps

/-! A TCP sender and its sink over a network that may lose, repeat and reorder what they send: no
packet is acknowledged that did not arrive, and no run can be stuck. -/

namespace Ns2

/-- All that was sent may arrive at any time, any number of times or never. -/
structure TcpTransfer where
  sender : TcpAgent
  sink : Acker
  data : List TcpPacket
  acks : List ℤ

namespace TcpTransfer

/-- The bits of the flags header that the sender reads are what the network made of them. -/
inductive Event
  | advanceby (delta : ℕ)
  | timeout
  | data (k : ℕ)
  | ack (k : ℕ) (ecnecho cong_action : Bool)
  deriving DecidableEq

variable (c : TcpConfig)

/-- What the sender leaves and sends. -/
def send (s : TcpTransfer) (r : TcpAgent × List TcpPacket) : TcpTransfer :=
  { s with sender := r.1, data := s.data ++ r.2 }

/-- `TcpSink::recv` -/
def recv (s : TcpTransfer) (p : TcpPacket) : Option TcpTransfer :=
  (s.sink.update p.seqno p.size).map fun r =>
    { s with sink := r.1, acks := s.acks ++ [r.1.Seqno] }

/-- The timer expires only if it runs. -/
def step (s : TcpTransfer) : Event → Option (TcpTransfer × Unit)
  | .advanceby delta => some (s.send (s.sender.advanceby c delta), ())
  | .timeout => some (if s.sender.rtx_timer then s.send (s.sender.timeout c) else s, ())
  | .data k => ((s.data[k]?).elim (some s) s.recv).map fun s => (s, ())
  | .ack k ecnecho cong_action =>
    some ((s.acks[k]?).elim s fun seqno =>
      s.send (s.sender.recv c ⟨seqno, ecnecho, cong_action⟩), ())

def start (wnd_init : ℚ) (opt : WndInitOption) : TcpTransfer :=
  ⟨.reset c wnd_init opt, .reset ⟨0, 0, 63, fun _ => 0, false⟩, [], []⟩

open TcpAgent

variable {c} {s t : TcpTransfer}

/-- What holds of a connection at any time. -/
structure Inv (c : TcpConfig) (s : TcpTransfer) : Prop where
  window : s.sender.Window
  place : s.sender.Place
  awake : c.ecn = false ∨ c.timerfix = true → Awake c s.sender
  fits : ∀ p ∈ s.data, Fits c s.sender p
  arrived : ∃ as : List (ℤ × ℤ), Acker.Inv as s.sink ∧ ∀ a ∈ as, ⟨a.1, a.2⟩ ∈ s.data
  acked : s.sender.highest_ack ≤ s.sink.Seqno
  acks : ∀ a ∈ s.acks, a ≤ s.sink.Seqno ∧ 0 ≤ s.sender.maxseq

/-- What arrived in order was sent. -/
theorem Inv.seqno_le (h : s.Inv c) : s.sink.Seqno ≤ s.sender.maxseq := by
  obtain ⟨as, hinv, hdata⟩ := h.arrived
  have h0 := hinv.next_nonneg
  have hlow := h.place.low
  have hnext := h.place.next
  have hsent := h.place.sent
  by_cases hpos : 0 < s.sink.next_
  · have hne := hinv.below (s.sink.next_ - 1) (by omega) (by omega)
    obtain ⟨n, hn⟩ := (Acker.recorded_ne_zero fun a ha => (hinv.pos a ha).2).mp hne
    exact (h.fits _ (hdata _ hn)).sent
  · rw [Acker.Seqno]
    omega

theorem Inv.send (h : s.Inv c) {r : TcpAgent × List TcpPacket} (hr : Result c s.sender r)
    (hawake : c.ecn = false ∨ c.timerfix = true → Awake c r.1)
    (hack : r.1.highest_ack ≤ s.sink.Seqno) :
    (s.send r).Inv c := by
  obtain ⟨as, hinv, hdata⟩ := h.arrived
  exact ⟨hr.window, hr.place, hawake,
    List.forall_mem_append.mpr ⟨fun p hp => (h.fits p hp).mono hr.grows, hr.fits⟩,
    ⟨as, hinv, fun a ha => List.mem_append_left _ (hdata a ha)⟩, hack,
    fun a ha => ⟨(h.acks a ha).1, (h.acks a ha).2.trans hr.grows.maxseq⟩⟩

theorem Inv.recv (h : s.Inv c) {p : TcpPacket} (hp : p ∈ s.data) :
    ∃ t, s.recv p = some t ∧ t.Inv c ∧ t.sender = s.sender ∧ t.data = s.data ∧
      s.sink.Seqno ≤ t.sink.Seqno ∧ t.sink.Seqno ∈ t.acks ∧
      (s.sink.Seqno + 1 = p.seqno → p.seqno ≤ t.sink.Seqno) := by
  obtain ⟨as, hinv, hdata⟩ := h.arrived
  have hfit := h.fits p hp
  obtain ⟨sink, bytes, hup, hupd⟩ := hinv.update hfit.low hfit.size
  have hle : s.sink.Seqno ≤ sink.Seqno := Int.sub_le_sub_right hupd.next_le 1
  refine ⟨{ s with sink := sink, acks := s.acks ++ [sink.Seqno] },
    by rw [TcpTransfer.recv, hup]; rfl, ⟨h.window, h.place, h.awake, h.fits,
      ⟨_, hupd.inv, List.forall_mem_append.mpr ⟨hdata, ?_⟩⟩, h.acked.trans hle,
      List.forall_mem_append.mpr ⟨fun a ha => ⟨(h.acks a ha).1.trans hle, (h.acks a ha).2⟩, ?_⟩⟩,
    rfl, rfl, hle,
    List.mem_append_right _ (List.mem_singleton_self _), fun hnext => ?_⟩
  · simpa using hp
  · simpa using hfit.low.trans hfit.sent
  · -- the packet was missing, and now it is there
    by_contra hlt
    have hgap := hupd.inv.gap
    have heq : sink.next_ = p.seqno := by
      simp only [Acker.Seqno] at hle hlt hnext
      omega
    rw [heq, Acker.recorded_append, if_pos rfl] at hgap
    exact hfit.size.ne' hgap

theorem Inv.step (h : s.Inv c) (hc : c.Valid) (e : Event) :
    ∃ t, s.step c e = some (t, ()) ∧ t.Inv c := by
  cases e with
  | advanceby delta =>
    obtain ⟨hr, hawake⟩ := advanceby_result hc h.window h.place delta
    refine ⟨_, rfl, h.send hr (fun hf => hawake (h.awake hf)) ?_⟩
    rw [advanceby, (send_much_end c _).1]
    exact h.acked
  | timeout =>
    refine ⟨_, rfl, ?_⟩
    split_ifs
    · obtain ⟨hr, hawake, hhigh, -⟩ := timeout_result hc h.window h.place
      exact h.send hr (fun _ => hawake) (hhigh.trans_le h.acked)
    · exact h
  | data k =>
    rw [TcpTransfer.step]
    cases hk : s.data[k]? with
    | none => exact ⟨s, rfl, h⟩
    | some p =>
      obtain ⟨t, ht, hinv, -⟩ := h.recv (List.mem_of_getElem? hk)
      exact ⟨t, by rw [Option.elim_some, ht]; rfl, hinv⟩
  | ack k ecnecho cong_action =>
    rw [TcpTransfer.step]
    cases hk : s.acks[k]? with
    | none => exact ⟨s, rfl, h⟩
    | some seqno =>
      obtain ⟨hack, hmax⟩ := h.acks seqno (List.mem_of_getElem? hk)
      obtain ⟨hr, hhigh, hawake, -⟩ := recv_result hc h.window h.place
        (a := ⟨seqno, ecnecho, cong_action⟩) (hack.trans h.seqno_le)
      refine ⟨_, rfl, h.send hr (fun hf => hawake hf hmax (h.awake hf)) ?_⟩
      rw [hhigh]
      exact max_le h.acked hack

theorem inv_start (hc : c.Valid) {wnd_init : ℚ} (hinit : 1 ≤ wnd_init) (opt : WndInitOption) :
    (start c wnd_init opt).Inv c := by
  obtain ⟨hw, hp, ha⟩ := reset_keeps hc hinit opt
  exact ⟨hw, hp, fun _ => ha, List.forall_mem_nil _, ⟨[], Acker.inv_reset ⟨6, le_rfl, rfl⟩,
    List.forall_mem_nil _⟩, le_rfl, List.forall_mem_nil _⟩

theorem inv_of_run (hc : c.Valid) {wnd_init : ℚ} (hinit : 1 ≤ wnd_init) (opt : WndInitOption)
    (es : List Event) :
    ∃ s os, Machine.run (step c) (start c wnd_init opt) es = some (s, os) ∧ s.Inv c :=
  Machine.run_total (fun _ e hs _ =>
    let ⟨t, ht, hinv⟩ := hs.step hc e
    ⟨t, (), ht, hinv⟩) (inv_start hc hinit opt) (Machine.admits_true _ _ _)

/-- Whatever the network does, the sender takes only packets for acknowledged that have arrived in
order, the sink receives only packets that were sent, no packet that was sent lies outside the
window that the sink offers, and the timer runs while packets are not acknowledged. -/
theorem never_ahead (hc : c.Valid) {wnd_init : ℚ} (hinit : 1 ≤ wnd_init) (opt : WndInitOption)
    (es : List Event) : ∃ s os, Machine.run (step c) (start c wnd_init opt) es = some (s, os) ∧
      s.sender.highest_ack ≤ s.sink.Seqno ∧ s.sink.Seqno ≤ s.sender.maxseq ∧
      (∀ p ∈ s.data, p.seqno ≤ s.sink.Seqno + ⌊c.wnd⌋) ∧
      (s.sender.highest_ack < s.sender.maxseq → s.sender.rtx_timer = true) := by
  obtain ⟨s, os, hrun, hs⟩ := inv_of_run hc hinit opt es
  refine ⟨s, os, hrun, hs.acked, hs.seqno_le, fun p hp => ?_, hs.place.timer⟩
  have hwnd := (hs.fits p hp).wnd
  have hacked := hs.acked
  rw [toInt_eq_floor (zero_le_one.trans hc.wnd)] at hwnd
  omega

/-- The settings of the distribution. -/
def settings (reno ecn : Bool) : TcpConfig where
  reno := reno
  wnd := 20
  wnd_restart := 1
  wnd_option := .standard
  decrease_num := 1 / 2
  increase_num := 1
  maxcwnd := 0
  numdupacks := 3
  max_ssthresh := 0
  maxburst := 0
  size := 1000
  headersize := 40
  tcpip_base_hdr_size := 40
  useHeaders := true
  syn := true
  delay_growth := true
  bug_fix := true
  bugfix_ss := true
  noFastRetrans := false
  exitFastRetrans := true
  singledup := true
  aggressive_maxburst := true
  slow_start_restart := true
  restart_bugfix := true
  timerfix := true
  control_increase := false
  precision_reduce := true
  ecn := ecn
  old_ecn := false

theorem settings_valid (reno ecn : Bool) : (settings reno ecn).Valid := by
  constructor <;> norm_num [settings]

theorem never_ahead_settings : ∃ s os,
    Machine.run (TcpTransfer.step (settings true true)) (start (settings true true) 2 .static)
      [.advanceby 3, .data 0, .ack 0 false false, .timeout] = some (s, os) ∧
      s.sender.highest_ack ≤ s.sink.Seqno ∧ s.sink.Seqno ≤ s.sender.maxseq ∧
      (∀ p ∈ s.data, p.seqno ≤ s.sink.Seqno + ⌊(20 : ℚ)⌋) ∧
      (s.sender.highest_ack < s.sender.maxseq → s.sender.rtx_timer = true) :=
  never_ahead (settings_valid true true) one_le_two .static _

/-- The timer runs, or all is sent and acknowledged. -/
theorem Inv.timer (h : s.Inv c) (hecn : c.ecn = false ∨ c.timerfix = true)
    (hmore : s.sender.highest_ack + 1 < s.sender.curseq) : s.sender.rtx_timer = true := by
  by_cases hlt : s.sender.t_seqno < s.sender.curseq
  · exact (h.awake hecn).waiting hlt
  · have hsent := h.place.sent
    exact h.place.timer (by omega)

/-- An event that the application has no part in. -/
def Event.Quiet (e : Event) : Prop := ∀ delta, e ≠ .advanceby delta

/-- The timer expires, and the first packet that is not acknowledged is sent. -/
theorem Inv.expire (h : s.Inv c) (hc : c.Valid) (hecn : c.ecn = false ∨ c.timerfix = true)
    (hmore : s.sender.highest_ack + 1 < s.sender.curseq) :
    ∃ t, s.step c .timeout = some (t, ()) ∧ t.Inv c ∧
      t.sender.highest_ack = s.sender.highest_ack ∧ s.sender.curseq ≤ t.sender.curseq ∧
      (0 ≤ s.sender.highest_ack → t.sender.curseq = s.sender.curseq) ∧
      ∃ p ∈ t.data, p.seqno = s.sender.highest_ack + 1 := by
  obtain ⟨hr, hawake, hhigh, hsend, hcur⟩ := timeout_result hc h.window h.place
  obtain ⟨p, hp, hpseq⟩ := hsend hmore
  refine ⟨s.send (s.sender.timeout c), ?_, h.send hr (fun _ => hawake) (hhigh.trans_le h.acked),
    hhigh, hr.grows.curseq, hcur, p, List.mem_append_right _ hp, hpseq⟩
  rw [TcpTransfer.step, if_pos (h.timer hecn hmore)]

/-- The packet that the sink waits for arrives. -/
theorem Inv.deliver (h : s.Inv c) {p : TcpPacket} (hp : p ∈ s.data)
    (hseq : p.seqno ≤ s.sink.Seqno + 1) : ∃ k t, s.step c (.data k) = some (t, ()) ∧ t.Inv c ∧
      t.sender = s.sender ∧ ∃ a ∈ t.acks, p.seqno ≤ a := by
  obtain ⟨k, hk⟩ := List.getElem?_of_mem hp
  obtain ⟨t, ht, hinv, hsame, -, hle, hmem, hnext⟩ := h.recv hp
  refine ⟨k, t, by rw [TcpTransfer.step, hk, Option.elim_some, ht]; rfl, hinv, hsame, _, hmem, ?_⟩
  by_cases heq : s.sink.Seqno + 1 = p.seqno
  · exact hnext heq
  · omega

/-- An acknowledgement of something new arrives. -/
theorem Inv.acknowledge (h : s.Inv c) (hc : c.Valid) {a : ℤ} (ha : a ∈ s.acks)
    (hnew : s.sender.highest_ack < a) : ∃ k t, s.step c (.ack k false false) = some (t, ()) ∧
      t.Inv c ∧ t.sender.highest_ack = a ∧ t.sender.curseq = s.sender.curseq := by
  obtain ⟨k, hk⟩ := List.getElem?_of_mem ha
  obtain ⟨hack, hmax⟩ := h.acks a ha
  obtain ⟨hr, hhigh, hawake, hcur⟩ := recv_result hc h.window h.place (a := ⟨a, false, false⟩)
    (hack.trans h.seqno_le)
  refine ⟨k, _, by rw [TcpTransfer.step, hk]; rfl,
    h.send hr (fun hf => hawake hf hmax (h.awake hf)) ?_, ?_, hcur hnew⟩
  · rw [hhigh]
    exact max_le h.acked hack
  · exact hhigh.trans (max_eq_right hnew.le)

/-- One more packet at least is acknowledged. -/
theorem Inv.round (h : s.Inv c) (hc : c.Valid) (hecn : c.ecn = false ∨ c.timerfix = true)
    (hmore : s.sender.highest_ack + 1 < s.sender.curseq) : ∃ es t os,
      Machine.run (TcpTransfer.step c) s es = some (t, os) ∧ t.Inv c ∧ (∀ e ∈ es, e.Quiet) ∧
      s.sender.highest_ack < t.sender.highest_ack ∧ s.sender.curseq ≤ t.sender.curseq ∧
      (0 ≤ s.sender.highest_ack → t.sender.curseq = s.sender.curseq) := by
  obtain ⟨u, h1, hu, hhigh, hle, hcur, p, hp, hpseq⟩ := h.expire hc hecn hmore
  have hacked := hu.acked
  obtain ⟨k, v, h2, hv, hsame, a, ha, hpa⟩ := hu.deliver hp (by omega)
  obtain ⟨j, t, h3, ht, hnew, hkeep⟩ := hv.acknowledge hc ha (by rw [hsame]; omega)
  refine ⟨[.timeout, .data k, .ack j false false], t, [(), (), ()], ?_, ht, ?_, by omega, ?_,
    fun h0 => ?_⟩
  · rw [Machine.run_cons_some h1, Machine.run_cons_some h2, Machine.run_cons_some h3]
    rfl
  · simp [Event.Quiet]
  · rw [hkeep, hsame]
    exact hle
  · rw [hkeep, hsame, hcur h0]

/-- Rounds, until all that the application has produced is acknowledged. -/
theorem Inv.rounds (h : s.Inv c) (hc : c.Valid) (hecn : c.ecn = false ∨ c.timerfix = true)
    (h0 : 0 ≤ s.sender.highest_ack) : ∃ es t os,
      Machine.run (TcpTransfer.step c) s es = some (t, os) ∧ t.Inv c ∧ (∀ e ∈ es, e.Quiet) ∧
      t.sender.curseq = s.sender.curseq ∧ t.sender.curseq ≤ t.sender.highest_ack + 1 := by
  induction hn : (s.sender.curseq - s.sender.highest_ack).toNat using Nat.strong_induction_on
    generalizing s with
  | h n ih =>
    by_cases hmore : s.sender.highest_ack + 1 < s.sender.curseq
    · obtain ⟨es, u, os, hrun, hu, hq, hlt, -, hcur⟩ := h.round hc hecn hmore
      have hsame := hcur h0
      obtain ⟨es', t, os', hrun', ht, hq', hcur', hle⟩ := ih _ (by omega) hu (by omega) rfl
      refine ⟨es ++ es', t, os ++ os', ?_, ht, List.forall_mem_append.mpr ⟨hq, hq'⟩,
        hcur'.trans hsame, hle⟩
      rw [Machine.run_append, hrun, Option.bind_some, hrun', Option.map_some]
    · exact ⟨[], s, [], rfl, h, List.forall_mem_nil _, rfl, by omega⟩

/-- From whatever state a run has led to, whatever was lost, the connection can still deliver all
that the application has produced, and have it acknowledged: no run is stuck. With congestion
notification the window may close, and then a timer is needed that never stops. -/
theorem never_stuck (hc : c.Valid) (hecn : c.ecn = false ∨ c.timerfix = true) {wnd_init : ℚ}
    (hinit : 1 ≤ wnd_init) (opt : WndInitOption) (es : List Event) :
    ∃ s os, Machine.run (TcpTransfer.step c) (start c wnd_init opt) es = some (s, os) ∧
      ∃ es' t os', Machine.run (TcpTransfer.step c) s es' = some (t, os') ∧
        (∀ e ∈ es', e.Quiet) ∧ s.sender.curseq ≤ t.sender.curseq ∧
        t.sender.curseq ≤ t.sender.highest_ack + 1 ∧ t.sender.curseq ≤ t.sink.next_ := by
  obtain ⟨s, os, hrun, hs⟩ := inv_of_run hc hinit opt es
  refine ⟨s, os, hrun, ?_⟩
  have hnext : ∀ t : TcpTransfer, t.Inv c → t.sender.curseq ≤ t.sender.highest_ack + 1 →
      t.sender.curseq ≤ t.sink.next_ := fun t ht hle => by
    have := ht.acked
    rw [Acker.Seqno] at this
    omega
  by_cases hmore : s.sender.highest_ack + 1 < s.sender.curseq
  · have hlow := hs.place.low
    obtain ⟨es1, u, os1, hrun1, hu, hq1, hlt, hle1, -⟩ := hs.round hc hecn hmore
    obtain ⟨es2, t, os2, hrun2, ht, hq2, hcur, hle⟩ := hu.rounds hc hecn (by omega)
    refine ⟨es1 ++ es2, t, os1 ++ os2, ?_, List.forall_mem_append.mpr ⟨hq1, hq2⟩,
      hle1.trans hcur.ge, hle, hnext t ht hle⟩
    rw [Machine.run_append, hrun1, Option.bind_some, hrun2, Option.map_some]
  · exact ⟨[], s, [], rfl, List.forall_mem_nil _, le_rfl, by omega, hnext s hs (by omega)⟩

theorem never_stuck_settings : ∃ s os,
    Machine.run (TcpTransfer.step (settings false true)) (start (settings false true) 2 .static)
      [.advanceby 3, .data 0, .ack 0 true false, .timeout] = some (s, os) ∧
      ∃ es t os', Machine.run (TcpTransfer.step (settings false true)) s es = some (t, os') ∧
        (∀ e ∈ es, e.Quiet) ∧ s.sender.curseq ≤ t.sender.curseq ∧
        t.sender.curseq ≤ t.sender.highest_ack + 1 ∧ t.sender.curseq ≤ t.sink.next_ :=
  never_stuck (settings_valid false true) (.inr rfl) one_le_two .static _

end TcpTransfer

end Ns2
