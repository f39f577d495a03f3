import Ns2.Lib.Machine

/-! One connection of the HDLC link layer of satellite/sat-hdlc.cc, with `RESET_HDLC` defined.
Frames and packets are given by their numbers and a payload; timers are pending or not. -/

namespace Ns2

def HDLC_MWS : ℕ := 65536

def HDLC_MWM : ℕ := HDLC_MWS - 1

inductive SS_t
  | RR
  | REJ
  | RNR
  | SREJ
  deriving DecidableEq

inductive COMMAND_t
  | SABME
  | UA
  deriving DecidableEq

inductive HdlcFrame (P : Type)
  | I_frame (recv_seqno : ℤ) (send_seqno : ℕ) (p : P)
  | S_frame (stype : SS_t) (recv_seqno : ℤ)
  | U_frame (utype : COMMAND_t)
  deriving DecidableEq

/-- `down` and `up` collect what goes to the channel and what goes to the upper layer. -/
structure ARQstate (P : Type) where
  t_seqno_ : ℤ
  seqno_ : ℕ
  maxseq_ : ℤ
  highest_ack_ : ℤ
  recv_seqno_ : ℤ
  nrexmit_ : ℕ
  ntimeouts_ : ℤ
  SABME_req_ : ℕ
  sentREJ_ : Bool
  save_ : Bool
  seen_ : ℕ → Option P
  nextpkt_ : ℤ
  maxseen_ : ℤ
  rtx_timer_ : Bool
  reset_timer_ : Bool
  delay_timer_ : Bool
  sendBuf_ : List (ℕ × P)
  down : List (HdlcFrame P)
  up : List P

structure HdlcSettings where
  wnd_ : ℤ
  queueSize_ : ℤ
  maxTimeouts_ : ℤ
  selRepeat_ : Bool
  delAck_ : Bool

def HdlcSettings.reset_timeout (h : HdlcSettings) : HdlcSettings :=
  { h with maxTimeouts_ := if h.maxTimeouts_ < 1 then 1 else h.maxTimeouts_ }

/-- `list_head_` is the state of the connection to the one peer. -/
structure HDLC (P : Type) where
  settings : HdlcSettings
  list_head_ : Option (ARQstate P)

namespace ARQstate

variable {P : Type}

/-- `maxseen_` is not initialised. -/
def newEntry (maxseen : ℤ) : ARQstate P where
  t_seqno_ := 0
  seqno_ := 0
  maxseq_ := 0
  highest_ack_ := -1
  recv_seqno_ := -1
  nrexmit_ := 0
  ntimeouts_ := 0
  SABME_req_ := 0
  sentREJ_ := false
  save_ := false
  seen_ _ := none
  nextpkt_ := 0
  maxseen_ := maxseen
  rtx_timer_ := false
  reset_timer_ := false
  delay_timer_ := false
  sendBuf_ := []
  down := []
  up := []

def sendDown (f : HdlcFrame P) (a : ARQstate P) : ARQstate P := { a with down := a.down ++ [f] }

def sendUp (p : P) (a : ARQstate P) : ARQstate P := { a with up := a.up ++ [p] }

def inSendBuffer (h : HdlcSettings) (p : P) (a : ARQstate P) : ARQstate P :=
  if (a.sendBuf_.length : ℤ) ≥ h.queueSize_ then a else
  { a with
    seqno_ := a.seqno_ + 1
    sendBuf_ := a.sendBuf_ ++ [(a.seqno_, p)] }

def set_rtx_timer (a : ARQstate P) : ARQstate P := { a with rtx_timer_ := true }

def cancel_rtx_timer (a : ARQstate P) : ARQstate P := { a with rtx_timer_ := false }

/-- The first packet asks for the connection. -/
def firstRequest (a : ARQstate P) : ARQstate P :=
  if a.SABME_req_ = 0 ∧ a.t_seqno_ = 0 then
    { a.sendDown (.U_frame .SABME) with SABME_req_ := 1 }.set_rtx_timer
  else a

def getPkt (buffer : List (ℕ × P)) (seqno : ℤ) : Option (ℕ × P) :=
  buffer.find? fun p => (p.1 : ℤ) = seqno

/-- `sendBuf_.remove(getPkt(sendBuf_, seqno))`. -/
def remove (seqno : ℤ) (a : ARQstate P) : ARQstate P :=
  { a with sendBuf_ := a.sendBuf_.eraseP fun p => (p.1 : ℤ) = seqno }

def ackNumber (h : HdlcSettings) (a : ARQstate P) : ℤ :=
  if h.selRepeat_ then a.nextpkt_ else a.recv_seqno_

def output (h : HdlcSettings) (dp : ℕ × P) (seqno : ℤ) (a : ARQstate P) : ARQstate P :=
  let force_set_rtx_timer := a.highest_ack_ == a.maxseq_
  let b := { a.sendDown (.I_frame (a.ackNumber h) dp.1 dp.2) with
    delay_timer_ := false
    save_ := false
    maxseq_ := if seqno > a.maxseq_ then seqno else a.maxseq_
    nrexmit_ := if seqno < a.maxseq_ then a.nrexmit_ + 1 else a.nrexmit_ }
  if !a.rtx_timer_ || force_set_rtx_timer then b.set_rtx_timer else b

def dataToSend (h : HdlcSettings) (a : ARQstate P) : Option (ℕ × P) :=
  if a.t_seqno_ ≤ a.highest_ack_ + h.wnd_ then getPkt a.sendBuf_ a.t_seqno_ else none

/-- `output(dp, a, a->t_seqno_); a->t_seqno_++`. -/
def outputNext (h : HdlcSettings) (dp : ℕ × P) (a : ARQstate P) : ARQstate P :=
  let a' := a.output h dp a.t_seqno_
  { a' with t_seqno_ := a'.t_seqno_ + 1 }

def sendLoop (h : HdlcSettings) : ℕ → ARQstate P → ARQstate P
  | 0, a => a
  | n + 1, a =>
    match a.dataToSend h with
    | some dp => sendLoop h n (a.outputNext h dp)
    | none => a

def sendMuch (h : HdlcSettings) (a : ARQstate P) : Option (ARQstate P) :=
  if a.SABME_req_ = 2 then
    some (sendLoop h (a.highest_ack_ + h.wnd_ + 1 - a.t_seqno_).toNat a)
  else none

def sendRR (h : HdlcSettings) (a : ARQstate P) : ARQstate P :=
  a.sendDown (.S_frame .RR (a.ackNumber h))

def sendREJ (a : ARQstate P) : ARQstate P := a.sendDown (.S_frame .REJ a.recv_seqno_)

def sendSREJ (seq : ℤ) (a : ARQstate P) : ARQstate P := a.sendDown (.S_frame .SREJ seq)

def ack (h : HdlcSettings) (a : ARQstate P) : ARQstate P :=
  match if a.t_seqno_ > 0 then a.dataToSend h else none with
  | some dp => a.outputNext h dp
  | none => a.sendRR h

def delayTimeout (h : HdlcSettings) (a : ARQstate P) : ARQstate P :=
  if a.save_ then { a.ack h with save_ := false } else a

def handlePiggyAck (recv_seqno : ℤ) (a : ARQstate P) : Option (ARQstate P) :=
  let seqno := recv_seqno - 1
  let acked :=
    if seqno > a.highest_ack_ then
      (getPkt a.sendBuf_ seqno).map fun _ =>
        let a := { a.remove seqno with highest_ack_ := seqno }
        if a.t_seqno_ > seqno || seqno < a.maxseq_ then a.set_rtx_timer else a.cancel_rtx_timer
    else some a
  acked.map fun a => { a with ntimeouts_ := 0 }

def handleRR (h : HdlcSettings) (recv_seqno : ℤ) (a : ARQstate P) : Option (ARQstate P) :=
  let seqno := recv_seqno - 1
  if a.SABME_req_ ≠ 2 then some a else
  let a :=
    if seqno > a.highest_ack_ then
      let a :=
        if (getPkt a.sendBuf_ seqno).isSome then { a.remove seqno with highest_ack_ := seqno }
        else a
      if a.t_seqno_ - 1 > seqno || seqno < a.maxseq_ then a.set_rtx_timer else a.cancel_rtx_timer
    else a
  { a with ntimeouts_ := 0 }.sendMuch h

def handleREJ (h : HdlcSettings) (recv_seqno : ℤ) (a : ARQstate P) : Option (ARQstate P) :=
  if a.SABME_req_ ≠ 2 then some a else { a with t_seqno_ := recv_seqno }.sendMuch h

def handleSREJ (h : HdlcSettings) (recv_seqno : ℤ) (a : ARQstate P) : Option (ARQstate P) :=
  if a.SABME_req_ ≠ 2 then some a else
  (getPkt a.sendBuf_ recv_seqno).map fun dp => a.output h dp recv_seqno

def handleUA (h : HdlcSettings) (a : ARQstate P) : Option (ARQstate P) :=
  if a.t_seqno_ = 0 ∧ a.SABME_req_ = 1 then
    { a with SABME_req_ := 2 }.cancel_rtx_timer.sendMuch h
  else some a

/-- The packets out of order that `reset` passes up. -/
def purge (h : HdlcSettings) (a : ARQstate P) : List P :=
  if h.selRepeat_ then (List.range HDLC_MWS).filterMap a.seen_ else []

def set_reset_timer (a : ARQstate P) : ARQstate P := { a with reset_timer_ := true }

def delayAck (h : HdlcSettings) (a : ARQstate P) : Option (ARQstate P) :=
  if h.delAck_ then
    if a.delay_timer_ then some a
    else if a.save_ then none
    else some { a with save_ := true, delay_timer_ := true }
  else some (a.ack h)

def takeInOrder (a : ARQstate P) : ARQstate P :=
  { a with
    sentREJ_ := if a.sentREJ_ then false else a.sentREJ_
    recv_seqno_ := a.recv_seqno_ + 1 }

def goBackNMode (h : HdlcSettings) (send_seqno : ℕ) (p : P) (a : ARQstate P) :
    Option (HdlcSettings × ARQstate P) :=
  if send_seqno = a.recv_seqno_ then
    (a.takeInOrder.delayAck h).map fun b => (h, sendUp p b)
  else if send_seqno > a.recv_seqno_ then
    if !a.sentREJ_ then
      some (h.reset_timeout, { a with sentREJ_ := true }.sendREJ.set_reset_timer)
    else some (h, a)
  else some (h, a.ack h)

def slot (seq : ℤ) : ℕ := (seq % HDLC_MWS).toNat

def setSeen (seq : ℤ) (p : Option P) (a : ARQstate P) : ARQstate P :=
  { a with seen_ := Function.update a.seen_ (slot seq) p }

/-- Every round empties a slot, so that `HDLC_MWS` rounds are enough. -/
def deliverLoop : ℕ → ℤ → ARQstate P → ℤ × ARQstate P
  | 0, next, a => (next, a)
  | n + 1, next, a =>
    match a.seen_ (slot next) with
    | some rpkt => deliverLoop n (next + 1) ((a.setSeen next none).sendUp rpkt)
    | none => (next, a)

def rejectLoop (maxseen : ℤ) (n : ℕ) (a : ARQstate P) : ARQstate P :=
  (List.range n).foldl (fun a (i : ℕ) => a.sendSREJ (maxseen + 1 + i)) a

def setNextpkt (next : ℤ) (a : ARQstate P) : ARQstate P := { a with nextpkt_ := next }

/-- A packet that is the highest so far. -/
def noteHighest (seq : ℤ) (p : P) (a : ARQstate P) : ARQstate P :=
  if seq > a.maxseen_ then
    setSeen seq (some p)
      { a.rejectLoop a.maxseen_ (seq - a.maxseen_ - 1).toNat with maxseen_ := seq }
  else a

def selectiveRepeatMode (h : HdlcSettings) (seq : ℤ) (p : P) (a : ARQstate P) : ARQstate P :=
  let just_marked_as_seen := decide (seq > a.maxseen_)
  let b := a.noteHighest seq p
  if seq < b.nextpkt_ then b.ack h
  else if seq ≥ b.nextpkt_ ∧ seq ≤ b.maxseen_ then
    if (b.seen_ (slot seq)).isSome && !just_marked_as_seen then b.ack h
    else
      let r := deliverLoop HDLC_MWS b.nextpkt_ (b.setSeen seq (some p))
      (r.2.setNextpkt r.1).ack h
  else b

/-- The first data frame completes the set-up of the connection. -/
def confirm (a : ARQstate P) : ARQstate P :=
  if a.recv_seqno_ = -1 ∧ a.SABME_req_ = 0 then { a with SABME_req_ := 2 } else a

def firstData (send_seqno : ℕ) (a : ARQstate P) : ARQstate P :=
  if send_seqno = 0 ∧ a.recv_seqno_ = -1 then { a with recv_seqno_ := 0 } else a

def recvMode (h : HdlcSettings) (send_seqno : ℕ) (p : P) (a : ARQstate P) :
    Option (HdlcSettings × ARQstate P) :=
  if h.selRepeat_ then some (h, a.selectiveRepeatMode h send_seqno p)
  else a.goBackNMode h send_seqno p

def recvIframe (h : HdlcSettings) (rseq : ℤ) (send_seqno : ℕ) (p : P) (a : ARQstate P) :
    Option (HdlcSettings × ARQstate P) :=
  if a.SABME_req_ = 1 then some (h, a) else
  (if rseq > -1 then a.confirm.handlePiggyAck rseq else some a.confirm).bind fun a =>
  ((a.firstData send_seqno).recvMode h send_seqno p).bind fun r =>
  (if rseq > -1 then r.2.sendMuch r.1 else some r.2).map fun a => (r.1, a)

end ARQstate

inductive HdlcEvent (P : Type)
  | outgoing (p : P) (maxseen : ℤ)
  | frame (f : HdlcFrame P) (maxseen : ℤ)
  | rtxTimeout
  | delayTimeout
  | resetTimeout

namespace HDLC

variable {P : Type}

open ARQstate

def recvOutgoing (p : P) (maxseen : ℤ) (x : HDLC P) : Option (HDLC P × List P) :=
  let a := (x.list_head_.getD (newEntry maxseen)).firstRequest.inSendBuffer x.settings p
  (if a.SABME_req_ = 2 then a.sendMuch x.settings else some a).map fun a =>
    (⟨x.settings, some a⟩, [])

/-- `reset` and `removeState`, with what it passes up. -/
def reset (a : ARQstate P) (x : HDLC P) : HDLC P × List P :=
  (⟨x.settings, none⟩, a.purge x.settings)

def handleSABMErequest (maxseen : ℤ) (x : HDLC P) : HDLC P × List P :=
  (⟨x.settings, some ((newEntry maxseen).sendDown (.U_frame .UA))⟩,
    (x.list_head_.map fun a => a.purge x.settings).getD [])

/-- A handler that does nothing when there is no state. -/
def withState (handle : ARQstate P → Option (ARQstate P)) (x : HDLC P) :
    Option (HDLC P × List P) :=
  match x.list_head_ with
  | some a => (handle a).map fun a => (⟨x.settings, some a⟩, [])
  | none => some (x, [])

def recvIncoming (maxseen : ℤ) (x : HDLC P) : HdlcFrame P → Option (HDLC P × List P)
  | .I_frame recv_seqno send_seqno p =>
    match x.list_head_ with
    | some a => (a.recvIframe x.settings recv_seqno send_seqno p).map fun r => (⟨r.1, some r.2⟩, [])
    | none => some (x, [])
  | .S_frame .RR recv_seqno => x.withState (handleRR x.settings recv_seqno)
  | .S_frame .REJ recv_seqno => x.withState (handleREJ x.settings recv_seqno)
  | .S_frame .RNR _ => some (x, [])
  | .S_frame .SREJ recv_seqno => x.withState (handleSREJ x.settings recv_seqno)
  | .U_frame .SABME => some (x.handleSABMErequest maxseen)
  | .U_frame .UA => x.withState (handleUA x.settings)

/-- `timeout`; a SABME request is built from the packet that `getPkt` finds. -/
def timeout (a : ARQstate P) (x : HDLC P) : Option (HDLC P × List P) :=
  let a := { a with rtx_timer_ := false, ntimeouts_ := a.ntimeouts_ + 1 }
  if a.ntimeouts_ > x.settings.maxTimeouts_ then some (x.reset a)
  else if a.SABME_req_ ≠ 0 ∧ a.t_seqno_ = 0 then
    (getPkt a.sendBuf_ 0).map fun _ =>
      (⟨x.settings, some (a.sendDown (.U_frame .SABME)).set_rtx_timer⟩, [])
  else if a.highest_ack_ = a.maxseq_ then
    some (⟨x.settings, some { a.set_rtx_timer with t_seqno_ := a.highest_ack_ + 1 }⟩, [])
  else ({ a with t_seqno_ := a.highest_ack_ + 1 }.sendMuch x.settings).map fun a =>
    (⟨x.settings, some a⟩, [])

/-- A timer that is not pending does not expire. -/
def whenPending (pending : ARQstate P → Bool)
    (expire : ARQstate P → Option (HDLC P × List P)) (x : HDLC P) : Option (HDLC P × List P) :=
  match x.list_head_ with
  | some a => if pending a then expire a else some (x, [])
  | none => some (x, [])

def step (x : HDLC P) : HdlcEvent P → Option (HDLC P × List P)
  | .outgoing p maxseen => x.recvOutgoing p maxseen
  | .frame f maxseen => x.recvIncoming maxseen f
  | .rtxTimeout => x.whenPending rtx_timer_ fun a => x.timeout a
  | .delayTimeout => x.whenPending delay_timer_ fun a =>
      some (⟨x.settings, some ({ a with delay_timer_ := false }.delayTimeout x.settings)⟩, [])
  | .resetTimeout => x.whenPending reset_timer_ fun a => some (x.reset a)

def start (settings : HdlcSettings) : HDLC P := ⟨settings, none⟩

end HDLC

/-! ### What the operations leave alone -/

namespace ARQstate

variable {P : Type} {h : HdlcSettings} {a b c : ARQstate P}

/-- What goes on beside the send buffer. -/
structure SameBuffer (a b : ARQstate P) : Prop where
  buf : b.sendBuf_ = a.sendBuf_
  seqno : b.seqno_ = a.seqno_
  highest : b.highest_ack_ = a.highest_ack_
  sabme : b.SABME_req_ = a.SABME_req_
  saved : (a.save_ = true → a.delay_timer_ = true) → b.save_ = true → b.delay_timer_ = true

/-- What goes on beside the rejects. -/
structure SameGap (a b : ARQstate P) : Prop where
  awaited : b.recv_seqno_ = a.recv_seqno_
  rejected : b.sentREJ_ = a.sentREJ_
  armed : b.reset_timer_ = a.reset_timer_

structure Sends (a b : ARQstate P) : Prop extends SameBuffer a b, SameGap a b

theorem SameBuffer.refl : SameBuffer a a := ⟨rfl, rfl, rfl, rfl, id⟩

theorem SameBuffer.trans (hab : SameBuffer a b) (hbc : SameBuffer b c) : SameBuffer a c where
  buf := hbc.buf.trans hab.buf
  seqno := hbc.seqno.trans hab.seqno
  highest := hbc.highest.trans hab.highest
  sabme := hbc.sabme.trans hab.sabme
  saved hs := hbc.saved (hab.saved hs)

theorem SameGap.refl : SameGap a a := ⟨rfl, rfl, rfl⟩

theorem SameGap.trans (hab : SameGap a b) (hbc : SameGap b c) : SameGap a c where
  awaited := hbc.awaited.trans hab.awaited
  rejected := hbc.rejected.trans hab.rejected
  armed := hbc.armed.trans hab.armed

theorem Sends.refl : Sends a a := ⟨.refl, .refl⟩

theorem Sends.trans (hab : Sends a b) (hbc : Sends b c) : Sends a c :=
  ⟨hab.toSameBuffer.trans hbc.toSameBuffer, hab.toSameGap.trans hbc.toSameGap⟩

theorem sends_output (dp : ℕ × P) (seqno : ℤ) : Sends a (a.output h dp seqno) := by
  rw [output]
  split <;> exact ⟨⟨rfl, rfl, rfl, rfl, fun _ hs => by cases hs⟩, rfl, rfl, rfl⟩

theorem sends_outputNext (dp : ℕ × P) : Sends a (a.outputNext h dp) :=
  (sends_output dp a.t_seqno_).trans ⟨⟨rfl, rfl, rfl, rfl, id⟩, rfl, rfl, rfl⟩

theorem sends_sendLoop (m : ℕ) : Sends a (sendLoop h m a) := by
  induction m generalizing a with
  | zero => exact .refl
  | succ m ih =>
    rw [sendLoop]
    split
    · exact (sends_outputNext _).trans ih
    · exact .refl

theorem Sends.of_sendMuch (hb : a.sendMuch h = some b) : Sends a b := by
  rw [sendMuch] at hb
  split at hb
  · obtain rfl := Option.some.inj hb
    exact sends_sendLoop _
  · simp at hb

theorem sends_sendDown (f : HdlcFrame P) : Sends a (a.sendDown f) :=
  ⟨⟨rfl, rfl, rfl, rfl, id⟩, rfl, rfl, rfl⟩

theorem sends_ack : Sends a (a.ack h) := by
  rw [ack]
  split
  · exact sends_outputNext _
  · exact sends_sendDown _

theorem sends_delayAck (hb : a.delayAck h = some b) : Sends a b := by
  rw [delayAck] at hb
  split_ifs at hb
  · obtain rfl := Option.some.inj hb
    exact .refl
  · obtain rfl := Option.some.inj hb
    exact ⟨⟨rfl, rfl, rfl, rfl, fun _ _ => rfl⟩, rfl, rfl, rfl⟩
  · obtain rfl := Option.some.inj hb
    exact sends_ack

theorem sends_rejectLoop (m : ℤ) (k : ℕ) : Sends a (a.rejectLoop m k) := by
  induction k with
  | zero => exact .refl
  | succ k ih =>
    rw [rejectLoop, List.range_succ, List.foldl_concat]
    exact ih.trans (sends_sendDown _)

theorem sends_setSeen (seq : ℤ) (p : Option P) : Sends a (a.setSeen seq p) :=
  ⟨⟨rfl, rfl, rfl, rfl, id⟩, rfl, rfl, rfl⟩

theorem sends_setNextpkt (next : ℤ) : Sends a (a.setNextpkt next) :=
  ⟨⟨rfl, rfl, rfl, rfl, id⟩, rfl, rfl, rfl⟩

theorem sends_sendUp (p : P) : Sends a (a.sendUp p) := ⟨⟨rfl, rfl, rfl, rfl, id⟩, rfl, rfl, rfl⟩

theorem sends_deliverLoop (m : ℕ) (next : ℤ) : Sends a (deliverLoop m next a).2 := by
  induction m generalizing next a with
  | zero => exact .refl
  | succ m ih =>
    rw [deliverLoop]
    split
    · exact ((sends_setSeen _ _).trans (sends_sendUp _)).trans (ih _)
    · exact .refl

theorem sends_noteHighest (seq : ℤ) (p : P) : Sends a (a.noteHighest seq p) := by
  rw [noteHighest]
  split
  · exact (sends_rejectLoop _ _).trans ⟨⟨rfl, rfl, rfl, rfl, id⟩, rfl, rfl, rfl⟩
  · exact .refl

theorem sends_selectiveRepeatMode (seq : ℤ) (p : P) :
    Sends a (a.selectiveRepeatMode h seq p) := by
  have hmark := @sends_noteHighest P a seq p
  simp only [selectiveRepeatMode]
  split_ifs
  · exact hmark.trans sends_ack
  · exact hmark.trans sends_ack
  · have hloop := (@sends_setSeen P (a.noteHighest seq p) seq (some p)).trans
      (sends_deliverLoop HDLC_MWS (a.noteHighest seq p).nextpkt_)
    exact (hmark.trans hloop).trans ((sends_setNextpkt _).trans sends_ack)
  · exact hmark

end ARQstate

end Ns2
