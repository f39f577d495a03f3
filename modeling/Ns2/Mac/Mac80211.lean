import Ns2.Lib.Machine

/-! How a node sends data frames by 802.11 in ad hoc mode: the handlers of its timers and of the
frames that answer its own. A timer is known by whether it runs; an assertion that fails stops the
program. -/

namespace Ns2

inductive MacState
  | MAC_IDLE
  | MAC_RTS
  | MAC_SEND
  deriving DecidableEq

/-- `size` counts the MAC header. -/
structure MacFrame where
  size : ℕ
  broadcast : Bool
  deriving DecidableEq

structure MacMib where
  RTSThreshold : ℕ
  ShortRetryLimit : ℕ
  LongRetryLimit : ℕ
  CWMin : ℕ
  CWMax : ℕ
  bugFix_timer_ : Bool
  deriving DecidableEq

/-- `rts` and `data` count what was transmitted of the frame that was accepted last. -/
structure Mac802_11 where
  tx_state_ : MacState
  pktTx_ : Option MacFrame
  pktRTS_ : Bool
  callback_ : Bool
  ssrc_ : ℕ
  slrc_ : ℕ
  cw_ : ℕ
  mhSend_ : Bool
  mhDefer_ : Bool
  mhBackoff_ : Bool
  rts : ℕ
  data : ℕ
  deriving DecidableEq

/-- Frames that go without an RTS. -/
def MacMib.Short (c : MacMib) (p : MacFrame) : Prop := p.size < c.RTSThreshold ∨ p.broadcast

instance (c : MacMib) (p : MacFrame) : Decidable (c.Short p) :=
  inferInstanceAs (Decidable (_ ∨ _))

namespace Mac802_11

variable (c : MacMib)

def new : Mac802_11 where
  tx_state_ := .MAC_IDLE
  pktTx_ := none
  pktRTS_ := false
  callback_ := false
  ssrc_ := 0
  slrc_ := 0
  cw_ := c.CWMin
  mhSend_ := false
  mhDefer_ := false
  mhBackoff_ := false
  rts := 0
  data := 0

def inc_cw (s : Mac802_11) : Mac802_11 := { s with cw_ := min (2 * s.cw_ + 1) c.CWMax }

def rst_cw (s : Mac802_11) : Mac802_11 := { s with cw_ := c.CWMin }

/-- `medium` says that nothing is received and the NAV has passed. -/
def is_idle (medium : Bool) (s : Mac802_11) : Bool := medium && s.tx_state_ == .MAC_IDLE

/-- The timers assert that they do not run yet when they are started. -/
def startDefer (s : Mac802_11) : Option Mac802_11 :=
  if s.mhDefer_ then none else some { s with mhDefer_ := true }

def startBackoff (s : Mac802_11) : Option Mac802_11 :=
  if s.mhBackoff_ then none else some { s with mhBackoff_ := true }

/-- The wait of a DIFS and a random time. -/
def contend (s : Mac802_11) : Option Mac802_11 :=
  if c.bugFix_timer_ then s.startBackoff else s.startDefer

def transmit (s : Mac802_11) : Option Mac802_11 :=
  if s.mhSend_ then none else some { s with mhSend_ := true }

def stopSend (s : Mac802_11) : Option Mac802_11 :=
  if s.mhSend_ then some { s with mhSend_ := false } else none

def sendRTS (p : MacFrame) (s : Mac802_11) : Option Mac802_11 :=
  if s.pktRTS_ then none else some { s with pktRTS_ := !decide (c.Short p) }

def sendDATA (p : MacFrame) (s : Mac802_11) : Option Mac802_11 :=
  if s.pktTx_.isSome then none
  else some { s with
    pktTx_ := some p
    rts := 0
    data := 0 }

/-- The wait of a frame that has been accepted. -/
def sendWait (medium : Bool) (s : Mac802_11) : Option Mac802_11 :=
  if s.mhBackoff_ then some s
  else if s.is_idle medium then
    if s.mhDefer_ then some s else s.contend c
  else s.startBackoff

def send (medium : Bool) (p : MacFrame) (s : Mac802_11) : Option Mac802_11 := do
  let s ← sendDATA p { s with callback_ := true }
  let s ← s.sendRTS c p
  s.sendWait c medium

/-- The queue behind `callback_` may hand down its next frame at once. -/
def callback (medium : Bool) (s : Mac802_11) : Option MacFrame → Option Mac802_11
  | none => some { s with callback_ := false }
  | some p => send c medium p { s with callback_ := false }

/-- What `tx_resume` does when no RTS waits. -/
def resumeTx (medium : Bool) (next : Option MacFrame) (s : Mac802_11) :
    Option MacFrame → Option Mac802_11
  | some p =>
    if s.mhBackoff_ then some s
    else if c.Short p then s.contend c
    else s.startDefer
  | none => if s.callback_ then callback c medium s next else some s

def tx_resume (medium : Bool) (next : Option MacFrame) (s : Mac802_11) : Option Mac802_11 :=
  if s.mhSend_ || s.mhDefer_ then none
  else
    (if s.pktRTS_ then
        if s.mhBackoff_ then some s else s.contend c
      else s.resumeTx c medium next s.pktTx_).map fun s => { s with tx_state_ := .MAC_IDLE }

/-- The second component is false for the value -1, with which the caller goes on. -/
def check_pktRTS (medium : Bool) (s : Mac802_11) : Option (Mac802_11 × Bool) :=
  if s.mhBackoff_ then none
  else if s.pktRTS_ then
    if s.is_idle medium then
      (transmit { s with
        tx_state_ := .MAC_RTS
        rts := s.rts + 1 }).map fun s => (s, true)
    else (s.inc_cw c).startBackoff.map fun s => (s, true)
  else some (s, false)

def checkTx (medium : Bool) (s : Mac802_11) : Option MacFrame → Option Mac802_11
  | none => some s
  | some p =>
    if s.is_idle medium then
      transmit { s with
        tx_state_ := .MAC_SEND
        data := s.data + 1 }
    else do
      let s ← s.sendRTS c p
      (s.inc_cw c).startBackoff

/-- Its callers return behind the call, whatever the value. -/
def check_pktTx (medium : Bool) (s : Mac802_11) : Option Mac802_11 :=
  if s.mhBackoff_ then none else s.checkTx c medium s.pktTx_

def backoffHandler (medium : Bool) (s : Mac802_11) : Option Mac802_11 := do
  let (s, done) ← s.check_pktRTS c medium
  if done then some s else s.check_pktTx c medium

def deferHandler (medium : Bool) (s : Mac802_11) : Option Mac802_11 :=
  if s.pktRTS_ || s.pktTx_.isSome then
    if s.mhBackoff_ then none else s.backoffHandler c medium
  else none

def RetransmitRTS (s : Mac802_11) : Option Mac802_11 :=
  if s.pktTx_.isSome && s.pktRTS_ && !s.mhBackoff_ then
    if s.ssrc_ + 1 ≥ c.ShortRetryLimit then
      some (rst_cw c { s with
        pktRTS_ := false
        pktTx_ := none
        ssrc_ := 0 })
    else (inc_cw c { s with ssrc_ := s.ssrc_ + 1 }).startBackoff
  else none

/-- What is left to do for a frame whose retry counter has not reached its limit. -/
def retryDATA (p : MacFrame) (s : Mac802_11) : Option Mac802_11 := do
  let s ← s.sendRTS c p
  (s.inc_cw c).startBackoff

def retransmitTx (s : Mac802_11) : Option MacFrame → Option Mac802_11
  | none => none
  | some p =>
    if p.broadcast then (rst_cw c { s with pktTx_ := none }).startBackoff
    else if p.size ≤ c.RTSThreshold then
      if s.ssrc_ + 1 ≥ c.ShortRetryLimit then
        some (rst_cw c { s with
          pktTx_ := none
          ssrc_ := 0 })
      else retryDATA c p { s with ssrc_ := s.ssrc_ + 1 }
    else if s.slrc_ + 1 ≥ c.LongRetryLimit then
      some (rst_cw c { s with
        pktTx_ := none
        slrc_ := 0 })
    else retryDATA c p { s with slrc_ := s.slrc_ + 1 }

def RetransmitDATA (s : Mac802_11) : Option Mac802_11 :=
  if s.mhBackoff_ || s.pktRTS_ then none else s.retransmitTx c s.pktTx_

/-- What `send_timer` does before it resumes. -/
def sendTimeout (s : Mac802_11) : MacState → Option Mac802_11
  | .MAC_RTS => s.RetransmitRTS c
  | .MAC_SEND => s.RetransmitDATA c
  | .MAC_IDLE => some s

def send_timer (medium : Bool) (next : Option MacFrame) (s : Mac802_11) : Option Mac802_11 := do
  let s ← s.sendTimeout c s.tx_state_
  s.tx_resume c medium next

def recvCTS (medium : Bool) (next : Option MacFrame) (s : Mac802_11) : Option Mac802_11 :=
  if s.tx_state_ ≠ .MAC_RTS then some s
  else if s.pktRTS_ && s.pktTx_.isSome then do
    let s ← stopSend { s with pktRTS_ := false }
    tx_resume c medium next { s with ssrc_ := 0 }
  else none

def acknowledged (s : Mac802_11) : Option MacFrame → Option Mac802_11
  | none => none
  | some p =>
    let s := if p.size ≤ c.RTSThreshold then { s with ssrc_ := 0 } else { s with slrc_ := 0 }
    startBackoff (rst_cw c { s with pktTx_ := none })

def recvACK (medium : Bool) (next : Option MacFrame) (s : Mac802_11) : Option Mac802_11 :=
  if s.tx_state_ ≠ .MAC_SEND then some s
  else do
    let s ← s.stopSend
    let s ← s.acknowledged c s.pktTx_
    s.tx_resume c medium next

end Mac802_11

inductive MacEvent
  | send (p : MacFrame)
  | backoff
  | defer
  | sendTimer
  | recvCTS
  | recvACK
  deriving DecidableEq

/-- `medium` says whether nothing is received and the NAV has passed, and `next` what the queue
hands down if it is called back. -/
structure MacInput where
  event : MacEvent
  medium : Bool
  next : Option MacFrame
  deriving DecidableEq

def MacEvent.frames : MacEvent → List MacFrame
  | .send p => [p]
  | _ => []

/-- The frames that the queue hands down. -/
def MacInput.frames (i : MacInput) : List MacFrame := i.event.frames ++ i.next.toList

namespace Mac802_11

variable (c : MacMib)

/-- The queue waits until it is called back, and a timer expires only if it runs. -/
def handle (s : Mac802_11) (i : MacInput) : MacEvent → Option Mac802_11
  | .send p => if s.callback_ then some s else s.send c i.medium p
  | .backoff =>
    if s.mhBackoff_ then backoffHandler c i.medium { s with mhBackoff_ := false } else some s
  | .defer => if s.mhDefer_ then deferHandler c i.medium { s with mhDefer_ := false } else some s
  | .sendTimer =>
    if s.mhSend_ then send_timer c i.medium i.next { s with mhSend_ := false } else some s
  | .recvCTS => s.recvCTS c i.medium i.next
  | .recvACK => s.recvACK c i.medium i.next

def step (s : Mac802_11) (i : MacInput) : Option (Mac802_11 × Unit) :=
  (s.handle c i i.event).map fun s => (s, ())

end Mac802_11

end Ns2
