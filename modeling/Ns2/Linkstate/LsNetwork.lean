import Ns2.Linkstate.LsProtocol

/-! A node of the link-state protocol with its handlers, and a network of such nodes that share
the message center. -/

namespace Ns2

structure RtProtoLS extends LsRouting where
  peerIdList_ : LsNodeIdList
  linkStateList_ : List LsLinkState
  lsaHistory_ : LsMessageHistory
  tpmHistory_ : LsMessageHistory
  ackManager_ : LsRetransmissionManager
  messageBuffer_ : List (ℤ × LsSeq)

/-- What a step reports: a call of `messageOut`, a message of `resendMessages`, a message of
`regenAndSend` with the list that it is made for, and new routes. -/
inductive LsEvent where
  | filed (peerId : ℤ) (msg : LsMessage)
  | resent (peerId : ℤ) (msg : LsRecord)
  | flooded (msg : LsMessage) (lsl : List LsLinkState)
  | routesChanged
  deriving DecidableEq

/-- A node at work: the message center, the packets it has sent and what it reports. -/
structure LsWork where
  self : RtProtoLS
  msgctr : LsMessageCenter
  sent : List (ℤ × LsSeq)
  events : List LsEvent

namespace RtProtoLS

def init (nodeId : ℤ) (peers : LsNodeIdList) (links : List LsLinkState) (delays : List ℤ) :
    RtProtoLS where
  myNodeId_ := nodeId
  linkStateDatabase_ := SortedMap.empty.set nodeId links
  peerIdList_ := peers
  linkStateList_ := links
  lsaHistory_ := .empty
  tpmHistory_ := .empty
  ackManager_ := LsRetransmissionManager.initTimeout .empty delays
  messageBuffer_ := []

def isUp (self : RtProtoLS) (neighborId : ℤ) : Bool :=
  match self.linkStateList_.find? fun l => l.neighborId_ = neighborId with
  | some l => l.status_ = .up
  | none => false

def findPeerNodeId (self : RtProtoLS) (src : ℤ) : ℤ :=
  if src ∈ self.peerIdList_ then src else lsInvalidNodeId

end RtProtoLS

namespace LsWork

def report (w : LsWork) (e : LsEvent) : LsWork := { w with events := w.events ++ [e] }

/-- `LsNode::sendMessage`: to peers only. -/
def sendMessage (w : LsWork) (destId : ℤ) (msgId : LsSeq) : LsWork :=
  if destId ∈ w.self.peerIdList_ then { w with sent := w.sent ++ [(destId, msgId)] } else w

def messageOut (w : LsWork) (peerId : ℤ) (msg : LsMessage) : LsWork :=
  { w with self.ackManager_ := w.self.ackManager_.messageOut peerId msg }.report (.filed peerId msg)

def bufferedSend (w : LsWork) (peerId : ℤ) (msg : LsMessage) : LsWork :=
  { w with self.messageBuffer_ := w.self.messageBuffer_ ++ [(peerId, msg.messageId_)] }

def resendMessage (w : LsWork) (peerId : ℤ) (msgId : LsSeq) (msg : LsRecord) : LsWork :=
  (w.sendMessage peerId msgId).report (.resent peerId msg)

/-- `none` is the abort without an entry for the peer. -/
def resendMessages (w : LsWork) (peerId : ℤ) : Option LsWork :=
  (w.self.ackManager_.find peerId).map fun r =>
    let w := if r.tpmSeq_ ≠ lsInvalidMessageId then
      w.resendMessage peerId r.tpmSeq_ (.topo r.tpmSeq_) else w
    let w := r.lsaMap_.entries.foldl (fun w e =>
      w.resendMessage peerId e.2.msgId_ (.lsa e.1 e.2.msgId_)) w
    { w with self.ackManager_ := w.self.ackManager_.set peerId { r with timer_ := true } }

def sendAck (w : LsWork) (nbrId : ℤ) (type : LsMessageType) (originNodeIdAcked : ℤ)
    (seqAcked : LsSeq) : Option LsWork :=
  (w.msgctr.newMessage w.self.myNodeId_ type).map fun (msgctr, msg) =>
    let msg := { msg with originNodeId_ := originNodeIdAcked, sequenceNumber_ := seqAcked }
    { w with msgctr := msgctr.assign msg }.sendMessage nbrId msg.messageId_

def sendLinkStates (w : LsWork) (buffer : Bool) : Option LsWork :=
  if w.self.peerIdList_ = [] then some w
  else
    match w.self.linkStateDatabase_.find w.self.myNodeId_ with
    | none | some [] => some w
    | some (l :: ls) =>
      (w.msgctr.newMessage w.self.myNodeId_ .lsa).map fun (msgctr, msg) =>
        let myLSL := (l :: ls).map fun l => { l with sequenceNumber_ := msg.sequenceNumber_ }
        let msg := { msg with contentPtr_ := .lsl myLSL }
        let w := { w with
          msgctr := msgctr.assign msg
          self.linkStateDatabase_ := w.self.linkStateDatabase_.set w.self.myNodeId_ myLSL }
        w.self.peerIdList_.foldl (fun w peerId =>
          if w.self.isUp peerId then
            if buffer then w.bufferedSend peerId msg
            else (w.sendMessage peerId msg.messageId_).messageOut peerId msg
          else w) w

/-- The message carries a pointer to the whole database. -/
def sendTopo (w : LsWork) (neighborId : ℤ) : Option LsWork :=
  (w.msgctr.newMessage w.self.myNodeId_ .tpm).map fun (msgctr, msg) =>
    let msg := { msg with contentPtr_ := .topo w.self.myNodeId_ }
    { w with msgctr := msgctr.assign msg }.bufferedSend neighborId msg

/-- The loop over the new link states with the old ones in step; `none` where they are not
aligned. -/
def checkLinks : LsWork → List LsLinkState → List LsLinkState → Option LsWork
  | w, [], _ => some w
  | _, _ :: _, [] => none
  | w, new :: news, old :: olds =>
    if new.neighborId_ ≠ old.neighborId_ then none
    else if new.status_ = .down then
      checkLinks { w with self.ackManager_ := w.self.ackManager_.cancelTimer new.neighborId_ }
        news olds
    else if old.status_ = .up then checkLinks w news olds
    else (w.sendTopo new.neighborId_).bind fun w => checkLinks w news olds

def linkStateChanged (w : LsWork) : Option LsWork :=
  (w.self.linkStateDatabase_.find w.self.myNodeId_).bind fun oldlsl =>
    let r := LsTopoMap.update w.self.linkStateDatabase_ w.self.myNodeId_ w.self.myNodeId_
      w.self.linkStateList_
    let w := { w with self.linkStateDatabase_ := r.1 }
    (if r.2 then w.sendLinkStates true else some w).bind fun w =>
      checkLinks w w.self.linkStateList_ oldlsl

/-- The links have the states `links` now. -/
def intfChanged (w : LsWork) (links : List LsLinkState) : Option LsWork :=
  { w with self.linkStateList_ := links }.linkStateChanged

/-- The buffer holds pointers to messages of the center: `none` where one is gone. -/
def flush : LsWork → List (ℤ × LsSeq) → Option LsWork
  | w, [] => some w
  | w, (peerId, msgId) :: l =>
    (w.msgctr.retrieveMessagePtr msgId).bind fun msg =>
      flush ((w.messageOut peerId msg).sendMessage peerId msg.messageId_) l

def sendBufferedMessages (w : LsWork) : Option LsWork :=
  (w.flush w.self.messageBuffer_).map fun w => { w with self.messageBuffer_ := [] }

def receiveAck (w : LsWork) (neighborId : ℤ) (msg : LsMessage) : Option LsWork :=
  (w.self.ackManager_.ackIn neighborId msg).map fun m => { w with self.ackManager_ := m }

/-- A new message goes to the peers whose links are up, except the sender and the originator. -/
def forward (w : LsWork) (senderId : ℤ) (msg : LsMessage) : LsWork :=
  w.self.peerIdList_.foldl (fun w peerId =>
    if peerId = msg.originNodeId_ ∨ peerId = senderId then w
    else if w.self.isUp peerId ∧ peerId ≠ senderId then
      (w.messageOut peerId msg).sendMessage peerId msg.messageId_
    else w) w

/-- The acknowledgement carries the message id. -/
def receiveLSA (w : LsWork) (senderId : ℤ) (msg : LsMessage) : Option LsWork :=
  (w.sendAck senderId .lsaack msg.originNodeId_ msg.messageId_).bind fun w =>
    if msg.originNodeId_ = w.self.myNodeId_ then some w
    else
      let r := LsMessageHistory.isNewMessage w.self.lsaHistory_ msg
      let w := { w with self.lsaHistory_ := r.1 }
      if r.2 then
        let w := w.forward senderId msg
        match msg.contentPtr_ with
        | .null => some w
        | .topo _ => none
        | .lsl l =>
          let r := LsTopoMap.update w.self.linkStateDatabase_ w.self.myNodeId_ msg.originNodeId_ l
          let w := { w with self.linkStateDatabase_ := r.1 }
          some (if r.2 then w.report .routesChanged else w)
      else some w

def bufferAll (w : LsWork) (exception origin : ℤ) (msg : LsMessage) : LsWork :=
  w.self.peerIdList_.foldl (fun w peerId =>
    if peerId = origin ∨ peerId = exception ∨ w.self.isUp peerId = false then w
    else w.bufferedSend peerId msg) w

/-- The new message gets the origin and the sequence number of the list; the copy of the list that
the source makes for it is not used. -/
def regenAndSend (w : LsWork) (exception origin : ℤ) : List LsLinkState → Option LsWork
  | [] => none
  | l :: lsl =>
    (w.msgctr.newMessage origin .lsa).map fun (msgctr, msg) =>
      let msg := { msg with sequenceNumber_ := l.sequenceNumber_, originNodeId_ := origin }
      ({ w with msgctr := msgctr.assign msg }.bufferAll exception origin msg).report
        (.flooded msg (l :: lsl))

/-- The received record is to replace one's own; `none` where it has no first link state. -/
def newer (myRecord : Option (List LsLinkState)) (rec : List LsLinkState) : Option Bool :=
  match myRecord with
  | none | some [] => some true
  | some (m :: _) => rec.head?.map fun r =>
    m.sequenceNumber_ < r.sequenceNumber_ ||
      m.sequenceNumber_ - r.sequenceNumber_ > lsWraparoundThreshold

/-- The loop over the received map, whose end is read through the message `msgId`. -/
def compareTopo (neighborId : ℤ) (msgId : LsSeq) :
    LsWork → Bool → List (ℤ × List LsLinkState) → Option (LsWork × Bool)
  | w, changed, recs =>
    match w.msgctr.retrieveMessagePtr msgId, recs with
    | none, _ => none
    | some _, [] => some (w, changed)
    | some _, (nodeId, rec) :: recs =>
      if nodeId = w.self.myNodeId_ then compareTopo neighborId msgId w changed recs
      else
        (newer (w.self.linkStateDatabase_.find nodeId) rec).bind fun b =>
          if b then
            let w := { w with
              self.linkStateDatabase_ := w.self.linkStateDatabase_.set nodeId rec }
            (w.regenAndSend neighborId nodeId rec).bind fun w =>
              compareTopo neighborId msgId w true recs
          else compareTopo neighborId msgId w changed recs
  termination_by structural _ _ recs => recs

/-- `topo` is what the pointers to the databases lead to. -/
def receiveTopo (topo : ℤ → LsTopoMap) (w : LsWork) (neighborId : ℤ) (msg : LsMessage) :
    Option LsWork :=
  (w.sendAck neighborId .tpmack neighborId msg.sequenceNumber_).bind fun w =>
    let r := LsMessageHistory.isNewMessage w.self.tpmHistory_ msg
    let w := { w with self.tpmHistory_ := r.1 }
    if r.2 then
      match msg.contentPtr_ with
      | .null => some w
      | .lsl _ => none
      | .topo n =>
        (compareTopo neighborId msg.messageId_ w false (topo n).entries).map fun (w, changed) =>
          if changed then w.report .routesChanged else w
    else some w

def receiveMessage (topo : ℤ → LsTopoMap) (w : LsWork) (senderId : ℤ) (msgId : LsSeq) :
    Option LsWork :=
  if senderId = lsInvalidNodeId then some w
  else
    match w.msgctr.retrieveMessagePtr msgId with
    | none => some w
    | some msg =>
      match msg.type_ with
      | .tpm => w.receiveTopo topo senderId msg
      | .lsa => w.receiveLSA senderId msg
      | .lsaack | .tpmack =>
        (w.receiveAck senderId msg).map fun w => { w with msgctr := w.msgctr.deleteMessage msgId }
      | _ => some w

end LsWork

/-- A packet carries the id of its message. -/
structure LsPacket where
  src : ℤ
  dst : ℤ
  msgId : LsSeq
  deriving DecidableEq

structure LsNet where
  node : ℤ → RtProtoLS
  msgctr : LsMessageCenter
  packets : List LsPacket

/-- The network loses packets and delivers them in any order. -/
inductive LsOp where
  | intfChanged (n : ℤ) (links : List LsLinkState)
  | sendUpdates (n : ℤ)
  | sendBufferedMessages (n : ℤ)
  | deliver (i : ℕ)
  | lose (i : ℕ)
  | timeout (n peerId : ℤ)

namespace LsNet

def init (peers : ℤ → LsNodeIdList) (links : ℤ → List LsLinkState) (delays : ℤ → List ℤ)
    (max_size : ℕ) : LsNet where
  node n := .init n (peers n) (links n) (delays n)
  msgctr := ⟨1, 2, max_size, .empty, .empty⟩
  packets := []

/-- Node `n` runs the handler `f`. -/
def act (net : LsNet) (n : ℤ) (f : LsWork → Option LsWork) :
    Option (LsNet × List (ℤ × LsEvent)) :=
  (f ⟨net.node n, net.msgctr, [], []⟩).map fun w =>
    ({ node := Function.update net.node n w.self
       msgctr := w.msgctr
       packets := net.packets ++ w.sent.map fun (dst, msgId) => ⟨n, dst, msgId⟩ },
      w.events.map fun e => (n, e))

/-- A timer that is not pending does not expire. -/
def timeout (peerId : ℤ) (w : LsWork) : Option LsWork :=
  if (w.self.ackManager_.find peerId).any LsUnackPeer.timer_ then w.resendMessages peerId else some w

def step (net : LsNet) : LsOp → Option (LsNet × List (ℤ × LsEvent))
  | .intfChanged n links => net.act n fun w => w.intfChanged links
  | .sendUpdates n => net.act n fun w => w.sendLinkStates false
  | .sendBufferedMessages n => net.act n LsWork.sendBufferedMessages
  | .deliver i =>
    match net.packets[i]? with
    | none => some (net, [])
    | some p =>
      { net with packets := net.packets.eraseIdx i }.act p.dst fun w =>
        w.receiveMessage (fun n => (net.node n).linkStateDatabase_)
          (w.self.findPeerNodeId p.src) p.msgId
  | .lose i => some ({ net with packets := net.packets.eraseIdx i }, [])
  | .timeout n peerId => net.act n (timeout peerId)

end LsNet

end Ns2
