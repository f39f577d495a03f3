import Ns2.Linkstate.LsPaths
import Ns2.Lib.Machine

/-! The link-state protocol: the message center, the unacknowledged messages of every peer, the
handlers of a node, and a network of such nodes. -/

namespace Ns2

/-- `LS_INVALID_MESSAGE_ID` -/
def lsInvalidMessageId : LsSeq := 0

/-- `LS_WRAPAROUND_THRESHOLD` -/
def lsWraparoundThreshold : LsSeq := 1073741824

inductive LsMessageType where
  | invalid
  | lsa
  | tpm
  | lsaack
  | tpmack
  | lsm
  deriving DecidableEq

/-- What `contentPtr_` points to: nothing, a list of its own, or the database of a node. -/
inductive LsContent where
  | null
  | lsl (l : List LsLinkState)
  | topo (nodeId : ℤ)
  deriving DecidableEq

structure LsMessage where
  type_ : LsMessageType
  messageId_ : LsSeq
  sequenceNumber_ : LsSeq
  originNodeId_ : ℤ
  contentPtr_ : LsContent
  deriving DecidableEq

/-- The record of a message that is not yet acknowledged: the topology message, or the one for an
origin. -/
inductive LsRecord where
  | topo (msgId : LsSeq)
  | lsa (originNodeId : ℤ) (msgId : LsSeq)
  deriving DecidableEq

def LsMessage.record (msg : LsMessage) : Option LsRecord :=
  match msg.type_ with
  | .tpm => some (.topo msg.messageId_)
  | .lsa => some (.lsa msg.originNodeId_ msg.messageId_)
  | _ => none

structure LsMessageCenter where
  current_lsa_id : LsSeq
  current_other_id : LsSeq
  max_size : ℕ
  lsa_messages : SortedMap LsSeq LsMessage
  other_messages : SortedMap LsSeq LsMessage

namespace LsMessageCenter

def isLSA (msgId : LsSeq) : Bool := msgId.val % 2 = 1

/-- `current += 2`, and once more at the invalid id -/
def nextId (current : LsSeq) : LsSeq :=
  if current + 2 = lsInvalidMessageId then current + 2 + 2 else current + 2

/-- A full storage loses its first message; `none` where the id is in use. -/
def insertMessage (max_size : ℕ) (storage : SortedMap LsSeq LsMessage) (msg : LsMessage) :
    Option (SortedMap LsSeq LsMessage) :=
  let storage := if storage.entries.length ≥ max_size then storage.eraseFirst else storage
  match storage.find msg.messageId_ with
  | none => some (storage.set msg.messageId_ msg)
  | some _ => none

def newMessage (self : LsMessageCenter) (nodeId : ℤ) (type : LsMessageType) :
    Option (LsMessageCenter × LsMessage) :=
  let self := if self.max_size = 0 then { self with max_size := 300 } else self
  if type = .lsa ∨ type = .tpm then
    let msg : LsMessage := ⟨type, self.current_lsa_id, self.current_lsa_id, nodeId, .null⟩
    (insertMessage self.max_size self.lsa_messages msg).map fun storage =>
      ({ self with current_lsa_id := nextId self.current_lsa_id, lsa_messages := storage }, msg)
  else
    let msg : LsMessage := ⟨type, self.current_other_id, self.current_other_id, nodeId, .null⟩
    (insertMessage self.max_size self.other_messages msg).map fun storage =>
      ({ self with current_other_id := nextId self.current_other_id, other_messages := storage }, msg)

/-- Assignments to the fields of a message that was just made. -/
def assign (self : LsMessageCenter) (msg : LsMessage) : LsMessageCenter :=
  if msg.type_ = .lsa ∨ msg.type_ = .tpm then
    { self with lsa_messages := self.lsa_messages.set msg.messageId_ msg }
  else { self with other_messages := self.other_messages.set msg.messageId_ msg }

def retrieveMessagePtr (self : LsMessageCenter) (msgId : LsSeq) : Option LsMessage :=
  if isLSA msgId then self.lsa_messages.find msgId else self.other_messages.find msgId

def deleteMessage (self : LsMessageCenter) (msgId : LsSeq) : LsMessageCenter :=
  { self with other_messages := self.other_messages.erase msgId }

end LsMessageCenter

/-- `LsMessageHistory` -/
abbrev LsMessageHistory := SortedMap ℤ LsSeq

def LsMessageHistory.isNewMessage (self : LsMessageHistory) (msg : LsMessage) :
    LsMessageHistory × Bool :=
  match self.find msg.originNodeId_ with
  | some seq =>
    if seq < msg.sequenceNumber_ ∨ seq - msg.sequenceNumber_ > lsWraparoundThreshold then
      (self.set msg.originNodeId_ msg.sequenceNumber_, true)
    else (self, false)
  | none => (self.set msg.originNodeId_ msg.sequenceNumber_, true)

abbrev LsTopoMap := SortedMap ℤ (List LsLinkState)

namespace LsTopoMap

/-- One new link state in the old list; the sequence numbers of one's `own` list stay. -/
def updateLink (own : Bool) (new : LsLinkState) : List LsLinkState → List LsLinkState × Bool
  | [] => ([new], true)
  | old :: l =>
    if new.neighborId_ = old.neighborId_ then
      ({ new with sequenceNumber_ := if own then old.sequenceNumber_ else new.sequenceNumber_ } :: l,
        new.status_ ≠ old.status_ || new.cost_ ≠ old.cost_)
    else
      let r := updateLink own new l
      (old :: r.1, r.2)

def update (self : LsTopoMap) (myNodeId_ nodeId : ℤ) (linkStateList : List LsLinkState) :
    LsTopoMap × Bool :=
  match self.find nodeId with
  | none => (self.set nodeId linkStateList, true)
  | some old =>
    let r := linkStateList.foldl (fun r new =>
      let u := updateLink (nodeId = myNodeId_) new r.1
      (u.1, r.2 || u.2)) (old, false)
    (self.set nodeId r.1, r.2)

end LsTopoMap

structure LsIdSeq where
  msgId_ : LsSeq
  seq_ : LsSeq
  deriving DecidableEq

/-- `timer_` counts as its status: whether it is pending. -/
structure LsUnackPeer where
  timer_ : Bool
  tpmSeq_ : LsSeq
  lsaMap_ : SortedMap ℤ LsIdSeq

namespace LsUnackPeer

def init : LsUnackPeer := ⟨false, lsInvalidMessageId, .empty⟩

/-- No acknowledgement is pending. -/
def acked (r : LsUnackPeer) : Prop := r.tpmSeq_ = lsInvalidMessageId ∧ r.lsaMap_.entries = []

instance (r : LsUnackPeer) : Decidable r.acked := inferInstanceAs (Decidable (_ ∧ _))

def messageOut (r : LsUnackPeer) (msg : LsMessage) : LsUnackPeer :=
  match msg.type_ with
  | .tpm => { r with tpmSeq_ := msg.sequenceNumber_ }
  | .lsa =>
    { r with lsaMap_ := r.lsaMap_.set msg.originNodeId_ ⟨msg.messageId_, msg.sequenceNumber_⟩ }
  | _ => r

def ackIn (r : LsUnackPeer) (msg : LsMessage) : LsUnackPeer :=
  match msg.type_ with
  | .tpmack =>
    if r.tpmSeq_ = msg.sequenceNumber_ then { r with tpmSeq_ := lsInvalidMessageId } else r
  | .lsaack =>
    match r.lsaMap_.find msg.originNodeId_ with
    | some e =>
      if e.seq_ = msg.sequenceNumber_ then
        { r with lsaMap_ := r.lsaMap_.erase msg.originNodeId_ }
      else r
    | none => r
  | _ => r

end LsUnackPeer

abbrev LsRetransmissionManager := SortedMap ℤ LsUnackPeer

namespace LsRetransmissionManager

def initTimeout (self : LsRetransmissionManager) (delays : List ℤ) : LsRetransmissionManager :=
  delays.foldl (fun m nbrId => m.set nbrId .init) self

def cancelTimer (self : LsRetransmissionManager) (nbrId : ℤ) : LsRetransmissionManager :=
  match self.find nbrId with
  | none => self
  | some _ => self.set nbrId .init

def messageOut (self : LsRetransmissionManager) (peerId : ℤ) (msg : LsMessage) :
    LsRetransmissionManager :=
  self.set peerId { ((self.find peerId).getD .init).messageOut msg with timer_ := true }

/-- `none`: the timer to cancel is not pending. -/
def ackIn (self : LsRetransmissionManager) (peerId : ℤ) (msg : LsMessage) :
    Option LsRetransmissionManager :=
  match self.find peerId with
  | none => some self
  | some r =>
    if r.acked then some self
    else
      let r := r.ackIn msg
      if r.acked then
        if r.timer_ then some (self.set peerId { r with timer_ := false }) else none
      else some (self.set peerId r)

end LsRetransmissionManager

end Ns2
