import Ns2.Mcast.SrmState

/-! An agent of scalable reliable multicast: what it keeps of every sender, and what it does with
data, repairs, requests and session messages. -/

namespace Ns2

/-- What memory holds that was not written: the bytes of a new array, and the two fields that the
constructor of `SRMinfo` leaves out. -/
structure Leftover where
  bytes : SRMinfo → ℕ → BitVec 8
  fields : ℤ → ℤ × ℤ

/-- The entries of the table are named by their senders, the list `sip_` links them. -/
structure SRMAgent where
  addr : ℤ
  dataCtr_ : ℤ
  sessCtr_ : ℤ
  groupSize_ : ℤ
  sip_ : List ℤ
  siphash_ : ℤ → Option SRMinfo

/-- The calls of the agent to its script, `delivered` for the branch that calls nothing: a message
that is new is marked. -/
inductive Upcall
  | request (sender : ℤ) (msgids : List ℤ)
  | delivered (sender msgid : ℤ)
  | recvData (sender msgid : ℤ)
  | recvRequest (requestor round sender msgid : ℤ)
  | recvRepair (round sender msgid : ℤ)
  | data (sender seqnum : ℤ)
  | session (sender seqnum : ℤ) (words : List ℤ)
  deriving DecidableEq

/-- What a session message says about one member. -/
structure SessionInfo where
  sender : ℤ
  dataCnt : ℤ
  rtime : ℤ
  stime : ℤ
  deriving DecidableEq

namespace SRMAgent

/-- `start`, of an agent that is just built -/
def start (fields : ℤ × ℤ) (addr : ℤ) : SRMAgent where
  addr := addr
  dataCtr_ := -1
  sessCtr_ := -1
  groupSize_ := 1
  sip_ := [addr]
  siphash_ := Function.update (fun _ => none) addr
    (some { SRMinfo.new addr fields.1 fields.2 with distance_ := 0 })

section

variable (left : Leftover)

/-- A new entry is linked in behind the own one. -/
def link (a : SRMAgent) (sender : ℤ) (tmp : SRMinfo) : SRMAgent :=
  { a with
    groupSize_ := a.groupSize_ + 1
    sip_ := a.sip_.take 1 ++ sender :: a.sip_.drop 1
    siphash_ := Function.update a.siphash_ sender (some tmp) }

def get_state (a : SRMAgent) (sender : ℤ) : SRMinfo × SRMAgent :=
  match a.siphash_ sender with
  | some sp => (sp, a)
  | none =>
    let tmp := SRMinfo.new sender (left.fields sender).1 (left.fields sender).2
    (tmp, a.link sender tmp)

/-- The entry of a sender is written through its pointer. -/
def put (a : SRMAgent) (sender : ℤ) (sp : SRMinfo) : SRMAgent :=
  { a with siphash_ := Function.update a.siphash_ sender (some sp) }

/-- The messages from `i` on, `n` of them, that are not marked. -/
def missing (sp : SRMinfo) : ℕ → ℤ → Option (List ℤ × SRMinfo)
  | 0, _ => some ([], sp)
  | n + 1, i => do
    let (received, sp) ← sp.ifReceived left.bytes i
    let (msgids, sp) ← missing sp n (i + 1)
    some (if received then msgids else i :: msgids, sp)

/-- `none` is the failure of `assert(miss)`. -/
def request (sp : SRMinfo) (hi : ℤ) : Option (List Upcall × SRMinfo) :=
  if sp.ldata_ ≥ hi then some ([], sp)
  else do
    let (msgids, sp) ← missing left sp (hi - sp.ldata_).toNat (sp.ldata_ + 1)
    if msgids = [] then none else some ([.request sp.sender_ msgids], sp)

/-- A message of a sender is seen for the first time: what is missing before it is requested. -/
def arrive (a : SRMAgent) (sender msgid : ℤ) (sp : SRMinfo) : Option (SRMAgent × List Upcall) := do
  let (ups, sp) ← request left sp (msgid - 1)
  let (_, sp) ← sp.setReceived left.bytes msgid
  some (a.put sender { sp with ldata_ := msgid }, ups ++ [.delivered sender msgid])

def recv_data (a : SRMAgent) (sender msgid : ℤ) : Option (SRMAgent × List Upcall) :=
  let (sp, a) := get_state left a sender
  if msgid > sp.ldata_ then arrive left a sender msgid sp
  else some (a, [.recvData sender msgid])

def recv_repr (a : SRMAgent) (round sender msgid : ℤ) : Option (SRMAgent × List Upcall) :=
  let (sp, a) := get_state left a sender
  if msgid > sp.ldata_ then arrive left a sender msgid sp
  else some (a, [.recvRepair round sender msgid])

def recv_rqst (a : SRMAgent) (requestor round sender msgid : ℤ) :
    Option (SRMAgent × List Upcall) :=
  let (sp, a) := get_state left a sender
  if msgid > sp.ldata_ then do
    let (ups, sp) ← request left sp msgid
    some (a.put sender { sp with ldata_ := msgid }, ups)
  else some (a, [.recvRequest requestor round sender msgid])

/-- `request(sp, dataCnt)` and the mark moved up to it -/
def catchUp (a : SRMAgent) (sender dataCnt : ℤ) (sp : SRMinfo) :
    Option (SRMAgent × List Upcall) := do
  let (ups, sp) ← request left sp dataCnt
  some (a.put sender (if sp.ldata_ < dataCnt then { sp with ldata_ := dataCnt } else sp), ups)

/-- The words of block `i` of a session message, behind its count. -/
def GET_SESSION_INFO (data : ℕ → ℤ) (i : ℕ) : SessionInfo where
  sender := data (1 + 4 * i)
  dataCnt := data (1 + 4 * i + 1)
  rtime := data (1 + 4 * i + 2)
  stime := data (1 + 4 * i + 3)

/-- The blocks that the loop of `recv_sess` reads. -/
def restBlocks (data : ℕ → ℤ) : List SessionInfo :=
  (List.range' 1 ((data 0).toNat - 1)).map (GET_SESSION_INFO data)

/-- The loop of `recv_sess` over the members other than the sender of the message. -/
def recvBlocks (now sentBy sentAt : ℤ) (a : SRMAgent) :
    List SessionInfo → Option (SRMAgent × List Upcall)
  | [] => some (a, [])
  | b :: bs =>
    if b.sender = a.addr ∧ now ≠ 0 then
      let rtt := (now - sentAt) + (b.rtime - b.stime)
      let (sp, a) := get_state left a sentBy
      recvBlocks now sentBy sentAt (a.put sentBy { sp with distance_ := (rtt : ℚ) / 2 / 1000 }) bs
    else do
      let (sp, a) := get_state left a b.sender
      let (a, ups) ← catchUp left a b.sender b.dataCnt sp
      let (a, rest) ← recvBlocks now sentBy sentAt a bs
      some (a, ups ++ rest)

/-- `now` is the clock in milliseconds. -/
def recv_sess (a : SRMAgent) (now sessCtr : ℤ) (data : ℕ → ℤ) :
    Option (SRMAgent × List Upcall) :=
  let b := GET_SESSION_INFO data 0
  if b.sender = a.addr then some (a, [])
  else
    let (sp, a) := get_state left a b.sender
    if sp.lsess_ > sessCtr then some (a, [])
    else do
      let sp := { sp with lsess_ := sessCtr, recvTime_ := now, sendTime_ := b.stime }
      let (a, ups) ← catchUp left a b.sender b.dataCnt sp
      let (a, rest) ← recvBlocks left now b.sender b.stime a (restBlocks data)
      some (a, ups ++ rest)

end

def entryWords (sp : SRMinfo) : List ℤ := [sp.sender_, sp.ldata_, sp.recvTime_, sp.sendTime_]

/-- The entries in the order of the list. -/
def entries (a : SRMAgent) : List SRMinfo := a.sip_.filterMap a.siphash_

/-- The words of the message; the fifth is the time of sending. -/
def sessWords (a : SRMAgent) (now : ℤ) : List ℤ :=
  (a.groupSize_ :: a.entries.flatMap entryWords).set 4 now

def send_sess (a : SRMAgent) (now : ℤ) : SRMAgent × List Upcall :=
  let a := { a with sessCtr_ := a.sessCtr_ + 1 }
  (a, [.session a.addr a.sessCtr_ (a.sessWords now)])

def sendmsg (a : SRMAgent) : SRMAgent × List Upcall :=
  let a := { a with dataCtr_ := a.dataCtr_ + 1 }
  (a, [.data a.addr a.dataCtr_])

/-- What happens to an agent: the messages it receives, and the commands of its script. -/
inductive Event
  | data (sender msgid : ℤ)
  | repr (round sender msgid : ℤ)
  | rqst (requestor round sender msgid : ℤ)
  | sess (now sessCtr : ℤ) (data : ℕ → ℤ)
  | distance (sender : ℤ)
  | sendSession (now : ℤ)
  | send

def step (left : Leftover) (a : SRMAgent) : Event → Option (SRMAgent × List Upcall)
  | .data sender msgid => recv_data left a sender msgid
  | .repr round sender msgid => recv_repr left a round sender msgid
  | .rqst requestor round sender msgid => recv_rqst left a requestor round sender msgid
  | .sess now sessCtr data => recv_sess left a now sessCtr data
  | .distance sender => some ((get_state left a sender).2, [])
  | .sendSession now => some (a.send_sess now)
  | .send => some a.sendmsg

end SRMAgent

end Ns2
