import Ns2.Lib.WordRecords
import Ns2.Mcast.Srm

/-! The agent with session scopes: representatives exchange global session messages, the others local
ones, and a representative tells its members about the distances it has measured. -/

namespace Ns2

/-- The five words of a member in a session message. -/
structure SsmBlock (α : Type) where
  sender : α
  dataCnt : α
  rtime : α
  stime : α
  repid : α
  deriving DecidableEq

def SsmBlock.words {α : Type} (b : SsmBlock α) : List α :=
  [b.sender, b.dataCnt, b.rtime, b.stime, b.repid]

def SsmBlock.map {α β : Type} (f : α → β) (b : SsmBlock α) : SsmBlock β :=
  ⟨f b.sender, f b.dataCnt, f b.rtime, f b.stime, f b.repid⟩

/-- A message as it is sent; a word is `none` where the writer steps over it. -/
structure SsmMessage where
  seqnum : ℤ
  repid : ℤ
  ottl : ℤ
  words : List (Option ℤ)
  deriving DecidableEq

inductive SsmUpcall
  | base (u : Upcall)
  | recvGsess (sender ttl : ℤ)
  | recvLsess (sender repid ttl : ℤ)
  | session (m : SsmMessage)
  deriving DecidableEq

structure SSMSRMAgent where
  base : SRMAgent
  glb_sessCtr_ : ℤ
  loc_sessCtr_ : ℤ
  rep_sessCtr_ : ℤ
  scopeFlag_ : ℤ
  groupScope_ : ℤ
  localScope_ : ℤ
  repid_ : ℤ

namespace SSMSRMAgent

def SRM_LOCAL : ℤ := 1
def SRM_GLOBAL : ℤ := 2
def SRM_RINFO : ℤ := 3

def SESSINFO_SIZE : ℕ := 5
def SESS_CONST : ℕ := 2

def sessionDelay : ℤ := 1000

/-- `is_active`, at a clock of `now` milliseconds -/
def is_active (a : SRMAgent) (now : ℤ) (sp : SRMinfo) : Bool :=
  !(sp.sender_ != a.addr && decide (now - sp.recvTime_ ≥ 3 * sessionDelay))

/-- The words that a writer puts down for a member. -/
def info (sp : SRMinfo) : SsmBlock (Option ℤ) :=
  ⟨some sp.sender_, some sp.ldata_, some sp.recvTime_, some sp.sendTime_, some sp.repid_⟩

/-- `send_rep_sess` has the distance of a global member in milliseconds, and steps over a word. -/
def repInfo (sp : SRMinfo) : SsmBlock (Option ℤ) :=
  if sp.scopeFlag_ = SRM_GLOBAL then
    let dist := sp.distance_ * 1000
    ⟨some sp.sender_, some sp.ldata_, some (dist.num.tdiv dist.den), none, some sp.repid_⟩
  else info sp

/-- The words of a message: the number of entries, the type, the entries, and the time of sending in
the place of the first entry. -/
def layout (type now : ℤ) (blocks : List (SsmBlock (Option ℤ))) : List (Option ℤ) :=
  (some (blocks.length : ℤ) :: some type :: blocks.flatMap SsmBlock.words).set 5 (some now)

def glbMembers (a : SSMSRMAgent) (now : ℤ) : List SRMinfo :=
  a.base.entries.filter fun sp =>
    (sp.senderFlag_ != 0 || sp.scopeFlag_ == SRM_GLOBAL || sp.sender_ == a.base.addr) &&
      is_active a.base now sp

/-- The test of `send_loc_sess`, which assigns to `distanceFlag_` where it might compare. -/
def locTest (a : SSMSRMAgent) (sp : SRMinfo) : Bool × SRMinfo :=
  if sp.senderFlag_ ≠ 0 ∨ sp.scopeFlag_ = SRM_LOCAL then (true, sp)
  else
    let sp := { sp with distanceFlag_ := SRMinfo.SELF_DISTANCE }
    (sp.distanceFlag_ != 0 || sp.sender_ == a.base.addr || a.repid_ == sp.sender_, sp)

def locMembers (a : SSMSRMAgent) (now : ℤ) : List SRMinfo :=
  a.base.entries.filter fun sp => (a.locTest sp).1 && is_active a.base now sp

def repMembers (a : SSMSRMAgent) : List SRMinfo :=
  a.base.entries.filter fun sp => sp.activeFlag_ == SRMinfo.ACTIVE

def send_glb_sess (a : SSMSRMAgent) (now : ℤ) : SSMSRMAgent × SsmMessage :=
  ({ a with glb_sessCtr_ := a.glb_sessCtr_ + 1 },
    ⟨a.glb_sessCtr_ + 1, a.repid_, a.groupScope_,
      layout SRM_GLOBAL now ((a.glbMembers now).map info)⟩)

def send_loc_sess (a : SSMSRMAgent) (now : ℤ) : SSMSRMAgent × SsmMessage :=
  ({ a with
      loc_sessCtr_ := a.loc_sessCtr_ + 1
      base := { a.base with siphash_ := fun s => (a.base.siphash_ s).map fun sp => (a.locTest sp).2 } },
    ⟨a.loc_sessCtr_ + 1, a.repid_, a.localScope_,
      layout SRM_LOCAL now ((a.locMembers now).map info)⟩)

/-- Nothing is sent without local members. -/
def send_rep_sess (a : SSMSRMAgent) (now : ℤ) : SSMSRMAgent × Option SsmMessage :=
  ({ a with rep_sessCtr_ := a.rep_sessCtr_ + 1 },
    if (a.repMembers.filter fun sp => sp.scopeFlag_ != SRM_GLOBAL).length ≤ 0 then none
    else some ⟨a.rep_sessCtr_ + 1, a.repid_, a.localScope_,
      layout SRM_RINFO now (a.repMembers.map repInfo)⟩)

def send_sess (a : SSMSRMAgent) (now : ℤ) : SSMSRMAgent × List SsmUpcall :=
  if a.scopeFlag_ = SRM_GLOBAL then
    let (a, m) := a.send_glb_sess now
    let (a, r) := a.send_rep_sess now
    (a, .session m :: (r.toList.map .session))
  else
    let (a, m) := a.send_loc_sess now
    (a, [.session m])

/-- Block `i` of a message that is read from word `hdr` on. -/
def GET_SESSION_INFO {α : Type} (hdr : ℕ) (data : ℕ → α) (i : ℕ) : SsmBlock α :=
  ⟨data (hdr + 5 * i), data (hdr + 5 * i + 1), data (hdr + 5 * i + 2), data (hdr + 5 * i + 3),
    data (hdr + 5 * i + 4)⟩

/-- The blocks that the loop of a reader goes over. -/
def restBlocks (hdr : ℕ) (data : ℕ → ℤ) : List (SsmBlock ℤ) :=
  (List.range' 1 ((data 0).toNat - 1)).map (GET_SESSION_INFO hdr data)

section

variable (left : Leftover)

/-- The missing messages up to `dataCnt` are requested one by one. -/
def catchUp (a : SRMAgent) (sender dataCnt : ℤ) (sp : SRMinfo) :
    Option (SRMAgent × List SsmUpcall) := do
  let (msgids, sp) ← SRMAgent.missing left sp (dataCnt - sp.ldata_).toNat (sp.ldata_ + 1)
  some (a.put sender (if sp.ldata_ < dataCnt then { sp with ldata_ := dataCnt } else sp),
    msgids.map fun i => .base (.request sender [i]))

/-- What `recv_rep_sess` takes from the block of a representative. -/
def measure (a : SRMAgent) (now sentBy : ℤ) (b : SsmBlock ℤ) : SRMAgent :=
  if b.sender = b.repid ∧ b.sender ≠ sentBy then
    let (sp, a) := a.get_state left b.sender
    if is_active a now sp ∧ sp.distanceFlag_ = SRMinfo.SELF_DISTANCE then a
    else a.put b.sender { sp with
      distance_ := (b.rtime : ℚ) / 1000, distanceFlag_ := SRMinfo.REP_DISTANCE }
  else a

/-- The loop of the three readers; `rep` for the one of `recv_rep_sess`. -/
def recvBlocks (rep : Bool) (now sentBy sentAt : ℤ) (a : SRMAgent) :
    List (SsmBlock ℤ) → Option (SRMAgent × List SsmUpcall)
  | [] => some (a, [])
  | b :: bs =>
    if b.sender = a.addr ∧ now ≠ 0 then
      let rtt := (now - sentAt) + (b.rtime - b.stime)
      let (sp, a) := a.get_state left sentBy
      recvBlocks rep now sentBy sentAt (a.put sentBy { sp with
        distance_ := (rtt : ℚ) / 2 / 1000, distanceFlag_ := SRMinfo.SELF_DISTANCE }) bs
    else do
      let a := if rep then measure left a now sentBy b else a
      let (sp, a) := a.get_state left b.sender
      let (a, ups) ← catchUp left a b.sender b.dataCnt sp
      let (a, rest) ← recvBlocks rep now sentBy sentAt a bs
      some (a, ups ++ rest)

/-- What a reader does once it takes the message: `sp` is the entry of its sender. -/
def recvFrom (rep : Bool) (a : SRMAgent) (now : ℤ) (b : SsmBlock ℤ) (bs : List (SsmBlock ℤ))
    (sp : SRMinfo) : Option (SRMAgent × List SsmUpcall) := do
  let sp := { sp with recvTime_ := now, sendTime_ := b.stime }
  let (a, ups) ← catchUp left a b.sender b.dataCnt sp
  let (a, rest) ← recvBlocks left rep now b.sender b.stime a bs
  some (a, ups ++ rest)

/-- The type word is not stepped over here. -/
def recv_glb_sess (a : SRMAgent) (now sessCtr repid ttl : ℤ) (data : ℕ → ℤ) :
    Option (SRMAgent × List SsmUpcall) :=
  let b := GET_SESSION_INFO 1 data 0
  if b.sender = a.addr then some (a, [])
  else if repid ≠ b.repid then some (a, [])
  else if b.sender ≠ b.repid then some (a, [])
  else
    let (sp, a) := a.get_state left b.sender
    if sp.lglbsess_ > sessCtr then some (a, [])
    else do
      let sp := { sp with scopeFlag_ := SRM_GLOBAL, repid_ := b.repid, lglbsess_ := sessCtr }
      let (a, ups) ← recvFrom left false a now b (restBlocks 1 data) sp
      some (a, .recvGsess b.sender ttl :: ups)

def recv_loc_sess (a : SRMAgent) (now sessCtr ttl : ℤ) (data : ℕ → ℤ) :
    Option (SRMAgent × List SsmUpcall) :=
  let b := GET_SESSION_INFO 2 data 0
  if b.sender = a.addr then some (a, [])
  else
    let (sp, a) := a.get_state left b.sender
    if sp.llocsess_ > sessCtr then some (a, [])
    else do
      let sp := { sp with scopeFlag_ := SRM_LOCAL, repid_ := b.repid, llocsess_ := sessCtr }
      let (a, ups) ← recvFrom left false a now b (restBlocks 2 data) sp
      some (a, .recvLsess b.sender b.repid ttl :: ups)

/-- `none` is also the call of `abort`; `own` is the representative of the agent. -/
def recv_rep_sess (a : SRMAgent) (now sessCtr own : ℤ) (data : ℕ → ℤ) :
    Option (SRMAgent × List SsmUpcall) :=
  let b := GET_SESSION_INFO 2 data 0
  if b.sender = a.addr then some (a, [])
  else if b.sender ≠ own then some (a, [])
  else if b.sender ≠ b.repid then none
  else
    let (sp, a) := a.get_state left b.sender
    if sp.lrepsess_ > sessCtr then some (a, [])
    else
      recvFrom left true a now b (restBlocks 2 data)
        { sp with scopeFlag_ := SRM_GLOBAL, lrepsess_ := sessCtr }

/-- `ttl` is the number of hops the message went. -/
def recv_sess (a : SSMSRMAgent) (now sessCtr repid ttl : ℤ) (data : ℕ → ℤ) :
    Option (SSMSRMAgent × List SsmUpcall) :=
  let back := fun r : SRMAgent × List SsmUpcall => ({ a with base := r.1 }, r.2)
  if data 1 = SRM_GLOBAL then (recv_glb_sess left a.base now sessCtr repid ttl data).map back
  else if data 1 = SRM_LOCAL then (recv_loc_sess left a.base now sessCtr ttl data).map back
  else if data 1 = SRM_RINFO then
    if a.scopeFlag_ = SRM_GLOBAL then some (a, [])
    else (recv_rep_sess left a.base now sessCtr a.repid_ data).map back
  else some (a, [])

end

end SSMSRMAgent

end Ns2
