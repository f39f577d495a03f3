import Mathlib

/-! The AODV agent: route requests, replies, errors and hello messages, failures of the link layer
with local repair, and the timers of routes, neighbours and repairs. -/

namespace Ns2

namespace AodvAgent

/-- `IP_BROADCAST` as an address -/
def broadcast : ℤ := -1

/-- `MY_ROUTE_TIMEOUT`, `ACTIVE_ROUTE_TIMEOUT`, `MAX_RREQ_TIMEOUT` -/
def ACTIVE_ROUTE_TIMEOUT : ℚ := 10

/-- `REV_ROUTE_LIFE`, `BCAST_ID_SAVE` -/
def REV_ROUTE_LIFE : ℚ := 6

def NETWORK_DIAMETER : ℤ := 30

def RREQ_RETRIES : ℕ := 3

/-- `INFINITY2` -/
def infinity : ℕ := 0xff

/-- Addition of `u_int32_t` -/
def plus (a b : ℕ) : ℕ := (a + b) % 2 ^ 32

/-- Addition of one to a hop count, which is a `u_int8_t` -/
def addHop (a : ℕ) : ℕ := (a + 1) % 2 ^ 8

/-- The conversion of a `double` to `u_int32_t` -/
def toSeconds (x : ℚ) : ℚ := (x.num.tdiv x.den % 2 ^ 32 : ℤ)

inductive RtFlags
  | RTF_DOWN
  | RTF_UP
  | RTF_IN_REPAIR
  deriving DecidableEq

structure RtEntry where
  rt_seqno : ℕ
  rt_hops : ℕ
  rt_flags : RtFlags
  rt_nexthop : ℤ
  rt_last_hop_count : ℕ
  rt_pclist : List ℤ
  rt_expire : ℚ
  rt_req_timeout : ℚ
  rt_req_cnt : ℕ
  rt_req_last_ttl : ℤ
  deriving DecidableEq

namespace RtEntry

def new : RtEntry where
  rt_seqno := 0
  rt_hops := infinity
  rt_flags := .RTF_DOWN
  rt_nexthop := 0
  rt_last_hop_count := infinity
  rt_pclist := []
  rt_expire := 0
  rt_req_timeout := 0
  rt_req_cnt := 0
  rt_req_last_ttl := 0

def rt_update (rt : RtEntry) (seqnum metric : ℕ) (nexthop : ℤ) (expire_time : ℚ) : RtEntry :=
  { rt with
    rt_seqno := seqnum
    rt_hops := metric
    rt_flags := .RTF_UP
    rt_nexthop := nexthop
    rt_expire := expire_time }

def rt_down (rt : RtEntry) : RtEntry :=
  if rt.rt_flags = .RTF_DOWN then rt
  else { rt with
    rt_last_hop_count := rt.rt_hops
    rt_hops := infinity
    rt_flags := .RTF_DOWN
    rt_nexthop := 0
    rt_expire := 0 }

def pc_insert (rt : RtEntry) (id : ℤ) : RtEntry :=
  if id ∈ rt.rt_pclist then rt else { rt with rt_pclist := id :: rt.rt_pclist }

def pc_delete (rt : RtEntry) (id : ℤ) : RtEntry :=
  { rt with rt_pclist := rt.rt_pclist.erase id }

/-- A route is newer than the entry, or as new and shorter. -/
def Better (rt : RtEntry) (seqno hops : ℕ) : Prop :=
  rt.rt_seqno < seqno ∨ rt.rt_seqno = seqno ∧ hops < rt.rt_hops

instance (rt : RtEntry) (seqno hops : ℕ) : Decidable (rt.Better seqno hops) :=
  inferInstanceAs (Decidable (_ ∨ _))

/-- The soft state of the requests is reset. -/
def resetRequests (rt : RtEntry) (hops : ℕ) : RtEntry :=
  { rt with
    rt_req_cnt := 0
    rt_req_timeout := 0
    rt_req_last_ttl := hops }

end RtEntry

/-- What the handlers read of the common and the IP header. -/
structure Ip where
  saddr : ℤ
  daddr : ℤ
  ttl : ℤ
  /-- `DATA_PACKET` -/
  data : Bool
  /-- going up the stack -/
  up : Bool
  num_forwards : ℕ
  deriving DecidableEq

structure Request where
  rq_hop_count : ℕ
  rq_bcast_id : ℕ
  rq_dst : ℤ
  rq_dst_seqno : ℕ
  rq_src : ℤ
  rq_src_seqno : ℕ
  deriving DecidableEq

structure Reply where
  rp_hop_count : ℕ
  rp_dst : ℤ
  rp_dst_seqno : ℕ
  rp_src : ℤ
  rp_lifetime : ℚ
  deriving DecidableEq

/-- Replies are for one neighbour, all others are for all. -/
inductive Msg
  | request (saddr : ℤ) (ttl : ℤ) (rq : Request)
  | reply (next_hop : ℤ) (daddr : ℤ) (ttl : ℤ) (rp : Reply)
  | error (saddr : ℤ) (unreachable : List (ℤ × ℕ))
  | hello (rp_dst : ℤ)
  deriving DecidableEq

structure BroadcastID where
  src : ℤ
  id : ℕ
  expire : ℚ
  deriving DecidableEq

end AodvAgent

structure AodvAgent where
  index : ℤ
  seqno : ℕ
  bid : ℕ
  rthead : List ℤ
  rt : ℤ → AodvAgent.RtEntry
  nbhead : List (ℤ × ℚ)
  bihead : List AodvAgent.BroadcastID
  rqueue : List (AodvAgent.Ip × ℚ)

namespace AodvAgent

def new (index : ℤ) : AodvAgent where
  index := index
  seqno := 2
  bid := 1
  rthead := []
  rt _ := .new
  nbhead := []
  bihead := []
  rqueue := []

variable (s : AodvAgent) (now perHop : ℚ)

def rt_lookup (id : ℤ) : Option RtEntry := if id ∈ s.rthead then some (s.rt id) else none

/-- An entry is written. -/
def setRt (id : ℤ) (rt : RtEntry) : AodvAgent := { s with rt := Function.update s.rt id rt }

def rt_add (id : ℤ) : AodvAgent :=
  { s with rthead := id :: s.rthead, rt := Function.update s.rt id .new }

/-- A lookup that adds a missing entry. -/
def rt_ensure (id : ℤ) : AodvAgent := if id ∈ s.rthead then s else s.rt_add id

def id_lookup (id : ℤ) (bid : ℕ) : Bool := s.bihead.any fun b => b.src = id ∧ b.id = bid

def id_insert (id : ℤ) (bid : ℕ) : AodvAgent :=
  { s with bihead := ⟨id, bid, now + REV_ROUTE_LIFE⟩ :: s.bihead }

def id_purge : AodvAgent := { s with bihead := s.bihead.filter fun b => ¬ b.expire ≤ now }

/-- `aodv_rqueue::enque` -/
def enque (p : Ip) : AodvAgent :=
  let q := s.rqueue.filter fun x => ¬ x.2 < now
  let q := if q.length = 64 then q.tail else q
  { s with rqueue := q ++ [(p, now + 30)] }

/-- What `aodv_rqueue::deque` gives until it gives nothing, and the packets that are left. -/
def dequeAll (dst : ℤ) : AodvAgent × List Ip :=
  let q := s.rqueue.filter fun x => ¬ x.2 < now
  ({ s with rqueue := q.filter fun x => x.1.daddr ≠ dst },
    (q.filter fun x => x.1.daddr = dst).map Prod.fst)

/-- A packet along the route to `d`: with the next hop, if it is sent; `none` is a failed
assertion. -/
def forward (d : ℤ) (ttl daddr : ℤ) : Option (AodvAgent × Option ℤ) :=
  if ttl = 0 ∨ daddr = s.index then some (s, none)
  else if (s.rt d).rt_flags ≠ .RTF_UP ∨ daddr = broadcast then none
  else some (s.setRt d { s.rt d with rt_expire := now + ACTIVE_ROUTE_TIMEOUT },
    some (s.rt d).rt_nexthop)

/-- Packets that have waited for a route. -/
def forwardAll (d : ℤ) : AodvAgent → List Ip → Option AodvAgent
  | s, [] => some s
  | s, p :: ps => (s.forward now d p.ttl p.daddr).bind fun r => forwardAll d r.1 ps

/-- `while((p = rqueue.deque(rt->rt_dst)))`, with the assertion that the route has a hop count. -/
def serve (d : ℤ) : Option AodvAgent :=
  let r := s.dequeAll now d
  if r.2 ≠ [] ∧ (s.rt d).rt_hops = infinity then none else forwardAll now d r.1 r.2

/-- The time to live of the next request, and the number of those through the whole network. -/
def requestTtl (rt : RtEntry) : ℤ × ℕ :=
  let last := max rt.rt_req_last_ttl rt.rt_last_hop_count
  if last = 0 then (5, rt.rt_req_cnt)
  else if last < 7 then (last + 2, rt.rt_req_cnt)
  else (NETWORK_DIAMETER, rt.rt_req_cnt + 1)

/-- When the next request may be sent; `perHop` is the value of `PerHopTime`. -/
def requestTimeout (ttl : ℤ) (cnt : ℕ) : ℚ :=
  min ((if cnt > 0 then 2 * ttl * perHop * cnt else 2 * ttl * perHop) + now)
    (now + ACTIVE_ROUTE_TIMEOUT)

/-- `none` is a failed assertion. -/
def sendRequest (dst : ℤ) : Option (AodvAgent × List Msg) :=
  let rt := s.rt dst
  if rt.rt_flags = .RTF_UP then
    if rt.rt_hops = infinity then none else some (s, [])
  else if rt.rt_req_timeout > now then some (s, [])
  else if rt.rt_req_cnt > RREQ_RETRIES then
    let rt := { rt with rt_req_timeout := now + ACTIVE_ROUTE_TIMEOUT, rt_req_cnt := 0 }
    some (((s.setRt dst rt).dequeAll now dst).1, [])
  else
    let r := requestTtl rt
    let seqno := plus s.seqno 2
    if seqno % 2 ≠ 0 then none
    else some ({ s.setRt dst { rt with
        rt_req_last_ttl := r.1
        rt_req_cnt := r.2
        rt_req_timeout := requestTimeout now perHop r.1 r.2
        rt_expire := 0 } with
      seqno := seqno
      bid := plus s.bid 1 },
      [.request s.index r.1 ⟨1, s.bid, dst, rt.rt_seqno, s.index, seqno⟩])

/-- `next_hop` is the next hop of the route to the receiver of the reply. -/
def sendReply (ipdst : ℤ) (hop_count : ℕ) (rpdst : ℤ) (rpseq : ℕ) (lifetime : ℚ) : Msg :=
  .reply (s.rt ipdst).rt_nexthop ipdst NETWORK_DIAMETER
    ⟨hop_count % 2 ^ 8, rpdst, rpseq, s.index, lifetime⟩

/-- The message of `sendError`, if something is reported. -/
def sendError (unreachable : List (ℤ × ℕ)) : List Msg :=
  if unreachable = [] then [] else [.error s.index unreachable]

/-- The reverse route of `recvRequest`. -/
def reverseRoute (saddr : ℤ) (rq : Request) (rt0 : RtEntry) : RtEntry :=
  let expire := max rt0.rt_expire (now + REV_ROUTE_LIFE)
  if rt0.Better rq.rq_src_seqno rq.rq_hop_count then
    let rt := rt0.rt_update rq.rq_src_seqno rq.rq_hop_count saddr expire
    if rt0.rt_req_timeout > 0 then
      { rt.resetRequests rq.rq_hop_count with rt_expire := now + ACTIVE_ROUTE_TIMEOUT }
    else rt
  else { rt0 with rt_expire := expire }

/-- The sequence number with which the destination answers. -/
def answerSeqno (rq_dst_seqno : ℕ) : ℕ :=
  let seqno := plus (max s.seqno rq_dst_seqno) 1
  if seqno % 2 ≠ 0 then plus seqno 1 else seqno

/-- A node with a route answers a request. -/
def answerRoute (rq : Request) : AodvAgent × List Msg :=
  let rt := s.rt rq.rq_dst
  let m := s.sendReply rq.rq_src (rt.rt_hops + 1) rq.rq_dst rt.rt_seqno
    (toSeconds (rt.rt_expire - now))
  let s := s.setRt rq.rq_dst (rt.pc_insert (s.rt rq.rq_src).rt_nexthop)
  (s.setRt rq.rq_src ((s.rt rq.rq_src).pc_insert (s.rt rq.rq_dst).rt_nexthop), [m])

/-- A request is passed on. -/
def forwardRequest (ttl : ℤ) (rq : Request) : List Msg :=
  if ttl = 0 then []
  else [.request s.index ttl { rq with
    rq_hop_count := addHop rq.rq_hop_count
    rq_dst_seqno := if rq.rq_dst ∈ s.rthead then max (s.rt rq.rq_dst).rt_seqno rq.rq_dst_seqno
      else rq.rq_dst_seqno }]

/-- The end of `recvRequest`. -/
def answerRequest (ttl : ℤ) (rq : Request) : AodvAgent × List Msg :=
  if rq.rq_dst = s.index then
    let s := { s with seqno := s.answerSeqno rq.rq_dst_seqno }
    (s, [s.sendReply rq.rq_src 1 s.index s.seqno ACTIVE_ROUTE_TIMEOUT])
  else if rq.rq_dst ∈ s.rthead ∧ (s.rt rq.rq_dst).rt_hops ≠ infinity ∧
      (s.rt rq.rq_dst).rt_seqno ≥ rq.rq_dst_seqno then
    s.answerRoute now rq
  else (s, s.forwardRequest ttl rq)

/-- `none` is a failed assertion. -/
def recvRequest (saddr ttl : ℤ) (rq : Request) : Option (AodvAgent × List Msg) :=
  if rq.rq_src = s.index then some (s, [])
  else if s.id_lookup rq.rq_src rq.rq_bcast_id then some (s, [])
  else
    let s := (s.id_insert now rq.rq_src rq.rq_bcast_id).rt_ensure rq.rq_src
    let rt0 := s.rt rq.rq_src
    let fresh := rt0.Better rq.rq_src_seqno rq.rq_hop_count
    let s := s.setRt rq.rq_src (reverseRoute now saddr rq rt0)
    (if fresh then s.serve now rq.rq_src else some s).map fun s => s.answerRequest now ttl rq

/-- A reply is passed on along the reverse route; `none` is a failed assertion. -/
def forwardReply (daddr ttl : ℤ) (rp : Reply) : Option (AodvAgent × List Msg) :=
  if daddr ∈ s.rthead ∧ (s.rt daddr).rt_hops ≠ infinity then
    if (s.rt daddr).rt_flags ≠ .RTF_UP then none
    else
      let rp := { rp with
        rp_hop_count := addHop rp.rp_hop_count
        rp_src := s.index }
      (s.forward now daddr ttl daddr).map fun r =>
        (r.1.setRt rp.rp_dst ((r.1.rt rp.rp_dst).pc_insert (r.1.rt daddr).rt_nexthop),
          (r.2.map fun next_hop => .reply next_hop daddr ttl rp).toList)
  else some (s, [])

/-- `none` is a failed assertion. -/
def recvReply (daddr ttl : ℤ) (rp : Reply) : Option (AodvAgent × List Msg) :=
  let s := s.rt_ensure rp.rp_dst
  let rt := s.rt rp.rp_dst
  if rt.Better rp.rp_dst_seqno rp.rp_hop_count then
    let rt := (rt.rt_update rp.rp_dst_seqno rp.rp_hop_count rp.rp_src
      (now + rp.rp_lifetime)).resetRequests rp.rp_hop_count
    (if rt.rt_hops ≠ infinity then (s.setRt rp.rp_dst rt).serve now rp.rp_dst
      else some ((s.setRt rp.rp_dst rt).dequeAll now rp.rp_dst).1).bind fun s =>
      if daddr = s.index then some (s, []) else s.forwardReply now daddr ttl rp
  else some (s, [])

/-- One destination of `recvError`; `none` is a failed assertion. -/
def errorEntry (saddr : ℤ) (seqno : ℕ) (d : ℤ) (rt : RtEntry) :
    Option (RtEntry × List (ℤ × ℕ)) :=
  if rt.rt_hops ≠ infinity ∧ rt.rt_nexthop = saddr ∧ rt.rt_seqno ≤ seqno then
    if rt.rt_flags ≠ .RTF_UP ∨ rt.rt_seqno % 2 ≠ 0 then none
    else
      let rt := ({ rt with rt_seqno := seqno }).rt_down
      some ({ rt with rt_pclist := [] },
        if rt.rt_pclist = [] then [] else [(d, rt.rt_seqno)])
  else some (rt, [])

/-- The loop of `recvError`. -/
def errorLoop (saddr : ℤ) : AodvAgent → List (ℤ × ℕ) → Option (AodvAgent × List (ℤ × ℕ))
  | s, [] => some (s, [])
  | s, (d, seqno) :: ds =>
    if d ∈ s.rthead then
      (errorEntry saddr seqno d (s.rt d)).bind fun r =>
        (errorLoop saddr (s.setRt d r.1) ds).map fun q => (q.1, r.2 ++ q.2)
    else errorLoop saddr s ds

def recvError (saddr : ℤ) (unreachable : List (ℤ × ℕ)) : Option (AodvAgent × List Msg) :=
  (errorLoop saddr s unreachable).map fun r => (r.1, r.1.sendError r.2)

def nb_insert (id : ℤ) : AodvAgent :=
  { s with
    nbhead := (id, now + 3 / 2 * 3) :: s.nbhead
    seqno := plus s.seqno 2 }

/-- `none` is a failed assertion. -/
def recvHello (rp_dst : ℤ) : Option (AodvAgent × List Msg) :=
  if s.nbhead.any fun nb => nb.1 = rp_dst then
    some ({ s with nbhead := s.nbhead.map fun nb =>
      if nb.1 = rp_dst then (nb.1, now + 3 / 2 * 3) else nb }, [])
  else if plus s.seqno 2 % 2 ≠ 0 then none
  else some (s.nb_insert now rp_dst, [])

/-- One entry of `handle_link_failure`; `none` is a failed assertion. -/
def failEntry (id d : ℤ) (rt : RtEntry) : Option (RtEntry × List (ℤ × ℕ)) :=
  if rt.rt_hops ≠ infinity ∧ rt.rt_nexthop = id then
    if rt.rt_flags ≠ .RTF_UP ∨ rt.rt_seqno % 2 ≠ 0 then none
    else
      let rt := { rt with rt_seqno := plus rt.rt_seqno 1 }
      some (rt.rt_down.pc_delete id, [(d, rt.rt_seqno)])
  else some (rt.pc_delete id, [])

/-- The loop of `handle_link_failure`. -/
def failLoop (id : ℤ) : AodvAgent → List ℤ → Option (AodvAgent × List (ℤ × ℕ))
  | s, [] => some (s, [])
  | s, d :: ds =>
    (failEntry id d (s.rt d)).bind fun r =>
      (failLoop id (s.setRt d r.1) ds).map fun q => (q.1, r.2 ++ q.2)

def handle_link_failure (id : ℤ) : Option (AodvAgent × List Msg) :=
  (failLoop id s s.rthead).map fun r => (r.1, r.1.sendError r.2)

/-- `none` is a failed assertion. -/
def nb_delete (id : ℤ) : Option (AodvAgent × List Msg) :=
  if plus s.seqno 2 % 2 ≠ 0 then none
  else handle_link_failure { s with
    seqno := plus s.seqno 2
    nbhead := s.nbhead.eraseP fun nb => nb.1 = id } id

/-- One neighbour of `nb_purge`. -/
def nb_purge (id : ℤ) : Option (AodvAgent × List Msg) :=
  if s.nbhead.any fun nb => nb.1 = id ∧ nb.2 ≤ now then s.nb_delete id else some (s, [])

def local_rt_repair (ih : Ip) : Option (AodvAgent × List Msg) :=
  let s := s.enque now ih
  let rt := { s.rt ih.daddr with rt_flags := .RTF_IN_REPAIR }
  (s.setRt ih.daddr rt).sendRequest now perHop ih.daddr

/-- The link layer has failed to bring a packet to `next_hop`. -/
def rt_ll_failed (next_hop : ℤ) (ih : Ip) : Option (AodvAgent × List Msg) :=
  if ¬ ih.data ∨ ih.daddr = broadcast ∨ ih.daddr ∉ s.rthead then some (s, [])
  else if ih.num_forwards > (s.rt ih.daddr).rt_hops then s.local_rt_repair now perHop ih
  else s.nb_delete next_hop

/-- `LocalRepairTimer::handle` -/
def repairTimer (daddr : ℤ) : AodvAgent :=
  if daddr ∈ s.rthead ∧ (s.rt daddr).rt_flags ≠ .RTF_UP then s.setRt daddr (s.rt daddr).rt_down
  else s

/-- `none` is a failed assertion. -/
def rt_resolve (ih : Ip) : Option (AodvAgent × List Msg) :=
  let s := s.rt_ensure ih.daddr
  if (s.rt ih.daddr).rt_flags = .RTF_UP then
    if (s.rt ih.daddr).rt_hops = infinity then none
    else (s.forward now ih.daddr ih.ttl ih.daddr).map fun r => (r.1, [])
  else if ih.saddr = s.index then (s.enque now ih).sendRequest now perHop ih.daddr
  else if (s.rt ih.daddr).rt_flags = .RTF_IN_REPAIR then some (s.enque now ih, [])
  else some (s, [.error s.index [(ih.daddr, (s.rt ih.daddr).rt_seqno)]])

/-- `recv` for packets that are not of the protocol. -/
def recvData (ih : Ip) : Option (AodvAgent × List Msg) :=
  if ih.daddr = broadcast then some (s, [])
  else if ih.saddr = s.index then
    if ih.num_forwards = 0 then s.rt_resolve now perHop { ih with ttl := NETWORK_DIAMETER }
    else some (s, [])
  else if ih.ttl - 1 = 0 then some (s, [])
  else s.rt_resolve now perHop { ih with ttl := ih.ttl - 1 }

/-- One entry of `rt_purge`; `none` is a failed assertion. -/
def rt_purge (d : ℤ) : Option (AodvAgent × List Msg) :=
  let rt := s.rt d
  if rt.rt_flags = .RTF_UP then
    if rt.rt_hops = infinity then none
    else if rt.rt_expire < now then
      let rt := { rt with rt_seqno := plus rt.rt_seqno 1 }
      if rt.rt_seqno % 2 = 0 then none
      else some (((s.dequeAll now d).1).setRt d rt.rt_down, [])
    else (s.serve now d).map fun s => (s, [])
  else if s.rqueue.any fun x => x.1.daddr = d then s.sendRequest now perHop d
  else some (s, [])

end AodvAgent

/-- The nodes and the messages that were sent. A message may reach its receivers at any time, any
number of times or never. -/
structure AodvNetwork where
  node : ℤ → AodvAgent
  air : List AodvAgent.Msg

/-- What happens at a node. -/
inductive AodvEvent
  | deliver (k : ℕ)
  | data (ih : AodvAgent.Ip)
  | failed (next_hop : ℤ) (ih : AodvAgent.Ip)
  | rt_purge (d : ℤ)
  | id_purge
  | nb_purge (id : ℤ)
  | hello
  | repair (daddr : ℤ)

namespace AodvNetwork

open AodvAgent

def start : AodvNetwork := ⟨fun n => .new n, []⟩

/-- A message that reaches a node. -/
def recv (a : AodvAgent) (now : ℚ) : Msg → Option (AodvAgent × List Msg)
  | .request saddr ttl rq => a.recvRequest now saddr (ttl - 1) rq
  | .reply next_hop daddr ttl rp =>
    if next_hop = a.index then a.recvReply now daddr (ttl - 1) rp else some (a, [])
  | .error saddr unreachable => a.recvError saddr unreachable
  | .hello rp_dst => a.recvHello now rp_dst

/-- An event at a node; `none` is a failed assertion. -/
def handle (air : List Msg) (a : AodvAgent) (now perHop : ℚ) :
    AodvEvent → Option (AodvAgent × List Msg)
  | .deliver k => (air[k]?).elim (some (a, [])) (recv a now)
  | .data ih => a.recvData now perHop ih
  | .failed next_hop ih => a.rt_ll_failed now perHop next_hop ih
  | .rt_purge d => if d ∈ a.rthead then a.rt_purge now perHop d else some (a, [])
  | .id_purge => some (a.id_purge now, [])
  | .nb_purge id => a.nb_purge now id
  | .hello => some (a, [.hello a.index])
  | .repair daddr => some (a.repairTimer daddr, [])

/-- An event at a node and a time; `perHop` is the value of `PerHopTime` for the destination.
No node has the broadcast address. -/
structure Input where
  n : ℤ
  now : ℚ
  perHop : ℚ
  event : AodvEvent

def step (s : AodvNetwork) (i : Input) : Option (AodvNetwork × Unit) :=
  if i.n = broadcast then some (s, ())
  else
    (handle s.air (s.node i.n) i.now i.perHop i.event).map fun r =>
      (⟨Function.update s.node i.n r.1, s.air ++ r.2⟩, ())

end AodvNetwork

end Ns2
