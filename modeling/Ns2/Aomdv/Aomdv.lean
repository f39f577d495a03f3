import Ns2.Aomdv.AomdvRtable

/-! The AOMDV agent in the mode of node-disjoint paths: route requests, replies, errors and hello
messages, and the timers of neighbours and routes. -/

namespace Ns2

/-- `IP_BROADCAST` as an address -/
def aomdvBroadcast : ℤ := -1

/-- `MY_ROUTE_TIMEOUT`, `ACTIVE_ROUTE_TIMEOUT` -/
def activeRouteTimeout : ℚ := 10

/-- `REV_ROUTE_LIFE`, `BCAST_ID_SAVE` -/
def revRouteLife : ℚ := 6

/-- `NETWORK_DIAMETER` -/
def networkDiameter : ℤ := 30

/-- `AOMDV_MAX_ERRORS` -/
def aomdvMaxErrors : ℕ := 100

/-- What the handlers read of the common and the IP header. -/
structure AomdvIp where
  saddr : ℤ
  daddr : ℤ
  ttl : ℤ
  /-- `PT_AOMDV` -/
  aomdv : Bool
  /-- `DATA_PACKET` -/
  data : Bool
  /-- going up the stack -/
  up : Bool
  num_forwards : ℕ
  salvage_count : ℕ
  deriving DecidableEq

structure AomdvRequest where
  rq_hop_count : ℕ
  rq_bcast_id : ℕ
  rq_dst : ℤ
  rq_dst_seqno : ℕ
  rq_src : ℤ
  rq_src_seqno : ℕ
  rq_timestamp : ℚ
  rq_first_hop : ℤ
  deriving DecidableEq

structure AomdvReply where
  rp_hop_count : ℕ
  rp_dst : ℤ
  rp_dst_seqno : ℕ
  rp_src : ℤ
  rp_lifetime : ℚ
  rp_timestamp : ℚ
  rp_bcast_id : ℕ
  rp_first_hop : ℤ
  deriving DecidableEq

/-- Replies are for one neighbour, all others are for all. -/
inductive AomdvMsg where
  | request (ih : AomdvIp) (rq : AomdvRequest)
  | reply (next_hop : ℤ) (ih : AomdvIp) (rp : AomdvReply)
  | error (saddr : ℤ) (unreachable : List (ℤ × ℕ))
  | hello (saddr : ℤ) (seqno : ℕ) (lifetime : ℚ)
  deriving DecidableEq

structure AomdvBroadcastID where
  src : ℤ
  id : ℕ
  count : ℕ
  expire : ℚ
  deriving DecidableEq

structure Aomdv where
  index : ℤ
  seqno : ℕ
  bid : ℕ
  aomdv_max_paths_ : ℤ
  aomdv_prim_alt_path_len_diff_ : ℤ
  rthead : List ℤ
  rt : ℤ → AomdvRtEntry
  nbhead : List (ℤ × ℚ)
  bihead : List AomdvBroadcastID
  rqueue : List (AomdvIp × ℚ)

/-- Addition of `u_int32_t` -/
def add32 (a b : ℕ) : ℕ := (a + b) % 2 ^ 32

namespace Aomdv

/-- The agent at an address, with the values of its bound variables. -/
def new (index max_paths len_diff : ℤ) : Aomdv where
  index := index
  seqno := 2
  bid := 1
  aomdv_max_paths_ := max_paths
  aomdv_prim_alt_path_len_diff_ := len_diff
  rthead := []
  rt _ := .new
  nbhead := []
  bihead := []
  rqueue := []

variable (s : Aomdv) (now : ℚ)

def rt_lookup (id : ℤ) : Option AomdvRtEntry := if id ∈ s.rthead then some (s.rt id) else none

/-- An entry is written. -/
def setRt (id : ℤ) (rt : AomdvRtEntry) : Aomdv := { s with rt := Function.update s.rt id rt }

def rt_add (id : ℤ) : Aomdv :=
  { s with rthead := id :: s.rthead, rt := Function.update s.rt id .new }

/-- A lookup that adds a missing entry. -/
def rt_ensure (id : ℤ) : Aomdv := if s.rt_lookup id = none then s.rt_add id else s

def id_get (id : ℤ) (bid : ℕ) : Option AomdvBroadcastID :=
  s.bihead.find? fun b => b.src = id ∧ b.id = bid

def id_insert (id : ℤ) (bid : ℕ) : Aomdv :=
  { s with bihead := ⟨id, bid, 0, now + revRouteLife⟩ :: s.bihead }

def id_purge : Aomdv := { s with bihead := s.bihead.filter fun b => ¬ b.expire ≤ now }

/-- `b->count = 1` -/
def id_count (id : ℤ) (bid : ℕ) : Aomdv :=
  { s with bihead := s.bihead.map fun b => if b.src = id ∧ b.id = bid then { b with count := 1 } else b }

/-- `aomdv_rqueue::enque` -/
def enque (p : AomdvIp) : Aomdv :=
  let q := s.rqueue.filter fun x => ¬ x.2 < now
  let q := if q.length = 64 then q.tail else q
  { s with rqueue := q ++ [(p, now + 30)] }

/-- What `aomdv_rqueue::deque` gives until it gives nothing, and the packets that are left. -/
def dequeAll (dst : ℤ) : Aomdv × List AomdvIp :=
  let q := s.rqueue.filter fun x => ¬ x.2 < now
  ({ s with rqueue := q.filter fun x => x.1.daddr ≠ dst },
    (q.filter fun x => x.1.daddr = dst).map Prod.fst)

/-- What became of a packet. -/
inductive Forwarded where
  | dropped
  | received
  | sent (next_hop : Option ℤ)

/-- `none` is a failed assertion, or a path that is missing. -/
def forward (rt : Option ℤ) (ih : AomdvIp) : Option (Aomdv × Forwarded) :=
  if ih.ttl = 0 then some (s, .dropped)
  else if ¬ ih.aomdv ∧ ih.up ∧ ih.daddr = aomdvBroadcast ∨ ih.daddr = s.index then
    some (s, .received)
  else
    match rt with
    | some d =>
      if (s.rt d).rt_flags ≠ .RTF_UP then none
      else
        (s.rt d).path_find.bind fun path =>
          if ih.daddr = aomdvBroadcast then none
          else some (s.setRt d { s.rt d with
            rt_path_list := AomdvRtEntry.adjustExpire (fun _ => true)
              (fun _ => now + activeRouteTimeout) (s.rt d).rt_path_list
            rt_error := (s.rt d).rt_error || (ih.saddr ≠ s.index ∧ ih.data) },
            .sent (some path.nexthop))
    | none => if ih.daddr ≠ aomdvBroadcast then none else some (s, .sent none)

/-- Packets that have waited for a route. -/
def forwardAll (d : ℤ) : Aomdv → List AomdvIp → Option Aomdv
  | s, [] => some s
  | s, p :: ps =>
    if (s.rt d).rt_flags = .RTF_UP then
      (s.forward now (some d) p).bind fun r => forwardAll d r.1 ps
    else forwardAll d s ps

/-- A route that is up serves the packets that have waited. -/
def routeUp (d : ℤ) : Option Aomdv :=
  if (s.rt d).rt_flags = .RTF_UP then
    let s := s.setRt d (s.rt d).resetRequests
    let r := s.dequeAll now d
    forwardAll now d r.1 r.2
  else some s

/-- The reverse path of `recvRequest`. The second part is missing if the packet is dropped, and says
otherwise whether there is a reverse path; `none` is a failed assertion. -/
def reversePath (saddr : ℤ) (rq : AomdvRequest) (rt0 : AomdvRtEntry) :
    Option (AomdvRtEntry × Option Bool) :=
  let hops := rq.rq_hop_count + 1
  if rt0.rt_seqno < rq.rq_src_seqno then
    some (rt0.renew rq.rq_src_seqno saddr hops (now + revRouteLife) rq.rq_first_hop, some true)
  else if rt0.rt_seqno = rq.rq_src_seqno ∧ rt0.rt_advertised_hops > rq.rq_hop_count then
    if rt0.rt_flags ≠ .RTF_UP then none
    else
      match rt0.disjoint_path_lookup saddr rq.rq_first_hop with
      | some reverse_path =>
        if reverse_path.hopcount ≠ hops then none
        else some ({ rt0 with
          rt_path_list := AomdvRtEntry.adjustExpire
            (fun p => p.nexthop = saddr ∧ p.lasthop = rq.rq_first_hop)
            (fun e => max e (now + revRouteLife)) rt0.rt_path_list }, some true)
      | none =>
        if rt0.new_disjoint_path saddr rq.rq_first_hop then
          let fits := rt0.rt_num_paths_ < s.aomdv_max_paths_ ∧
            (hops : ℤ) - rt0.path_get_min_hopcount ≤ s.aomdv_prim_alt_path_len_diff_
          let rt0 := if fits then rt0.extend saddr hops (now + revRouteLife) rq.rq_first_hop else rt0
          if (hops : ℤ) - rt0.path_get_min_hopcount > s.aomdv_prim_alt_path_len_diff_ then
            some (rt0, none)
          else some (rt0, some fits)
        else if rq.rq_dst = s.index ∧
            ∀ erp ∈ rt0.path_lookup_lasthop rq.rq_first_hop, hops > erp.hopcount then
          some (rt0, none)
        else some (rt0, some false)
  else some (rt0, none)

/-- The sequence number with which the destination answers. -/
def answerSeqno (rq_dst_seqno : ℕ) : ℕ :=
  let seqno := if s.seqno < rq_dst_seqno then add32 rq_dst_seqno 1 else s.seqno
  if seqno % 2 ≠ 0 then add32 seqno 1 else seqno

def sendReply (ipdst : ℤ) (hop_count : ℕ) (rpdst : ℤ) (rpseq : ℕ) (lifetime timestamp : ℚ)
    (nexthop : ℤ) (bcast_id : ℕ) (rp_first_hop : ℤ) : AomdvMsg :=
  .reply nexthop ⟨s.index, ipdst, networkDiameter, true, false, false, 0, 0⟩
    ⟨hop_count % 256, rpdst, rpseq, s.index, lifetime, timestamp, bcast_id, rp_first_hop⟩

/-- A node with a route answers a request. -/
def answerRoute (ih : AomdvIp) (rq : AomdvRequest) : Option (Aomdv × List AomdvMsg) :=
  if (s.id_get rq.rq_src rq.rq_bcast_id).any (·.count = 0) then
    let s := s.id_count rq.rq_src rq.rq_bcast_id
    let rt := (s.rt rq.rq_dst).advertise
    rt.path_find.bind fun forward_path =>
      some (s.setRt rq.rq_dst { rt with rt_error := true },
        [s.sendReply rq.rq_src rt.rt_advertised_hops rq.rq_dst rt.rt_seqno
          (forward_path.expire - now) rq.rq_timestamp ih.saddr rq.rq_bcast_id forward_path.lasthop])
  else some (s, [])

/-- A request is passed on. -/
def forwardRequest (ih : AomdvIp) (rq : AomdvRequest) : Option (Aomdv × List AomdvMsg) :=
  let rq := { rq with
    rq_dst_seqno := match s.rt_lookup rq.rq_dst with
      | some rt => max rt.rt_seqno rq.rq_dst_seqno
      | none => rq.rq_dst_seqno }
  let rt0 := (s.rt rq.rq_src).advertise
  let s := s.setRt rq.rq_src rt0
  rt0.path_find.bind fun path =>
    let rq := { rq with
      rq_hop_count := rt0.rt_advertised_hops % 256
      rq_first_hop := path.lasthop }
    let ih := { ih with saddr := s.index }
    (s.forward now none ih).map fun r =>
      (r.1, match r.2 with
        | .sent _ => [.request ih rq]
        | _ => [])

/-- The end of `recvRequest`. -/
def answerRequest (ih : AomdvIp) (rq : AomdvRequest) (reverse_path kill_request_propagation : Bool) :
    Option (Aomdv × List AomdvMsg) :=
  if rq.rq_dst = s.index then
    let s := { s with seqno := s.answerSeqno rq.rq_dst_seqno }
    some (s, [s.sendReply rq.rq_src 0 s.index s.seqno activeRouteTimeout rq.rq_timestamp ih.saddr
      rq.rq_bcast_id ih.saddr])
  else if (s.rt_lookup rq.rq_dst).any fun rt => rt.rt_flags = .RTF_UP ∧ rt.rt_seqno ≥ rq.rq_dst_seqno
  then
    if (s.rt rq.rq_dst).rt_seqno % 2 ≠ 0 then none
    else if reverse_path then s.answerRoute now ih rq
    else some (s, [])
  else if kill_request_propagation then some (s, [])
  else s.forwardRequest now ih rq

/-- `none` is a failed assertion, or a path that is missing. -/
def recvRequest (ih : AomdvIp) (rq : AomdvRequest) : Option (Aomdv × List AomdvMsg) :=
  if rq.rq_src = s.index then some (s, [])
  else
    let kill_request_propagation := (s.id_get rq.rq_src rq.rq_bcast_id).isSome
    let s := if kill_request_propagation then s else s.id_insert now rq.rq_src rq.rq_bcast_id
    let rq := if rq.rq_hop_count = 0 then { rq with rq_first_hop := s.index } else rq
    let s := s.rt_ensure rq.rq_src
    (s.reversePath now ih.saddr rq (s.rt rq.rq_src)).bind fun r =>
      let s := s.setRt rq.rq_src r.1
      match r.2 with
      | none => some (s, [])
      | some reverse_path =>
        (s.routeUp now rq.rq_src).bind fun s =>
          s.answerRequest now ih rq reverse_path kill_request_propagation

/-- The forward path of `recvReply`, and whether the packet is not dropped; `none` is a failed
assertion. -/
def forwardPath (rp : AomdvReply) (rt : AomdvRtEntry) : Option (AomdvRtEntry × Bool) :=
  let hops := rp.rp_hop_count + 1
  if rt.rt_seqno < rp.rp_dst_seqno then
    some (rt.renew rp.rp_dst_seqno rp.rp_src hops (now + rp.rp_lifetime) rp.rp_first_hop, true)
  else if rt.rt_seqno = rp.rp_dst_seqno ∧ rt.rt_advertised_hops > rp.rp_hop_count then
    if rt.rt_flags ≠ .RTF_UP then none
    else
      match rt.disjoint_path_lookup rp.rp_src rp.rp_first_hop with
      | some forward_path =>
        if forward_path.hopcount ≠ hops then none
        else some ({ rt with
          rt_path_list := AomdvRtEntry.adjustExpire
            (fun p => p.nexthop = rp.rp_src ∧ p.lasthop = rp.rp_first_hop)
            (fun e => max e (now + rp.rp_lifetime)) rt.rt_path_list }, true)
      | none =>
        if rt.new_disjoint_path rp.rp_src rp.rp_first_hop ∧
            rt.rt_num_paths_ < s.aomdv_max_paths_ ∧
            (hops : ℤ) - rt.path_get_min_hopcount ≤ s.aomdv_prim_alt_path_len_diff_ then
          some (rt.extend rp.rp_src hops (now + rp.rp_lifetime) rp.rp_first_hop, true)
        else some (rt, false)
  else some (rt, false)

/-- A reply is passed on along the first reverse path. -/
def forwardReply (ih : AomdvIp) (rp : AomdvReply) : Option (Aomdv × List AomdvMsg) :=
  let s := s.id_count ih.daddr rp.rp_bcast_id
  let rt := (s.rt rp.rp_dst).advertise
  let s := s.setRt rp.rp_dst { rt with rt_error := true }
  rt.path_find.bind fun path =>
    let rp := { rp with
      rp_src := s.index
      rp_hop_count := rt.rt_advertised_hops % 256
      rp_first_hop := path.lasthop }
    let s := s.setRt ih.daddr { s.rt ih.daddr with
      rt_path_list := AomdvRtEntry.adjustExpire (fun _ => true) (fun _ => now + activeRouteTimeout)
        (s.rt ih.daddr).rt_path_list }
    (s.forward now (some ih.daddr) ih).map fun r =>
      (r.1, match r.2 with
        | .sent (some next_hop) => [.reply next_hop ih rp]
        | _ => [])

/-- `none` is a failed assertion, or a path that is missing. -/
def recvReply (ih : AomdvIp) (rp : AomdvReply) : Option (Aomdv × List AomdvMsg) :=
  if rp.rp_dst = s.index then some (s, [])
  else
    let s := s.rt_ensure rp.rp_dst
    (s.forwardPath now rp (s.rt rp.rp_dst)).bind fun r =>
      let s := s.setRt rp.rp_dst r.1
      if ¬ r.2 then some (s, [])
      else
        (s.routeUp now rp.rp_dst).bind fun s =>
          if ih.daddr = s.index then some (s, [])
          else if (s.rt_lookup ih.daddr).any (·.rt_flags = .RTF_UP) ∧
              (s.id_get ih.daddr rp.rp_bcast_id).any (·.count = 0) then
            s.forwardReply now ih rp
          else some (s, [])

def nb_insert (id : ℤ) : Aomdv := { s with nbhead := (id, now + 3) :: s.nbhead }

def recvHello (saddr : ℤ) (seqno : ℕ) (lifetime : ℚ) : Option (Aomdv × List AomdvMsg) :=
  let s :=
    if s.nbhead.any fun nb => nb.1 = saddr then
      { s with nbhead := s.nbhead.map fun nb =>
          if nb.1 = saddr then (nb.1, now + (3 / 2 : ℚ) * 3) else nb }
    else s.nb_insert now saddr
  s.recvReply now ⟨saddr, s.index, 0, true, false, false, 0, 0⟩
    ⟨0, saddr, seqno, saddr, lifetime, 0, 0, s.index⟩

/-- An entry whose last path is lost gets the next sequence number. -/
def loseEntry (rt : AomdvRtEntry) : AomdvRtEntry :=
  { rt with rt_seqno := max (add32 rt.rt_seqno 1) rt.rt_highest_seqno_heard }

/-- One entry of `handle_link_failure`, and what is reported of it; `none` is a failed assertion. -/
def failEntry (id d : ℤ) (rt : AomdvRtEntry) : Option (AomdvRtEntry × List (ℤ × ℕ)) :=
  if rt.rt_flags = .RTF_UP ∧ rt.path_lookup id ≠ none then
    if rt.rt_seqno % 2 ≠ 0 then none
    else
      let rt := rt.path_delete id
      rt.path_empty.map fun empty =>
        if empty then
          let rt := loseEntry rt
          (({ rt with rt_error := false }).down, if rt.rt_error then [(d, rt.rt_seqno)] else [])
        else (rt, [])
  else some (rt, [])

/-- The entries of a list, one after the other. -/
def forEach (f : ℤ → AomdvRtEntry → Option (AomdvRtEntry × List (ℤ × ℕ))) :
    Aomdv → List ℤ → Option (Aomdv × List (ℤ × ℕ))
  | s, [] => some (s, [])
  | s, d :: ds =>
    (f d (s.rt d)).bind fun r =>
      (forEach f (s.setRt d r.1) ds).map fun q => (q.1, r.2 ++ q.2)

/-- The message of `sendError`, if something is reported. -/
def sendError (unreachable : List (ℤ × ℕ)) : List AomdvMsg :=
  if unreachable = [] then [] else [.error s.index unreachable]

/-- One destination of `recvError`. -/
def errorEntry (saddr : ℤ) (seqno : ℕ) (d : ℤ) (rt : AomdvRtEntry) :
    Option (AomdvRtEntry × List (ℤ × ℕ)) :=
  if rt.rt_flags = .RTF_UP ∧ rt.path_lookup saddr ≠ none ∧ rt.rt_seqno ≤ seqno then
    if rt.rt_seqno % 2 ≠ 0 then none
    else
      let rt := rt.path_delete saddr
      let rt := { rt with rt_highest_seqno_heard := max rt.rt_highest_seqno_heard seqno }
      rt.path_empty.map fun empty =>
        if empty then
          let rt := ({ rt with rt_seqno := rt.rt_highest_seqno_heard }).down
          ({ rt with rt_error := false }, if rt.rt_error then [(d, rt.rt_seqno)] else [])
        else (rt, [])
  else some (rt, [])

/-- The loop of `recvError`. -/
def errorLoop (saddr : ℤ) : Aomdv → List (ℤ × ℕ) → Option (Aomdv × List (ℤ × ℕ))
  | s, [] => some (s, [])
  | s, (d, seqno) :: ds =>
    if s.rt_lookup d = none then errorLoop saddr s ds
    else
      (errorEntry saddr seqno d (s.rt d)).bind fun r =>
        (errorLoop saddr (s.setRt d r.1) ds).map fun q => (q.1, r.2 ++ q.2)

/-- `none` is a failed assertion. -/
def recvError (saddr : ℤ) (unreachable : List (ℤ × ℕ)) : Option (Aomdv × List AomdvMsg) :=
  (errorLoop saddr s unreachable).map fun r => (r.1, r.1.sendError r.2)

/-- The time to live of the next request, and the number of those through the whole network. -/
def requestTtl (rt : AomdvRtEntry) : ℤ × ℕ :=
  let last := max rt.rt_req_last_ttl rt.rt_last_hop_count
  if last = 0 then (5, rt.rt_req_cnt)
  else if last < 7 then (last + 2, rt.rt_req_cnt)
  else (networkDiameter, rt.rt_req_cnt + 1)

/-- When the next request may be sent, where `PerHopTime` is the constant one. -/
def requestTimeout (ttl : ℤ) (cnt : ℕ) : ℚ :=
  min ((if cnt > 0 then 2 * ttl * (3 / 100) * cnt else 2 * ttl * (3 / 100)) + now) (now + 1)

/-- `none` is a failed assertion. -/
def sendRequest (dst : ℤ) : Option (Aomdv × List AomdvMsg) :=
  let rt := s.rt dst
  if rt.rt_flags = .RTF_UP then some (s, [])
  else if rt.rt_req_timeout > now then some (s, [])
  else if rt.rt_req_cnt > 3 then
    let rt := { rt with rt_req_timeout := now + 1, rt_req_cnt := 0 }
    some (((s.setRt dst rt).dequeAll now dst).1, [])
  else if add32 s.seqno 2 % 2 ≠ 0 then none
  else
    let r := requestTtl rt
    let seqno := add32 s.seqno 2
    some ({ s.setRt dst { rt with
        rt_req_last_ttl := r.1
        rt_req_cnt := r.2
        rt_req_timeout := requestTimeout now r.1 r.2
        rt_expire := 0 } with
      seqno := seqno
      bid := add32 s.bid 1 },
      [.request ⟨s.index, aomdvBroadcast, r.1, true, false, false, 0, 0⟩
        ⟨0, s.bid, dst, rt.rt_seqno, s.index, seqno, now, 0⟩])

/-- `none` is a failed assertion. -/
def rt_resolve (ih : AomdvIp) : Option (Aomdv × List AomdvMsg) :=
  let s := s.rt_ensure ih.daddr
  match (s.rt ih.daddr).rt_flags with
  | .RTF_UP => (s.forward now (some ih.daddr) ih).map fun r => (r.1, [])
  | .RTF_IN_REPAIR =>
    if ih.saddr = s.index then (s.enque now ih).sendRequest now ih.daddr
    else some (s.enque now ih, [])
  | .RTF_DOWN =>
    if ih.saddr = s.index then (s.enque now ih).sendRequest now ih.daddr
    else some (s, [.error s.index [(ih.daddr, (s.rt ih.daddr).rt_seqno)]])

/-- `recv` for packets that are not of the protocol. -/
def recvData (ih : AomdvIp) : Option (Aomdv × List AomdvMsg) :=
  let resolve (ih : AomdvIp) :=
    if ih.daddr ≠ aomdvBroadcast then s.rt_resolve now ih
    else (s.forward now none ih).map fun r => (r.1, [])
  if ih.saddr = s.index ∧ ih.num_forwards = 0 then
    resolve { ih with
      salvage_count := 0
      ttl := if ih.daddr ≠ aomdvBroadcast then networkDiameter else ih.ttl }
  else if ih.saddr = s.index then some (s, [])
  else if ih.ttl - 1 = 0 then some (s, [])
  else resolve { ih with ttl := ih.ttl - 1 }

/-- One entry of `rt_purge`; `none` is a failed assertion. -/
def rt_purge (d : ℤ) : Option (Aomdv × List AomdvMsg) :=
  let rt := s.rt d
  if rt.rt_flags = .RTF_UP ∧ rt.rt_expire < now then
    let rt := rt.path_purge now
    rt.path_empty.map fun empty =>
      if empty then
        let rt := loseEntry rt
        let rt := if rt.rt_seqno % 2 = 0 then { rt with rt_seqno := add32 rt.rt_seqno 1 } else rt
        (((s.dequeAll now d).1).setRt d rt.down, [])
      else (s.setRt d rt, [])
  else if rt.rt_flags = .RTF_UP then
    let r := s.dequeAll now d
    (forwardAll now d r.1 r.2).map fun s => (s, [])
  else if s.rqueue.any fun x => x.1.daddr = d then s.sendRequest now d
  else some (s, [])

/-- The packets that the interface queue held for a lost neighbour. -/
def salvage : Aomdv → List AomdvIp → Option Aomdv
  | s, [] => some s
  | s, p :: ps =>
    if p.data ∧ (s.rt_lookup p.daddr).any (·.rt_flags = .RTF_UP) ∧ p.salvage_count < 10 then
      (s.forward now (some p.daddr) { p with salvage_count := p.salvage_count + 1 }).bind fun r =>
        salvage r.1 ps
    else salvage s ps

/-- `nb_delete` of `nb_purge`, for one neighbour. The second part is missing if a message would have
more destinations than its arrays; `none` is a failed assertion. -/
def nb_purge (id : ℤ) (filtered : List AomdvIp) : Option (Aomdv × Option (List AomdvMsg)) :=
  if s.nbhead.any fun nb => nb.1 = id ∧ nb.2 ≤ now then
    let s := { s with
      seqno := add32 s.seqno 2
      nbhead := s.nbhead.eraseP fun nb => nb.1 = id }
    if s.seqno % 2 ≠ 0 then none
    else
      (forEach (failEntry id) s s.rthead).bind fun r =>
        if r.2.length > aomdvMaxErrors then some (r.1, none)
        else (salvage now r.1 filtered).map fun s => (s, some (s.sendError r.2))
  else some (s, some [])

/-- `AOMDVHelloTimer` -/
def sendHello : List AomdvMsg :=
  if s.rthead.any fun d => (s.rt d).rt_flags = .RTF_UP then [.hello s.index s.seqno 4] else []

end Aomdv

end Ns2
