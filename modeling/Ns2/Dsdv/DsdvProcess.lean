import Ns2.Dsdv.DsdvUpdates

/-! What a DSDV node does with the updates of its neighbours and with the data packets that wait for
a route. -/

namespace Ns2

/-- What is read of a data packet; where it goes is known from the entry that it waits on. It is
neither an update of another node nor a broadcast, which `recv` does not hand to `forwardPacket`. -/
structure DsdvPacket where
  saddr : Nsaddr
  num_forwards : ℤ
  ttl : ℤ
  deriving DecidableEq

/-- A whole `rtable_ent`, without the event of its triggered update. -/
structure DsdvEnt where
  hop : Nsaddr
  metric : BitVec 32
  seqnum : BitVec 32
  advertise_ok_at : ℚ
  advert_seqnum : Bool
  advert_metric : Bool
  last_advertised_metric : BitVec 32
  changed_at : ℚ
  new_seqnum_at : ℚ
  wst : ℚ
  timeout_event : Bool
  q : Option (List DsdvPacket)

namespace DsdvEnt

/-- After `bzero`. -/
def zero : DsdvEnt where
  hop := .ofWord 0
  metric := 0
  seqnum := 0
  advertise_ok_at := 0
  advert_seqnum := false
  advert_metric := false
  last_advertised_metric := 0
  changed_at := 0
  new_seqnum_at := 0
  wst := 0
  timeout_event := false
  q := none

/-- A newer sequence number, or the same one and a smaller metric. -/
def Fresh (e rte : DsdvEnt) : Prop :=
  e.seqnum < rte.seqnum ∨ e.seqnum = rte.seqnum ∧ rte.metric < e.metric

instance (e rte : DsdvEnt) : Decidable (Fresh e rte) := inferInstanceAs (Decidable (_ ∨ _))

end DsdvEnt

structure DsdvNode where
  myaddr_ : Nsaddr
  seqno_ : BitVec 32
  alpha_ : ℚ
  wst0_ : ℚ
  use_mac_ : Bool
  table_ : Nsaddr → Option DsdvEnt

/-- Why there is no state afterwards: a loop has not ended, or an assertion failed. -/
inductive DsdvStop where
  | fuel
  | assertion
  deriving DecidableEq

/-- `MAX_QUEUE_LENGTH` packets of a queue stay, the last ones. -/
def dsdvTrim (q : List DsdvPacket) : List DsdvPacket := q.drop (q.length - 5)

namespace DsdvNode

def addEntry (n : DsdvNode) (dst : Nsaddr) (e : DsdvEnt) : DsdvNode :=
  { n with table_ := Function.update n.table_ dst (some e) }

/-- The checks of `recv`; `none` where the packet is dropped. -/
def recvChecks (myaddr_ : Nsaddr) (p : DsdvPacket) : Option DsdvPacket :=
  if p.saddr = myaddr_ ∧ p.num_forwards = 0 then some { p with ttl := 32 }
  else if p.saddr = myaddr_ then none
  else if p.ttl - 1 = 0 then none
  else some { p with ttl := p.ttl - 1 }

/-- The entry of `forwardPacket` for a destination that nothing is known of. -/
def newcomer (n : DsdvNode) (now : ℚ) (dst : Nsaddr) (p : DsdvPacket) : DsdvEnt :=
  { DsdvEnt.zero with
    hop := dst
    metric := dsdvBig
    advertise_ok_at := now + 604800
    changed_at := now
    new_seqnum_at := now
    wst := n.wst0_
    q := some [p] }

/-- `forwardPacket` within the node's own subnet, with the next hop of a packet that is sent. -/
def forwardPacket (n : DsdvNode) (now : ℚ) (dst : Nsaddr) (p : DsdvPacket) :
    DsdvNode × Option (Nsaddr × DsdvPacket) :=
  match n.table_ dst with
  | some e =>
    if e.metric ≠ dsdvBig then (n, some (if e.metric > 1 then e.hop else dst, p))
    else (n.addEntry dst { e with q := some (dsdvTrim (e.q.getD [] ++ [p])) }, none)
  | none => (n.addEntry dst (n.newcomer now dst p), none)

def recv (n : DsdvNode) (now : ℚ) (dst : Nsaddr) (p : DsdvPacket) :
    DsdvNode × Option (Nsaddr × DsdvPacket) :=
  (recvChecks n.myaddr_ p).elim (n, none) (n.forwardPacket now dst)

/-- The loop of `processUpdate` that gives the waiting packets to `recv`, with the packets that it
sends. They come back to the same queue as long as the entry that the table has is not `usable`. -/
def drain (myaddr_ : Nsaddr) (usable : Bool) : ℕ → List DsdvPacket → Option (List DsdvPacket)
  | 0, _ => none
  | _ + 1, [] => some []
  | fuel + 1, p :: q =>
    (recvChecks myaddr_ p).elim (drain myaddr_ usable fuel q) fun p =>
      if usable then (drain myaddr_ usable fuel q).map (p :: ·)
      else drain myaddr_ usable fuel (dsdvTrim (q ++ [p]))

/-- The route `rte` that is learned from an update of `src`, before it is compared. -/
def learn (n : DsdvNode) (src : Nsaddr) (now : ℚ) (r : DsdvRoute) : DsdvEnt :=
  let prte := (n.table_ r.dst).getD .zero
  let metric := if r.metric ≠ dsdvBig then r.metric + 1 else r.metric
  let same := (n.table_ r.dst).isSome && prte.seqnum == r.seqnum
  let wst :=
    if same then prte.wst
    else if (n.table_ r.dst).isSome then
      n.alpha_ * prte.wst + (1 - n.alpha_) * (prte.changed_at - prte.new_seqnum_at)
    else n.wst0_
  { prte with
    hop := src
    metric := metric
    seqnum := r.seqnum
    changed_at := now
    wst := wst
    new_seqnum_at := if same then prte.new_seqnum_at else now
    advertise_ok_at :=
      if metric ≠ dsdvBig ∧ ((n.table_ r.dst).isNone ∨ prte.metric ≠ dsdvBig) then now + wst * 2
      else now }

/-- The route as it is when the table has been updated, the entry that the table then has, and if it
is this route. -/
def compare (now : ℚ) (prte : Option DsdvEnt) (rte : DsdvEnt) : DsdvEnt × DsdvEnt × Bool :=
  match prte with
  | none =>
    let rte := if rte.metric < dsdvBig then { rte with advert_metric := true } else rte
    (rte, rte, true)
  | some e =>
    if e.seqnum = rte.seqnum then
      if rte.metric < e.metric then
        let rte := { rte with advert_metric := rte.metric != e.last_advertised_metric }
        (rte, rte, true)
      else (rte, e, false)
    else if e.seqnum < rte.seqnum then
      let rte :=
        { rte with
          advert_seqnum := true
          advert_metric := rte.metric != e.last_advertised_metric }
      (rte, rte, true)
    else if rte.metric = dsdvBig ∧ e.metric ≠ dsdvBig then
      (rte, { e with advertise_ok_at := now, advert_metric := true }, false)
    else (rte, e, false)

/-- The last part of the loop body of `processUpdate`: the packets that wait are sent. -/
def retry (fuel : ℕ) (n : DsdvNode) (dst : Nsaddr) (rte ent : DsdvEnt) : Except DsdvStop DsdvNode :=
  rte.q.elim (.ok n) fun q =>
    if rte.metric = dsdvBig then .ok n
    else
      (drain n.myaddr_ (ent.metric != dsdvBig) fuel q).elim (.error .fuel) fun _ =>
        if rte.metric > dsdvBig then .error .assertion
        else .ok (n.addEntry dst { rte with q := none })

/-- The loop body of `processUpdate`. -/
def processRoute (fuel : ℕ) (n : DsdvNode) (src : Nsaddr) (now : ℚ) (r : DsdvRoute) :
    Except DsdvStop DsdvNode :=
  if r.dst = n.myaddr_ then .ok n
  else
    let d := compare now (n.table_ r.dst) (n.learn src now r)
    if d.2.2 ∧ d.1.metric > dsdvBig then .error .assertion
    else retry fuel (n.addEntry r.dst d.2.1) r.dst d.1 d.2.1

def processRoutes (fuel : ℕ) (n : DsdvNode) (src : Nsaddr) (now : ℚ) :
    List DsdvRoute → Except DsdvStop DsdvNode
  | [] => .ok n
  | r :: rs => (processRoute fuel n src now r).bind fun n => processRoutes fuel n src now rs

/-- The made-up advertisement of a neighbour that nothing is known of. -/
def fake (n : DsdvNode) (src : Nsaddr) (now : ℚ) : DsdvEnt :=
  { DsdvEnt.zero with
    hop := src
    metric := 1
    advertise_ok_at := now + 604800
    changed_at := now
    new_seqnum_at := now
    wst := n.wst0_
    timeout_event := true }

/-- The timeout of the neighbour starts anew. -/
def heardFrom (n : DsdvNode) (src : Nsaddr) (now : ℚ) : DsdvNode :=
  n.addEntry src (match n.table_ src with
    | some e => { e with timeout_event := true }
    | none => n.fake src now)

def processUpdate (fuel : ℕ) (n : DsdvNode) (src : Nsaddr) (now : ℚ) (p : DsdvUpdate) :
    Except DsdvStop DsdvNode :=
  (processRoutes fuel n src now p.routes).map fun n => n.heardFrom src now

end DsdvNode

end Ns2
