import Ns2.Tora.ToraDest

/-! The handlers of a TORA node: queries, updates, clears and link changes. -/

namespace Ns2

inductive HdrTora where
  | qry (dst : ℤ)
  | upd (dst : ℤ) (h : Height)
  | clr (dst : ℤ) (tau : ℚ) (oid : ℤ)
  deriving DecidableEq

namespace HdrTora

/-- `th_dst` -/
def dst : HdrTora → ℤ
  | qry dst => dst
  | upd dst _ => dst
  | clr dst _ _ => dst

end HdrTora

namespace TORADest

/-- The packet that `sendUPD` sends. -/
def upd (td : TORADest) : HdrTora := .upd td.index td.height

/-- The last lines of a case: the time of the update and `sendUPD`. -/
def sendUPD (td : TORADest) (now : ℚ) : TORADest × List HdrTora :=
  ({ td with time_upd := now }, [td.upd])

/-- `recvQRY` for a destination that is found or added -/
def recvQRY (td : TORADest) (ipaddr : ℤ) (now : ℚ) (saddr : ℤ) : TORADest × List HdrTora :=
  if td.rt_req then (td, [])
  else if td.height.r = 0 then
    match td.nb_find saddr with
    | some tn => if tn.time_act > td.time_upd then td.sendUPD now else (td, [])
    | none => (td, [])
  else
    match td.nb_find_min_height 0 with
    | some tn =>
      (td.update_height tn.height.tau tn.height.oid tn.height.r (tn.height.delta + 1)
        ipaddr).sendUPD now
    | none =>
      ({ td with rt_req := true }, if td.num_active > 1 then [.qry td.index] else [])

/-- All that is known of a route is erased. -/
def erase (td : TORADest) : TORADest :=
  { td with
    height := td.height.Null
    num_down := 0
    num_up := 0
    nblist := td.nblist.map (TORANeighbor.erase td.index) }

/-- The cases of `recvUPD` without a downstream link, but with an upstream one. `none` is a failed
assertion. -/
def reverseLinks (td : TORADest) (ipaddr : ℤ) (now : ℚ) : Option (TORADest × List HdrTora) :=
  if td.nb_check_same_ref then
    match td.nb_find_min_height 0 with
    | some tn => some ((td.update_height tn.height.tau tn.height.oid 1 0 ipaddr).sendUPD now)
    | none =>
      if td.height.oid = ipaddr then some (td.erase, [.clr td.index td.height.tau td.height.oid])
      else some (({ td.update_height now ipaddr 0 0 ipaddr with rt_req := false } :
        TORADest).sendUPD now)
  else
    match td.nb_find_max_height with
    | none => none
    | some n =>
      match td.nb_find_min_nonnull_height n.height with
      | none => none
      | some m => some ((td.update_height m.height.tau m.height.oid m.height.r (m.height.delta - 1)
          ipaddr).sendUPD now)

/-- `recvUPD` for a destination that is found or added -/
def recvUPD (td : TORADest) (ipaddr : ℤ) (now : ℚ) (saddr : ℤ) (h : Height) :
    Option (TORADest × List HdrTora) :=
  match td.nb_find saddr with
  | none => some (td, [])
  | some tn =>
    let td := td.update_height_nb tn h
    if td.rt_req ∧ h.r = 0 then
      some (({ td.update_height h.tau h.oid h.r (h.delta + 1) ipaddr with rt_req := false } :
        TORADest).sendUPD now)
    else if td.num_down = 0 then
      if td.num_up = 0 then
        if td.height.isNull then some (td, [])
        else some (({ td with height := td.height.Null } : TORADest).sendUPD now)
      else td.reverseLinks ipaddr now
    else some (td, [])

/-- The clearing of the sender and of the neighbours on a reference level. -/
def clearLevel (td : TORADest) (saddr : ℤ) (tau : ℚ) (oid : ℤ) : TORADest :=
  { td with nblist :=
      (modifyFirst (fun tn => tn.index = saddr) TORANeighbor.clear td.nblist).map fun tn =>
        if tn.height.tau = tau ∧ tn.height.oid = oid ∧ tn.height.r = 1 then tn.clear else tn }

/-- `recvCLR` for a destination that is found or added -/
def recvCLR (td : TORADest) (ipaddr : ℤ) (now : ℚ) (saddr : ℤ) (tau : ℚ) (oid : ℤ) :
    TORADest × List HdrTora :=
  if td.height.tau = tau ∧ td.height.oid = oid ∧ td.height.r = 1 then
    (td.erase,
      if td.num_active > 1 then [.clr td.index td.height.tau td.height.oid] else [])
  else
    match td.nb_find saddr with
    | none => (td, [])
    | some _ =>
      let td := td.clearLevel saddr tau oid
      if td.num_down = 0 then
        if td.num_up = 0 then
          if td.height.isNull then (td, [])
          else ({ td with height := td.height.Null } : TORADest).sendUPD now
        else
          ({ td.update_height now ipaddr 0 0 ipaddr with rt_req := false } : TORADest).sendUPD now
      else (td, [])

/-- What `recvTORA` does with a packet. -/
def recv (td : TORADest) (ipaddr : ℤ) (now : ℚ) (saddr : ℤ) :
    HdrTora → Option (TORADest × List HdrTora)
  | .qry _ => some (td.recvQRY ipaddr now saddr)
  | .upd _ h => td.recvUPD ipaddr now saddr h
  | .clr _ tau oid => some (td.recvCLR ipaddr now saddr tau oid)

/-- `rt_resolve` for a destination that is found or added: a packet without a next hop is queued,
and a query is sent. -/
def rt_resolve (td : TORADest) : TORADest × List HdrTora :=
  match td.nb_find_next_hop with
  | some _ => (td, [])
  | none => if td.rt_req then (td, []) else ({ td with rt_req := true }, [.qry td.index])

/-- `rtNotifyLinkUP` for one destination -/
def linkUP (td : TORADest) (id : ℤ) (now : ℚ) : TORADest × List HdrTora :=
  ((match td.nb_find id with
    | none => td.nb_add id now
    | some _ => td), if td.rt_req then [.qry td.index] else [])

/-- `rtNotifyLinkDN` for one destination -/
def linkDN (td : TORADest) (id : ℤ) (now : ℚ) : TORADest × List HdrTora :=
  let r := td.nb_del id now
  (r.1, if r.2 then [r.1.upd] else [])

end TORADest

/-- A node with its address and destinations. -/
structure ToraAgent where
  ipaddr : ℤ
  dstlist : List TORADest
  deriving DecidableEq

/-- What happens to a node. The bidirectional links are what the IMEP layer gives for a destination
that is added. -/
inductive ToraEvent where
  | recv (now : ℚ) (biLinks : List ℤ) (saddr : ℤ) (p : HdrTora)
  | rt_resolve (now : ℚ) (biLinks : List ℤ) (daddr : ℤ)
  | rtNotifyLinkUP (now : ℚ) (index : ℤ)
  | rtNotifyLinkDN (now : ℚ) (index : ℤ)

namespace ToraAgent

def dst_find (a : ToraAgent) (id : ℤ) : Option TORADest := a.dstlist.find? fun td => td.index = id

/-- A destination with the neighbours that the IMEP layer gives. -/
def newDest (now : ℚ) (biLinks : List ℤ) (id : ℤ) : TORADest :=
  biLinks.foldl (fun td nb => td.nb_add nb now) (.ofId id)

def dst_add (a : ToraAgent) (now : ℚ) (biLinks : List ℤ) (id : ℤ) : ToraAgent :=
  { a with dstlist := newDest now biLinks id :: a.dstlist }

/-- The destination that a handler works on. -/
def destFor (a : ToraAgent) (now : ℚ) (biLinks : List ℤ) (id : ℤ) : TORADest :=
  (a.dst_find id).getD (newDest now biLinks id)

/-- A handler for one destination, which is added when it is not found. -/
def withDest (a : ToraAgent) (now : ℚ) (biLinks : List ℤ) (id : ℤ)
    (f : TORADest → Option (TORADest × List HdrTora)) : Option (ToraAgent × List HdrTora) :=
  let a := if a.dst_find id = none then a.dst_add now biLinks id else a
  match a.dst_find id with
  | none => none
  | some td => (f td).map fun r =>
      ({ a with dstlist := modifyFirst (fun t => t.index = id) (fun _ => r.1) a.dstlist }, r.2)

/-- A handler for all destinations. -/
def forDests (a : ToraAgent) (f : TORADest → TORADest × List HdrTora) :
    ToraAgent × List HdrTora :=
  ({ a with dstlist := a.dstlist.map fun td => (f td).1 }, a.dstlist.flatMap fun td => (f td).2)

/-- A node handles an event and gives the packets that it sends. -/
def step (a : ToraAgent) : ToraEvent → Option (ToraAgent × List HdrTora)
  | .recv now biLinks saddr p =>
    if p.dst = a.ipaddr then some (a, [])
    else a.withDest now biLinks p.dst fun td => td.recv a.ipaddr now saddr p
  | .rt_resolve now biLinks daddr =>
    a.withDest now biLinks daddr fun td => some td.rt_resolve
  | .rtNotifyLinkUP now index => some (a.forDests fun td => td.linkUP index now)
  | .rtNotifyLinkDN now index => some (a.forDests fun td => td.linkDN index now)

/-- A node as it is created. -/
def ofAddr (ipaddr : ℤ) : ToraAgent := ⟨ipaddr, []⟩

end ToraAgent

end Ns2
