import Mathlib

/-! Routing entries of AOMDV with several paths to one destination, and the operations on their
lists of paths. -/

namespace Ns2

/-- `INFINITY` as `route.h` defines it. -/
def aomdvInfinity : ℕ := 0x3fff

/-- `INFINITY2` -/
def aomdvInfinity2 : ℕ := 0xff

inductive AomdvFlags where
  | RTF_DOWN
  | RTF_UP
  | RTF_IN_REPAIR
  deriving DecidableEq

structure AomdvPath where
  nexthop : ℤ
  hopcount : ℕ
  expire : ℚ
  lasthop : ℤ
  deriving DecidableEq

structure AomdvRtEntry where
  rt_req_timeout : ℚ
  rt_req_cnt : ℕ
  rt_flags : AomdvFlags
  rt_seqno : ℕ
  rt_advertised_hops : ℕ
  rt_last_hop_count : ℤ
  rt_path_list : List AomdvPath
  rt_highest_seqno_heard : ℕ
  rt_num_paths_ : ℤ
  rt_error : Bool
  rt_expire : ℚ
  rt_req_last_ttl : ℤ
  deriving DecidableEq

namespace AomdvRtEntry

def new : AomdvRtEntry where
  rt_req_timeout := 0
  rt_req_cnt := 0
  rt_flags := .RTF_DOWN
  rt_seqno := 0
  rt_advertised_hops := aomdvInfinity2
  rt_last_hop_count := aomdvInfinity2
  rt_path_list := []
  rt_highest_seqno_heard := 0
  rt_num_paths_ := 0
  rt_error := false
  rt_expire := 0
  rt_req_last_ttl := 0

variable (rt : AomdvRtEntry)

def path_insert (nexthop : ℤ) (hopcount : ℕ) (expire_time : ℚ) (lasthop : ℤ) : AomdvRtEntry :=
  { rt with
    rt_path_list := rt.rt_path_list ++ [⟨nexthop, hopcount, expire_time, lasthop⟩]
    rt_num_paths_ := rt.rt_num_paths_ + 1 }

def path_lookup (id : ℤ) : Option AomdvPath := rt.rt_path_list.find? fun p => p.nexthop = id

def disjoint_path_lookup (nexthop lasthop : ℤ) : Option AomdvPath :=
  rt.rt_path_list.find? fun p => p.nexthop = nexthop ∧ p.lasthop = lasthop

def new_disjoint_path (nexthop lasthop : ℤ) : Prop :=
  ∀ p ∈ rt.rt_path_list, ¬ (p.nexthop = nexthop ∨ p.lasthop = lasthop)

instance (nexthop lasthop : ℤ) : Decidable (rt.new_disjoint_path nexthop lasthop) :=
  inferInstanceAs (Decidable (∀ p ∈ rt.rt_path_list, ¬ (p.nexthop = nexthop ∨ p.lasthop = lasthop)))

def path_lookup_lasthop (id : ℤ) : Option AomdvPath :=
  rt.rt_path_list.find? fun p => p.lasthop = id

/-- The first path through a neighbour is taken out. -/
def path_delete (id : ℤ) : AomdvRtEntry :=
  if rt.path_lookup id = none then rt
  else { rt with
    rt_path_list := rt.rt_path_list.eraseP fun p => p.nexthop = id
    rt_num_paths_ := rt.rt_num_paths_ - 1 }

/-- `path_delete` of all paths -/
def path_delete_all : AomdvRtEntry := { rt with rt_path_list := [], rt_num_paths_ := 0 }

/-- `none` is a failed assertion. -/
def path_empty : Option Bool :=
  if rt.rt_path_list = [] then
    if rt.rt_num_paths_ = 0 then some true else none
  else if rt.rt_num_paths_ > 0 then some false
  else none

def path_find : Option AomdvPath := rt.rt_path_list.head?

def path_get_max_hopcount : ℕ :=
  let max_hopcount := rt.rt_path_list.foldl (fun m p => if p.hopcount > m then p.hopcount else m) 0
  if max_hopcount = 0 then aomdvInfinity2 else max_hopcount

def path_get_min_hopcount : ℕ :=
  rt.rt_path_list.foldl (fun m p => if p.hopcount < m then p.hopcount else m) aomdvInfinity2

def path_purge (now : ℚ) : AomdvRtEntry :=
  { rt with
    rt_path_list := rt.rt_path_list.filter fun p => ¬ p.expire < now
    rt_num_paths_ := rt.rt_num_paths_ -
      (rt.rt_path_list.filter fun p => p.expire < now).length }

/-- The first path with a property gets another time of expiry. -/
def adjustExpire (P : AomdvPath → Bool) (f : ℚ → ℚ) : List AomdvPath → List AomdvPath
  | [] => []
  | p :: l => if P p then { p with expire := f p.expire } :: l else p :: adjustExpire P f l

/-- `rt_down` -/
def down : AomdvRtEntry :=
  if rt.rt_flags = .RTF_DOWN then rt
  else { rt with
    rt_flags := .RTF_DOWN
    rt_advertised_hops := aomdvInfinity
    rt_path_list := []
    rt_num_paths_ := 0
    rt_expire := 0 }

/-- The soft state of route requests is reset. -/
def resetRequests : AomdvRtEntry :=
  { rt with rt_req_timeout := 0, rt_req_last_ttl := 0, rt_req_cnt := 0 }

/-- Route advertisement: the hop count is the longest one when it is sent for the first time. -/
def advertise : AomdvRtEntry :=
  if rt.rt_advertised_hops = aomdvInfinity then
    { rt with rt_advertised_hops := rt.path_get_max_hopcount }
  else rt

/-- A newer sequence number, and its first path. -/
def renew (seqno : ℕ) (nexthop : ℤ) (hopcount : ℕ) (expire_time : ℚ) (lasthop : ℤ) :
    AomdvRtEntry :=
  let rt := ({ rt with rt_seqno := seqno, rt_advertised_hops := aomdvInfinity }).path_delete_all
  let rt := ({ rt with rt_flags := .RTF_UP }).path_insert nexthop hopcount expire_time lasthop
  { rt with rt_last_hop_count := rt.path_get_max_hopcount }

/-- One more path under the same sequence number. -/
def extend (nexthop : ℤ) (hopcount : ℕ) (expire_time : ℚ) (lasthop : ℤ) : AomdvRtEntry :=
  let rt := rt.path_insert nexthop hopcount expire_time lasthop
  { rt with rt_last_hop_count := rt.path_get_max_hopcount }

end AomdvRtEntry

end Ns2
