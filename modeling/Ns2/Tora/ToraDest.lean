import Mathlib.Data.Rat.Defs

/-! The heights, neighbours and destinations of a TORA node. -/

namespace Ns2

structure Height where
  tau : ℚ
  oid : ℤ
  r : ℤ
  delta : ℤ
  id : ℤ
  deriving DecidableEq

namespace Height

/-- The constructor. -/
def ofId (id : ℤ) : Height := ⟨-1, -1, -1, -1, id⟩

def isNull (h : Height) : Bool := h.tau = -1 ∧ h.oid = -1 ∧ h.r = -1 ∧ h.delta = -1

/-- Positive when `h` is the greater one. -/
def compare (self h : Height) : ℤ :=
  if h.tau > self.tau then 1 else if self.tau > h.tau then -1
  else if h.oid > self.oid then 1 else if self.oid > h.oid then -1
  else if h.r > self.r then 1 else if self.r > h.r then -1
  else if h.delta > self.delta then 1 else if self.delta > h.delta then -1
  else if h.id > self.id then 1 else if self.id > h.id then -1
  else 0

def Zero (h : Height) : Height := { h with tau := 0, oid := 0, r := 0, delta := 0 }

def Null (h : Height) : Height := { h with tau := -1, oid := -1, r := -1, delta := -1 }

/-- The same reference level. -/
def sameRef (h h' : Height) : Bool := h.tau = h'.tau ∧ h.oid = h'.oid ∧ h.r = h'.r

end Height

inductive LinkStatus where
  | up
  | dn
  | un
  deriving DecidableEq

structure TORANeighbor where
  index : ℤ
  height : Height
  lnk_stat : LinkStatus
  time_act : ℚ
  deriving DecidableEq

namespace TORANeighbor

/-- The constructor. -/
def ofId (id : ℤ) (now : ℚ) : TORANeighbor := ⟨id, .ofId id, .un, now⟩

def update_link_status (tn : TORANeighbor) (h : Height) : TORANeighbor :=
  { tn with lnk_stat :=
      if tn.height.isNull then .un
      else if h.isNull then .dn
      else if tn.height.compare h > 0 then .dn
      else if tn.height.compare h < 0 then .up
      else tn.lnk_stat }

/-- What is done with every neighbour when a route is erased. -/
def erase (dst : ℤ) (tn : TORANeighbor) : TORANeighbor :=
  if tn.index = dst then { tn with height := tn.height.Zero, lnk_stat := .dn }
  else { tn with height := tn.height.Null, lnk_stat := .un }

/-- `height.Null()` and `lnk_stat = LINK_UN` -/
def clear (tn : TORANeighbor) : TORANeighbor :=
  { tn with height := tn.height.Null, lnk_stat := .un }

end TORANeighbor

/-- The first element with a property, changed. -/
def modifyFirst {α : Type*} (p : α → Bool) (f : α → α) : List α → List α
  | [] => []
  | x :: l => if p x then f x :: l else x :: modifyFirst p f l

structure TORADest where
  index : ℤ
  height : Height
  rt_req : Bool
  time_upd : ℚ
  nblist : List TORANeighbor
  num_active : ℤ
  num_down : ℤ
  num_up : ℤ
  deriving DecidableEq

namespace TORADest

/-- The constructor. -/
def ofId (id : ℤ) : TORADest := ⟨id, .ofId id, false, 0, [], 0, 0, 0⟩

def nb_add (td : TORADest) (id : ℤ) (now : ℚ) : TORADest :=
  let tn := TORANeighbor.ofId id now
  if tn.index = td.index then
    { td with
      nblist := { tn with height := tn.height.Zero, lnk_stat := .dn } :: td.nblist
      num_active := td.num_active + 1
      num_down := td.num_down + 1 }
  else { td with nblist := tn :: td.nblist, num_active := td.num_active + 1 }

/-- A turn of the loop of `update_height`. -/
def recount (td : TORADest) (tn : TORANeighbor) : TORADest :=
  let tn := tn.update_link_status td.height
  { td with
    nblist := td.nblist ++ [tn]
    num_active := td.num_active + 1
    num_down := if tn.lnk_stat = .dn then td.num_down + 1 else td.num_down
    num_up := if tn.lnk_stat = .up then td.num_up + 1 else td.num_up }

def update_height (td : TORADest) (tau : ℚ) (oid r delta id : ℤ) : TORADest :=
  td.nblist.foldl recount { td with
    height := ⟨tau, oid, r, delta, id⟩, nblist := [], num_active := 0, num_down := 0, num_up := 0 }

def nb_find (td : TORADest) (id : ℤ) : Option TORANeighbor :=
  td.nblist.find? fun tn => tn.index = id

/-- A neighbour is taken off the list and out of the counters. -/
def remove (td : TORADest) (tn : TORANeighbor) : TORADest :=
  { td with
    nblist := td.nblist.eraseP fun t => t.index = tn.index
    num_active := td.num_active - 1
    num_down := if tn.lnk_stat = .dn then td.num_down - 1 else td.num_down
    num_up := if tn.lnk_stat = .up then td.num_up - 1 else td.num_up }

/-- A neighbour is lost; tells whether an update is to be sent. -/
def nb_del (td : TORADest) (id : ℤ) (now : ℚ) : TORADest × Bool :=
  match td.nb_find id with
  | none => (td, false)
  | some tn =>
    let td := td.remove tn
    if td.num_down = 0 then
      if td.num_up > 0 then (td.update_height now td.index 0 0 td.index, true)
      else (td.update_height (-1) (-1) (-1) (-1) td.index, true)
    else (td, false)

/-- The best of the neighbours with a property. -/
def nb_find_best (p : TORANeighbor → Bool) (better : ℤ → Bool) (l : List TORANeighbor) :
    Option TORANeighbor :=
  l.foldl (fun best tn =>
    if p tn then
      match best with
      | none => some tn
      | some b => if better (b.height.compare tn.height) then some tn else some b
    else best) none

def nb_find_next_hop (td : TORADest) : Option TORANeighbor :=
  nb_find_best (fun tn => !tn.height.isNull && tn.lnk_stat = .dn) (· < 0) td.nblist

def nb_find_min_height (td : TORADest) (r : ℤ) : Option TORANeighbor :=
  nb_find_best (fun tn => tn.height.r = r) (· < 0) td.nblist

def nb_find_min_nonnull_height (td : TORADest) (h : Height) : Option TORANeighbor :=
  nb_find_best (fun tn => !tn.height.isNull && tn.height.sameRef h) (· < 0) td.nblist

def nb_find_max_height (td : TORADest) : Option TORANeighbor :=
  nb_find_best (fun tn => !tn.height.isNull) (· > 0) td.nblist

def nb_check_same_ref (td : TORADest) : Bool :=
  match td.nblist.filter fun tn => !tn.height.isNull with
  | [] => true
  | tref :: l => l.all fun tn => tref.height.sameRef tn.height

/-- The neighbour that is found by its address gets the height of an update. -/
def update_height_nb (td : TORADest) (tn : TORANeighbor) (h : Height) : TORADest :=
  let tn' := { tn with height := h }.update_link_status td.height
  let num_down := if tn.lnk_stat = .dn then td.num_down - 1 else td.num_down
  let num_up := if tn.lnk_stat = .up then td.num_up - 1 else td.num_up
  { td with
    nblist := modifyFirst (fun t => t.index = tn.index) (fun _ => tn') td.nblist
    num_down := if tn'.lnk_stat = .dn then num_down + 1 else num_down
    num_up := if tn'.lnk_stat = .up then num_up + 1 else num_up }

end TORADest

end Ns2
