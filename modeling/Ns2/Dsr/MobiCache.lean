import Ns2.Dsr.Path
import Ns2.Lib.Machine

/-! The path cache of DSR: the routes in use and those overheard, which share their prefixes with
what is added and lose what is behind a dead link. -/

namespace Ns2

namespace MobiCache

def MAX_SR_LEN : ℕ := 16

inductive LinkType where
  | none
  | tested
  | untested
  deriving DecidableEq

/-- A node of a cached path, with what is known of the link to the next. -/
structure Hop where
  id : ID
  t : ℚ
  link_type : LinkType
  deriving DecidableEq

/-- `size` paths, of which the empty ones are free. -/
structure Cache where
  cache : List (List Hop)
  victim_ptr : ℕ
  deriving DecidableEq

/-- The first loop of `Cache::addRoute` on one path: the number of nodes that agree. -/
def agree : List Hop → List Hop → ℕ
  | a :: p, b :: path => if a.id = b.id then agree p path + 1 else 0
  | _, _ => 0

/-- The second loop of `Cache::addRoute` on one path. -/
def freshen : List Hop → List Hop → List Hop
  | a :: b :: p, c :: d :: path =>
    if a.id ≠ c.id then a :: b :: p
    else
      (if b.id = d.id then { a with t := c.t, link_type := c.link_type } else a) ::
        freshen (b :: p) (d :: path)
  | p, _ => p

/-- The paths from index on: where the route fits, and the path that holds it then. -/
def place (path : List Hop) : ℕ → List (List Hop) → Option (ℕ × List Hop × ℕ)
  | _, [] => none
  | index, p :: rest =>
    let n := agree p path
    if n = p.length then some (index, p ++ path.drop n, n)
    else if n = path.length then some (index, p, n)
    else place path (index + 1) rest

namespace Cache

def pickVictim (c : Cache) : ℕ × Cache :=
  match c.cache.findIdx? List.isEmpty with
  | some i => (i, c)
  | none =>
    (c.victim_ptr,
      { c with victim_ptr := if c.victim_ptr + 1 = c.cache.length then 0 else c.victim_ptr + 1 })

/-- With the length of the common prefix. -/
def addRoute (c : Cache) (path : List Hop) : Cache × ℕ :=
  let (c, n) :=
    match place path 0 c.cache with
    | some (index, p, n) => ({ c with cache := c.cache.set index p }, n)
    | none =>
      let (victim, c) := c.pickVictim
      ({ c with cache := c.cache.set victim path }, 0)
  ({ c with cache := c.cache.map fun p => freshen p path }, n)

end Cache

/-- Where a path has the dead link. -/
def deadAt (src dst : ID) : ℕ → List Hop → Option ℕ
  | n, a :: b :: p => if a.id = src ∧ b.id = dst then some n else deadAt src dst (n + 1) (b :: p)
  | _, _ => none

def truncate (src dst : ID) (p : List Hop) : List Hop :=
  match deadAt src dst 0 p with
  | none => p
  | some n => if n = 0 then [] else p.take (n + 1)

def Cache.noticeDeadLink (c : Cache) (src dst : ID) : Cache :=
  { c with cache := c.cache.map (truncate src dst) }

/-- What `findRoute` keeps of the paths that `searchRoute` finds, from an index on: the length, the
index and the path of the best. -/
def searchLoop (dest : ID) : ℕ → List (List Hop) → ℕ → Option (ℕ × List Hop) →
    ℕ × Option (ℕ × List Hop)
  | _, [], min_length, best => (min_length, best)
  | index, p :: rest, min_length, best =>
    match p.findIdx? fun a => a.id = dest with
    | none => searchLoop dest (index + 1) rest min_length best
    | some len =>
      if len < min_length then searchLoop dest (index + 1) rest len (some (index, p))
      else searchLoop dest (index + 1) rest min_length best

end MobiCache

open MobiCache in
structure MobiCache where
  net_id : ID
  MAC_id : ID
  cache_ignore_hints : Bool
  cache_use_overheard_routes : Bool
  primary_cache : Cache
  secondary_cache : Cache
  deriving DecidableEq

namespace MobiCache

def initial (net_id MAC_id : ID) (ignore overheard : Bool) : MobiCache where
  net_id := net_id
  MAC_id := MAC_id
  cache_ignore_hints := ignore
  cache_use_overheard_routes := overheard
  primary_cache := ⟨List.replicate 30 [], 0⟩
  secondary_cache := ⟨List.replicate 64 [], 0⟩

/-- The time and the type of the links: those behind the provider are not tested. -/
def mark (t : ℚ) (who_from : ID) : LinkType → List ID → List Hop
  | _, [] => []
  | kind, a :: path =>
    let kind := if a = who_from then .untested else kind
    ⟨a, t, kind⟩ :: mark t who_from kind path

def pre_addRoute (m : MobiCache) (route : List ID) (t : ℚ) (who_from : ID) : Option (List Hop) :=
  match route with
  | a :: b :: rest =>
    if a ≠ m.net_id ∧ a ≠ m.MAC_id then none else some (mark t who_from .tested (a :: b :: rest))
  | _ => none

def pre_noticeRouteUsed (m : MobiCache) (p : List ID) (cur_index : ℕ) (t : ℚ) (who_from : ID) :
    Option (List Hop) :=
  if p.length < 2 then none
  else if m.cache_ignore_hints then none
  else
    let c := p.findIdx fun a => a = m.net_id ∨ a = m.MAC_id
    if c = p.length - 1 then none
    else if c = p.length then
      if m.cache_use_overheard_routes then
        if cur_index = 0 then none
        else
          match mark t who_from .tested
              (m.net_id :: (p.drop (cur_index - 1)).take (MAX_SR_LEN - 1)) with
          | [] => some []
          | a :: stub => some ({ a with link_type := .untested } :: stub)
      else none
    else some (mark t who_from .tested (p.drop c))

def addRoute (m : MobiCache) (route : List ID) (t : ℚ) (who_from : ID) : MobiCache :=
  match m.pre_addRoute route t who_from with
  | none => m
  | some rt => { m with primary_cache := (m.primary_cache.addRoute rt).1 }

def noticeRouteUsed (m : MobiCache) (p : List ID) (cur_index : ℕ) (t : ℚ) (who_from : ID) :
    MobiCache :=
  match m.pre_noticeRouteUsed p cur_index t who_from with
  | none => m
  | some stub => { m with secondary_cache := (m.secondary_cache.addRoute stub).1 }

def noticeDeadLink (m : MobiCache) (src dst : ID) : MobiCache :=
  { m with
    primary_cache := m.primary_cache.noticeDeadLink src dst
    secondary_cache := m.secondary_cache.noticeDeadLink src dst }

/-- A path of the secondary cache that is found for use goes to the primary cache. -/
def promote (m : MobiCache) (index : ℕ) : MobiCache :=
  { m with
    primary_cache := (m.primary_cache.addRoute (m.secondary_cache.cache.getD index [])).1
    secondary_cache :=
      { m.secondary_cache with cache := m.secondary_cache.cache.set index [] } }

def findRoute (m : MobiCache) (dest : ID) (for_me : Bool) : MobiCache × Option (List Hop) :=
  let first := searchLoop dest 0 m.primary_cache.cache (MAX_SR_LEN + 1) none
  let second := searchLoop dest 0 m.secondary_cache.cache first.1 none
  match second.2, first.2 with
  | some (min_index, route), _ =>
    (if for_me then m.promote min_index else m, some (route.take (second.1 + 1)))
  | none, some (_, route) => (m, some (route.take (second.1 + 1)))
  | none, none => (m, none)

inductive Input where
  | addRoute (route : List ID) (t : ℚ) (who_from : ID)
  | noticeRouteUsed (p : List ID) (cur_index : ℕ) (t : ℚ) (who_from : ID)
  | noticeDeadLink (src dst : ID)
  | findRoute (dest : ID) (for_me : Bool)

/-- An operation, and the route if one was asked for. -/
def step (m : MobiCache) : Input → Option (MobiCache × Option (List Hop))
  | .addRoute route t who_from => some (m.addRoute route t who_from, none)
  | .noticeRouteUsed p cur_index t who_from =>
    some (m.noticeRouteUsed p cur_index t who_from, none)
  | .noticeDeadLink src dst => some (m.noticeDeadLink src dst, none)
  | .findRoute dest for_me => some (m.findRoute dest for_me)

end MobiCache

end Ns2
