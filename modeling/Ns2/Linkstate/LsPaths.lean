import Ns2.Lib.SortedMap

/-! The path lists of the link-state routing and the computation of the routes from the
link-state database. -/

namespace Ns2

/-- `LS_INVALID_NODE_ID` -/
def lsInvalidNodeId : ℤ := 65535

/-- `LS_INVALID_COST` -/
def lsInvalidCost : ℤ := 65535

/-- `LS_MAX_COST` -/
def lsMaxCost : ℤ := 65534

inductive LsStatus where
  | down
  | up
  deriving DecidableEq

/-- `u_int32_t` -/
abbrev LsSeq := Fin (2 ^ 32)

instance LsSeq.neZero : NeZero (2 ^ 32) := ⟨by decide⟩

abbrev LsNodeIdList := List ℤ

structure LsLinkState where
  neighborId_ : ℤ
  status_ : LsStatus
  cost_ : ℤ
  sequenceNumber_ : LsSeq
  deriving DecidableEq

structure LsPath where
  destination : ℤ
  cost : ℤ
  nextHop : ℤ

structure LsEqualPaths where
  cost : ℤ
  nextHopList : LsNodeIdList

abbrev LsPaths := SortedMap ℤ LsEqualPaths

def LsNodeIdList.appendUnique (l x : LsNodeIdList) : LsNodeIdList :=
  x.foldl (fun l h => if h ∈ l then l else l ++ [h]) l

def LsPath.isValid (p : LsPath) : Bool :=
  p.destination ≠ lsInvalidNodeId ∧ p.cost ≠ lsInvalidCost ∧ p.nextHop ≠ lsInvalidCost

namespace LsPaths

def lookupCost (p : LsPaths) (destId : ℤ) : ℤ :=
  match p.find destId with
  | none => lsMaxCost + 1
  | some ep => ep.cost

def lookupNextHopListPtr (p : LsPaths) (destId : ℤ) : Option LsNodeIdList :=
  (p.find destId).map LsEqualPaths.nextHopList

/-- `insertPathNoChecking`: the map keeps an entry that it has. -/
def insertPathNoChecking (p : LsPaths) (path : LsPath) : LsPaths :=
  match p.find path.destination with
  | none => p.set path.destination ⟨path.cost, [path.nextHop]⟩
  | some _ => p

def insertPath (p : LsPaths) (path : LsPath) : LsPaths :=
  match p.find path.destination with
  | none => insertPathNoChecking p path
  | some ep =>
    if ep.cost < path.cost then p
    else if ep.cost > path.cost then p.set path.destination ⟨path.cost, [path.nextHop]⟩
    else if path.nextHop ∈ ep.nextHopList then p
    else p.set path.destination ⟨ep.cost, ep.nextHopList ++ [path.nextHop]⟩

def insertNextHopList (p : LsPaths) (destId cost : ℤ) (nextHopList : LsNodeIdList) : LsPaths :=
  match p.find destId with
  | none => p.set destId ⟨cost, nextHopList⟩
  | some ep =>
    if ep.cost < cost then p
    else if ep.cost > cost then p.set destId ⟨cost, nextHopList⟩
    else p.set destId ⟨ep.cost, LsNodeIdList.appendUnique ep.nextHopList nextHopList⟩

/-- The first of the entries of least cost that have a next hop; the cost is to be below
`LS_MAX_COST + 1`. -/
def findMinEqualPaths (p : LsPaths) : Option (ℤ × LsEqualPaths) :=
  (p.entries.foldl (fun r e =>
    if r.1 > e.2.cost ∧ e.2.nextHopList ≠ [] then (e.2.cost, some e) else r)
    (lsMaxCost + 1, none)).2

/-- The path is `none` where the source returns one that is not valid. -/
def popShortestPath (p : LsPaths) : LsPaths × Option LsPath :=
  match findMinEqualPaths p with
  | none => (p, none)
  | some (destination, ep) =>
    match ep.nextHopList with
    | [] => (p, none)
    | nextHop :: nhList =>
      (if nhList = [] then p.erase destination else p.set destination ⟨ep.cost, nhList⟩,
        some ⟨destination, ep.cost, nextHop⟩)

end LsPaths

/-- What a loop comes to: its fuel is used up, or `ls_error` aborts, or it returns. -/
inductive Outcome (α : Type*) where
  | running
  | aborted
  | returned (a : α)

structure LsRouting where
  myNodeId_ : ℤ
  linkStateDatabase_ : SortedMap ℤ (List LsLinkState)

namespace LsRouting

open LsPaths

/-- A sum of two `int`s. -/
def addInt (a b : ℤ) : ℤ := (a + b).bmod (2 ^ 32)

/-- One link of the node that was just put in the paths, whose next hops are `nhl`. -/
def link (self : LsRouting) (paths : LsPaths) (newNodeId : ℤ) (nhl : LsNodeIdList)
    (tentative : LsPaths) (l : LsLinkState) : LsPaths :=
  if l.status_ ≠ .up then tentative
  else
    let path_cost := addInt l.cost_ (lookupCost paths newNodeId)
    if lookupCost paths l.neighborId_ < path_cost then tentative
    else
      insertNextHopList tentative l.neighborId_ path_cost
        (if newNodeId = self.myNodeId_ then [l.neighborId_] else nhl)

/-- Step 2 of `_computeRoutes`; `none` is the abort without a next hop list. -/
def expand (self : LsRouting) (paths tentative : LsPaths) (newNodeId : ℤ)
    (lsl : List LsLinkState) : Option LsPaths :=
  if newNodeId ≠ self.myNodeId_ then
    (lookupNextHopListPtr paths newNodeId).map fun nhl =>
      lsl.foldl (link self paths newNodeId nhl) tentative
  else some (lsl.foldl (link self paths newNodeId []) tentative)

/-- The inner loop: paths are popped until one leads to a node with link states. -/
def pop (self : LsRouting) :
    ℕ → LsPaths → LsPaths → Outcome (LsPaths × LsPaths × Option (ℤ × List LsLinkState))
  | 0, _, _ => .running
  | fuel + 1, paths, tentative =>
    if tentative.entries = [] then .returned (paths, tentative, none)
    else
      match popShortestPath tentative with
      | (_, none) => .aborted
      | (tentative, some sp) =>
        if sp.isValid then
          let paths := insertPath paths sp
          match self.linkStateDatabase_.find sp.destination with
          | some lsl => .returned (paths, tentative, some (sp.destination, lsl))
          | none => pop self fuel paths tentative
        else .aborted

/-- The outer loop. -/
def loop (self : LsRouting) :
    ℕ → LsPaths → LsPaths → ℤ → List LsLinkState → Outcome LsPaths
  | 0, _, _, _, _ => .running
  | fuel + 1, paths, tentative, newNodeId, lsl =>
    match expand self paths tentative newNodeId lsl with
    | none => .aborted
    | some tentative =>
      match pop self fuel paths tentative with
      | .running => .running
      | .aborted => .aborted
      | .returned (paths, _, none) => .returned paths
      | .returned (paths, tentative, some (newNodeId, lsl)) =>
        loop self fuel paths tentative newNodeId lsl

/-- `_computeRoutes` -/
def computeRoutes (self : LsRouting) (fuel : ℕ) : Outcome LsPaths :=
  let paths := insertPathNoChecking .empty ⟨self.myNodeId_, 0, self.myNodeId_⟩
  match self.linkStateDatabase_.find self.myNodeId_ with
  | none => .returned paths
  | some lsl => loop self fuel paths .empty self.myNodeId_ lsl

end LsRouting

end Ns2
