import Mathlib

/-! The route tables of all nodes from the matrix of link costs. Node 0 is not a node; both
arrays are flat, as `INDEX` lays them out. Costs are exact rationals. -/

namespace Ns2

/-- `INFINITY`, the cost of no link. -/
def infinity : ℚ := 0x3fff

def index (i j n : ℕ) : ℕ := n * i + j

structure AdjEntry (ε : Type*) where
  cost : ℚ
  entry : Option ε

structure RouteEntry (ε : Type*) where
  next_hop : ℕ
  entry : Option ε

structure RouteLogic (ε : Type*) where
  size_ : ℕ
  adj_ : ℕ → AdjEntry ε
  route_ : ℕ → RouteEntry ε

namespace RouteLogic

variable {ε : Type*}

def adj (s : RouteLogic ε) (i j : ℕ) : ℚ := (s.adj_ (index i j s.size_)).cost

def adjEntry (s : RouteLogic ε) (i j : ℕ) : Option ε := (s.adj_ (index i j s.size_)).entry

def route (s : RouteLogic ε) (i j : ℕ) : ℕ := (s.route_ (index i j s.size_)).next_hop

def routeEntry (s : RouteLogic ε) (i j : ℕ) : Option ε := (s.route_ (index i j s.size_)).entry

/-- The nodes, in the order of the loops. -/
def nodes (s : RouteLogic ε) : List ℕ := List.range' 1 (s.size_ - 1)

/-- The arrays of `compute_routes`. -/
structure Arrays (ε : Type*) where
  parent : ℕ → ℕ
  hopcnt : ℕ → ℚ
  route_ : ℕ → RouteEntry ε

/-- The route to a neighbour `v` of the source `k`. -/
def neighbour (s : RouteLogic ε) (k : ℕ) (t : Arrays ε) (v : ℕ) : Arrays ε :=
  if t.parent v ≠ k then
    { t with
      hopcnt := Function.update t.hopcnt v (s.adj k v)
      route_ := if s.adj k v ≠ infinity then
          Function.update t.route_ (index k v s.size_) ⟨v, s.adjEntry k v⟩
        else t.route_ }
  else t

/-- The nearest node that is not routed, or 0. -/
def nearest (s : RouteLogic ε) (k : ℕ) (t : Arrays ε) : ℕ :=
  s.nodes.foldl (fun o w => if t.parent w ≠ k ∧ t.hopcnt w < t.hopcnt o then w else o) 0

/-- The distance of `w` is updated over its neighbour `o`. -/
def relax (s : RouteLogic ε) (k o : ℕ) (t : Arrays ε) (w : ℕ) : Arrays ε :=
  if t.parent w ≠ k ∧ t.hopcnt o + s.adj o w < t.hopcnt w then
    { t with
      route_ := Function.update t.route_ (index k w s.size_) (t.route_ (index k o s.size_))
      hopcnt := Function.update t.hopcnt w (t.hopcnt o + s.adj o w) }
  else t

def round (s : RouteLogic ε) (k : ℕ) (t : Arrays ε) : Arrays ε :=
  let t := { t with hopcnt := Function.update t.hopcnt 0 infinity }
  let o := nearest s k t
  let t := { t with parent := Function.update t.parent o k }
  if o = 0 then t else s.nodes.foldl (relax s k o) t

/-- The body of the loop over the sources. -/
def source (s : RouteLogic ε) (t : Arrays ε) (k : ℕ) : Arrays ε :=
  let t := s.nodes.foldl (neighbour s k) { t with parent := id }
  s.nodes.foldl (fun t _ => round s k t) t

/-- `parent` and `hopcnt` are the contents of the arrays when they are allocated. -/
def computeRoutes (s : RouteLogic ε) (parent : ℕ → ℕ) (hopcnt : ℕ → ℚ) : RouteLogic ε :=
  let t := s.nodes.foldl (source s) ⟨parent, hopcnt, fun _ => ⟨0, none⟩⟩
  { s with
    route_ := s.nodes.foldl (fun route_ k =>
      Function.update route_ (index k k s.size_) ⟨k, none⟩) t.route_ }

theorem index_inj {n i j i' j' : ℕ} (hj : j < n) (hj' : j' < n) :
    index i j n = index i' j' n ↔ i = i' ∧ j = j' := by
  constructor
  · intro h
    have hn : 0 < n := by omega
    have hi : i = i' := by
      have := congrArg (· / n) h
      simpa [index, Nat.mul_add_div hn, Nat.div_eq_of_lt hj, Nat.div_eq_of_lt hj'] using this
    subst hi
    exact ⟨rfl, Nat.add_left_cancel h⟩
  · rintro ⟨rfl, rfl⟩
    rfl

theorem mem_nodes {s : RouteLogic ε} {v : ℕ} : v ∈ s.nodes ↔ 1 ≤ v ∧ v < s.size_ := by
  rw [nodes, List.mem_range'_1]
  omega

end RouteLogic

end Ns2
