import Ns2.Lib.Floyd

/-! The routes that the omniscient observer computes for all nodes (god.cc). A cell of a matrix is
named by its row and its column. -/

namespace Ns2

abbrev HopMatrix := ℕ × ℕ → ℤ

/-- `INFINITY`, as `routing/route.h` defines it again. -/
def hopsInfinity : ℤ := 0x3fff

def UNREACHABLE : ℤ := 0x00ffffff

structure God where
  active : Bool
  num_nodes : ℕ
  num_data_types : ℕ
  /-- `IsNeighbor(i, j)`: both nodes are on and alive and in range of each other. -/
  IsNeighbor : ℕ → ℕ → Bool
  min_hops : HopMatrix
  next_hop : HopMatrix
  /-- The outgoing interfaces of the sources of a data type, where there is a source. -/
  source_table : ℕ → ℕ → Option HopMatrix
  sink_table : ℕ → ℕ → ℤ
  num_connect : ℕ
  num_compute : ℕ
  /-- The cells of a matrix have an `int` as index. -/
  small : num_nodes * num_nodes < 2 ^ 31

namespace God

/-- One row of the loop of `ComputeW`. -/
def computeWRow (g : God) (i : ℕ) (W : HopMatrix) : HopMatrix :=
  (List.range' (i + 1) (g.num_nodes - (i + 1))).foldl (fun W j =>
    Function.update (Function.update W (j, i) (if g.IsNeighbor i j then 1 else hopsInfinity)) (i, j)
      (if g.IsNeighbor i j then 1 else hopsInfinity)) (Function.update W (i, i) 0)

def ComputeW (g : God) : God :=
  { g with
    min_hops := (List.range g.num_nodes).foldl (fun W i => g.computeWRow i W) fun _ => -1 }

/-- `MIN_HOPS(j,k) = MIN(MIN_HOPS(j,k), MIN_HOPS(j,i) + MIN_HOPS(i,k))` -/
def relaxCell (i j : ℕ) (M : HopMatrix) (k : ℕ) : HopMatrix :=
  Function.update M (j, k) (min (M (j, k)) (M (j, i) + M (i, k)))

def relaxRow (n i : ℕ) (M : HopMatrix) (j : ℕ) : HopMatrix := (List.range n).foldl (relaxCell i j) M

def relaxAll (n : ℕ) (M : HopMatrix) (i : ℕ) : HopMatrix := (List.range n).foldl (relaxRow n i) M

def floyd_warshall (g : God) : God :=
  { g.ComputeW with
    min_hops := (List.range g.num_nodes).foldl (relaxAll g.num_nodes) g.ComputeW.min_hops }

/-- The body of the loops of `ComputeNextHop`. -/
def nextHopCell (g : God) (src dst : ℕ) : ℤ :=
  let self : ℤ := if src = dst then src else UNREACHABLE
  if g.min_hops (src, dst) = UNREACHABLE then self
  else
    match (List.range g.num_nodes).find? fun neighbor =>
      decide (g.min_hops (src, neighbor) = 1) &&
        decide (g.min_hops (src, dst) = g.min_hops (neighbor, dst) + 1) with
    | some neighbor => neighbor
    | none => self

def ComputeNextHop (g : God) : God :=
  if g.active then
    { g with
      next_hop := (List.range g.num_nodes).foldl (fun N src =>
        (List.range g.num_nodes).foldl (fun N dst =>
          Function.update N (src, dst) (g.nextHopCell src dst)) N) g.next_hop }
  else g

/-- The loop of `Fill_for_Sink` and `Fill_for_Source` from node `cur`; `none` is a failed
assertion. -/
def fillLoop (g : God) (sk : ℕ) : ℕ → ℕ → ℕ → HopMatrix → Option HopMatrix
  | 0, _, _, _ => none
  | fuel + 1, cur, count, oif_map =>
    if cur = sk then some oif_map
    else if g.next_hop (cur, sk) = UNREACHABLE then some oif_map
    else if 0 ≤ g.next_hop (cur, sk) ∧ g.next_hop (cur, sk) < g.num_nodes then
      if count + 1 < g.num_nodes then
        fillLoop g sk fuel (g.next_hop (cur, sk)).toNat (count + 1)
          (Function.update oif_map (cur, (g.next_hop (cur, sk)).toNat) 1)
      else none
    else none

def fill (g : God) (src sk : ℕ) (oif_map : HopMatrix) : Option HopMatrix :=
  g.fillLoop sk (g.num_nodes + 1) src 0 oif_map

def Fill_for_Sink (g : God) (dt src : ℕ) (oif_map : HopMatrix) : Option HopMatrix :=
  (List.range g.num_nodes).foldlM (fun oif_map sk =>
    if g.sink_table dt sk = 0 then some oif_map else g.fill src sk oif_map) oif_map

/-- The map of one source, cleared and filled again. -/
def rewriteMap (g : God) (dt src : ℕ) : Option HopMatrix → Option (Option HopMatrix)
  | none => some none
  | some _ => (g.Fill_for_Sink dt src fun _ => 0).map some

def Rewrite_OIF_Map (g : God) : Option God :=
  ((List.range g.num_data_types).foldlM (fun table dt =>
    (List.range g.num_nodes).foldlM (fun table src =>
      (g.rewriteMap dt src (table dt src)).map fun m =>
        Function.update table dt (Function.update (table dt) src m)) table) g.source_table).map
    fun table => { g with source_table := table }

def CountConnect (g : God) : God :=
  { g with
    num_connect := ((List.range g.num_nodes).flatMap fun i =>
      (List.range' (i + 1) (g.num_nodes - (i + 1))).filter fun j =>
        g.min_hops (i, j) ≠ UNREACHABLE).length }

def ComputeRoute (g : God) : Option God :=
  if g.active then
    (g.floyd_warshall.ComputeNextHop.Rewrite_OIF_Map).map fun g =>
      { g.CountConnect with num_compute := g.num_compute + 1 }
  else some g

end God

end Ns2
