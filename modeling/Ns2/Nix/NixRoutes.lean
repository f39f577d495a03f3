import Ns2.Nix.Bfs

/-! Routes as vectors of neighbour indices: the parents of the search give a path, the path is
packed by `NixPred`, and each node takes its own index back. -/

namespace Ns2

namespace NixNode

def getNixl (n : NixNode) : Nixl_t := NixVec.getBitl ((n.m_Adj.length : Nixl_t) - 1)

def getNix (n : NixNode) (t : ℕ) : Nix_t × Nixl_t :=
  match n.m_Adj.idxOf? t with
  | some i => ((i : Nix_t), n.getNixl)
  | none => (nixNone, 0)

/-- `none` is the exit. -/
def getNeighbor (n : NixNode) (i : Nix_t) : Option ℕ := n.m_Adj[i.toNat]?

end NixNode

/-- The route that `PrintPred` prints; nothing is printed for "No path..". -/
def printPred (pred : ℕ → Option ℕ) (s : ℕ) : ℕ → ℕ → List ℕ
  | 0, _ => []
  | fuel + 1, p => if s = p then [s] else (pred p).elim [] fun q => printPred pred s fuel q ++ [p]

def nixPred (N : List NixNode) (pred : ℕ → Option ℕ) (s : ℕ) : ℕ → ℕ → NixVec → Option NixVec
  | 0, _, _ => none
  | fuel + 1, p, nv =>
    if s = p then some nv
    else
      match pred p with
      | none => some nv
      | some q =>
        (nixPred N pred s fuel q nv).bind fun nv =>
          N[q]?.bind fun n =>
            let pair := n.getNix p
            if pair.1 = nixNone then none else nv.add pair.1 pair.2

/-- `Reset` -/
def NixVec.reset (nv : NixVec) : NixVec := { nv with m_used := 0 }

/-- `ComputeNixVector`, reset as `GetNixVector` returns it. -/
def getNixVector (N : List NixNode) (s t : ℕ) : Option NixVec :=
  (Bfs.bfs N s).bind fun b => (nixPred N b.Parent s (N.length + 1) t .init).map .reset

/-- The nodes that a packet for `t` visits from `s` on, by `NixClassifier::find` at each. -/
def forward (N : List NixNode) (t : ℕ) (nv : NixVec) : ℕ → ℕ → Nixl_t → Option (List ℕ)
  | 0, _, _ => none
  | hops + 1, s, used =>
    N[s]?.bind fun n =>
      if t = n.m_id then some [s]
      else
        (nv.extract n.getNixl used).bind fun r =>
          (n.getNeighbor r.1).bind fun next => (forward N t nv hops next r.2).map (s :: ·)

namespace NixGraph

variable {G : NixGraph}

open Bfs BitWords

/-- The path that the parents lead back from a node to the root. -/
inductive Route (pred : ℕ → Option ℕ) (root : ℕ) : ℕ → List ℕ → Prop
  | root : Route pred root root [root]
  | step {u v : ℕ} {path : List ℕ} : root ≠ v → pred v = some u → Route pred root u path →
      Route pred root v (path ++ [v])

theorem Tree.route {root : ℕ} {s : Search} (h : G.Tree root s) {v : ℕ} (hv : s.B v = true) :
    ∃ path, Route s.Parent root v path := by
  induction hk : s.D v generalizing v with
  | zero =>
    rcases h.searching.grey v hv with rfl | ⟨u, hu⟩
    · exact ⟨_, .root⟩
    · have := (h.searching.parent v u hu).2.2.2
      omega
  | succ k ih =>
    rcases h.searching.grey v hv with rfl | ⟨u, hu⟩
    · exact ⟨_, .root⟩
    · obtain ⟨-, h1, -, h2⟩ := h.searching.parent v u hu
      obtain ⟨path, hpath⟩ := ih h1 (by omega)
      refine ⟨_, .step (fun he => ?_) hu hpath⟩
      subst he
      have := h.searching.start.2.1
      omega

theorem Route.printPred {pred : ℕ → Option ℕ} {root v fuel : ℕ} {path : List ℕ}
    (h : Route pred root v path) (hfuel : path.length ≤ fuel) :
    printPred pred root fuel v = path := by
  induction h generalizing fuel with
  | root =>
    obtain ⟨f, rfl⟩ := Nat.exists_eq_add_of_lt hfuel
    simp [Ns2.printPred]
  | step hne hpred _ ih =>
    rw [List.length_append, List.length_singleton] at hfuel
    obtain ⟨f, rfl⟩ : ∃ f, fuel = f + 1 := ⟨fuel - 1, by omega⟩
    rw [Ns2.printPred, if_neg hne, hpred, Option.elim_some, ih (by omega)]

theorem Route.last {pred : ℕ → Option ℕ} {root v : ℕ} {path : List ℕ}
    (h : Route pred root v path) : path.getLast? = some v := by
  cases h with
  | root => rfl
  | step => exact List.getLast?_concat

theorem Route.head {pred : ℕ → Option ℕ} {root v : ℕ} {path : List ℕ}
    (h : Route pred root v path) : path.head? = some root := by
  induction h with
  | root => rfl
  | step _ _ _ ih => rw [List.head?_append, ih, Option.some_or]

theorem Route.isChain {root v : ℕ} {s : Search} {path : List ℕ} (h : Route s.Parent root v path)
    (hs : G.Searching root s) : path.IsChain G.Step := by
  induction h with
  | root => exact List.isChain_singleton root
  | step _ hpred hroute ih =>
    refine List.isChain_append.mpr ⟨ih, List.isChain_singleton _, fun x hx y hy => ?_⟩
    obtain rfl := Option.some.inj (hroute.last.symm.trans hx)
    obtain rfl := Option.some.inj hy
    exact (hs.parent _ _ hpred).2.2.1

theorem Route.levels {root v : ℕ} {s : Search} {path : List ℕ} (h : Route s.Parent root v path)
    (hs : G.Searching root s) : path.map s.D = List.range path.length ∧ s.D v + 1 = path.length := by
  induction h with
  | root => simp [hs.start.2.1]
  | step _ hpred _ ih =>
    obtain ⟨h1, h2⟩ := ih
    have h3 := (hs.parent _ _ hpred).2.2.2
    rw [List.map_append, List.map_singleton, List.length_append, List.length_singleton,
      List.range_succ, h1]
    exact ⟨by rw [h3, h2], by omega⟩

theorem Route.nodup {root v : ℕ} {s : Search} {path : List ℕ} (h : Route s.Parent root v path)
    (hs : G.Searching root s) : path.Nodup := by
  apply List.Nodup.of_map s.D
  rw [(h.levels hs).1]
  exact List.nodup_range

theorem Route.grey {root v : ℕ} {s : Search} {path : List ℕ} (h : Route s.Parent root v path)
    (hs : G.Searching root s) : ∀ x ∈ path, s.B x = true := by
  induction h with
  | root => exact fun x hx => (List.mem_singleton.mp hx) ▸ hs.start.1
  | step _ hpred _ ih =>
    intro x hx
    rcases List.mem_append.mp hx with hx | hx
    · exact ih x hx
    · exact (List.mem_singleton.mp hx) ▸ (hs.parent _ _ hpred).1

/-- Every node before the last one has a neighbour. -/
theorem Route.outgoing {root v : ℕ} {s : Search} {path : List ℕ} (h : Route s.Parent root v path)
    (hs : G.Searching root s) : ∀ x ∈ path, x = v ∨ ∃ y, G.Step x y := by
  induction h with
  | root => exact fun x hx => .inl (List.mem_singleton.mp hx)
  | step _ hpred _ ih =>
    intro x hx
    rcases List.mem_append.mp hx with hx | hx
    · rcases ih x hx with rfl | hy
      · exact .inr ⟨_, (hs.parent _ _ hpred).2.2.1⟩
      · exact .inr hy
    · exact .inl (List.mem_singleton.mp hx)

theorem Route.length_le {root v : ℕ} {s : Search} {path : List ℕ} (h : Route s.Parent root v path)
    (hs : G.Searching root s) : path.length ≤ G.nodes.length := by
  have hsub : path ⊆ List.range G.nodes.length := fun x hx =>
    List.mem_range.mpr (hs.bound x (h.grey hs x hx))
  have := (List.subperm_of_subset (h.nodup hs) hsub).length_le
  rwa [List.length_range] at this

/-- The bits of the index at the node `u`. -/
def width (G : NixGraph) (u : ℕ) : ℕ := G.nodes[u]?.elim 0 fun n => n.getNixl.toNat

def bits (G : NixGraph) (path : List ℕ) : ℕ := (path.map G.width).sum

theorem degree_le {n : NixNode} (hn : n ∈ G.nodes) : 8 * n.m_Adj.length ≤ 2 ^ 32 := by
  have hle : n.m_Adj.length ≤ (G.nodes.map fun n => n.m_Adj.length).sum :=
    List.single_le_sum (fun _ _ => Nat.zero_le _) _ (List.mem_map_of_mem hn)
  have := G.fits
  omega

theorem getNixl_spec {n : NixNode} (hn : n ∈ G.nodes) (hne : n.m_Adj ≠ []) :
    1 ≤ n.getNixl.toNat ∧ n.getNixl.toNat ≤ 32 ∧ n.getNixl.toNat ≤ n.m_Adj.length ∧
      n.m_Adj.length ≤ 2 ^ n.getNixl.toNat := by
  have hdegree := degree_le hn
  have hpos := List.length_pos_of_ne_nil hne
  have hlast : ((n.m_Adj.length : Nixl_t) - 1).toNat = n.m_Adj.length - 1 := by
    rw [BitVec.toNat_sub, BitVec.natCast_eq_ofNat, BitVec.toNat_ofNat,
      Nat.mod_eq_of_lt (by omega : n.m_Adj.length < 2 ^ 32)]
    have hone : (1 : Nixl_t).toNat = 1 := rfl
    omega
  obtain ⟨h1, h2, h3, h4⟩ := NixVec.getBitl_spec ((n.m_Adj.length : Nixl_t) - 1)
  rw [hlast] at h3 h4
  exact ⟨h1, h2, by unfold NixNode.getNixl; omega, by unfold NixNode.getNixl; omega⟩

/-- The indices along a path without loops fit into the address space. -/
theorem bits_le {path : List ℕ} (hnodup : path.Nodup) (hout : ∀ x ∈ path, ∃ y, G.Step x y) :
    8 * G.bits path ≤ 2 ^ 32 := by
  let degree (u : ℕ) : ℕ := G.nodes[u]?.elim 0 fun n => n.m_Adj.length
  have hwidth : ∀ x ∈ path, G.width x ≤ degree x := fun x hx => by
    obtain ⟨y, n, hn, hy⟩ := hout x hx
    simp only [width, degree, hn, Option.elim_some]
    exact (getNixl_spec (List.mem_of_getElem? hn) (List.ne_nil_of_mem hy)).2.2.1
  have hsub : path ⊆ List.range G.nodes.length := fun x hx => by
    obtain ⟨y, n, hn, -⟩ := hout x hx
    exact List.mem_range.mpr (List.getElem?_eq_some_iff.mp hn).1
  obtain ⟨path', hperm, hsublist⟩ := List.subperm_of_subset hnodup hsub
  have hnodes : (List.range G.nodes.length).map degree = G.nodes.map fun n => n.m_Adj.length := by
    apply List.ext_getElem
    · simp
    · intro i h1 h2
      have hi : i < G.nodes.length := by simpa using h1
      simp [degree, hi]
  have hfits := G.fits
  calc 8 * G.bits path ≤ 8 * (path.map degree).sum :=
        Nat.mul_le_mul_left 8 (List.sum_le_sum hwidth)
    _ = 8 * (path'.map degree).sum := by rw [(hperm.map degree).sum_eq]
    _ ≤ 8 * ((List.range G.nodes.length).map degree).sum :=
        Nat.mul_le_mul_left 8 (List.Sublist.sum_le_sum (hsublist.map degree) fun _ _ => Nat.zero_le _)
    _ ≤ 2 ^ 32 := by rw [hnodes]; exact hfits

/-- The index of `v` at `u` leads back to `v`. -/
theorem getNix_spec {u v : ℕ} {n : NixNode} (hn : G.nodes[u]? = some n) (hv : v ∈ n.m_Adj) :
    ∃ i : Nix_t, n.getNix v = (i, n.getNixl) ∧ i ≠ nixNone ∧ n.getNeighbor i = some v ∧
      ∀ j, j + n.getNixl.toNat < 32 → i.getMsbD j = false := by
  have hmem := List.mem_of_getElem? hn
  have hdegree := degree_le hmem
  obtain ⟨h1, h2, -, h4⟩ := getNixl_spec hmem (List.ne_nil_of_mem hv)
  obtain ⟨l, hidx⟩ := Option.isSome_iff_exists.mp (List.isSome_idxOf?.mpr hv)
  obtain ⟨hlt, hget, -⟩ := List.idxOf?_eq_some_iff.mp hidx
  have hi : (l : Nix_t).toNat = l := by
    rw [BitVec.natCast_eq_ofNat, BitVec.toNat_ofNat, Nat.mod_eq_of_lt (by omega)]
  refine ⟨l, by rw [NixNode.getNix, hidx], fun he => ?_, ?_, fun j hj => ?_⟩
  · have hnone : nixNone.toNat = 4294967295 := rfl
    rw [he, hnone] at hi
    omega
  · rw [NixNode.getNeighbor, hi, List.getElem?_eq_getElem hlt, hget]
  · rw [BitVec.getMsbD_eq_getLsbD, BitVec.getLsbD, hi]
    have : l < 2 ^ (32 - 1 - j) :=
      lt_of_lt_of_le (lt_of_lt_of_le hlt h4) (Nat.pow_le_pow_right (by omega) (by omega))
    rw [Nat.testBit_lt_two_pow this, Bool.and_false]

/-- The indices of a path stand in the words from bit `k` on. -/
def Encodes (G : NixGraph) (words : List Nix_t) : ℕ → List ℕ → Prop
  | k, u :: v :: path =>
    (∃ n i, G.nodes[u]? = some n ∧ n.getNeighbor i = some v ∧ 1 ≤ n.getNixl.toNat ∧
      n.getNixl.toNat ≤ 32 ∧ Reads words k n.getNixl.toNat i) ∧
      G.Encodes words (k + G.width u) (v :: path)
  | _, _ => True

theorem Encodes.congr {words words' : List Nix_t} {k : ℕ} {path : List ℕ}
    (h : G.Encodes words k path)
    (hbits : ∀ j < k + G.bits path.dropLast, bit words' j = bit words j) :
    G.Encodes words' k path := by
  induction path generalizing k with
  | nil => trivial
  | cons u path ih =>
    cases path with
    | nil => trivial
    | cons v path =>
      obtain ⟨⟨n, i, h1, h2, h3, h4, h5⟩, h6⟩ := h
      have hwidth : G.width u = n.getNixl.toNat := by rw [width, h1, Option.elim_some]
      rw [List.dropLast_cons_cons, bits, List.map_cons, List.sum_cons] at hbits
      refine ⟨⟨n, i, h1, h2, h3, h4, h5.congr fun j _ hj => hbits j (by omega)⟩, ?_⟩
      exact ih h6 fun j hj => hbits j (by unfold bits at hj; omega)

theorem Encodes.snoc {words : List Nix_t} {k u v : ℕ} {path : List ℕ} {n : NixNode} {i : Nix_t}
    (h : G.Encodes words k path) (hlast : path.getLast? = some u) (hn : G.nodes[u]? = some n)
    (hv : n.getNeighbor i = some v) (hpos : 1 ≤ n.getNixl.toNat) (hle : n.getNixl.toNat ≤ 32)
    (hi : Reads words (k + G.bits path.dropLast) n.getNixl.toNat i) :
    G.Encodes words k (path ++ [v]) := by
  induction path generalizing k with
  | nil => trivial
  | cons x path ih =>
    cases path with
    | nil =>
      obtain rfl := Option.some.inj hlast
      exact ⟨⟨n, i, hn, hv, hpos, hle, hi⟩, trivial⟩
    | cons y path =>
      refine ⟨h.1, ih h.2 (by rwa [List.getLast?_cons_cons] at hlast) ?_⟩
      rw [List.dropLast_cons_cons, bits, List.map_cons, List.sum_cons, ← Nat.add_assoc] at hi
      exact hi

theorem Route.nixPred {root v fuel : ℕ} {s : Search} {path : List ℕ}
    (h : Route s.Parent root v path) (hs : G.Searching root s) (hfuel : path.length ≤ fuel) :
    ∃ nv, nixPred G.nodes s.Parent root fuel v .init = some nv ∧ NixVec.Packed nv ∧
      nv.m_alth.toNat = G.bits path.dropLast ∧ G.Encodes nv.m_pNV 0 path := by
  induction h generalizing fuel with
  | root =>
    obtain ⟨f, rfl⟩ := Nat.exists_eq_add_of_lt hfuel
    exact ⟨.init, by simp [Ns2.nixPred], NixVec.packed_init, rfl, trivial⟩
  | @step u v path hne hpred hroute ih =>
    rw [List.length_append, List.length_singleton] at hfuel
    obtain ⟨f, rfl⟩ : ∃ f, fuel = f + 1 := ⟨fuel - 1, by omega⟩
    obtain ⟨nv, h1, h2, h3, h4⟩ := ih (by omega : path.length ≤ f)
    have hstep := (hs.parent _ _ hpred).2.2.1
    obtain ⟨n, hn, hv⟩ := hstep
    obtain ⟨i, h5, h6, h7, h8⟩ := getNix_spec hn hv
    obtain ⟨h9, h10, -, -⟩ := getNixl_spec (List.mem_of_getElem? hn) (List.ne_nil_of_mem hv)
    have hwidth : G.width u = n.getNixl.toNat := by rw [width, hn, Option.elim_some]
    have hsplit : G.bits path = G.bits path.dropLast + n.getNixl.toNat := by
      conv_lhs => rw [← List.dropLast_append_getLast? u hroute.last]
      rw [bits, List.map_append, List.sum_append, List.map_singleton, List.sum_singleton, hwidth,
        bits]
    have hbound := bits_le (hroute.nodup hs) fun x hx => by
      rcases hroute.outgoing hs x hx with rfl | hy
      · exact ⟨v, n, hn, hv⟩
      · exact hy
    obtain ⟨nv', h11, h12, h13, h14, h15⟩ := NixVec.add_spec h2 rfl h9 h10 h8 (by omega)
    refine ⟨nv', ?_, h12, ?_, ?_⟩
    · simp only [Ns2.nixPred, if_neg hne, hpred, h1, Option.bind_some, hn, h5, if_neg h6]
      exact h11
    · rw [List.dropLast_concat, h13, h3, hsplit]
    · have hold := h4.congr (fun j hj => h14 j (by omega) : ∀ j < 0 + G.bits path.dropLast, _)
      refine hold.snoc hroute.last hn h7 h9 h10 ?_
      rw [Nat.zero_add, ← h3]
      exact h15

/-- Each node takes its own index, and passes the packet on. -/
theorem Encodes.forward {nv : NixVec} (hnv : NixVec.Packed nv) {t hops : ℕ} {path : List ℕ}
    {used : Nixl_t} (h : G.Encodes nv.m_pNV used.toNat path)
    (hused : used.toNat + G.bits path.dropLast = nv.m_alth.toNat) (hnodup : path.Nodup)
    (hlast : path.getLast? = some t) (hlt : ∀ x ∈ path, x < G.nodes.length) {s : ℕ}
    (hhead : path.head? = some s) (hhops : path.length ≤ hops) :
    forward G.nodes t nv.reset hops s used = some path := by
  induction path generalizing hops used s with
  | nil => cases hhead
  | cons x path ih =>
    obtain rfl := Option.some.inj hhead
    obtain ⟨f, rfl⟩ : ∃ f, hops = f + 1 := ⟨hops - 1, by rw [List.length_cons] at hhops; omega⟩
    cases path with
    | nil =>
      obtain rfl := Option.some.inj hlast
      have hx := hlt x (by simp)
      simp [Ns2.forward, hx, G.id x _ (List.getElem?_eq_getElem hx)]
    | cons y path =>
      obtain ⟨⟨n, i, h1, h2, h3, h4, h5⟩, h6⟩ := h
      have hwidth : G.width x = n.getNixl.toNat := by rw [width, h1, Option.elim_some]
      rw [List.dropLast_cons_cons, bits, List.map_cons, List.sum_cons, hwidth] at hused
      have hne : t ≠ n.m_id := fun he => by
        rw [G.id x n h1] at he
        subst he
        rw [List.getLast?_cons_cons] at hlast
        exact (List.nodup_cons.mp hnodup).1 (List.mem_of_getLast? hlast)
      have hex : nv.reset.extract n.getNixl used = some (i, used + n.getNixl) :=
        NixVec.extract_spec hnv h3 h4 (by omega) h5
      have hsmall := hnv.small
      have hadd : (used + n.getNixl).toNat = used.toNat + n.getNixl.toNat := by
        rw [BitVec.toNat_add, Nat.mod_eq_of_lt (by omega)]
      rw [hwidth, ← hadd] at h6
      have hrest := ih h6 (by rw [hadd]; unfold bits; omega) (List.nodup_cons.mp hnodup).2
        (by rwa [List.getLast?_cons_cons] at hlast) (fun z hz => hlt z (List.mem_cons_of_mem x hz))
        rfl (by rw [List.length_cons] at hhops; omega : (y :: path).length ≤ f)
      simp only [Ns2.forward, h1, Option.bind_some, if_neg hne, hex, h2, hrest, Option.map_some]

/-- The route of the vector is the path of the parents, and that is a shortest one. -/
theorem forwards {s t : ℕ} (hs : s < G.nodes.length) (ht : Relation.ReflTransGen G.Step s t) :
    ∃ b path nv, bfs G.nodes s = some b ∧
      printPred b.Parent s (G.nodes.length + 1) t = path ∧
      path.head? = some s ∧ path.getLast? = some t ∧ path.IsChain G.Step ∧
      (∀ walk : List ℕ, walk.head? = some s → walk.getLast? = some t → walk.IsChain G.Step →
        path.length ≤ walk.length) ∧
      getNixVector G.nodes s t = some nv ∧
      forward G.nodes t nv (G.nodes.length + 1) s 0 = some path := by
  obtain ⟨b, hb, htree⟩ := bfs_tree hs
  have hgrey := htree.reached ht
  obtain ⟨path, hroute⟩ := htree.route hgrey
  have hsearch := htree.searching
  have hlength := hroute.length_le hsearch
  obtain ⟨nv, h1, h2, h3, h4⟩ := hroute.nixPred hsearch (Nat.le_succ_of_le hlength)
  refine ⟨b, path, nv.reset, hb, hroute.printPred (by omega), hroute.head, hroute.last,
    hroute.isChain hsearch, fun walk hhead hlast hwalk => ?_, ?_, ?_⟩
  · cases walk with
    | nil => cases hhead
    | cons u walk =>
      obtain rfl := Option.some.inj hhead
      have hlevel := htree.level hsearch.start.1 hwalk
      have hend : (u :: walk).getLast (by simp) = t :=
        Option.some.inj ((List.getLast?_eq_some_getLast (by simp)).symm.trans hlast)
      rw [hend, hsearch.start.2.1] at hlevel
      have := (hroute.levels hsearch).2
      rw [List.length_cons]
      omega
  · rw [getNixVector, hb, Option.bind_some, h1, Option.map_some]
  · refine Encodes.forward h2 h4 (by rw [h3]; exact Nat.zero_add _) (hroute.nodup hsearch)
      hroute.last (fun x hx => hsearch.bound x (hroute.grey hsearch x hx)) hroute.head (by omega)

/-- Three nodes in a line. -/
def line : NixGraph where
  nodes := [⟨0, [1]⟩, ⟨1, [0, 2]⟩, ⟨2, [1]⟩]
  id i n h := by
    obtain ⟨hi, rfl⟩ := List.getElem?_eq_some_iff.mp h
    change i < 3 at hi
    interval_cases i <;> rfl
  adj := by simp
  fits := by decide

theorem forwards_line : ∃ b path nv, bfs line.nodes 0 = some b ∧
    printPred b.Parent 0 (line.nodes.length + 1) 2 = path ∧
    path.head? = some 0 ∧ path.getLast? = some 2 ∧ path.IsChain line.Step ∧
    (∀ walk : List ℕ, walk.head? = some 0 → walk.getLast? = some 2 → walk.IsChain line.Step →
      path.length ≤ walk.length) ∧
    getNixVector line.nodes 0 2 = some nv ∧
    forward line.nodes 2 nv (line.nodes.length + 1) 0 0 = some path :=
  have h01 : line.Step 0 1 := ⟨⟨0, [1]⟩, rfl, by simp⟩
  have h12 : line.Step 1 2 := ⟨⟨1, [0, 2]⟩, rfl, by simp⟩
  forwards (by decide) (.tail (.single h01) h12)

end NixGraph

end Ns2
