import Ns2.Lib.LoopErasure

/-! Source routes of DSR: arrays of node identifiers, and the removal of their double backs. -/

namespace Ns2

open LoopErasure

inductive IDType
  | none
  | mac
  | ip
  deriving DecidableEq

/-- A node's identifier, with the two fields that `==` compares. -/
structure ID where
  addr : ℕ
  type : IDType
  deriving DecidableEq

structure Path where
  len : ℕ
  cur_index : ℤ
  path : ℕ → ID

namespace Path

def nodes (p : Path) : List ID := (List.range p.len).map p.path

def ofNodes (l : List ID) : Path := ⟨l.length, 0, fun i => l.getD i ⟨0, .none⟩⟩

/-- `path[dst]`, `path[dst + 1]`, … become `path[src]`, `path[src + 1]`, …, in this order, `k` of
them. -/
def copyLoop : ℕ → ℕ → ℕ → (ℕ → ID) → ℕ → ID
  | 0, _, _, path => path
  | k + 1, src, dst, path => copyLoop k (src + 1) (dst + 1) (Function.update path dst (path src))

/-- The removal of a double back: what is at `bp` and behind it moves to `fp`. -/
def cut (fp bp : ℕ) (p : Path) : Path :=
  { p with
    path := copyLoop (p.len - bp) bp fp p.path
    len := fp + (p.len - bp) }

/-- The elements at `src`, …, `dst - 1` leave the path. -/
def removeSection (src dst : ℕ) (p : Path) : Path :=
  if dst ≤ src then p
  else
    { len := src + (p.len - dst)
      cur_index := if p.cur_index > src then p.cur_index - (dst - src) else p.cur_index
      path := copyLoop (p.len - dst) dst src p.path }

/-- The backward pointer walks from `fp + d` down to `fp`. -/
def scan (fp : ℕ) : ℕ → Path → Path
  | 0, p => p
  | d + 1, p => if p.path fp = p.path (fp + (d + 1)) then p.cut fp (fp + (d + 1)) else scan fp d p

/-- The forward pointer walks from `fp` on; `none` if it is still on the path after `fuel` steps. -/
def compressLoop : ℕ → ℕ → Path → Option Path
  | 0, fp, p => if fp < p.len then none else some p
  | fuel + 1, fp, p =>
    if fp < p.len then compressLoop fuel (fp + 1) (p.scan fp (p.len - 1 - fp)) else some p

def compressPath (p : Path) : Option Path := compressLoop p.len 0 p

@[simp] theorem length_nodes (p : Path) : p.nodes.length = p.len := by simp [nodes]

theorem getElem?_nodes (p : Path) {i : ℕ} (hi : i < p.len) : p.nodes[i]? = some (p.path i) := by
  simp [nodes, hi]

theorem path_eq {p : Path} {A B : List ID} {x : ID} (h : p.nodes = A ++ x :: B) :
    p.path A.length = x := by
  have hlen : A.length < p.len := by
    rw [← length_nodes, h]
    simp
  have := p.getElem?_nodes hlen
  simpa [h] using this.symm

theorem copyLoop_eq {src dst : ℕ} (hd : dst ≤ src) (k : ℕ) (path : ℕ → ID) (i : ℕ) :
    copyLoop k src dst path i =
      if dst ≤ i ∧ i < dst + k then path (src + (i - dst)) else path i := by
  induction k generalizing src dst path with
  | zero => simp [copyLoop, show ¬ (dst ≤ i ∧ i < dst) by omega]
  | succ k ih =>
    rw [copyLoop, ih (by omega)]
    by_cases hi : i = dst
    · simp [hi]
    · simp only [Function.update_apply, hi, if_false]
      by_cases hin : dst + 1 ≤ i ∧ i < dst + 1 + k
      · have hne : src + 1 + (i - (dst + 1)) ≠ dst := by omega
        rw [if_pos hin, if_neg hne, if_pos (by omega)]
        congr 1
        omega
      · rw [if_neg hin, if_neg (by omega)]

theorem nodes_cut {p : Path} {fp bp : ℕ} (h : fp ≤ bp) (hb : bp ≤ p.len) :
    (p.cut fp bp).nodes = p.nodes.take fp ++ p.nodes.drop bp := by
  apply List.ext_getElem?
  intro i
  by_cases hi : i < fp + (p.len - bp)
  · rw [getElem?_nodes _ hi, List.getElem?_append]
    simp only [cut, copyLoop_eq h, List.length_take, length_nodes]
    by_cases hfp : i < fp
    · rw [if_neg (by omega), if_pos (by omega), List.getElem?_take_of_lt hfp,
        getElem?_nodes _ (by omega)]
    · rw [if_pos (by omega), if_neg (by omega), List.getElem?_drop, getElem?_nodes _ (by omega)]
      congr 3
      omega
  · rw [List.getElem?_eq_none (by simpa [cut] using hi), List.getElem?_eq_none]
    simp only [List.length_append, List.length_take, List.length_drop, length_nodes]
    omega

theorem nodes_scan {p : Path} {A B C : List ID} {x : ID} (h : p.nodes = A ++ x :: (B ++ C))
    (hC : x ∉ C) : (p.scan A.length B.length).nodes = A ++ x :: afterLast x (B ++ C) := by
  induction B using List.reverseRecOn generalizing C with
  | nil => rw [List.length_nil, scan, h, List.nil_append, afterLast_of_notMem hC]
  | append_singleton B y ih =>
    have hlen : p.len = A.length + (B.length + 1 + C.length + 1) := by
      rw [← length_nodes, h]
      simp
      omega
    have hy : p.path (A.length + (B.length + 1)) = y := by
      have := p.getElem?_nodes (i := A.length + (B.length + 1)) (by omega)
      simpa [h] using this.symm
    rw [List.length_append, List.length_singleton, scan, path_eq h, hy]
    split_ifs with hxy
    · subst hxy
      rw [nodes_cut (by omega) (by omega), h]
      simp [afterLast_append B hC]
    · have := ih (C := y :: C) (by simpa using h) (by simp [hxy, hC])
      simpa using this

theorem compressLoop_eq {p : Path} {A R : List ID} (h : p.nodes = A ++ R) {fuel : ℕ}
    (hf : R.length ≤ fuel) :
    ∃ q, compressLoop fuel A.length p = some q ∧ q.nodes = A ++ eraseLoops R := by
  have hlen : p.len = A.length + R.length := by rw [← length_nodes, h, List.length_append]
  induction fuel generalizing p A R with
  | zero =>
    obtain rfl : R = [] := by simpa using hf
    exact ⟨p, by simp [compressLoop, hlen], by simpa using h⟩
  | succ fuel ih =>
    cases R with
    | nil => exact ⟨p, by simp [compressLoop, hlen], by simpa using h⟩
    | cons x B =>
      have hd : p.len - 1 - A.length = B.length := by
        rw [hlen, List.length_cons]
        omega
      have hscan : (p.scan A.length B.length).nodes = (A ++ [x]) ++ afterLast x B := by
        simpa using nodes_scan (C := []) (by simpa using h) List.not_mem_nil
      have hle := (afterLast_suffix x B).length_le
      rw [List.length_cons] at hf
      obtain ⟨q, hq, hn⟩ := ih hscan (by omega) (by rw [← length_nodes, hscan, List.length_append])
      refine ⟨q, ?_, by simpa using hn⟩
      rw [compressLoop, if_pos (by rw [hlen, List.length_cons]; omega), hd]
      simpa using hq

theorem compressPath_eq (p : Path) :
    ∃ q, compressPath p = some q ∧ q.nodes = eraseLoops p.nodes :=
  compressLoop_eq (A := []) rfl p.length_nodes.le

/-- The compressed path has the same ends, no node twice, and only steps of the path. -/
theorem compressPath_spec (p : Path) : ∃ q, compressPath p = some q ∧
    q.nodes.head? = p.nodes.head? ∧ q.nodes.getLast? = p.nodes.getLast? ∧ q.nodes.Nodup ∧
      ∀ a b, [a, b] <:+: q.nodes → [a, b] <:+: p.nodes := by
  obtain ⟨q, hq, hn⟩ := compressPath_eq p
  refine ⟨q, hq, ?_, ?_, ?_, ?_⟩
  · rw [hn, head?_eraseLoops]
  · rw [hn, getLast?_eraseLoops]
  · rw [hn]
    exact nodup_eraseLoops _
  · intro a b hab
    rw [hn] at hab
    exact pair_of_eraseLoops hab

example : ((ofNodes ([1, 2, 3, 2, 4].map (⟨·, .ip⟩))).compressPath.map nodes) =
    some ([1, 2, 4].map (⟨·, .ip⟩)) := by decide

end Path

end Ns2
