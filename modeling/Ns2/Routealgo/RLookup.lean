import Ns2.Routealgo.BitMap

/-! Representations of a routing table: the plain vector of next hops, a bitmap of those that are not
the default, and a map of those. -/

namespace Ns2

def NODE_NONE : ℕ := 0xffffffff

namespace RLookup

/-- What `Analyze` returns: the population counts, the default with its number, and the first and last
target that do not have the default. -/
structure Analysis where
  p : List ℕ
  d : ℕ
  n : ℕ
  f : ℕ
  l : ℕ
  deriving DecidableEq

/-- `p[r[i]]++`; `none` is out of range. -/
def countStep (r : List ℕ) (o : ℕ) (p : List ℕ) (i : ℕ) : Option (List ℕ) :=
  if i = o then some p
  else r[i]?.bind fun h => p[h]?.map fun c => p.set h (c + 1)

def largestStep (p : List ℕ) (largest i : ℕ) : ℕ :=
  if largest = NODE_NONE ∨ p.getD i 0 > p.getD largest 0 then i else largest

def boundsStep (r : List ℕ) (o d : ℕ) (fl : ℕ × ℕ) (i : ℕ) : ℕ × ℕ :=
  if i ≠ o ∧ r.getD i 0 ≠ d then (if fl.1 = NODE_NONE then i else fl.1, i) else fl

/-- The loops count in an `unsigned int`, and never end for a longer vector. -/
def Analyze (r : List ℕ) (o : ℕ) : Option Analysis :=
  if r.length < 2 ^ 32 then
    ((List.range r.length).foldlM (countStep r o) (List.replicate r.length 0)).bind fun p =>
      let largest := (List.range p.length).foldl (largestStep p) NODE_NONE
      let nonzero := p.countP (· ≠ 0)
      let d := if nonzero = 0 then NODE_NONE else largest
      p[largest]?.map fun n =>
        if nonzero = 1 then ⟨p, d, n, NODE_NONE, NODE_NONE⟩
        else
          let fl := (List.range r.length).foldl (boundsStep r o d) (NODE_NONE, NODE_NONE)
          ⟨p, d, n, fl.1, fl.2⟩
  else none

end RLookup

structure BMLookup where
  m_Default : ℕ
  m_FirstNonDefault : ℕ
  m_LastNonDefault : ℕ
  m_NVec : List ℕ
  m_pBitMap : Option BitMap

namespace BMLookup

def new : BMLookup := ⟨NODE_NONE, NODE_NONE, NODE_NONE, [], none⟩

/-- One entry of the bitmap; `none` is a read beyond the end of `r`. -/
def setStep (r nvec : List ℕ) (f : ℕ) (b : BitMap) (k : ℕ) : Option BitMap :=
  r[f + k]?.bind fun h => b.Set k (BitVec.ofNat 64 (nvec.findIdx (· == h)))

def Populate (b : BMLookup) (r p : List ℕ) (d f l : ℕ) : Option BMLookup :=
  let nvec := b.m_NVec ++ (List.range p.length).filter fun i => p.getD i 0 ≠ 0
  let c := l - f + 1
  (BitMap.new c (BitMap.FindBPE nvec.length)).bind fun m =>
    ((List.range c).foldlM (setStep r nvec f) m).map fun m => ⟨d, f, l, nvec, some m⟩

def Lookup (b : BMLookup) (t : ℕ) : Option ℕ :=
  if t < b.m_FirstNonDefault then some b.m_Default
  else if t > b.m_LastNonDefault then some b.m_Default
  else
    match b.m_pBitMap with
    | none => some NODE_NONE
    | some m => (m.Get (t - b.m_FirstNonDefault)).bind fun i => b.m_NVec[i.toNat]?

end BMLookup

/-- A search tree. No tree of this program has more than one node, so nothing is said about the
balance. -/
inductive RouteTree
  | leaf
  | node (left : RouteTree) (key value : ℕ) (right : RouteTree)

namespace RouteTree

/-- The insertion of `std::map`, for an order `comp`; `pred` is the last key that was passed on its
right. -/
def insert (comp : ℕ → ℕ → Bool) (k v : ℕ) : Option ℕ → RouteTree → RouteTree
  | pred, leaf => if pred.all fun j => comp j k then node leaf k v leaf else leaf
  | pred, node l k' v' r =>
    if comp k k' then node (insert comp k v pred l) k' v' r
    else node l k' v' (insert comp k v (some k') r)

/-- The first entry whose key is not before `k`. -/
def lowerBound (comp : ℕ → ℕ → Bool) (k : ℕ) : Option (ℕ × ℕ) → RouteTree → Option (ℕ × ℕ)
  | y, leaf => y
  | y, node l k' v' r =>
    if comp k' k then lowerBound comp k y r else lowerBound comp k (some (k', v')) l

def find (comp : ℕ → ℕ → Bool) (k : ℕ) (t : RouteTree) : Option ℕ :=
  (lowerBound comp k none t).bind fun e => if comp k e.1 then none else some e.2

end RouteTree

/-- A `hash_map` where `USE_HASH_MAP` is defined, and else a `map` that is ordered by `equal_to`. -/
inductive RouteMap
  | hash (entries : List (ℕ × ℕ))
  | tree (t : RouteTree)

namespace RouteMap

def empty (USE_HASH_MAP : Bool) : RouteMap := if USE_HASH_MAP then hash [] else tree .leaf

/-- An entry whose key is there already is not replaced. -/
def insert (k v : ℕ) : RouteMap → RouteMap
  | hash l => if (l.lookup k).isSome then hash l else hash (l ++ [(k, v)])
  | tree t => tree (t.insert (· == ·) k v none)

def find (k : ℕ) : RouteMap → Option ℕ
  | hash l => l.lookup k
  | tree t => t.find (· == ·) k

end RouteMap

structure HMLookup where
  m_Default : ℕ
  m_RouteMap : RouteMap

namespace HMLookup

def new (USE_HASH_MAP : Bool) : HMLookup := ⟨NODE_NONE, .empty USE_HASH_MAP⟩

def insertStep (r : List ℕ) (d : ℕ) (m : RouteMap) (i : ℕ) : RouteMap :=
  if r.getD i 0 ≠ d ∧ r.getD i 0 ≠ NODE_NONE then m.insert i (r.getD i 0) else m

def Populate (h : HMLookup) (r : List ℕ) (d : ℕ) : HMLookup :=
  ⟨d, (List.range r.length).foldl (insertStep r d) h.m_RouteMap⟩

def Lookup (h : HMLookup) (t : ℕ) : ℕ := (h.m_RouteMap.find t).getD h.m_Default

end HMLookup

structure NHLookup where
  m_RouteTable : List ℕ

namespace NHLookup

def Populate (r : List ℕ) : NHLookup := ⟨r⟩

def Lookup (n : NHLookup) (t : ℕ) : ℕ :=
  if t ≥ n.m_RouteTable.length then NODE_NONE else n.m_RouteTable.getD t 0

end NHLookup

/-! ### The analysis of a vector -/

namespace RLookup

/-- How often a next hop is used by the targets other than the owner, up to some index. -/
def uses (r : List ℕ) (o h k : ℕ) : ℕ :=
  (List.range k).countP fun i => i ≠ o ∧ r.getD i 0 = h

variable {r : List ℕ} {o d h k : ℕ}

/-- Every node but the owner has a next hop. -/
def Valid (r : List ℕ) (o : ℕ) : Prop := ∀ i < r.length, i ≠ o → r.getD i 0 < r.length

instance (r : List ℕ) (o : ℕ) : Decidable (Valid r o) := Nat.decidableBallLT _ _

theorem uses_succ (r : List ℕ) (o h k : ℕ) :
    uses r o h (k + 1) = uses r o h k + if k ≠ o ∧ r.getD k 0 = h then 1 else 0 := by
  rw [uses, List.range_succ, List.countP_append, List.countP_singleton, uses]
  simp only [decide_eq_true_eq]

theorem uses_pos_iff : 0 < uses r o h k ↔ ∃ i < k, i ≠ o ∧ r.getD i 0 = h := by
  rw [uses, List.countP_pos_iff]
  simp only [List.mem_range, decide_eq_true_eq]

theorem foldl_range_succ {β : Type} (g : β → ℕ → β) (b : β) (k : ℕ) :
    (List.range (k + 1)).foldl g b = g ((List.range k).foldl g b) k := by
  rw [List.range_succ, List.foldl_append]
  rfl

theorem foldlM_range_succ {β : Type} (g : β → ℕ → Option β) (b : β) (k : ℕ) :
    (List.range (k + 1)).foldlM g b = ((List.range k).foldlM g b).bind fun c => g c k := by
  rw [List.range_succ, List.foldlM_append]
  simp [bind]

theorem getElem?_getD {l : List ℕ} {i : ℕ} (h : i < l.length) : l[i]? = some (l.getD i 0) := by
  simp [h]

/-- The population counts. -/
theorem count_spec (hv : Valid r o) : ∃ p, (List.range r.length).foldlM (countStep r o)
    (List.replicate r.length 0) = some p ∧ p.length = r.length ∧
      ∀ h < r.length, p.getD h 0 = uses r o h r.length := by
  suffices hgen : ∀ k ≤ r.length, ∃ p, (List.range k).foldlM (countStep r o)
      (List.replicate r.length 0) = some p ∧ p.length = r.length ∧
        ∀ h < r.length, p.getD h 0 = uses r o h k from hgen _ le_rfl
  intro k hk
  induction k with
  | zero =>
    refine ⟨_, rfl, List.length_replicate, fun h hlt => ?_⟩
    simp [hlt, uses]
  | succ k ih =>
    obtain ⟨p, hp, hlen, hcount⟩ := ih (Nat.le_of_succ_le hk)
    rw [foldlM_range_succ, hp, Option.bind_some, countStep]
    by_cases hko : k = o
    · rw [if_pos hko]
      refine ⟨p, rfl, hlen, fun h hlt => ?_⟩
      rw [uses_succ, hcount h hlt, if_neg (by simp [hko])]
      rfl
    · have hnext := hv k hk hko
      rw [if_neg hko, getElem?_getD hk, Option.bind_some, getElem?_getD (hlen ▸ hnext), Option.map_some,
        hcount _ hnext]
      refine ⟨_, rfl, by rw [List.length_set, hlen], fun h hlt => ?_⟩
      rw [uses_succ]
      by_cases hh : r.getD k 0 = h
      · subst hh
        rw [List.getD_eq_getElem?_getD, List.getElem?_set_self (hlen ▸ hnext), Option.getD_some,
          if_pos ⟨hko, rfl⟩]
      · rw [List.getD_eq_getElem?_getD, List.getElem?_set_ne hh, ← List.getD_eq_getElem?_getD,
          hcount h hlt, if_neg (fun hc => hh hc.2)]
        rfl

theorem largest_spec {p : List ℕ} (hlen : p.length < 2 ^ 32) (hpos : 0 < p.length) :
    ∃ g, (List.range p.length).foldl (largestStep p) NODE_NONE = g ∧ g < p.length ∧
      ∀ i < p.length, p.getD i 0 ≤ p.getD g 0 ∧ (i < g → p.getD i 0 < p.getD g 0) := by
  suffices hgen : ∀ k < p.length, ∃ g, (List.range (k + 1)).foldl (largestStep p) NODE_NONE = g ∧
      g < k + 1 ∧ ∀ i < k + 1, p.getD i 0 ≤ p.getD g 0 ∧ (i < g → p.getD i 0 < p.getD g 0) by
    have := hgen (p.length - 1) (by omega)
    rwa [Nat.sub_add_cancel hpos] at this
  intro k hk
  induction k with
  | zero =>
    refine ⟨0, rfl, Nat.one_pos, fun i hi => ?_⟩
    obtain rfl : i = 0 := by omega
    exact ⟨le_rfl, fun hlt => absurd hlt (lt_irrefl 0)⟩
  | succ k ih =>
    obtain ⟨g, hg, hlt, hmax⟩ := ih (Nat.lt_of_succ_lt hk)
    have hne : g ≠ NODE_NONE := by
      rw [NODE_NONE]
      omega
    rw [foldl_range_succ, hg, largestStep]
    by_cases hgt : p.getD (k + 1) 0 > p.getD g 0
    · rw [if_pos (.inr hgt)]
      refine ⟨k + 1, rfl, by omega, fun i hi => ?_⟩
      rcases Nat.lt_succ_iff_lt_or_eq.mp hi with hi | rfl
      · have := (hmax i hi).1
        omega
      · exact ⟨le_rfl, fun h => absurd h (lt_irrefl _)⟩
    · rw [if_neg (not_or.mpr ⟨hne, hgt⟩)]
      refine ⟨g, rfl, by omega, fun i hi => ?_⟩
      rcases Nat.lt_succ_iff_lt_or_eq.mp hi with hi | rfl
      · exact hmax i hi
      · exact ⟨not_lt.mp hgt, fun h => by omega⟩

/-- A target that does not have the default. -/
def Other (r : List ℕ) (o d i : ℕ) : Prop := i ≠ o ∧ r.getD i 0 ≠ d

theorem bounds_spec (hlen : r.length < 2 ^ 32) (o d : ℕ) :
    ∃ f l, (List.range r.length).foldl (boundsStep r o d) (NODE_NONE, NODE_NONE) = (f, l) ∧
      ((f = NODE_NONE ∧ l = NODE_NONE ∧ ∀ i < r.length, ¬ Other r o d i) ∨
        (f < r.length ∧ l < r.length ∧ Other r o d f ∧ Other r o d l ∧
          ∀ i < r.length, Other r o d i → f ≤ i ∧ i ≤ l)) := by
  suffices hgen : ∀ k ≤ r.length, ∃ f l,
      (List.range k).foldl (boundsStep r o d) (NODE_NONE, NODE_NONE) = (f, l) ∧
        ((f = NODE_NONE ∧ l = NODE_NONE ∧ ∀ i < k, ¬ Other r o d i) ∨
          (f < k ∧ l < k ∧ Other r o d f ∧ Other r o d l ∧
            ∀ i < k, Other r o d i → f ≤ i ∧ i ≤ l)) from hgen _ le_rfl
  intro k hk
  induction k with
  | zero => exact ⟨_, _, rfl, .inl ⟨rfl, rfl, fun i hi => absurd hi (Nat.not_lt_zero i)⟩⟩
  | succ k ih =>
    obtain ⟨f, l, hfl, hspec⟩ := ih (Nat.le_of_succ_le hk)
    rw [foldl_range_succ, hfl, boundsStep]
    by_cases hother : Other r o d k
    · rw [if_pos (show k ≠ o ∧ r.getD k 0 ≠ d from hother)]
      dsimp only
      rcases hspec with ⟨rfl, rfl, hnone⟩ | ⟨h1, h2, h3, h4, h5⟩
      · rw [if_pos rfl]
        refine ⟨k, k, rfl, .inr ⟨by omega, by omega, hother, hother, fun i hi ho => ?_⟩⟩
        rcases Nat.lt_succ_iff_lt_or_eq.mp hi with hi | rfl
        · exact absurd ho (hnone i hi)
        · exact ⟨le_rfl, le_rfl⟩
      · rw [if_neg (show f ≠ NODE_NONE by rw [NODE_NONE]; omega)]
        refine ⟨f, k, rfl, .inr ⟨by omega, by omega, h3, hother, fun i hi ho => ?_⟩⟩
        rcases Nat.lt_succ_iff_lt_or_eq.mp hi with hi | rfl
        · exact ⟨(h5 i hi ho).1, by omega⟩
        · exact ⟨by omega, le_rfl⟩
    · rw [if_neg (show ¬ (k ≠ o ∧ r.getD k 0 ≠ d) from hother)]
      refine ⟨f, l, rfl, ?_⟩
      rcases hspec with ⟨rfl, rfl, hnone⟩ | ⟨h1, h2, h3, h4, h5⟩
      · refine .inl ⟨rfl, rfl, fun i hi ho => ?_⟩
        rcases Nat.lt_succ_iff_lt_or_eq.mp hi with hi | rfl
        · exact hnone i hi ho
        · exact hother ho
      · refine .inr ⟨by omega, by omega, h3, h4, fun i hi ho => ?_⟩
        rcases Nat.lt_succ_iff_lt_or_eq.mp hi with hi | rfl
        · exact h5 i hi ho
        · exact absurd ho hother

/-- The default: the first of the next hops that are used most. -/
def IsDefault (r : List ℕ) (o d : ℕ) : Prop :=
  0 < uses r o d r.length ∧ ∀ h, uses r o h r.length ≤ uses r o d r.length ∧
    (h < d → uses r o h r.length < uses r o d r.length)

theorem IsDefault.unique {d' : ℕ} (h : IsDefault r o d) (h' : IsDefault r o d') : d = d' := by
  have h1 := h.2 d'
  have h2 := h'.2 d
  rcases lt_trichotomy d d' with hlt | heq | hlt
  · have := h2.2 hlt
    omega
  · exact heq
  · have := h1.2 hlt
    omega

/-- What the analysis finds, in a vector with more than one next hop. -/
structure Found (r : List ℕ) (o : ℕ) (a : Analysis) : Prop where
  length : a.p.length = r.length
  count : ∀ h < r.length, a.p.getD h 0 = uses r o h r.length
  default : IsDefault r o a.d
  first : a.f < r.length ∧ Other r o a.d a.f
  last : a.l < r.length ∧ Other r o a.d a.l
  bounds : ∀ i < r.length, Other r o a.d i → a.f ≤ i ∧ i ≤ a.l

theorem uses_zero (hv : Valid r o) (hh : r.length ≤ h) : uses r o h r.length = 0 := by
  by_contra hne
  obtain ⟨i, hi, hio, rfl⟩ := uses_pos_iff.mp (Nat.pos_of_ne_zero hne)
  exact absurd (hv i hi hio) (not_lt.mpr hh)

/-- Two next hops in use make two counts that are not zero. -/
theorem countP_of_two {p : List ℕ} {g : ℕ} (hgh : g < h) (hh : h < p.length)
    (hpg : p.getD g 0 ≠ 0) (hph : p.getD h 0 ≠ 0) : p.countP (· ≠ 0) ≠ 1 := by
  have hlt : g < p.length := hgh.trans hh
  have hg : p[g] ≠ 0 := by simpa [hlt] using hpg
  have hh' : p[h] ≠ 0 := by simpa [hh] using hph
  have h1 : 0 < (p.take h).countP (· ≠ 0) := List.countP_pos_iff.mpr ⟨p[g],
    List.mem_take_iff_getElem.mpr ⟨g, by omega, rfl⟩, by simpa using hg⟩
  have h2 : 0 < (p.drop h).countP (· ≠ 0) := List.countP_pos_iff.mpr ⟨p[h],
    List.mem_drop_iff_getElem.mpr ⟨0, by omega, rfl⟩, by simpa using hh'⟩
  have hsum : (p.take h ++ p.drop h).countP (· ≠ 0) =
      (p.take h).countP (· ≠ 0) + (p.drop h).countP (· ≠ 0) := List.countP_append
  rw [List.take_append_drop] at hsum
  omega

theorem Analyze_spec (hv : Valid r o) (hlt : r.length < 2 ^ 32) (hpos : 0 < r.length) :
    ∃ a, Analyze r o = some a ∧
      ((a.f = NODE_NONE ∧ a.l = NODE_NONE ∧ ∀ i < r.length, i ≠ o → r.getD i 0 = a.d) ∨
        Found r o a) := by
  obtain ⟨p, hp, hlen, hcount⟩ := count_spec hv
  obtain ⟨g, hg, hglt, hmax⟩ := largest_spec (hlen ▸ hlt) (hlen ▸ hpos)
  have hused : ∀ i < r.length, i ≠ o → p.getD (r.getD i 0) 0 ≠ 0 := fun i hi hio => by
    rw [hcount _ (hv i hi hio)]
    exact (uses_pos_iff.mpr ⟨i, hi, hio, rfl⟩).ne'
  rw [Analyze, if_pos hlt, hp, Option.bind_some, hg]
  dsimp only
  rw [getElem?_getD hglt, Option.map_some]
  by_cases hzero : p.countP (· ≠ 0) = 0
  · -- no target but the owner
    have hnone : ∀ i < r.length, ¬ i ≠ o := fun i hi hio => by
      have := List.countP_eq_zero.mp hzero _
        (List.mem_of_getElem? (getElem?_getD (hlen ▸ hv i hi hio)))
      exact this (by simpa using hused i hi hio)
    obtain ⟨f, l, hfl, hspec⟩ := bounds_spec hlt o NODE_NONE
    rw [if_pos hzero, if_neg (by rw [hzero]; decide), hfl]
    refine ⟨_, rfl, .inl ?_⟩
    rcases hspec with ⟨hf, hl, -⟩ | ⟨h1, -, h3, -, -⟩
    · exact ⟨hf, hl, fun i hi hio => absurd hio (hnone i hi)⟩
    · exact absurd h3.1 (hnone f h1)
  rw [if_neg hzero]
  -- the default is in use
  have hgpos : p.getD g 0 ≠ 0 := by
    intro hz
    apply hzero
    rw [List.countP_eq_zero]
    intro c hc
    obtain ⟨i, hi, rfl⟩ := List.getElem_of_mem hc
    have := (hmax i hi).1
    have hi' : p.getD i 0 = p[i] := by simp [hi]
    simp
    omega
  have hdef : IsDefault r o g := by
    rw [IsDefault, ← hcount g (hlen ▸ hglt)]
    refine ⟨Nat.pos_of_ne_zero hgpos, fun h => ?_⟩
    by_cases hh : h < r.length
    · rw [← hcount h hh]
      exact hmax h (hlen ▸ hh)
    · rw [uses_zero hv (not_lt.mp hh)]
      exact ⟨Nat.zero_le _, fun hlt' => absurd (hlt'.trans hglt) (by rw [hlen]; exact hh)⟩
  obtain ⟨f, l, hfl, hspec⟩ := bounds_spec hlt o g
  by_cases hone : p.countP (· ≠ 0) = 1
  · rw [if_pos hone]
    refine ⟨_, rfl, .inl ⟨rfl, rfl, fun i hi hio => ?_⟩⟩
    by_contra hne
    have hi' := hv i hi hio
    rcases lt_or_gt_of_ne hne with hlt' | hgt
    · exact countP_of_two hlt' hglt (hused i hi hio) hgpos hone
    · exact countP_of_two hgt (hlen ▸ hi') hgpos (hused i hi hio) hone
  · rw [if_neg hone, hfl]
    refine ⟨_, rfl, ?_⟩
    rcases hspec with ⟨hf, hl, hnone⟩ | ⟨h1, h2, h3, h4, h5⟩
    · refine .inl ⟨hf, hl, fun i hi hio => ?_⟩
      by_contra hne
      exact hnone i hi ⟨hio, hne⟩
    · exact .inr ⟨hlen, hcount, hdef, ⟨h1, h3⟩, ⟨h2, h4⟩, h5⟩

end RLookup

end Ns2
