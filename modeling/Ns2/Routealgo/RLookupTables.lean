import Ns2.Routealgo.RLookup

/-! The bitmap and the map against the plain vector of next hops. -/

namespace Ns2

namespace RLookup

variable {r : List ℕ} {o d h g k f l n : ℕ} {a : Analysis} {q : ℕ → Bool} {nvec : List ℕ}

/-- How many of the next hops in use have a lower number. -/
def rank (r : List ℕ) (o h : ℕ) : ℕ := (List.range h).countP fun g => 0 < uses r o g r.length

theorem range_split (hlt : h < n) : ∃ B, List.range n = List.range h ++ h :: B := by
  obtain ⟨m, rfl⟩ : ∃ m, n = h + (m + 1) := ⟨n - h - 1, by omega⟩
  rw [List.range_add, List.range_succ_eq_map, List.map_cons]
  exact ⟨_, rfl⟩

/-- The place of a number in a filtered range. -/
theorem findIdx_filter_range (hlt : h < n) (hq : q h = true) :
    ((List.range n).filter q).findIdx (· == h) = (List.range h).countP q ∧
      ((List.range n).filter q)[(List.range h).countP q]? = some h := by
  obtain ⟨B, hB⟩ := range_split hlt
  have hlen : (List.range h).countP q = ((List.range h).filter q).length := List.countP_eq_length_filter
  have hnone : ((List.range h).filter q).findIdx (· == h) = ((List.range h).filter q).length := by
    apply List.findIdx_eq_length_of_false
    intro i hi
    have := List.mem_range.mp (List.mem_filter.mp hi).1
    simp only [beq_eq_false_iff_ne]
    omega
  rw [hB, List.filter_append, List.filter_cons_of_pos hq, hlen]
  constructor
  · rw [List.findIdx_append, hnone, if_neg (lt_irrefl _), List.findIdx_cons]
    simp
  · rw [List.getElem?_append_right le_rfl, Nat.sub_self, List.getElem?_cons_zero]

/-- The next hops in use, in the order of their numbers. -/
def neighbours (p : List ℕ) : List ℕ := (List.range p.length).filter fun i => p.getD i 0 ≠ 0

theorem Found.neighbour (ha : Found r o a) (hlt : h < r.length) (hpos : 0 < uses r o h r.length) :
    (neighbours a.p).findIdx (· == h) = rank r o h ∧
      (neighbours a.p)[rank r o h]? = some h := by
  have hrank : rank r o h = (List.range h).countP fun i => decide (a.p.getD i 0 ≠ 0) := by
    rw [rank]
    apply List.countP_congr
    intro g hg
    rw [ha.count g ((List.mem_range.mp hg).trans hlt)]
    simp [Nat.pos_iff_ne_zero]
  rw [hrank]
  apply findIdx_filter_range (ha.length ▸ hlt)
  rw [ha.count h hlt]
  exact decide_eq_true hpos.ne'

theorem used (hv : Valid r o) (hk : k < r.length) (hko : k ≠ o) :
    r.getD k 0 < r.length ∧ 0 < uses r o (r.getD k 0) r.length :=
  ⟨hv k hk hko, uses_pos_iff.mpr ⟨k, hk, hko, rfl⟩⟩

theorem Found.default_used (ha : Found r o a) :
    ∃ k < r.length, k ≠ o ∧ r.getD k 0 = a.d := uses_pos_iff.mp ha.default.1

/-- There are two neighbours at least. -/
theorem Found.two (ha : Found r o a) (hv : Valid r o) : 2 ≤ (neighbours a.p).length := by
  obtain ⟨k, hk, hko, hkd⟩ := ha.default_used
  obtain ⟨h1, h2⟩ := used hv hk hko
  obtain ⟨h3, h4⟩ := used hv ha.first.1 ha.first.2.1
  have hd := (ha.neighbour h1 h2).2
  have hf := (ha.neighbour h3 h4).2
  have hne : rank r o (r.getD k 0) ≠ rank r o (r.getD a.f 0) := fun he => by
    rw [he, hf] at hd
    exact ha.first.2.2 ((Option.some.inj hd).trans hkd)
  obtain ⟨hlt, -⟩ := List.getElem?_eq_some_iff.mp hd
  obtain ⟨hlt', -⟩ := List.getElem?_eq_some_iff.mp hf
  omega

/-- The entries of the bitmap, as far as they can be read back. -/
theorem setLoop_spec {m : BitMap} (hm : m.Shaped) (hbpe : nvec.length < 2 ^ m.m_BPE)
    (hlen : f + m.m_Size ≤ r.length) :
    ∃ b, (List.range m.m_Size).foldlM (BMLookup.setStep r nvec f) m = some b ∧ b.Shaped ∧
      b.m_Size = m.m_Size ∧
      ∀ j < m.m_Size, b.low j = (nvec.findIdx (· == r.getD (f + j) 0)).testBit 0 := by
  suffices hgen : ∀ k ≤ m.m_Size, ∃ b, (List.range k).foldlM (BMLookup.setStep r nvec f) m = some b ∧
      b.Shaped ∧ b.m_Size = m.m_Size ∧ b.m_BPE = m.m_BPE ∧
      ∀ j < k, b.low j = (nvec.findIdx (· == r.getD (f + j) 0)).testBit 0 by
    obtain ⟨b, h1, h2, h3, -, h4⟩ := hgen _ le_rfl
    exact ⟨b, h1, h2, h3, h4⟩
  intro k hk
  induction k with
  | zero => exact ⟨m, rfl, hm, rfl, rfl, fun j hj => absurd hj (Nat.not_lt_zero j)⟩
  | succ k ih =>
    obtain ⟨b, hb, hshaped, hsize, hbpe', hlow⟩ := ih (Nat.le_of_succ_le hk)
    have hfk : f + k < r.length := by omega
    rw [foldlM_range_succ, hb, Option.bind_some, BMLookup.setStep, getElem?_getD hfk, Option.bind_some]
    generalize hi : nvec.findIdx (· == r.getD (f + k) 0) = i
    have hile : i ≤ nvec.length := hi ▸ List.findIdx_le_length
    have hpow : 2 ^ m.m_BPE ≤ 2 ^ 32 := Nat.pow_le_pow_right (by decide) hm.bpe_le
    have htoNat : (BitVec.ofNat 64 i).toNat = i := by
      rw [BitVec.toNat_ofNat]
      exact Nat.mod_eq_of_lt (by omega)
    obtain ⟨c, hc, hcshaped, hcsize, hcbpe, hclow⟩ := hshaped.set (k := k) (v := BitVec.ofNat 64 i)
      (by omega) (by rw [htoNat, hbpe']; omega)
    refine ⟨c, hc, hcshaped, hcsize.trans hsize, hcbpe.trans hbpe', fun j hj => ?_⟩
    rw [hclow]
    by_cases hjk : j = k
    · rw [if_pos hjk, hjk, hi, ← BitVec.testBit_toNat, htoNat]
    · rw [if_neg hjk, hlow j (by omega)]

theorem Found.populate (ha : Found r o a) (hv : Valid r o) (hlt : r.length < 2 ^ 32) :
    ∃ b, BMLookup.new.Populate r a.p a.d a.f a.l = some b ∧
      ∀ t < r.length, b.Lookup t = if a.f ≤ t ∧ t ≤ a.l then
        (neighbours a.p)[(neighbours a.p).findIdx (· == r.getD t 0) % 2]? else some a.d := by
  have htwo := ha.two hv
  have hfl := (ha.bounds a.f ha.first.1 ha.first.2).2
  have hlast := ha.last.1
  have hshort : (neighbours a.p).length < 2 ^ 32 := by
    have : (neighbours a.p).length ≤ a.p.length := by
      simpa [neighbours] using List.length_filter_le (fun i => decide (a.p.getD i 0 ≠ 0))
        (List.range a.p.length)
    rw [ha.length] at this
    omega
  obtain ⟨h1, h2, h3⟩ := BitMap.FindBPE_spec (show 0 < (neighbours a.p).length by omega) hshort
  obtain ⟨m, hm, hshaped, hsize, hbpe⟩ := BitMap.new_shaped h1 h2 (a.l - a.f + 1)
  have hfits : (neighbours a.p).length < 2 ^ m.m_BPE := by rw [hbpe]; exact h3
  have hend : a.f + m.m_Size ≤ r.length := by omega
  obtain ⟨b, hb, hbshaped, hbsize, hlow⟩ := setLoop_spec hshaped hfits hend
  rw [hsize] at hb hbsize hlow
  refine ⟨⟨a.d, a.f, a.l, neighbours a.p, some b⟩, ?_, fun t ht => ?_⟩
  · rw [BMLookup.Populate]
    change (BitMap.new (a.l - a.f + 1) (BitMap.FindBPE (neighbours a.p).length)).bind (fun m =>
      ((List.range (a.l - a.f + 1)).foldlM (BMLookup.setStep r (neighbours a.p) a.f) m).map _) = _
    rw [hm, Option.bind_some, hb, Option.map_some]
    rfl
  · rw [BMLookup.Lookup]
    by_cases hf : t < a.f
    · rw [if_pos hf, if_neg (fun hc => absurd hc.1 (not_le.mpr hf))]
    · by_cases hl : t > a.l
      · rw [if_neg hf, if_pos hl, if_neg (fun hc => absurd hc.2 (not_le.mpr hl))]
      · have hk : t - a.f < b.m_Size := by omega
        have hft : a.f + (t - a.f) = t := by omega
        rw [if_neg hf, if_neg hl, if_pos ⟨not_lt.mp hf, not_lt.mp hl⟩]
        dsimp only
        rw [hbshaped.get hk, Option.bind_some, hlow _ (by omega), hft, Nat.testBit_zero]
        generalize (neighbours a.p).findIdx (· == r.getD t 0) = i
        rcases Nat.mod_two_eq_zero_or_one i with hi | hi <;> rw [hi] <;> rfl

/-- A bitmap gives the next hop of a target if and only if the hop is one of the two lowest, or the
target is out of the range of the bitmap. -/
theorem Found.lookup_iff (ha : Found r o a) (hv : Valid r o) {b : BMLookup}
    (hb : ∀ t < r.length, b.Lookup t = if a.f ≤ t ∧ t ≤ a.l then
      (neighbours a.p)[(neighbours a.p).findIdx (· == r.getD t 0) % 2]? else some a.d)
    {t : ℕ} (ht : t < r.length) (hto : t ≠ o) :
    b.Lookup t = some (r.getD t 0) ↔ (a.f ≤ t → t ≤ a.l → rank r o (r.getD t 0) ≤ 1) := by
  rw [hb t ht]
  by_cases hin : a.f ≤ t ∧ t ≤ a.l
  · obtain ⟨h1, h2⟩ := used hv ht hto
    obtain ⟨hidx, hget⟩ := ha.neighbour h1 h2
    rw [if_pos hin, hidx]
    constructor
    · intro he _ _
      obtain ⟨hlen, -⟩ := List.getElem?_eq_some_iff.mp hget
      have hnodup : (neighbours a.p).Nodup := List.nodup_range.filter _
      have := (List.getElem?_inj hlen hnodup).mp (hget.trans he.symm)
      omega
    · intro hle
      rw [Nat.mod_eq_of_lt (Nat.lt_succ_of_le (hle hin.1 hin.2))]
      exact hget
  · rw [if_neg hin]
    refine iff_of_true ?_ fun h1 h2 => absurd ⟨h1, h2⟩ hin
    by_contra hne
    exact hin (ha.bounds t ht ⟨hto, fun he => hne (by rw [he])⟩)

/-- With one next hop only, the vector is read far behind its end. -/
theorem populate_none (hlt : r.length < 2 ^ 32) (hf : a.f = NODE_NONE) :
    BMLookup.new.Populate r a.p a.d a.f a.l = none := by
  have hout : r[a.f + 0]? = none := by
    rw [List.getElem?_eq_none_iff, hf, NODE_NONE]
    omega
  rw [BMLookup.Populate, Option.bind_eq_none_iff]
  intro m _
  rw [Option.map_eq_none_iff, List.range_succ_eq_map, List.foldlM_cons, BMLookup.setStep, hout]
  rfl

/-! ### The map -/

/-- A target with an entry in the map. -/
def Entered (r : List ℕ) (d i : ℕ) : Prop := r.getD i 0 ≠ d ∧ r.getD i 0 ≠ NODE_NONE

instance (r : List ℕ) (d i : ℕ) : Decidable (Entered r d i) := instDecidableAnd

theorem insertStep_eq (r : List ℕ) (d i : ℕ) (m : RouteMap) :
    HMLookup.insertStep r d m i = if Entered r d i then m.insert i (r.getD i 0) else m := rfl

theorem hash_spec (r : List ℕ) (d k : ℕ) : ∃ l,
    (List.range k).foldl (HMLookup.insertStep r d) (.hash []) = .hash l ∧
      ∀ t, l.lookup t = if t < k ∧ Entered r d t then some (r.getD t 0) else none := by
  induction k with
  | zero => exact ⟨[], rfl, fun t => by rw [if_neg (fun h => absurd h.1 (Nat.not_lt_zero t))]; rfl⟩
  | succ k ih =>
    obtain ⟨l, hl, hlook⟩ := ih
    rw [foldl_range_succ, hl, insertStep_eq]
    by_cases hk : Entered r d k
    · have hnone : l.lookup k = none := by rw [hlook, if_neg (fun h => absurd h.1 (lt_irrefl k))]
      rw [if_pos hk, RouteMap.insert, hnone, if_neg (by decide)]
      refine ⟨_, rfl, fun t => ?_⟩
      rw [List.lookup_append, hlook]
      by_cases ht : t = k
      · subst ht
        rw [if_neg (fun h => absurd h.1 (lt_irrefl t)), if_pos ⟨Nat.lt_succ_self t, hk⟩]
        simp
      · have hne : (t == k) = false := by simpa using ht
        have hsucc : t < k + 1 ↔ t < k := by omega
        simp only [hsucc, List.lookup_cons, hne, List.lookup_nil, Option.or_none]
    · rw [if_neg hk]
      refine ⟨l, rfl, fun t => ?_⟩
      rw [hlook]
      by_cases ht : t = k
      · rw [ht, if_neg (fun h => hk h.2), if_neg (fun h => hk h.2)]
      · have hsucc : t < k + 1 ↔ t < k := by omega
        simp only [hsucc]

/-- Ordered by equality, no second key is ever inserted. -/
theorem tree_spec (r : List ℕ) (d k : ℕ) :
    ((∀ i < k, ¬ Entered r d i) ∧
        (List.range k).foldl (HMLookup.insertStep r d) (.tree .leaf) = .tree .leaf) ∨
      ∃ g < k, Entered r d g ∧ (List.range k).foldl (HMLookup.insertStep r d) (.tree .leaf) =
        .tree (.node .leaf g (r.getD g 0) .leaf) := by
  induction k with
  | zero => exact .inl ⟨fun i hi => absurd hi (Nat.not_lt_zero i), rfl⟩
  | succ k ih =>
    rw [foldl_range_succ, insertStep_eq]
    rcases ih with ⟨hnone, he⟩ | ⟨g, hg, hent, he⟩
    · rw [he]
      by_cases hk : Entered r d k
      · rw [if_pos hk]
        exact .inr ⟨k, Nat.lt_succ_self k, hk, rfl⟩
      · rw [if_neg hk]
        refine .inl ⟨fun i hi => ?_, rfl⟩
        rcases Nat.lt_succ_iff_lt_or_eq.mp hi with hi | rfl
        · exact hnone i hi
        · exact hk
    · rw [he]
      refine .inr ⟨g, Nat.lt_succ_of_lt hg, hent, ?_⟩
      have hkg : (k == g) = false := beq_false_of_ne hg.ne'
      have hgk : (g == k) = false := beq_false_of_ne hg.ne
      split_ifs
      · simp [RouteMap.insert, RouteTree.insert, hkg, hgk]
      · rfl

/-- What is found in a tree of one node: its own key is not, and every other one is. -/
theorem find_one (g v t : ℕ) : RouteMap.find t (.tree (.node .leaf g v .leaf)) =
    if t = g then none else some v := by
  rw [RouteMap.find, RouteTree.find, RouteTree.lowerBound]
  by_cases h : t = g
  · simp [h, RouteTree.lowerBound]
  · have htg : (t == g) = false := beq_false_of_ne h
    have hgt : (g == t) = false := beq_false_of_ne (Ne.symm h)
    simp [h, hgt, RouteTree.lowerBound]

theorem not_none (hv : Valid r o) (hlt : r.length < 2 ^ 32) (hk : k < r.length) (hko : k ≠ o) :
    r.getD k 0 ≠ NODE_NONE := by
  have := hv k hk hko
  rw [NODE_NONE]
  omega

/-- The `hash_map` agrees with the vector. -/
theorem hash_lookup (hv : Valid r o) (hlt : r.length < 2 ^ 32) (d : ℕ) (hk : k < r.length)
    (hko : k ≠ o) : ((HMLookup.new true).Populate r d).Lookup k = r.getD k 0 := by
  obtain ⟨l, hl, hlook⟩ := hash_spec r d r.length
  change (RouteMap.find k ((List.range r.length).foldl (HMLookup.insertStep r d) (.hash []))).getD d = _
  rw [hl]
  change (l.lookup k).getD d = _
  rw [hlook]
  by_cases hd : r.getD k 0 = d
  · rw [if_neg (fun h => h.2.1 hd), Option.getD_none, hd]
  · rw [if_pos ⟨hk, hd, not_none hv hlt hk hko⟩, Option.getD_some]

/-- The `map` ordered by equality gives a wrong next hop for some target. -/
theorem Found.tree_lookup (ha : Found r o a) (hv : Valid r o) (hlt : r.length < 2 ^ 32) :
    ∃ k < r.length, k ≠ o ∧ ((HMLookup.new false).Populate r a.d).Lookup k ≠ r.getD k 0 := by
  have hfirst : Entered r a.d a.f := ⟨ha.first.2.2, not_none hv hlt ha.first.1 ha.first.2.1⟩
  rcases tree_spec r a.d r.length with ⟨hnone, -⟩ | ⟨g, hg, hent, he⟩
  · exact absurd hfirst (hnone _ ha.first.1)
  · have hlook : ∀ t, ((HMLookup.new false).Populate r a.d).Lookup t =
        if t = g then a.d else r.getD g 0 := fun t => by
      change (RouteMap.find t
        ((List.range r.length).foldl (HMLookup.insertStep r a.d) (.tree .leaf))).getD a.d = _
      rw [he, find_one]
      split_ifs <;> rfl
    by_cases hgo : g = o
    · obtain ⟨t, ht, hto, htd⟩ := ha.default_used
      refine ⟨t, ht, hto, ?_⟩
      rw [hlook, if_neg (hgo ▸ hto), htd]
      exact hent.1
    · refine ⟨g, hg, hgo, ?_⟩
      rw [hlook, if_pos rfl]
      exact Ne.symm hent.1

/-! ### The tables together -/

/-- The compressed tables, populated from the analysis, give the next hops of the vector. -/
def Agree (USE_HASH_MAP : Bool) (r : List ℕ) (o : ℕ) : Prop :=
  ∃ a b, Analyze r o = some a ∧ BMLookup.new.Populate r a.p a.d a.f a.l = some b ∧
    ∀ t < r.length, t ≠ o → b.Lookup t = some ((NHLookup.Populate r).Lookup t) ∧
      ((HMLookup.new USE_HASH_MAP).Populate r a.d).Lookup t = (NHLookup.Populate r).Lookup t

/-- There is more than one next hop, and from the first to the last target that does not have the
default only the two lowest next hops occur. -/
def Narrow (r : List ℕ) (o : ℕ) : Prop :=
  (∃ i < r.length, ∃ j < r.length, i ≠ o ∧ j ≠ o ∧ r.getD i 0 ≠ r.getD j 0) ∧
    ∀ d, IsDefault r o d → ∀ i t j, i ≤ t → t ≤ j → j < r.length → Other r o d i → Other r o d j →
      t ≠ o → rank r o (r.getD t 0) ≤ 1

theorem nh_lookup (hk : k < r.length) : (NHLookup.Populate r).Lookup k = r.getD k 0 :=
  if_neg (not_le.mpr hk)

/-- The tables agree in exactly the builds with a `hash_map`, for the vectors with few next hops. -/
theorem agree_iff (hv : Valid r o) (USE_HASH_MAP : Bool) :
    Agree USE_HASH_MAP r o ↔ USE_HASH_MAP = true ∧ r.length < 2 ^ 32 ∧ Narrow r o := by
  constructor
  · rintro ⟨a, b, ha, hb, hagree⟩
    have hlt : r.length < 2 ^ 32 := by
      by_contra hge
      rw [Analyze, if_neg hge] at ha
      cases ha
    have hpos : 0 < r.length := by
      by_contra hz
      obtain rfl : r = [] := List.length_eq_zero_iff.mp (by omega)
      cases ha
    obtain ⟨a', ha', hspec⟩ := Analyze_spec hv hlt hpos
    obtain rfl := Option.some.inj (ha.symm.trans ha')
    rcases hspec with ⟨hf, -, -⟩ | hfound
    · rw [populate_none hlt hf] at hb
      cases hb
    · refine ⟨?_, hlt, ?_, fun d hd i t j hit htj hj hi hjo hto => ?_⟩
      · by_contra hhash
        rw [Bool.eq_false_of_not_eq_true hhash] at hagree
        obtain ⟨k, hk, hko, hne⟩ := hfound.tree_lookup hv hlt
        exact hne ((hagree k hk hko).2.trans (nh_lookup hk))
      · obtain ⟨k, hk, hko, hkd⟩ := hfound.default_used
        exact ⟨a.f, hfound.first.1, k, hk, hfound.first.2.1, hko, hkd ▸ hfound.first.2.2⟩
      · obtain rfl := hd.unique hfound.default
        obtain ⟨b', hb', hlook⟩ := hfound.populate hv hlt
        obtain rfl := Option.some.inj (hb.symm.trans hb')
        have ht : t < r.length := htj.trans_lt hj
        refine (hfound.lookup_iff hv hlook ht hto).mp ?_ ?_ ?_
        · rw [(hagree t ht hto).1, nh_lookup ht]
        · exact (hfound.bounds i (hit.trans_lt ht) hi).1.trans hit
        · exact htj.trans (hfound.bounds j hj hjo).2
  · rintro ⟨rfl, hlt, ⟨i, hi, j, hj, hio, hjo, hij⟩, hnarrow⟩
    obtain ⟨a, ha, hspec⟩ := Analyze_spec hv hlt (Nat.zero_lt_of_lt hi)
    rcases hspec with ⟨-, -, hall⟩ | hfound
    · exact absurd ((hall i hi hio).trans (hall j hj hjo).symm) hij
    · obtain ⟨b, hb, hlook⟩ := hfound.populate hv hlt
      refine ⟨a, b, ha, hb, fun t ht hto => ?_⟩
      rw [nh_lookup ht]
      refine ⟨(hfound.lookup_iff hv hlook ht hto).mpr fun h1 h2 => ?_, hash_lookup hv hlt a.d ht hto⟩
      exact hnarrow a.d hfound.default a.f t a.l h1 h2 hfound.last.1 hfound.first.2 hfound.last.2 hto

theorem agree_iff_four : Valid [NODE_NONE, 1, 1, 2] 0 ∧ (Agree true [NODE_NONE, 1, 1, 2] 0 ↔
    true = true ∧ [NODE_NONE, 1, 1, 2].length < 2 ^ 32 ∧ Narrow [NODE_NONE, 1, 1, 2] 0) :=
  ⟨by decide, agree_iff (by decide) true⟩

/-- Three neighbours: the bitmap gives the first one for the third. -/
theorem third_neighbour : ∃ a b, Valid [NODE_NONE, 1, 2, 3] 0 ∧ Analyze [NODE_NONE, 1, 2, 3] 0 = some a ∧
    BMLookup.new.Populate [NODE_NONE, 1, 2, 3] a.p a.d a.f a.l = some b ∧ b.Lookup 3 = some 1 ∧
    (NHLookup.Populate [NODE_NONE, 1, 2, 3]).Lookup 3 = 3 :=
  ⟨_, _, by decide, rfl, rfl, by decide, by decide⟩

end RLookup

end Ns2
