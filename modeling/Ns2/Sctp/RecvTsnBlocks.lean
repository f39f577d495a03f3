import Ns2.Lib.Intervals

/-! The TSNs that the receiver of sctp/sctp.cc has seen: the cumulative ack and the blocks above
it. TSNs do not wrap; a block is the pair of its first and its last TSN. -/

namespace Ns2

structure RecvTsns where
  uiCumAck : ℕ
  uiHighestRecvTsn : ℕ
  sRecvTsnBlockList : List (ℕ × ℕ)
  sDupTsnList : List ℕ
  deriving DecidableEq

namespace RecvTsns

def new : RecvTsns := ⟨0, 0, [], []⟩

/-- `uiHighestRecvTsn`, and whether it was updated. -/
def UpdateHighestTsn (uiTsn : ℕ) (r : RecvTsns) : RecvTsns × Bool :=
  if uiTsn > r.uiHighestRecvTsn then ({ r with uiHighestRecvTsn := uiTsn }, true) else (r, false)

def duplicateLoop (uiTsn : ℕ) : List (ℕ × ℕ) → Bool
  | [] => false
  | b :: bs =>
    if b.1 ≤ uiTsn ∧ uiTsn ≤ b.2 then true
    else if b.2 > uiTsn then false
    else duplicateLoop uiTsn bs

def IsDuplicateChunk (uiTsn : ℕ) (r : RecvTsns) : Bool :=
  if uiTsn ≤ r.uiCumAck then true
  else if ¬ (r.uiCumAck < uiTsn ∧ uiTsn ≤ r.uiHighestRecvTsn) then false
  else duplicateLoop uiTsn r.sRecvTsnBlockList

/-- The list of duplicates is sorted and lists no TSN twice. -/
def InsertDuplicateTsn (uiTsn : ℕ) (r : RecvTsns) : RecvTsns :=
  { r with sDupTsnList :=
      let before := r.sDupTsnList.takeWhile (· < uiTsn)
      let after := r.sDupTsnList.dropWhile (· < uiTsn)
      if after.head? = some uiTsn then before ++ after else before ++ uiTsn :: after }

def UpdateCumAck : ℕ → List (ℕ × ℕ) → ℕ
  | uiCumAck, [] => uiCumAck
  | uiCumAck, b :: bs => if uiCumAck + 1 = b.1 then UpdateCumAck b.2 bs else uiCumAck

def settle (uiCumAck : ℕ) (bs : List (ℕ × ℕ)) : ℕ × List (ℕ × ℕ) := (UpdateCumAck uiCumAck bs, bs)

/-- `uiEndTsn` of the block at `spPrevNode`, which is the first of the blocks passed. -/
def setPrevEnd (uiEndTsn : ℕ) : List (ℕ × ℕ) → List (ℕ × ℕ)
  | [] => []
  | b :: bs => (b.1, uiEndTsn) :: bs

/-- The blocks that the search has passed are listed from the last one on. -/
def updateLoop (uiTsn uiCumAck : ℕ) :
    ℕ → List (ℕ × ℕ) → List (ℕ × ℕ) → ℕ × List (ℕ × ℕ)
  | uiLow, passed, [] =>
    if uiTsn = uiLow then
      if uiTsn = uiCumAck + 1 then settle uiTsn passed.reverse
      else (uiCumAck, (setPrevEnd uiTsn passed).reverse)
    else (uiCumAck, passed.reverse ++ [(uiTsn, uiTsn)])
  | uiLow, passed, b :: bs =>
    let uiHigh := b.1 - 1
    if uiLow ≤ uiTsn ∧ uiTsn ≤ uiHigh then
      let uiGapSize := uiHigh - uiLow + 1
      if uiGapSize > 1 then
        if uiTsn = uiHigh then settle uiCumAck (passed.reverse ++ (uiTsn, b.2) :: bs)
        else if uiTsn = uiLow then
          if uiTsn = uiCumAck + 1 then settle (uiCumAck + 1) (passed.reverse ++ b :: bs)
          else settle uiCumAck ((setPrevEnd uiTsn passed).reverse ++ b :: bs)
        else (uiCumAck, passed.reverse ++ (uiTsn, uiTsn) :: b :: bs)
      else if uiLow = uiCumAck + 1 then settle b.2 (passed.reverse ++ bs)
      else settle uiCumAck ((setPrevEnd b.2 passed).reverse ++ bs)
    else updateLoop uiTsn uiCumAck (b.2 + 1) (b :: passed) bs

def UpdateRecvTsnBlocks (uiTsn : ℕ) (r : RecvTsns) : RecvTsns :=
  let u := updateLoop uiTsn r.uiCumAck (r.uiCumAck + 1) [] r.sRecvTsnBlockList
  { r with
    uiCumAck := u.1
    sRecvTsnBlockList := u.2 }

/-- What a DATA chunk for which there is room does to the TSNs, and whether the chunk is new. -/
def receive (uiTsn : ℕ) (r : RecvTsns) : RecvTsns × Bool :=
  let u := r.UpdateHighestTsn uiTsn
  if !u.2 && u.1.IsDuplicateChunk uiTsn then (u.1.InsertDuplicateTsn uiTsn, false)
  else (u.1.UpdateRecvTsnBlocks uiTsn, true)

/-- `(int) u`. -/
def toInt (u : ℕ) : ℤ := if u % 2 ^ 32 < 2 ^ 31 then (u % 2 ^ 32 : ℕ) else (u % 2 ^ 32 : ℕ) - 2 ^ 32

/-- The values of the `int` that runs from `uiCumAck + 1` to `uiNewCum`, taken back to TSNs. -/
def forwardTsns (uiCumAck uiNewCum : ℕ) : List ℕ :=
  (List.range (toInt uiNewCum - toInt (uiCumAck + 1) + 1).toNat).map fun k =>
    ((toInt (uiCumAck + 1) + (k : ℤ)) % 2 ^ 32).toNat

def forwardOne (r : RecvTsns) (i : ℕ) : RecvTsns :=
  if r.IsDuplicateChunk i then r else r.UpdateRecvTsnBlocks i

/-- The largest `int` has no successor to end the loop with. -/
def ProcessForwardTsnChunk (uiNewCum : ℕ) (r : RecvTsns) : Option RecvTsns :=
  if uiNewCum = 2 ^ 31 - 1 then none
  else some ((forwardTsns r.uiCumAck uiNewCum).foldl forwardOne r)

open Intervals

/-! ### Blocks -/

/-- A block of TSNs as an interval. -/
abbrev lo (b : ℕ × ℕ) : ℤ := b.1

abbrev hi (b : ℕ × ℕ) : ℤ := b.2 + 1

variable {L R : List (ℕ × ℕ)} {p b : ℕ × ℕ} {t cum : ℕ}

/-- The list has taken in one more TSN. -/
def Takes (t : ℕ) (l l' : List (ℕ × ℕ)) : Prop :=
  Normal lo hi l' ∧ cover lo hi l' = cover lo hi l ∪ Set.Ico (t : ℤ) (t + 1)

theorem takes_absorb {K : List (ℕ × ℕ)} {a : ℕ × ℕ} (h : Normal lo hi (L ++ K ++ R))
    (hpos : a.1 ≤ a.2) (hL : ∀ x ∈ L, hi x < lo a) (hR : ∀ x ∈ R, hi a < lo x)
    (hcov : Set.Ico (lo a) (hi a) = cover lo hi K ∪ Set.Ico (t : ℤ) (t + 1)) :
    Takes t (L ++ K ++ R) (L ++ a :: R) := by
  obtain ⟨h1, h2, -⟩ := h.absorb (fun x _ => ⟨rfl, rfl⟩) (fun x _ => ⟨rfl, rfl⟩)
    (by simp only [lo, hi]; omega) hL hR hcov
  exact ⟨h1, h2⟩

theorem takes_single (h : Normal lo hi (L ++ R)) (hL : ∀ x ∈ L, x.2 + 1 < t)
    (hR : ∀ x ∈ R, t + 1 < x.1) : Takes t (L ++ R) (L ++ (t, t) :: R) := by
  have := @takes_absorb L R t [] (t, t) (by simpa using h) le_rfl
    (fun x hx => by have := hL x hx; simp only [lo, hi]; omega)
    (fun x hx => by have := hR x hx; simp only [lo, hi]; omega) (by simp)
  simpa using this

/-- The block before the TSN grows. -/
theorem takes_right (h : Normal lo hi (L ++ p :: R)) (ht : t = p.2 + 1)
    (hR : ∀ x ∈ R, t + 1 < x.1) : Takes t (L ++ p :: R) (L ++ (p.1, t) :: R) := by
  have hp := h.pos p (by simp)
  have := @takes_absorb L R t [p] (p.1, t) (by simpa using h) (by simp only [lo, hi] at hp; omega)
    (fun x hx => show hi x < lo p from h.lt hx (by simp))
    (fun x hx => by have := hR x hx; simp only [lo, hi]; omega) (by
      rw [cover_cons, cover_nil, Set.union_empty]
      ext i
      simp only [Set.mem_Ico, Set.mem_union, lo, hi] at hp ⊢
      omega)
  simpa using this

/-- The block behind the TSN grows. -/
theorem takes_left (h : Normal lo hi (L ++ b :: R)) (ht : t + 1 = b.1)
    (hL : ∀ x ∈ L, x.2 + 1 < t) : Takes t (L ++ b :: R) (L ++ (t, b.2) :: R) := by
  have hb := h.pos b (by simp)
  have := @takes_absorb L R t [b] (t, b.2) (by simpa using h) (by simp only [lo, hi] at hb; omega)
    (fun x hx => by have := hL x hx; simp only [lo, hi]; omega)
    (fun x hx => (List.pairwise_cons.mp (List.pairwise_append.mp h.apart).2.1).1 x hx) (by
      rw [cover_cons, cover_nil, Set.union_empty]
      ext i
      simp only [Set.mem_Ico, Set.mem_union, lo, hi] at hb ⊢
      omega)
  simpa using this

/-- The TSN joins the blocks around it. -/
theorem takes_join (h : Normal lo hi (L ++ p :: b :: R)) (hp : t = p.2 + 1) (hb : t + 1 = b.1) :
    Takes t (L ++ p :: b :: R) (L ++ (p.1, b.2) :: R) := by
  have hpp := h.pos p (by simp)
  have hbp := h.pos b (by simp)
  have hrest := List.pairwise_cons.mp (List.pairwise_append.mp h.apart).2.1
  have := @takes_absorb L R t [p, b] (p.1, b.2) (by simpa using h)
    (by simp only [lo, hi] at hpp hbp; omega)
    (fun x hx => show hi x < lo p from h.lt hx (by simp))
    (fun x hx => (List.pairwise_cons.mp hrest.2).1 x hx) (by
      rw [cover_cons, cover_cons, cover_nil, Set.union_empty]
      ext i
      simp only [Set.mem_Ico, Set.mem_union, lo, hi] at hpp hbp ⊢
      omega)
  simpa using this

/-! ### One TSN -/

/-- Nothing is above the cumulative ack that it could take in. -/
theorem settle_of_normal {bs : List (ℕ × ℕ)} (h : Normal lo hi ((0, cum) :: bs)) :
    settle cum bs = (cum, bs) := by
  cases bs with
  | nil => rfl
  | cons b bs =>
    have := (List.pairwise_cons.mp h.apart).1 b (by simp)
    simp only [lo, hi] at this
    rw [settle, UpdateCumAck, if_neg (by omega)]

/-- The block that a search has just passed; the first one stands for the cumulative ack. -/
theorem exists_prev (cum : ℕ) (passed : List (ℕ × ℕ)) :
    ∃ L p, (0, cum) :: passed.reverse = L ++ [p] ∧ (passed.head?.map Prod.snd).getD cum = p.2 ∧
      ((passed = [] ∧ L = [] ∧ p = (0, cum)) ∨
        ∃ l, L = (0, cum) :: l ∧ ∀ x, (setPrevEnd x passed).reverse = l ++ [(p.1, x)]) := by
  cases passed with
  | nil => exact ⟨[], (0, cum), rfl, rfl, .inl ⟨rfl, rfl, rfl⟩⟩
  | cons p ps =>
    exact ⟨(0, cum) :: ps.reverse, p, by simp, rfl, .inr ⟨ps.reverse, rfl, fun x => by
      simp [setPrevEnd]⟩⟩

theorem Takes.settle {l bs : List (ℕ × ℕ)} (h : Takes t l ((0, cum) :: bs)) :
    Takes t l ((0, (RecvTsns.settle cum bs).1) :: (RecvTsns.settle cum bs).2) := by
  rwa [settle_of_normal h.1]

theorem updateLoop_spec {passed bs : List (ℕ × ℕ)} {low : ℕ}
    (h : Normal lo hi ((0, cum) :: (passed.reverse ++ bs)))
    (hlow : low = (passed.head?.map Prod.snd).getD cum + 1) (hle : low ≤ t)
    (hnot : (t : ℤ) ∉ cover lo hi bs) :
    Takes t ((0, cum) :: (passed.reverse ++ bs))
      ((0, (updateLoop t cum low passed bs).1) :: (updateLoop t cum low passed bs).2) := by
  induction bs generalizing passed low with
  | nil =>
    obtain ⟨L, p, hL, hp, hcase⟩ := exists_prev cum passed
    have hfull : (0, cum) :: (passed.reverse ++ []) = L ++ p :: [] := by simpa using hL
    rw [hfull] at h ⊢
    simp only [updateLoop]
    by_cases ht : t = low
    · rw [if_pos ht]
      have htake := takes_right h (by omega : t = p.2 + 1) (by simp)
      rcases hcase with ⟨rfl, rfl, rfl⟩ | ⟨l, rfl, hset⟩
      · rw [if_pos (by simpa using ht.trans hlow)]
        exact htake.settle
      · have hgap := (List.pairwise_append.mp h.apart).2.2 (0, cum) (by simp) p (by simp)
        have hpos := h.pos p (by simp)
        simp only [lo, hi] at hgap hpos
        rw [if_neg (by omega), hset]
        exact htake
    · rw [if_neg ht]
      have hbefore : ∀ x ∈ L ++ [p], x.2 + 1 < t := by
        intro x hx
        rcases List.mem_append.mp hx with hx | hx
        · have h1 := h.lt hx (by simp : p ∈ [p])
          have h2 := h.pos p (by simp)
          simp only [lo, hi] at h1 h2
          omega
        · obtain rfl := List.mem_singleton.mp hx
          omega
      have htake := takes_single (L := L ++ [p]) (R := []) (by simpa using h) hbefore (by simp)
      rw [← hL] at htake
      rw [← hL]
      simpa using htake
  | cons b bs ih =>
    obtain ⟨L, p, hL, hp, hcase⟩ := exists_prev cum passed
    have hfull : (0, cum) :: (passed.reverse ++ b :: bs) = L ++ p :: b :: bs := by
      rw [← List.cons_append, hL]
      simp
    have hn := h
    rw [hfull] at hn
    have hpb := (List.pairwise_append.mp hn.apart).2.1
    have hgap : p.2 + 1 < b.1 := by
      have := (List.pairwise_cons.mp hpb).1 b (by simp)
      simp only [lo, hi] at this
      omega
    have hbpos : b.1 ≤ b.2 := by
      have := hn.pos b (by simp)
      simp only [lo, hi] at this
      omega
    have hppos : p.1 ≤ p.2 := by
      have := hn.pos p (by simp)
      simp only [lo, hi] at this
      omega
    have hbehind : ∀ x ∈ bs, b.2 + 1 < x.1 := by
      intro x hx
      have := (List.pairwise_cons.mp (List.pairwise_cons.mp hpb).2).1 x hx
      simp only [lo, hi] at this
      omega
    have hbefore : ∀ x ∈ L, x.2 + 1 < p.1 := by
      intro x hx
      have := hn.lt hx (by simp : p ∈ p :: b :: bs)
      simp only [lo, hi] at this
      omega
    have hfirst : passed ≠ [] → cum + 1 < p.1 := by
      rcases hcase with ⟨rfl, -, -⟩ | ⟨l, rfl, -⟩
      · exact fun hne => absurd rfl hne
      · exact fun _ => hbefore (0, cum) (by simp)
    simp only [updateLoop]
    by_cases hin : t ≤ b.1 - 1
    · rw [if_pos ⟨hle, hin⟩]
      have hbehind' : t + 1 < b.1 → ∀ x ∈ b :: bs, t + 1 < x.1 := by
        intro hlt x hx
        rcases List.mem_cons.mp hx with rfl | hx
        · exact hlt
        · have := hbehind x hx
          omega
      have hbefore' : p.2 + 1 < t → ∀ x ∈ L ++ [p], x.2 + 1 < t := by
        intro hlt x hx
        rcases List.mem_append.mp hx with hx | hx
        · have := hbefore x hx
          omega
        · obtain rfl := List.mem_singleton.mp hx
          exact hlt
      by_cases hbig : b.1 - 1 - low + 1 > 1
      · rw [if_pos hbig]
        by_cases hhigh : t = b.1 - 1
        · -- the lower edge of the block ahead
          rw [if_pos hhigh]
          have htake := takes_left (L := L ++ [p]) (R := bs) (by simpa using hn)
            (by omega : t + 1 = b.1) (hbefore' (by omega))
          rw [← hL] at htake
          exact Takes.settle htake
        · rw [if_neg hhigh]
          by_cases ht : t = low
          · -- the upper edge of the block behind
            rw [if_pos ht]
            have htake := takes_right hn (by omega : t = p.2 + 1) (hbehind' (by omega))
            rcases hcase with ⟨rfl, rfl, rfl⟩ | ⟨l, rfl, hset⟩
            · have htc : t = cum + 1 := by simpa using ht.trans hlow
              rw [if_pos htc]
              subst htc
              exact Takes.settle htake
            · have hne : passed ≠ [] := by
                rintro rfl
                simpa [setPrevEnd] using hset 0
              have := hfirst hne
              rw [if_neg (by omega), hset, hfull]
              exact Takes.settle (by simpa using htake)
          · rw [if_neg ht]
            have htake := takes_single (L := L ++ [p]) (R := b :: bs) (by simpa using hn)
              (hbefore' (by omega)) (hbehind' (by omega))
            rw [← hL] at htake
            exact htake
      · -- the gap is of one TSN
        rw [if_neg hbig]
        have htake := takes_join hn (by omega : t = p.2 + 1) (by omega : t + 1 = b.1)
        rcases hcase with ⟨rfl, rfl, rfl⟩ | ⟨l, rfl, hset⟩
        · rw [if_pos (by simpa using hlow)]
          exact Takes.settle htake
        · have hne : passed ≠ [] := by
            rintro rfl
            simpa [setPrevEnd] using hset 0
          have := hfirst hne
          rw [if_neg (by omega), hset, hfull]
          exact Takes.settle (by simpa using htake)
    · rw [if_neg fun hc => hin hc.2]
      have hpast : b.2 + 1 ≤ t := by
        by_contra hlt
        apply hnot
        rw [cover_cons]
        left
        simp only [Set.mem_Ico, lo, hi]
        omega
      have hsame : (0, cum) :: (passed.reverse ++ b :: bs) =
          (0, cum) :: ((b :: passed).reverse ++ bs) := by simp
      rw [hsame] at h ⊢
      refine ih h rfl hpast fun hc => hnot ?_
      rw [cover_cons]
      exact .inr hc

theorem updateLoop_late {passed bs : List (ℕ × ℕ)} {low : ℕ} (hlt : t < low)
    (hbs : ∀ b ∈ bs, t ≤ b.2) :
    updateLoop t cum low passed bs = (cum, passed.reverse ++ bs ++ [(t, t)]) := by
  induction bs generalizing passed low with
  | nil => simp [updateLoop, hlt.ne]
  | cons b bs ih =>
    have hb := hbs b (by simp)
    rw [updateLoop]
    simp only [show ¬ (low ≤ t ∧ t ≤ b.1 - 1) from fun h => absurd h.1 (not_le.mpr hlt), if_false]
    rw [ih (by omega) fun x hx => hbs x (List.mem_cons_of_mem b hx)]
    simp

theorem duplicateLoop_iff {bs : List (ℕ × ℕ)} (h : Normal lo hi bs) :
    duplicateLoop t bs = true ↔ (t : ℤ) ∈ cover lo hi bs := by
  induction bs with
  | nil => simp [duplicateLoop]
  | cons b bs ih =>
    have hrest := h.sublist (List.sublist_cons_self b bs)
    have hb := h.pos b (by simp)
    simp only [lo, hi] at hb
    rw [duplicateLoop, cover_cons]
    by_cases hin : b.1 ≤ t ∧ t ≤ b.2
    · rw [if_pos hin]
      refine ⟨fun _ => .inl ?_, fun _ => rfl⟩
      simp only [Set.mem_Ico, lo, hi]
      omega
    · rw [if_neg hin]
      have hout : (t : ℤ) ∉ Set.Ico (lo b) (hi b) := by
        simp only [Set.mem_Ico, lo, hi]
        omega
      by_cases hpast : b.2 > t
      · rw [if_pos hpast]
        refine ⟨fun hf => absurd hf Bool.false_ne_true, fun hc => ?_⟩
        rcases hc with hc | ⟨a, ha, h1, h2⟩
        · exact absurd hc hout
        · have := (List.pairwise_cons.mp h.apart).1 a ha
          simp only [lo, hi] at this h1
          omega
      · rw [if_neg hpast, ih hrest]
        exact ⟨.inr, fun hc => hc.resolve_left hout⟩

end RecvTsns

end Ns2
