import Ns2.Lib.Machine
import Ns2.Sctp.RecvTsnBlocks

/-! What the TSNs of the receiver stand for, over the chunks that it is handed. -/

namespace Ns2

namespace RecvTsns

open Intervals

variable {t cum : ℕ}

/-! ### The set of TSNs -/

variable {r : RecvTsns} {S : Set ℕ}

/-- The TSNs that the receiver takes for received. -/
def known (r : RecvTsns) : Set ℤ := cover lo hi ((0, r.uiCumAck) :: r.sRecvTsnBlockList)

/-- The cumulative ack and the blocks are what was received or forwarded. -/
structure Right (r : RecvTsns) (S : Set ℕ) : Prop where
  received : ∀ t, 0 < t → t ≤ r.uiCumAck → t ∈ S
  missing : r.uiCumAck + 1 ∉ S
  above : ∀ b ∈ r.sRecvTsnBlockList, r.uiCumAck + 1 < b.1 ∧ b.1 ≤ b.2
  apart : r.sRecvTsnBlockList.Pairwise fun a b => a.2 + 1 < b.1
  blocks : ∀ t, r.uiCumAck < t → (t ∈ S ↔ ∃ b ∈ r.sRecvTsnBlockList, b.1 ≤ t ∧ t ≤ b.2)
  duplicate : ∀ t, 0 < t → (r.IsDuplicateChunk t = true ↔ t ∈ S)

structure Holds (r : RecvTsns) (S : Set ℕ) : Prop where
  normal : Normal lo hi ((0, r.uiCumAck) :: r.sRecvTsnBlockList)
  known_iff : ∀ t : ℕ, 0 < t → (t ∈ S ↔ (t : ℤ) ∈ r.known)
  highest : ∀ t ∈ S, r.uiCumAck < t → t ≤ r.uiHighestRecvTsn

theorem mem_known {t : ℤ} : t ∈ r.known ↔
    (0 ≤ t ∧ t ≤ r.uiCumAck) ∨ t ∈ cover lo hi r.sRecvTsnBlockList := by
  rw [known, cover_cons, Set.mem_union, Set.mem_Ico]
  simp only [lo, hi, Nat.cast_zero, Int.lt_add_one_iff]

theorem Holds.blocks_above (h : Holds r S) {b : ℕ × ℕ} (hb : b ∈ r.sRecvTsnBlockList) :
    r.uiCumAck + 1 < b.1 ∧ b.1 ≤ b.2 := by
  have h1 := (List.pairwise_cons.mp h.normal.apart).1 b hb
  have h2 := h.normal.pos b (List.mem_cons_of_mem _ hb)
  simp only [lo, hi] at h1 h2
  omega

theorem Holds.next_unknown (h : Holds r S) : ((r.uiCumAck + 1 : ℕ) : ℤ) ∉ r.known := by
  rw [mem_known]
  rintro (hk | ⟨b, hb, h1, -⟩)
  · omega
  · have := (h.blocks_above hb).1
    simp only [lo] at h1
    omega

theorem Holds.mem_of_le (h : Holds r S) {t : ℕ} (h0 : 0 < t) (ht : t ≤ r.uiCumAck) : t ∈ S :=
  (h.known_iff t h0).mpr (mem_known.mpr (.inl (by omega)))

theorem Holds.mem_blocks (h : Holds r S) {t : ℕ} (ht : r.uiCumAck < t) :
    t ∈ S ↔ (t : ℤ) ∈ cover lo hi r.sRecvTsnBlockList := by
  rw [h.known_iff t (by omega), mem_known]
  exact ⟨fun hk => hk.resolve_left (by omega), .inr⟩

theorem Holds.isDuplicate (h : Holds r S) {t : ℕ} (h0 : 0 < t) :
    r.IsDuplicateChunk t = true ↔ t ∈ S := by
  rw [IsDuplicateChunk]
  by_cases hcum : t ≤ r.uiCumAck
  · rw [if_pos hcum]
    exact ⟨fun _ => h.mem_of_le h0 hcum, fun _ => rfl⟩
  · rw [if_neg hcum]
    by_cases hhigh : t ≤ r.uiHighestRecvTsn
    · rw [if_neg (not_not.mpr ⟨not_le.mp hcum, hhigh⟩),
        duplicateLoop_iff (h.normal.sublist (List.sublist_cons_self _ _)),
        h.mem_blocks (not_le.mp hcum)]
    · rw [if_pos fun hc => hhigh hc.2]
      exact ⟨fun hf => absurd hf Bool.false_ne_true,
        fun hS => absurd (h.highest t hS (not_le.mp hcum)) hhigh⟩

theorem Holds.right (h : Holds r S) : Right r S where
  received t h0 ht := h.mem_of_le h0 ht
  missing hS := h.next_unknown ((h.known_iff _ (by omega)).mp hS)
  above b hb := h.blocks_above hb
  apart := ((List.pairwise_cons.mp h.normal.apart).2).imp fun {a b} hab => by
    simp only [lo, hi] at hab
    omega
  blocks t ht := by
    rw [h.mem_blocks ht]
    simp only [cover, Set.mem_ofPred_eq, lo, hi]
    constructor
    · rintro ⟨b, hb, h1, h2⟩
      exact ⟨b, hb, by omega, by omega⟩
    · rintro ⟨b, hb, h1, h2⟩
      exact ⟨b, hb, by omega, by omega⟩
  duplicate t h0 := h.isDuplicate h0

theorem Holds.update (h : Holds r S) {t : ℕ} (hcum : r.uiCumAck < t) (hS : t ∉ S)
    (hhigh : t ≤ r.uiHighestRecvTsn ∨ t = r.uiCumAck + 1) :
    Holds (r.UpdateRecvTsnBlocks t) (insert t S) ∧
      r.uiCumAck ≤ (r.UpdateRecvTsnBlocks t).uiCumAck ∧
      (t = r.uiCumAck + 1 → t ≤ (r.UpdateRecvTsnBlocks t).uiCumAck) := by
  have htakes := @updateLoop_spec t r.uiCumAck [] r.sRecvTsnBlockList (r.uiCumAck + 1)
    (by simpa using h.normal) rfl hcum fun hc => hS ((h.mem_blocks hcum).mpr hc)
  have hnew : (r.UpdateRecvTsnBlocks t).known = r.known ∪ Set.Ico (t : ℤ) (t + 1) := by
    simpa [known, UpdateRecvTsnBlocks] using htakes.2
  have hnormal : Normal lo hi ((0, (r.UpdateRecvTsnBlocks t).uiCumAck) ::
      (r.UpdateRecvTsnBlocks t).sRecvTsnBlockList) := htakes.1
  have hnext : (((r.UpdateRecvTsnBlocks t).uiCumAck + 1 : ℕ) : ℤ) ∉ r.known ∪
      Set.Ico (t : ℤ) (t + 1) := by
    rw [← hnew, mem_known]
    rintro (hk | ⟨b, hb, h1, -⟩)
    · omega
    · have := (List.pairwise_cons.mp hnormal.apart).1 b hb
      simp only [lo, hi] at h1 this
      omega
  have hmono : r.uiCumAck ≤ (r.UpdateRecvTsnBlocks t).uiCumAck := by
    by_contra hlt
    exact hnext (.inl (mem_known.mpr (.inl (by omega))))
  have hreach : t = r.uiCumAck + 1 → t ≤ (r.UpdateRecvTsnBlocks t).uiCumAck := by
    intro ht
    by_contra hlt
    exact hnext (.inr (by rw [Set.mem_Ico]; omega))
  refine ⟨⟨hnormal, fun u h0 => ?_, fun u hu hlt => ?_⟩, hmono, hreach⟩
  · rw [hnew, Set.mem_insert_iff, h.known_iff u h0, Set.mem_union, Set.mem_Ico, or_comm]
    exact or_congr Iff.rfl (by omega)
  · rcases Set.mem_insert_iff.mp hu with rfl | hu
    · exact hhigh.resolve_right fun ht => absurd (hreach ht) (by omega)
    · exact h.highest u hu (by omega)

theorem Holds.receive (h : Holds r S) {t : ℕ}
    (hlate : r.uiHighestRecvTsn < t → r.uiCumAck < t) : Holds (r.receive t).1 (insert t S) := by
  have hdup : ∀ {d}, t ∈ S ∨ t = 0 → Holds { r with sDupTsnList := d } (insert t S) := by
    rintro d (hS | rfl)
    · rw [Set.insert_eq_of_mem hS]
      exact ⟨h.normal, h.known_iff, h.highest⟩
    · refine ⟨h.normal, fun u h0 => ?_, fun u hu hlt => ?_⟩
      · rw [Set.mem_insert_iff, or_iff_right (by omega)]
        exact h.known_iff u h0
      · exact h.highest u (hu.resolve_left (by rintro rfl; omega)) hlt
  rw [RecvTsns.receive, UpdateHighestTsn]
  by_cases hhigh : t > r.uiHighestRecvTsn
  · rw [if_pos hhigh]
    have hcum := hlate hhigh
    have hS : t ∉ S := fun hS => absurd (h.highest t hS hcum) (by omega)
    have hr : Holds { r with uiHighestRecvTsn := t } S :=
      ⟨h.normal, h.known_iff, fun u hu hlt => (h.highest u hu hlt).trans hhigh.le⟩
    exact (hr.update hcum hS (.inl le_rfl)).1
  · rw [if_neg hhigh]
    by_cases hd : r.IsDuplicateChunk t = true
    · simp only [Bool.not_false, Bool.true_and, if_pos hd]
      rcases Nat.eq_zero_or_pos t with h0 | h0
      · exact hdup (.inr h0)
      · exact hdup (.inl ((h.isDuplicate h0).mp hd))
    · simp only [Bool.not_false, Bool.true_and, if_neg hd]
      have hcum : r.uiCumAck < t := by
        by_contra hle
        exact hd (by rw [IsDuplicateChunk, if_pos (not_lt.mp hle)])
      exact (h.update hcum (fun hS => hd ((h.isDuplicate (by omega)).mpr hS))
        (.inl (not_lt.mp hhigh))).1

/-- Without forwarding, the highest TSN is a bound of all. -/
theorem Holds.receive_data (h : Holds r S) (hall : ∀ u ∈ S, u ≤ r.uiHighestRecvTsn) {t : ℕ}
    (h0 : 0 < t) : Holds (r.receive t).1 (insert t S) ∧
      (∀ u ∈ insert t S, u ≤ (r.receive t).1.uiHighestRecvTsn) ∧
      ((r.receive t).2 = true ↔ t ∉ S) := by
  have hcum : r.uiCumAck ≤ r.uiHighestRecvTsn := by
    rcases Nat.eq_zero_or_pos r.uiCumAck with hz | hpos
    · omega
    · exact hall _ (h.mem_of_le hpos le_rfl)
  refine ⟨h.receive fun hlt => by omega, ?_⟩
  rw [RecvTsns.receive, UpdateHighestTsn]
  by_cases hhigh : t > r.uiHighestRecvTsn
  · rw [if_pos hhigh]
    refine ⟨fun u hu => ?_, iff_of_true rfl fun hS => absurd (hall t hS) (by omega)⟩
    rcases Set.mem_insert_iff.mp hu with rfl | hu
    · exact le_rfl
    · exact (hall u hu).trans hhigh.le
  · rw [if_neg hhigh]
    have hbound : ∀ u ∈ insert t S, u ≤ r.uiHighestRecvTsn := by
      intro u hu
      rcases Set.mem_insert_iff.mp hu with rfl | hu
      · exact not_lt.mp hhigh
      · exact hall u hu
    have hdup := h.isDuplicate h0
    by_cases hd : r.IsDuplicateChunk t = true
    · simp only [Bool.not_false, Bool.true_and, if_pos hd]
      exact ⟨hbound, iff_of_false Bool.false_ne_true fun hS => hS (hdup.mp hd)⟩
    · simp only [Bool.not_false, Bool.true_and, if_neg hd]
      exact ⟨hbound, iff_of_true trivial fun hS => hd (hdup.mpr hS)⟩

/-! ### Forwarding -/

theorem Holds.forwardOne (h : Holds r S) {i : ℕ} (h0 : 0 < i) (hi : i ≤ r.uiCumAck + 1) :
    Holds (forwardOne r i) (insert i S) ∧ i ≤ (RecvTsns.forwardOne r i).uiCumAck := by
  rw [RecvTsns.forwardOne]
  by_cases hd : r.IsDuplicateChunk i = true
  · rw [if_pos hd]
    have hS := (h.isDuplicate h0).mp hd
    refine ⟨by rwa [Set.insert_eq_of_mem hS], ?_⟩
    by_contra hlt
    exact h.right.missing ((by omega : i = r.uiCumAck + 1) ▸ hS)
  · rw [if_neg hd]
    have hS : i ∉ S := fun hS => hd ((h.isDuplicate h0).mpr hS)
    have hcum : i = r.uiCumAck + 1 := by
      by_contra hne
      exact hS (h.mem_of_le h0 (by omega))
    obtain ⟨h1, -, h2⟩ := h.update (by omega) hS (.inr hcum)
    exact ⟨h1, h2 hcum⟩

theorem Holds.forwardLoop (h : Holds r S) {n a : ℕ} (h0 : 0 < a) (ha : a ≤ r.uiCumAck + 1) :
    Holds ((List.range' a n).foldl RecvTsns.forwardOne r) (S ∪ Set.Ico a (a + n)) ∧
      a + n ≤ ((List.range' a n).foldl RecvTsns.forwardOne r).uiCumAck + 1 := by
  induction n generalizing r S a with
  | zero => simpa using ⟨h, ha⟩
  | succ n ih =>
    obtain ⟨h1, h2⟩ := h.forwardOne h0 ha
    obtain ⟨h3, h4⟩ := ih h1 (by omega : 0 < a + 1) (by omega)
    have hset : insert a S ∪ Set.Ico (a + 1) (a + 1 + n) = S ∪ Set.Ico a (a + (n + 1)) := by
      ext t
      simp only [Set.mem_union, Set.mem_insert_iff, Set.mem_Ico]
      constructor
      · rintro ((rfl | ht) | ht)
        · exact .inr (by omega)
        · exact .inl ht
        · exact .inr (by omega)
      · rintro (ht | ht)
        · exact .inl (.inr ht)
        · by_cases he : t = a
          · exact .inl (.inl he)
          · exact .inr (by omega)
    rw [List.range'_succ, List.foldl_cons]
    exact ⟨hset ▸ h3, by omega⟩

theorem foldl_old {l : List ℕ} (hl : ∀ i ∈ l, i ≤ r.uiCumAck) :
    l.foldl RecvTsns.forwardOne r = r := by
  induction l with
  | nil => rfl
  | cons i l ih =>
    have hi : RecvTsns.forwardOne r i = r := by
      simp [RecvTsns.forwardOne, IsDuplicateChunk, hl i (by simp)]
    rw [List.foldl_cons, hi, ih fun j hj => hl j (List.mem_cons_of_mem i hj)]

theorem toInt_low {u : ℕ} (h : u < 2 ^ 31) : toInt u = u := by
  rw [toInt]
  norm_num at h ⊢
  omega

theorem toInt_high {u : ℕ} (h : 2 ^ 31 ≤ u) (h' : u < 2 ^ 32) : toInt u = u - 2 ^ 32 := by
  rw [toInt]
  norm_num at h h' ⊢
  omega

variable {uiNewCum : ℕ}

theorem forwardTsns_eq (hcum : cum + 1 < 2 ^ 32) (hnew : uiNewCum < 2 ^ 32)
    (hside : cum + 1 < 2 ^ 31 ↔ uiNewCum < 2 ^ 31) :
    forwardTsns cum uiNewCum = List.range' (cum + 1) (uiNewCum - cum) := by
  have hint : ∃ d : ℤ, toInt (cum + 1) = cum + 1 - d ∧ toInt uiNewCum = uiNewCum - d ∧
      (d = 0 ∨ d = 2 ^ 32) := by
    by_cases hlow : cum + 1 < 2 ^ 31
    · exact ⟨0, by rw [toInt_low hlow]; push_cast; ring, by rw [toInt_low (hside.mp hlow)]; ring,
        .inl rfl⟩
    · exact ⟨2 ^ 32, by rw [toInt_high (not_lt.mp hlow) hcum]; push_cast; ring,
        toInt_high (not_lt.mp fun h => hlow (hside.mpr h)) hnew, .inr rfl⟩
  obtain ⟨d, h1, h2, hd⟩ := hint
  rw [forwardTsns, h1, h2, List.range'_eq_map_range]
  have hlen : ((uiNewCum : ℤ) - d - (cum + 1 - d) + 1).toNat = uiNewCum - cum := by omega
  rw [hlen]
  refine List.map_congr_left fun k hk => ?_
  have hk := List.mem_range.mp hk
  norm_num at hcum hnew hd ⊢
  rcases hd with rfl | rfl <;> omega

theorem forwardTsns_across (hcum : cum + 1 < 2 ^ 31) (hnew : 2 ^ 31 ≤ uiNewCum)
    (hnew' : uiNewCum < 2 ^ 32) : forwardTsns cum uiNewCum = [] := by
  have hnone : (toInt uiNewCum - toInt (cum + 1) + 1).toNat = 0 := by
    rw [toInt_low hcum, toInt_high hnew hnew']
    norm_num at hcum hnew hnew' ⊢
    omega
  rw [forwardTsns, hnone]
  rfl

/-- An old number behind the middle of the range counts up through all TSNs. -/
theorem forwardTsns_stale (hcum : 2 ^ 31 ≤ cum + 1) (hcum' : cum + 1 < 2 ^ 32)
    (hnew : uiNewCum < 2 ^ 31) : ∃ l, (∀ i ∈ l, i ≤ cum) ∧
      forwardTsns cum uiNewCum = List.range' (cum + 1) (2 ^ 32 - (cum + 1)) ++ l := by
  have hlen : (toInt uiNewCum - toInt (cum + 1) + 1).toNat =
      (2 ^ 32 - (cum + 1)) + (uiNewCum + 1) := by
    rw [toInt_low hnew, toInt_high hcum hcum']
    norm_num at hcum hcum' hnew ⊢
    omega
  refine ⟨(List.range (uiNewCum + 1)), fun i hi => ?_, ?_⟩
  · have := List.mem_range.mp hi
    norm_num at hcum hnew
    omega
  · rw [forwardTsns, hlen, List.range_add, List.map_append, List.range'_eq_map_range,
      toInt_high hcum hcum', List.map_map]
    norm_num at hcum hcum' hnew ⊢
    have hrest : List.map ((fun k : ℕ => ((cum + 1 - 4294967296 + (k : ℤ)) % 4294967296).toNat) ∘
        fun x => 4294967296 - (cum + 1) + x) (List.range (uiNewCum + 1)) =
          List.range (uiNewCum + 1) := by
      refine (List.map_congr_left fun k hk => ?_).trans (List.map_id _)
      have := List.mem_range.mp hk
      simp only [Function.comp_apply, id_eq]
      omega
    rw [hrest]
    congr 1
    refine List.map_congr_left fun k hk => ?_
    have := List.mem_range.mp hk
    omega

/-! ### Runs -/

inductive TsnEvent
  | data (uiTsn : ℕ)
  | forward (uiNewCum : ℕ)
  deriving DecidableEq

namespace TsnEvent

def tsn : TsnEvent → ℕ
  | data uiTsn => uiTsn
  | forward uiNewCum => uiNewCum

/-- The TSNs that a chunk hands over. -/
def tsns : TsnEvent → Set ℕ
  | data uiTsn => {uiTsn}
  | forward uiNewCum => Set.Ioc 0 uiNewCum

end TsnEvent

def handle (r : RecvTsns) : TsnEvent → Option RecvTsns
  | .data uiTsn => some (r.receive uiTsn).1
  | .forward uiNewCum => r.ProcessForwardTsnChunk uiNewCum

/-- The receiver with the set of the TSNs handed to it. -/
def step (x : RecvTsns × Set ℕ) (e : TsnEvent) : Option ((RecvTsns × Set ℕ) × Unit) :=
  (handle x.1 e).map fun r => ((r, x.2 ∪ e.tsns), ())

/-- No TSN above all DATA chunks seen is below the cumulative ack, and a forwarded TSN has the
sign bit of the TSN that the receiver waits for. -/
def Follows (x : RecvTsns × Set ℕ) : TsnEvent → Prop
  | .data uiTsn => x.1.uiHighestRecvTsn < uiTsn → x.1.uiCumAck < uiTsn
  | .forward uiNewCum =>
    uiNewCum ≠ 2 ^ 31 - 1 ∧ (x.1.uiCumAck + 1 < 2 ^ 31 ↔ uiNewCum < 2 ^ 31)

structure Kept (x : RecvTsns × Set ℕ) : Prop where
  holds : Holds x.1 x.2
  bounded : ∀ t ∈ x.2, t + 1 < 2 ^ 32

variable {S' : Set ℕ} {x y : RecvTsns × Set ℕ} {e : TsnEvent}

theorem Holds.congr (h : Holds r S) (hS : ∀ t, 0 < t → (t ∈ S' ↔ t ∈ S)) : Holds r S' where
  normal := h.normal
  known_iff t h0 := (hS t h0).trans (h.known_iff t h0)
  highest t ht hlt := h.highest t ((hS t (by omega)).mp ht) hlt

theorem kept_new : Kept (new, ∅) where
  holds := by
    refine ⟨⟨by simp [new], by simp [new]⟩, fun t h0 => ?_, by simp⟩
    simp only [Set.mem_empty_iff_false, false_iff, mem_known, new, cover_nil, or_false]
    omega
  bounded := by simp

theorem Kept.cum_lt (h : Kept x) : x.1.uiCumAck + 1 < 2 ^ 32 := by
  rcases Nat.eq_zero_or_pos x.1.uiCumAck with h0 | h0
  · rw [h0]
    norm_num
  · exact h.bounded _ (h.holds.mem_of_le h0 le_rfl)

theorem Kept.forward (h : Kept x) (hnew : uiNewCum < 2 ^ 32)
    (hside : x.1.uiCumAck + 1 < 2 ^ 31 ↔ uiNewCum < 2 ^ 31) :
    Holds ((forwardTsns x.1.uiCumAck uiNewCum).foldl forwardOne x.1)
      (x.2 ∪ Set.Ioc 0 uiNewCum) := by
  rw [forwardTsns_eq h.cum_lt hnew hside]
  refine (h.holds.forwardLoop (by omega) le_rfl).1.congr fun t h0 => ?_
  by_cases ht : t ≤ x.1.uiCumAck
  · have := h.holds.mem_of_le h0 ht
    simp [this]
  · simp only [Set.mem_union, Set.mem_Ioc, Set.mem_Ico]
    refine or_congr Iff.rfl ?_
    omega

theorem Kept.step (h : Kept x) (he : e.tsn + 1 < 2 ^ 32) (hok : Follows x e) :
    ∃ y o, RecvTsns.step x e = some (y, o) ∧ Kept y := by
  have hbound : ∀ t ∈ x.2 ∪ e.tsns, t + 1 < 2 ^ 32 := by
    rintro t (ht | ht)
    · exact h.bounded t ht
    · cases e with
      | data u => exact (Set.mem_singleton_iff.mp ht) ▸ he
      | forward c => exact lt_of_le_of_lt (Nat.add_le_add_right ht.2 1) he
  cases e with
  | data u =>
    refine ⟨_, (), rfl, ⟨?_, hbound⟩⟩
    have := h.holds.receive hok
    rwa [← Set.union_singleton] at this
  | forward c =>
    have hs : RecvTsns.step x (.forward c) =
        some (((forwardTsns x.1.uiCumAck c).foldl forwardOne x.1, x.2 ∪ Set.Ioc 0 c), ()) := by
      rw [RecvTsns.step, handle, ProcessForwardTsnChunk, if_neg hok.1]
      rfl
    exact ⟨_, (), hs, ⟨h.forward (by simp only [TsnEvent.tsn] at he; omega) hok.2, hbound⟩⟩

theorem Kept.breaks_data (h : Kept x) {t : ℕ} (hhigh : x.1.uiHighestRecvTsn < t)
    (hcum : t ≤ x.1.uiCumAck) : ¬ Right (x.1.receive t).1 S' := by
  intro hr
  have hlate := @updateLoop_late t x.1.uiCumAck [] x.1.sRecvTsnBlockList (x.1.uiCumAck + 1)
    (by omega) fun b hb => by
      have := h.holds.blocks_above hb
      omega
  have hlist : (x.1.receive t).1.sRecvTsnBlockList = x.1.sRecvTsnBlockList ++ [(t, t)] ∧
      (x.1.receive t).1.uiCumAck = x.1.uiCumAck := by
    simp [receive, UpdateHighestTsn, hhigh, UpdateRecvTsnBlocks, hlate]
  have := (hr.above (t, t) (by simp [hlist.1])).1
  simp only [hlist.2] at this
  omega

theorem Kept.breaks (h : Kept x) (he : e.tsn + 1 < 2 ^ 32) (hok : ¬ Follows x e)
    (hs : RecvTsns.step x e = some (y, ())) : ¬ Right y.1 y.2 := by
  obtain ⟨r', hr, hy⟩ := Option.map_eq_some_iff.mp hs
  obtain ⟨rfl, -⟩ := Prod.mk.inj hy
  cases e with
  | data t =>
    obtain rfl := Option.some.inj hr
    obtain ⟨hhigh, hcum⟩ := Classical.not_imp.mp hok
    exact h.breaks_data hhigh (not_lt.mp hcum)
  | forward c =>
    simp only [TsnEvent.tsn] at he
    have hc : c ≠ 2 ^ 31 - 1 := by
      rintro rfl
      simp [handle, ProcessForwardTsnChunk] at hr
    rw [handle, ProcessForwardTsnChunk, if_neg hc] at hr
    obtain rfl := Option.some.inj hr
    have hside : ¬ (x.1.uiCumAck + 1 < 2 ^ 31 ↔ c < 2 ^ 31) := fun hside => hok ⟨hc, hside⟩
    intro hright
    by_cases hlow : x.1.uiCumAck + 1 < 2 ^ 31
    · -- the loop runs over nothing
      have hhigh : 2 ^ 31 ≤ c := not_lt.mp fun hlt => hside (iff_of_true hlow hlt)
      rw [forwardTsns_across hlow hhigh (by omega)] at hright
      exact hright.missing (.inr ⟨by simp, by simp only [List.foldl_nil]; omega⟩)
    · -- the loop runs over every TSN ahead
      have hnew : c < 2 ^ 31 := not_le.mp fun hle => hside (iff_of_false hlow (not_lt.mpr hle))
      obtain ⟨l, hl, htsns⟩ := forwardTsns_stale (not_lt.mp hlow) h.cum_lt hnew
      have hcum := (h.holds.forwardLoop (n := 2 ^ 32 - (x.1.uiCumAck + 1)) (by omega) le_rfl).2
      rw [htsns, List.foldl_append, foldl_old fun i hi => by
        have := hl i hi
        have := h.cum_lt
        omega] at hright
      have hmem := hright.received (x.1.uiCumAck + 1) (by omega) (by
        have := h.cum_lt
        dsimp only
        omega)
      rcases hmem with hmem | hmem
      · exact h.holds.right.missing hmem
      · have := hmem.2
        omega

/-- The receiver represents the TSNs handed to it in exactly the runs in which every chunk
follows the cumulative ack. -/
theorem represents_iff {events : List TsnEvent} (hwrap : ∀ e ∈ events, e.tsn + 1 < 2 ^ 32) :
    Machine.Always step (fun x => Right x.1 x.2) (new, ∅) events ↔
      Machine.Admits step Follows (new, ∅) events :=
  Machine.always_iff_of_admits (I := Kept) (fun _ h => h.holds.right)
    (fun _ _ h he hok => h.step he hok) (fun _ _ _ _ h he hok hs => h.breaks he hok hs) kept_new
    (Machine.admits_of_forall hwrap (new, ∅))

/-- A run with a duplicate and a forwarded gap. -/
theorem represents_iff_four :
    (∀ e ∈ [TsnEvent.data 1, .data 3, .data 3, .forward 4], e.tsn + 1 < 2 ^ 32) ∧
      (Machine.Always step (fun x => Right x.1 x.2) (new, ∅)
          [.data 1, .data 3, .data 3, .forward 4] ↔
        Machine.Admits step Follows (new, ∅) [.data 1, .data 3, .data 3, .forward 4]) :=
  ⟨by decide, represents_iff (by decide)⟩

/-- DATA chunk 7 arrives for the first time when the receiver has been forwarded past it. -/
theorem late_chunk_listed : ¬ Machine.Always step (fun x => Right x.1 x.2) (new, ∅)
    [.forward 10, .data 7] := by
  have h1 : handle new (.forward 10) = some ⟨10, 0, [], []⟩ := by decide
  have h2 : handle ⟨10, 0, [], []⟩ (.data 7) = some ⟨10, 7, [(7, 7)], []⟩ := by decide
  rintro ⟨-, x, _, hx, -, y, _, hy, hright⟩
  obtain ⟨r, hr, he⟩ := Option.map_eq_some_iff.mp hx
  obtain rfl := Option.some.inj (h1.symm.trans hr)
  obtain ⟨rfl, -⟩ := Prod.mk.inj he
  obtain ⟨r', hr', he'⟩ := Option.map_eq_some_iff.mp hy
  obtain rfl := Option.some.inj (h2.symm.trans hr')
  obtain ⟨rfl, -⟩ := Prod.mk.inj he'
  exact absurd (hright.above (7, 7) (by simp)).1 (by decide)

end RecvTsns

end Ns2
