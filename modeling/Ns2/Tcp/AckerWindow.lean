import Ns2.Tcp.Acker

/-! The ring of an acker holds what was recorded of the packets in the window, through every
arrival and every resizing. -/

namespace Ns2.Acker

open RingBuffer

/-- The ring has a power of two of slots. -/
def Mask (m : ℕ) : Prop := ∃ k, 6 ≤ k ∧ m + 1 = 2 ^ k

theorem Mask.slot_eq {m : ℕ} (h : Mask m) (i : ℤ) : slot m i = i.toNat % (m + 1) := by
  obtain ⟨k, -, hk⟩ := h
  rw [slot, show m = 2 ^ k - 1 by omega, Nat.and_two_pow_sub_one_eq_mod]
  congr 1
  omega

theorem Mask.pos {m : ℕ} (h : Mask m) : 63 ≤ m := by
  obtain ⟨k, hk, he⟩ := h
  have : 2 ^ 6 ≤ 2 ^ k := Nat.pow_le_pow_right (by omega) hk
  omega

theorem Mask.double {m : ℕ} (h : Mask m) : Mask ((m + 1) * 2 - 1) := by
  obtain ⟨k, hk, he⟩ := h
  refine ⟨k + 1, by omega, ?_⟩
  rw [pow_succ, ← he]
  omega

theorem Mask.double_lt {m : ℕ} (h : Mask m) (hm : m ≤ 2 ^ 29) : (m + 1) * 2 - 1 < 2 ^ 30 := by
  obtain ⟨k, -, he⟩ := h
  have hk : k < 30 := by
    by_contra hge
    have : 2 ^ 30 ≤ 2 ^ k := Nat.pow_le_pow_right (by omega) (not_lt.mp hge)
    omega
  have : 2 ^ k ≤ 2 ^ 29 := Nat.pow_le_pow_right (by omega) (by omega)
  omega

theorem Mask.slot_ne {m : ℕ} (h : Mask m) {i j : ℤ} (hi : 0 ≤ i) (hj : 0 ≤ j) (hne : i ≠ j)
    (hij : i ≤ j + m) (hji : j ≤ i + m) : slot m i ≠ slot m j := by
  intro he
  rw [h.slot_eq, h.slot_eq] at he
  exact hne (toNat_mod_inj hi hj (by push_cast; omega) (by push_cast; omega) he)

/-- The bytes recorded of packet `i`, those of its last arrival; 0 if it was not received. -/
def recorded (as : List (ℤ × ℤ)) (i : ℤ) : ℤ := as.foldl (fun b a => if a.1 = i then a.2 else b) 0

theorem recorded_append (as : List (ℤ × ℤ)) (a : ℤ × ℤ) (i : ℤ) :
    recorded (as ++ [a]) i = if a.1 = i then a.2 else recorded as i := by
  simp [recorded]

theorem recorded_ne_zero {as : List (ℤ × ℤ)} (h : ∀ a ∈ as, 0 < a.2) {i : ℤ} :
    recorded as i ≠ 0 ↔ ∃ n, (i, n) ∈ as := by
  induction as using List.reverseRecOn with
  | nil => simp [recorded]
  | append_singleton as a ih =>
    have hpos := h a (by simp)
    rw [recorded_append]
    split_ifs with ha
    · exact ⟨fun _ => ⟨a.2, by simp [← ha]⟩, fun _ => hpos.ne'⟩
    · rw [ih fun b hb => h b (List.mem_append_left _ hb)]
      constructor
      · rintro ⟨n, hn⟩
        exact ⟨n, List.mem_append_left _ hn⟩
      · rintro ⟨n, hn⟩
        rcases List.mem_append.mp hn with hn | hn
        · exact ⟨n, hn⟩
        · exact absurd (congrArg Prod.fst (List.mem_singleton.mp hn)).symm ha

/-- The slots of the packets from `lo` to the one behind the maximum hold the recorded bytes. -/
def Slots (as : List (ℤ × ℤ)) (lo : ℤ) (s : Acker) : Prop :=
  ∀ i, lo ≤ i → i ≤ s.maxseen_ + 1 → s.seen_ (slot s.wndmask_ i) = recorded as i

structure Inv (as : List (ℤ × ℤ)) (s : Acker) : Prop where
  mask : Mask s.wndmask_
  pos : ∀ a ∈ as, 0 ≤ a.1 ∧ 0 < a.2
  start : as = [] → s.maxseen_ = 0
  next_nonneg : 0 ≤ s.next_
  next_le : s.next_ ≤ s.maxseen_ + 1
  width : s.maxseen_ + 1 - s.next_ < s.wndmask_
  below : ∀ i, 0 ≤ i → i < s.next_ → recorded as i ≠ 0
  gap : recorded as s.next_ = 0
  above : ∀ i, s.maxseen_ < i → recorded as i = 0
  max : as ≠ [] → recorded as s.maxseen_ ≠ 0
  slots : Slots as s.next_ s

/-! ### Resizing -/

theorem Inv.resizeBuffers {as : List (ℤ × ℤ)} {s : Acker} (h : Inv as s) :
    Inv as (resizeBuffers ((s.wndmask_ + 1) * 2) s) := by
  have hmask := h.mask.double
  have hwidth := h.width
  have hle := h.next_le
  have hnext := h.next_nonneg
  refine ⟨hmask, h.pos, h.start, h.next_nonneg, h.next_le, ?_, h.below, h.gap, h.above, h.max,
    fun i hi him => ?_⟩
  · show s.maxseen_ + 1 - s.next_ < (((s.wndmask_ + 1) * 2 - 1 : ℕ) : ℤ)
    omega
  · change s.next_ ≤ i at hi
    change i ≤ s.maxseen_ + 1 at him
    rw [← h.slots i hi him]
    refine fill_of_mem (f := fun i => s.seen_ (slot s.wndmask_ i))
      (n := (s.maxseen_ + 2 - s.next_).toNat) _ hi (by omega) fun j hij hj => ?_
    exact hmask.slot_ne (by omega) (by omega) (by omega) (by omega) (by omega)

/-- After the loop the arrival fits, and below 2^30 slots it never needs more. -/
theorem Inv.grow {as : List (ℤ × ℤ)} {s : Acker} (h : Inv as s) (seq : ℤ) :
    Inv as (grow seq s) ∧ (grow seq s).next_ = s.next_ ∧ (grow seq s).maxseen_ = s.maxseen_ ∧
      (grow seq s).is_dup_ = s.is_dup_ ∧ seq + 1 - s.next_ < (grow seq s).wndmask_ ∧
      (s.wndmask_ < 2 ^ 30 → seq - s.next_ < 2 ^ 29 → (grow seq s).wndmask_ < 2 ^ 30) := by
  fun_induction Acker.grow seq s with
  | case1 s hge ih =>
    obtain ⟨h1, h2, h3, h4, h5, h6⟩ := ih h.resizeBuffers
    refine ⟨h1, h2, h3, h4, h5, fun _ hseq => h6 ?_ hseq⟩
    exact h.mask.double_lt (by omega)
  | case2 s hlt => exact ⟨h, rfl, rfl, rfl, by omega, fun hm _ => hm⟩

/-! ### Arrivals -/

/-- The state between the recording of the arrival and the delivery. -/
structure Recorded (as : List (ℤ × ℤ)) (s s' : Acker) : Prop where
  mask : s'.wndmask_ = s.wndmask_
  next : s'.next_ = s.next_
  next_le : s'.next_ ≤ s'.maxseen_ + 1
  width : s'.maxseen_ + 1 - s'.next_ < s'.wndmask_
  above : ∀ i, s'.maxseen_ < i → recorded as i = 0
  max : recorded as s'.maxseen_ ≠ 0
  slots : Slots as s'.next_ s'

theorem Inv.advance {as : List (ℤ × ℤ)} {s : Acker} (h : Inv as s) {seq n : ℤ}
    (hseq : s.maxseen_ < seq) (hn : 0 < n) (hfit : seq + 1 - s.next_ < s.wndmask_) :
    Recorded (as ++ [(seq, n)]) s (record seq n true (advance seq n s)) := by
  have hnext := h.next_nonneg
  have hle := h.next_le
  have hne : ∀ i j, s.next_ ≤ i → s.next_ ≤ j → i ≤ seq + 1 → j ≤ seq + 1 → i ≠ j →
      slot s.wndmask_ i ≠ slot s.wndmask_ j := fun i j hi hj his hjs hij =>
    h.mask.slot_ne (by omega) (by omega) hij (by omega) (by omega)
  refine ⟨rfl, rfl, ?_, hfit, fun i hi => ?_, ?_, fun i hi his => ?_⟩
  · show s.next_ ≤ seq + 1
    omega
  · change seq < i at hi
    rw [recorded_append, if_neg (by simp only; omega)]
    exact h.above i (by omega)
  · show recorded (as ++ [(seq, n)]) seq ≠ 0
    rw [recorded_append, if_pos rfl]
    exact hn.ne'
  · change s.next_ ≤ i at hi
    change i ≤ seq + 1 at his
    show (Function.update (Function.update (Function.update (fill (slot s.wndmask_) (fun _ => 0) (s.maxseen_ + 1)
      (seq - (s.maxseen_ + 1)).toNat s.seen_) (slot s.wndmask_ seq) n)
      (slot s.wndmask_ (seq + 1)) 0) (slot s.wndmask_ seq) n : ℕ → ℤ) (slot s.wndmask_ i) = _
    rw [recorded_append]
    by_cases hi2 : i = seq
    · rw [hi2, Function.update_self, if_pos rfl]
    · rw [Function.update_of_ne (hne i seq hi (by omega) his (by omega) hi2), if_neg (Ne.symm hi2)]
      by_cases hi1 : i = seq + 1
      · rw [hi1, Function.update_self, h.above _ (by omega)]
      · rw [Function.update_of_ne (hne i (seq + 1) hi (by omega) his le_rfl hi1),
          Function.update_of_ne (hne i seq hi (by omega) his (by omega) hi2)]
        by_cases hi3 : i ≤ s.maxseen_
        · rw [← h.slots i hi (by omega)]
          apply fill_of_ne
          intro j hj hjn
          exact hne j i (by omega) hi (by omega) his (by omega)
        · rw [h.above i (by omega)]
          apply fill_of_mem
          · omega
          · omega
          · intro j hij hj
            exact hne j i (by omega) hi (by omega) his (by omega)

theorem Inv.record {as : List (ℤ × ℤ)} {s : Acker} (h : Inv as s) {seq n : ℤ}
    (hseq : s.next_ ≤ seq) (hmax : seq ≤ s.maxseen_) (hn : 0 < n) :
    Recorded (as ++ [(seq, n)]) s (Acker.record seq n false s) := by
  have hnext := h.next_nonneg
  have hwidth := h.width
  refine ⟨rfl, rfl, h.next_le, h.width, fun i hi => ?_, ?_, fun i hi his => ?_⟩
  · change s.maxseen_ < i at hi
    rw [recorded_append, if_neg (by simp only; omega)]
    exact h.above i hi
  · show recorded (as ++ [(seq, n)]) s.maxseen_ ≠ 0
    rw [recorded_append]
    split_ifs with he
    · exact hn.ne'
    · apply h.max
      rintro rfl
      have := h.start rfl
      omega
  · change s.next_ ≤ i at hi
    change i ≤ s.maxseen_ + 1 at his
    show (Function.update s.seen_ (slot s.wndmask_ seq) n : ℕ → ℤ) (slot s.wndmask_ i) = _
    rw [recorded_append]
    by_cases hi2 : i = seq
    · rw [hi2, Function.update_self, if_pos rfl]
    · rw [Function.update_of_ne, if_neg (Ne.symm hi2)]
      · exact h.slots i hi his
      · exact h.mask.slot_ne (by omega) (by omega) hi2 (by omega) (by omega)

/-- The loop stops at the first packet that is not recorded. -/
theorem deliver_spec {as : List (ℤ × ℤ)} {s : Acker} {fuel : ℕ} {next hi num : ℤ}
    (hslots : ∀ i, next ≤ i → i ≤ hi → s.seen_ (slot s.wndmask_ i) = recorded as i)
    (hend : recorded as hi = 0) (hle : next ≤ hi) (hfuel : hi - next < fuel) :
    ∃ next', deliver s fuel next num =
        some (next', num + ∑ i ∈ Finset.Ico next next', recorded as i) ∧
      next ≤ next' ∧ next' ≤ hi ∧ (∀ i, next ≤ i → i < next' → recorded as i ≠ 0) ∧
      recorded as next' = 0 := by
  induction fuel generalizing next num with
  | zero => omega
  | succ fuel ih =>
    rw [Acker.deliver, hslots next le_rfl hle]
    by_cases hz : recorded as next = 0
    · exact ⟨next, by simp [hz], le_rfl, hle, fun i hi hlt => by omega, hz⟩
    · have hlt : next < hi := by
        apply lt_of_le_of_ne hle
        rintro rfl
        exact hz hend
      obtain ⟨next', h1, h2, h3, h4, h5⟩ := @ih (next + 1) (num + recorded as next)
        (fun i hi hih => hslots i (by omega) hih) (by omega) (by omega)
      have hlt' : next < next' := by omega
      refine ⟨next', ?_, by omega, h3, fun i hi hlt => ?_, h5⟩
      · rw [if_pos hz, h1, add_assoc, ← Finset.insert_Ico_add_one_left_eq_Ico hlt',
          Finset.sum_insert (by simp)]
      · rcases eq_or_lt_of_le hi with rfl | hi
        · exact hz
        · exact h4 i (by omega) hlt

/-- What an arrival does: the packets that it delivers are those from the old `next_` to the new
one, and their slots are kept. -/
structure Updated (as : List (ℤ × ℤ)) (s : Acker) (seq n : ℤ) (s' : Acker) (bytes : ℤ) : Prop where
  inv : Inv (as ++ [(seq, n)]) s'
  dup : s'.is_dup_ = true ↔ recorded as seq ≠ 0
  next_le : s.next_ ≤ s'.next_
  bytes : bytes = ∑ i ∈ Finset.Ico s.next_ s'.next_, recorded (as ++ [(seq, n)]) i
  slots : Slots (as ++ [(seq, n)]) s.next_ s'
  width : s'.maxseen_ + 1 - s.next_ < s'.wndmask_
  mask : s.wndmask_ < 2 ^ 30 → seq - s.next_ < 2 ^ 29 → s'.wndmask_ < 2 ^ 30

theorem Recorded.deliver {as : List (ℤ × ℤ)} {s g r : Acker} (h : Inv as s) (hg : Inv as g)
    (hgn : g.next_ = s.next_) {seq n : ℤ} (hseq : 0 ≤ seq) (hn : 0 < n)
    (hrec : Recorded (as ++ [(seq, n)]) g r) (hdup : r.is_dup_ = true ↔ recorded as seq ≠ 0)
    (hbound : s.wndmask_ < 2 ^ 30 → seq - s.next_ < 2 ^ 29 → g.wndmask_ < 2 ^ 30) :
    ∃ s' bytes, (Acker.deliver r (r.wndmask_ + 2) r.next_ 0).map
      (fun d => ({ r with next_ := d.1 }, d.2)) = some (s', bytes) ∧ Updated as s seq n s' bytes := by
  have hnext := h.next_nonneg
  have hrn : r.next_ = s.next_ := hrec.next.trans hgn
  have hwidth := hrec.width
  obtain ⟨next', h1, h2, h3, h4, h5⟩ := deliver_spec hrec.slots
    (hrec.above _ (by omega)) hrec.next_le (show _ < ((r.wndmask_ + 2 : ℕ) : ℤ) by push_cast; omega)
  refine ⟨{ r with next_ := next' }, _, by rw [h1]; rfl, ?_⟩
  have hslots : Slots (as ++ [(seq, n)]) s.next_ { r with next_ := next' } := fun i hi his =>
    hrec.slots i (hrn ▸ hi) his
  refine ⟨⟨hrec.mask ▸ hg.mask, fun a ha => ?_, by simp, ?_, h3, ?_, fun i hi hlt => ?_, h5,
    hrec.above, fun _ => hrec.max, fun i hi his => hslots i ?_ his⟩, hdup, hrn ▸ h2, ?_, hslots, ?_,
    fun hm hs => hrec.mask ▸ hbound hm hs⟩
  · rcases List.mem_append.mp ha with ha | ha
    · exact h.pos a ha
    · rw [List.mem_singleton.mp ha]
      exact ⟨hseq, hn⟩
  · show 0 ≤ next'
    omega
  · show r.maxseen_ + 1 - next' < r.wndmask_
    omega
  · by_cases hin : i < s.next_
    · rw [recorded_append]
      split_ifs
      · exact hn.ne'
      · exact h.below i hi hin
    · exact h4 i (by omega) hlt
  · change next' ≤ i at hi
    omega
  · rw [zero_add, hrn]
  · show r.maxseen_ + 1 - s.next_ < r.wndmask_
    omega

theorem Inv.update {as : List (ℤ × ℤ)} {s : Acker} (h : Inv as s) {seq n : ℤ} (hseq : 0 ≤ seq)
    (hn : 0 < n) : ∃ s' bytes, update s seq n = some (s', bytes) ∧ Updated as s seq n s' bytes := by
  obtain ⟨hg, hgn, hgm, -, hfit, hbound⟩ := Inv.grow (s := { s with is_dup_ := false })
    ⟨h.mask, h.pos, h.start, h.next_nonneg, h.next_le, h.width, h.below, h.gap, h.above, h.max,
      h.slots⟩ seq
  change (Acker.grow seq { s with is_dup_ := false }).next_ = s.next_ at hgn
  change (Acker.grow seq { s with is_dup_ := false }).maxseen_ = s.maxseen_ at hgm
  change seq + 1 - s.next_ < _ at hfit
  change s.wndmask_ < 2 ^ 30 → seq - s.next_ < 2 ^ 29 → _ at hbound
  unfold Acker.update
  dsimp only
  generalize Acker.grow seq { s with is_dup_ := false } = g at hg hgn hgm hfit hbound
  have hnext := h.next_nonneg
  have hle := h.next_le
  by_cases hin : s.next_ ≤ seq
  · by_cases hgt : seq > g.maxseen_
    · -- the highest packet so far
      have hcond : seq ≥ (Acker.advance seq n g).next_ ∧ seq ≤ (Acker.advance seq n g).maxseen_ :=
        ⟨hgn.trans_le hin, le_rfl⟩
      simp only [hgt, decide_true, if_true, hcond, and_self]
      obtain ⟨h1, h2, h3, h4, h5, h6, h7⟩ := hg.advance hgt hn (hgn ▸ hfit)
      refine Recorded.deliver h hg hgn hseq hn ⟨h1, h2, h3, h4, h5, h6, h7⟩ ?_ hbound
      simp [Acker.record, h.above seq (hgm ▸ hgt)]
    · -- a gap in the window, or a duplicate
      have hcond : seq ≥ g.next_ ∧ seq ≤ g.maxseen_ := ⟨hgn.trans_le hin, not_lt.mp hgt⟩
      simp only [hgt, decide_false, if_false, Bool.false_eq_true, hcond, and_self, if_true]
      obtain ⟨h1, h2, h3, h4, h5, h6, h7⟩ := hg.record hcond.1 hcond.2 hn
      refine Recorded.deliver h hg hgn hseq hn ⟨h1, h2, h3, h4, h5, h6, h7⟩ ?_ hbound
      have := hg.slots seq hcond.1 (by omega)
      simp [Acker.record, this]
  · -- a duplicate from before the window
    have hmax : ¬ seq > g.maxseen_ := by omega
    have hout : ¬ (seq ≥ g.next_ ∧ seq ≤ g.maxseen_) := by omega
    simp only [hmax, decide_false, hout, if_false, Bool.false_eq_true]
    have hold : ∀ i, s.next_ ≤ i → recorded (as ++ [(seq, n)]) i = recorded as i := fun i hi => by
      rw [recorded_append, if_neg (by simp only; omega)]
    have hkeep : ∀ i, recorded as i ≠ 0 → recorded (as ++ [(seq, n)]) i ≠ 0 := fun i hi => by
      rw [recorded_append]
      split_ifs
      · exact hn.ne'
      · exact hi
    have hseen : recorded as seq ≠ 0 := h.below seq hseq (by omega)
    have hne : as ≠ [] := by
      rintro rfl
      exact hseen rfl
    have hslots : Slots (as ++ [(seq, n)]) s.next_ { g with is_dup_ := decide (seq < g.next_) } :=
      fun i hi his => (hg.slots i (hgn.trans_le hi) his).trans (hold i hi).symm
    refine ⟨_, 0, rfl, ⟨⟨hg.mask, fun a ha => ?_, by simp, hg.next_nonneg, hg.next_le, hg.width,
      fun i hi hlt => hkeep i (hg.below i hi hlt), ?_, fun i hi => ?_,
      fun _ => hkeep _ (hg.max hne), fun i hi his => hslots i (hgn ▸ hi) his⟩, ?_, hgn.ge, ?_,
      hslots, ?_, hbound⟩⟩
    · rcases List.mem_append.mp ha with ha | ha
      · exact h.pos a ha
      · rw [List.mem_singleton.mp ha]
        exact ⟨hseq, hn⟩
    · show recorded (as ++ [(seq, n)]) g.next_ = 0
      rw [hold _ hgn.ge]
      exact hg.gap
    · change g.maxseen_ < i at hi
      rw [hold i (by omega)]
      exact hg.above i hi
    · have hlt : seq < g.next_ := by omega
      simp [hlt, hseen]
    · show 0 = ∑ i ∈ Finset.Ico s.next_ g.next_, recorded (as ++ [(seq, n)]) i
      rw [hgn, Finset.Ico_self, Finset.sum_empty]
    · show g.maxseen_ + 1 - s.next_ < g.wndmask_
      have := hg.width
      omega

/-! ### Runs -/

theorem inv_reset {s : Acker} (h : Mask s.wndmask_) : Inv [] (reset s) := by
  have := h.pos
  refine ⟨h, by simp, fun _ => rfl, le_rfl, ?_, ?_, fun i hi hlt => ?_, rfl, fun _ _ => rfl,
    fun hh => absurd rfl hh, fun _ _ _ => rfl⟩
  · show (0 : ℤ) ≤ 0 + 1
    omega
  · show (0 : ℤ) + 1 - 0 < s.wndmask_
    omega
  · change i < 0 at hlt
    omega

/-- The arrivals that are considered. -/
def Arrival (s : Acker) (a : ℤ × ℤ) : Prop := 0 ≤ a.1 ∧ 0 < a.2 ∧ a.1 - s.next_ < 2 ^ 29

/-- Each arrival of the run is a duplicate exactly if its packet had arrived, and delivers the next
packets in order, with the bytes recorded of them; together these are all packets before
`next_`. -/
structure Delivers (as : List (ℤ × ℤ)) (os : List (ℤ × Bool)) (next : ℤ)
    (logs : List (List ℤ)) : Prop where
  length : logs.length = as.length
  length_out : os.length = as.length
  order : logs.flatten = (List.range next.toNat).map Nat.cast
  bytes : ∀ (j : ℕ) l o, logs[j]? = some l → os[j]? = some o →
    o.1 = (l.map (recorded (as.take (j + 1)))).sum
  dup : ∀ (j : ℕ) a o, as[j]? = some a → os[j]? = some o →
    (o.2 = true ↔ ∃ n, (a.1, n) ∈ as.take j)

theorem getElem?_concat {α : Type*} {l : List α} {x y : α} {j : ℕ} (h : (l ++ [x])[j]? = some y) :
    l[j]? = some y ∧ j < l.length ∨ j = l.length ∧ x = y := by
  rcases lt_trichotomy j l.length with hj | rfl | hj
  · rw [List.getElem?_append_left hj] at h
    exact .inl ⟨h, hj⟩
  · rw [List.getElem?_concat_length] at h
    exact .inr ⟨rfl, Option.some.inj h⟩
  · rw [List.getElem?_eq_none (by simp; omega)] at h
    cases h

theorem Delivers.snoc {as : List (ℤ × ℤ)} {os : List (ℤ × Bool)} {next next' seq n : ℤ}
    {logs : List (List ℤ)} (h : Delivers as os next logs) (h0 : 0 ≤ next) (hle : next ≤ next')
    {dup : Bool} (hdup : dup = true ↔ ∃ m, (seq, m) ∈ as) :
    Delivers (as ++ [(seq, n)])
      (os ++ [(∑ i ∈ Finset.Ico next next', recorded (as ++ [(seq, n)]) i, dup)]) next'
      (logs ++ [(List.range (next' - next).toNat).map fun d : ℕ => next + d]) where
  length := by simp [h.length]
  length_out := by simp [h.length_out]
  order := by
    obtain ⟨d, hd⟩ : ∃ d : ℕ, next' = next + d := ⟨(next' - next).toNat, by omega⟩
    obtain ⟨m, hm⟩ : ∃ m : ℕ, next = m := ⟨next.toNat, by omega⟩
    subst hd hm
    have h1 : ((m : ℤ) + d).toNat = m + d := by omega
    have h2 : ((m : ℤ) + d - m).toNat = d := by omega
    rw [List.flatten_append, h.order, h1, h2, List.range_add, List.map_append]
    simp [Function.comp_def]
  bytes j l o hl ho := by
    rcases getElem?_concat hl with ⟨hl, hj⟩ | ⟨rfl, rfl⟩
    · rcases getElem?_concat ho with ⟨ho, -⟩ | ⟨rfl, rfl⟩
      · rw [List.take_append_of_le_length (by rw [← h.length]; omega)]
        exact h.bytes j l o hl ho
      · have := h.length
        have := h.length_out
        omega
    · rcases getElem?_concat ho with ⟨-, hj⟩ | ⟨-, rfl⟩
      · have := h.length
        have := h.length_out
        omega
      · rw [List.take_of_length_le (by simp [h.length])]
        have hsum : ∑ i ∈ Finset.Ico next next', recorded (as ++ [(seq, n)]) i =
            ∑ d ∈ Finset.range (next' - next).toNat, recorded (as ++ [(seq, n)]) (next + d) := by
          refine Finset.sum_bij' (fun i _ => (i - next).toNat) (fun d _ => next + d) ?_ ?_ ?_ ?_ ?_
          all_goals
            intro i hi
            simp only [Finset.mem_Ico, Finset.mem_range] at hi ⊢
          · omega
          · omega
          · omega
          · omega
          · congr 1
            omega
        rw [hsum, List.map_map]
        rfl
  dup j a o ha ho := by
    rcases getElem?_concat ha with ⟨ha, hj⟩ | ⟨rfl, rfl⟩
    · rcases getElem?_concat ho with ⟨ho, -⟩ | ⟨rfl, rfl⟩
      · rw [List.take_append_of_le_length (by omega)]
        exact h.dup j a o ha ho
      · have := h.length_out
        omega
    · rcases getElem?_concat ho with ⟨-, hj⟩ | ⟨-, rfl⟩
      · have := h.length_out
        omega
      · simpa using hdup

/-- After every run of arrivals `next_` is the least packet that was not received and `maxseen_`
the largest one that was. -/
theorem acker_window {s : Acker} (hs : Mask s.wndmask_) {as : List (ℤ × ℤ)}
    (hok : Machine.Admits step Arrival (reset s) as) :
    ∃ t os logs, Machine.run step (reset s) as = some (t, os) ∧
      IsLeast {i | 0 ≤ i ∧ ∀ n, (i, n) ∉ as} t.next_ ∧
      (as ≠ [] → IsGreatest {i | ∃ n, (i, n) ∈ as} t.maxseen_) ∧
      Delivers as os t.next_ logs ∧ (s.wndmask_ < 2 ^ 30 → t.wndmask_ < 2 ^ 30) := by
  obtain ⟨t, os, hrun, hinv, ⟨logs, hlogs⟩, hmask⟩ := Machine.run_history
    (I := fun as os t => Inv as t ∧ (∃ logs, Delivers as os t.next_ logs) ∧
      (s.wndmask_ < 2 ^ 30 → t.wndmask_ < 2 ^ 30))
    (fun as os t a ⟨hinv, ⟨logs, hlogs⟩, hmask⟩ ha => by
      obtain ⟨t', bytes, hup, hspec⟩ := hinv.update ha.1 ha.2.1
      obtain rfl := hspec.bytes
      have hdup := hspec.dup.trans (recorded_ne_zero fun a ha => (hinv.pos a ha).2)
      exact ⟨t', _, by simp [step, hup], hspec.inv,
        ⟨_, hlogs.snoc hinv.next_nonneg hspec.next_le hdup⟩,
        fun hm => hspec.mask (hmask hm) ha.2.2⟩)
    ⟨inv_reset hs, ⟨[], rfl, rfl, rfl, by simp, by simp⟩, id⟩ hok
  have hrec : ∀ i, recorded as i ≠ 0 ↔ ∃ n, (i, n) ∈ as := fun i =>
    recorded_ne_zero fun a ha => (hinv.pos a ha).2
  refine ⟨t, os, logs, hrun, ⟨⟨hinv.next_nonneg, ?_⟩, fun i hi => ?_⟩,
    fun hne => ⟨(hrec _).mp (hinv.max hne), fun i hi => ?_⟩, hlogs, hmask⟩
  · have := (hrec t.next_).not.mp (not_not.mpr hinv.gap)
    simpa using this
  · by_contra hlt
    have := (hrec i).mp (hinv.below i hi.1 (not_le.mp hlt))
    exact this.elim hi.2
  · by_contra hlt
    exact (hrec i).mpr hi (hinv.above i (not_le.mp hlt))

theorem acker_window_gap : let s : Acker := ⟨5, 9, 63, fun _ => 3, false⟩
    let as : List (ℤ × ℤ) := [(2, 1000), (2, 500)]
    ∃ t os logs, Machine.run step (reset s) as = some (t, os) ∧
      IsLeast {i | 0 ≤ i ∧ ∀ n, (i, n) ∉ as} t.next_ ∧
      (as ≠ [] → IsGreatest {i | ∃ n, (i, n) ∈ as} t.maxseen_) ∧
      Delivers as os t.next_ logs ∧ (s.wndmask_ < 2 ^ 30 → t.wndmask_ < 2 ^ 30) := by
  intro s as
  have hm : Mask s.wndmask_ := ⟨6, le_rfl, rfl⟩
  apply acker_window hm
  refine ⟨⟨by decide, by decide, by decide⟩, fun t o ht => ⟨⟨by decide, by decide, ?_⟩,
    fun _ _ _ => trivial⟩⟩
  obtain ⟨t', bytes, hup, hspec⟩ := (inv_reset hm).update (show (0 : ℤ) ≤ 2 by decide)
    (show (0 : ℤ) < 1000 by decide)
  obtain ⟨rfl, -⟩ : t' = t ∧ _ := by simpa [step, hup] using ht
  have := hspec.inv.next_nonneg
  omega

end Ns2.Acker
