import Ns2.Queue.Red
import Ns2.Lib.Machine

/-! What random early detection keeps in every run, and how long it lets packets pass. -/

namespace Ns2

namespace REDQueue

variable {𝕜 : Type*} [Field 𝕜] [LinearOrder 𝕜] [IsStrictOrderedRing 𝕜] {c : Edp 𝕜} {v : Edv 𝕜}
  {s t : REDQueue 𝕜} {pkt : RedPacket} {u now : 𝕜} {r : ℕ} {q : List RedPacket}

/-- Parameters that make sense. -/
structure Valid (c : Edp 𝕜) : Prop where
  q_w_nonneg : 0 ≤ c.q_w
  q_w_le : c.q_w ≤ 1
  th_min : 0 ≤ c.th_min
  th_le : c.th_min ≤ c.th_max
  th_max : 0 < c.th_max
  max_p_inv : 1 ≤ c.max_p_inv
  alpha : 0 ≤ c.alpha
  beta_nonneg : 0 ≤ c.beta
  beta_le : c.beta ≤ 1
  bottom : 0 ≤ c.bottom

/-- Where adaptation keeps `cur_max_p`: within a step of its bounds. -/
def Adapted (c : Edp 𝕜) (p : 𝕜) : Prop :=
  c.adaptive = true → c.feng_adaptive = false → c.bottom * c.beta ≤ p ∧ p ≤ 5 / 4 * c.top

structure Coefficients (c : Edp 𝕜) (v : Edv 𝕜) : Prop where
  v_a : v.v_a = 1 / (if c.th_max - c.th_min = 0 then 1 else c.th_max - c.th_min)
  v_b : v.v_b = -c.th_min / (if c.th_max - c.th_min = 0 then 1 else c.th_max - c.th_min)
  v_c : c.gentle = true → v.v_c = (1 - 1 / c.max_p_inv) / c.th_max
  v_d : c.gentle = true → v.v_d = 2 * (1 / c.max_p_inv) - 1

/-- The average is one of queue lengths, probabilities are probabilities, and `cur_max_p` stays
in its range. -/
structure Bounded (c : Edp 𝕜) (v : Edv 𝕜) : Prop where
  ave_nonneg : 0 ≤ v.v_ave
  ave_le : c.qib_ = false → v.v_ave ≤ c.qlim_
  prob1 : 0 ≤ v.v_prob1 ∧ v.v_prob1 ≤ 1
  prob : 0 ≤ v.v_prob ∧ v.v_prob ≤ 1
  max_p : 0 ≤ v.cur_max_p
  adapted : Adapted c v.cur_max_p
  coefficients : Coefficients c v

structure Inv (c : Edp 𝕜) (s : REDQueue 𝕜) : Prop where
  bounded : Bounded c s.edv_
  length : c.qib_ = false → s.q_.length ≤ c.qlim_

omit [LinearOrder 𝕜] [IsStrictOrderedRing 𝕜] in
theorem decay_eq (q_w : 𝕜) (m : ℕ) (ave : 𝕜) : decay q_w m ave = ave * (1 - q_w) ^ m := by
  induction m generalizing ave with
  | zero => rw [decay, pow_zero, mul_one]
  | succ m ih => rw [decay, ih, pow_succ', mul_assoc]

/-- The average stays between zero and any bound of the average and the queue. -/
theorem average_mem (hv : Valid c) {ave b : 𝕜} {n : ℕ} (h0 : 0 ≤ ave) (hb : ave ≤ b)
    (hn : (n : 𝕜) ≤ b) (m : ℤ) : 0 ≤ average c n m ave ∧ average c n m ave ≤ b := by
  have hw := hv.q_w_nonneg
  have hw1 : 0 ≤ 1 - c.q_w := sub_nonneg.mpr hv.q_w_le
  have hpow : 0 ≤ (1 - c.q_w) ^ (m - 1).toNat := pow_nonneg hw1 _
  have hpow1 : (1 - c.q_w) ^ (m - 1).toNat ≤ 1 := pow_le_one₀ hw1 (by linarith)
  have hn0 : (0 : 𝕜) ≤ n := Nat.cast_nonneg n
  have hdecay : decay c.q_w (m - 1).toNat ave ≤ b := by
    rw [decay_eq]
    exact (mul_le_of_le_one_right h0 hpow1).trans hb
  have hdecay0 : 0 ≤ decay c.q_w (m - 1).toNat ave := by
    rw [decay_eq]
    exact mul_nonneg h0 hpow
  unfold average
  constructor
  · positivity
  · have h1 := mul_le_mul_of_nonneg_right hdecay hw1
    have h2 := mul_le_mul_of_nonneg_left hn hw
    linarith

theorem average_nonneg (hv : Valid c) {ave : 𝕜} (h0 : 0 ≤ ave) (n : ℕ) (m : ℤ) :
    0 ≤ average c n m ave :=
  (average_mem hv h0 (le_max_left ave (n : 𝕜)) (le_max_right ave (n : 𝕜)) m).1

omit [IsStrictOrderedRing 𝕜] in
/-- Only the status, `cur_max_p` and the time of the adaptation change. -/
theorem updateMaxPFeng_same (c : Edp 𝕜) (v : Edv 𝕜) (new_ave : 𝕜) :
    ∃ p st, updateMaxPFeng c v new_ave = { v with cur_max_p := p, status := st } ∧
      (p = v.cur_max_p ∨ p = v.cur_max_p / c.alpha ∨ p = v.cur_max_p * c.beta ∨
        p = v.cur_max_p / c.alpha * c.beta) := by
  unfold updateMaxPFeng
  dsimp only
  split_ifs
  all_goals first
    | exact ⟨_, _, rfl, .inl rfl⟩
    | exact ⟨_, _, rfl, .inr (.inl rfl)⟩
    | exact ⟨_, _, rfl, .inr (.inr (.inl rfl))⟩
    | exact ⟨_, _, rfl, .inr (.inr (.inr rfl))⟩

theorem updateMaxPFeng_nonneg (hv : Valid c) (hp : 0 ≤ v.cur_max_p) (new_ave : 𝕜) :
    0 ≤ (updateMaxPFeng c v new_ave).cur_max_p := by
  obtain ⟨p, st, he, hcases⟩ := updateMaxPFeng_same c v new_ave
  have halpha := hv.alpha
  have hbeta := hv.beta_nonneg
  rw [he]
  show 0 ≤ p
  rcases hcases with rfl | rfl | rfl | rfl <;> positivity

omit [IsStrictOrderedRing 𝕜] in
theorem updateMaxP_same (c : Edp 𝕜) (v : Edv 𝕜) (new_ave now : 𝕜) :
    ∃ p l, updateMaxP c v new_ave now = { v with cur_max_p := p, lastset := l } := by
  unfold updateMaxP
  dsimp only
  split_ifs <;> exact ⟨_, _, rfl⟩

/-- One adaptation leaves `cur_max_p` within a step of its bounds. -/
theorem updateMaxP_range (hv : Valid c) (hp : 0 ≤ v.cur_max_p)
    (hrange : c.bottom * c.beta ≤ v.cur_max_p ∧ v.cur_max_p ≤ 5 / 4 * c.top) (new_ave now : 𝕜) :
    0 ≤ (updateMaxP c v new_ave now).cur_max_p ∧
      c.bottom * c.beta ≤ (updateMaxP c v new_ave now).cur_max_p ∧
      (updateMaxP c v new_ave now).cur_max_p ≤ 5 / 4 * c.top := by
  have hbeta := hv.beta_nonneg
  have halpha := hv.alpha
  unfold updateMaxP
  dsimp only
  split_ifs with hlow hhigh hsmall
  · have hle : v.cur_max_p * c.beta ≤ v.cur_max_p := mul_le_of_le_one_right hp hv.beta_le
    have hge := mul_le_mul_of_nonneg_right hlow.2.le hbeta
    exact ⟨by positivity, hge, hle.trans hrange.2⟩
  · dsimp only
    refine ⟨by positivity, by linarith, ?_⟩
    linarith [hhigh.2]
  · have := not_lt.mp hsmall
    dsimp only
    refine ⟨by positivity, by linarith, ?_⟩
    linarith [hhigh.2]
  · exact ⟨hp, hrange⟩

/-- What the estimator changes. -/
theorem estimator_same (hv : Valid c) (h : Bounded c v) (n : ℕ) (m : ℤ) (now : 𝕜) :
    ∃ p l st, estimator c v n m now =
        { v with v_ave := average c n m v.v_ave, cur_max_p := p, lastset := l, status := st } ∧
      0 ≤ p ∧ Adapted c p := by
  unfold estimator
  dsimp only
  split_ifs with hadaptive hfeng hdue
  · obtain ⟨p, st, he, -⟩ := updateMaxPFeng_same c v (average c n m v.v_ave)
    have hp := updateMaxPFeng_nonneg hv h.max_p (average c n m v.v_ave)
    rw [he] at hp ⊢
    exact ⟨p, v.lastset, st, rfl, hp, fun _ hnot => absurd (hfeng.symm.trans hnot) (by simp)⟩
  · obtain ⟨p, l, he⟩ := updateMaxP_same c v (average c n m v.v_ave) now
    have hp := updateMaxP_range hv h.max_p (h.adapted hadaptive (by simpa using hfeng))
      (average c n m v.v_ave) now
    rw [he] at hp ⊢
    exact ⟨p, l, v.status, rfl, hp.1, fun _ _ => hp.2⟩
  · exact ⟨v.cur_max_p, v.lastset, v.status, rfl, h.max_p, h.adapted⟩
  · exact ⟨v.cur_max_p, v.lastset, v.status, rfl, h.max_p, h.adapted⟩

theorem Bounded.estimator (hv : Valid c) (h : Bounded c v) {n : ℕ}
    (hn : c.qib_ = false → n ≤ c.qlim_) (m : ℤ) (now : 𝕜) :
    Bounded c (estimator c v n m now) := by
  obtain ⟨p, l, st, he, hp, hadapted⟩ := estimator_same hv h n m now
  rw [he]
  refine ⟨average_nonneg hv h.ave_nonneg n m, fun hqib => ?_, h.prob1, h.prob, hp, hadapted,
    ⟨h.coefficients.v_a, h.coefficients.v_b, h.coefficients.v_c, h.coefficients.v_d⟩⟩
  have hn' : (n : 𝕜) ≤ c.qlim_ := Nat.cast_le.mpr (hn hqib)
  exact (average_mem hv h.ave_nonneg (h.ave_le hqib) hn' m).2

theorem clip_mem {p : 𝕜} (hp : 0 ≤ p) :
    0 ≤ (if p > 1 then 1 else p) ∧ (if p > 1 then 1 else p) ≤ 1 := by
  split_ifs with h
  · exact ⟨zero_le_one, le_rfl⟩
  · exact ⟨hp, not_lt.mp h⟩

/-- Above the lower threshold, the probability is not negative. -/
theorem calculate_p_new_mem (hv : Valid c) (h : Bounded c v) (hmin : c.th_min ≤ v.v_ave) :
    0 ≤ calculate_p_new c v ∧ calculate_p_new c v ≤ 1 := by
  have hinv : 0 < c.max_p_inv := lt_of_lt_of_le one_pos hv.max_p_inv
  have hm0 : 0 ≤ 1 / c.max_p_inv := by positivity
  have hm1 : 1 / c.max_p_inv ≤ 1 := (div_le_one hinv).mpr hv.max_p_inv
  have hp := h.max_p
  suffices hpos : 0 ≤ (if c.gentle ∧ v.v_ave ≥ c.th_max then v.v_c * v.v_ave + v.v_d
      else if ¬c.gentle ∧ v.v_ave ≥ c.th_max then 1
      else (v.v_a * v.v_ave + v.v_b) * v.cur_max_p) from clip_mem hpos
  split_ifs with hgentle hforced
  · rw [h.coefficients.v_c hgentle.1, h.coefficients.v_d hgentle.1]
    have hge : 1 ≤ v.v_ave / c.th_max := (one_le_div hv.th_max).mpr hgentle.2
    have hmul := mul_le_mul_of_nonneg_left hge (sub_nonneg.mpr hm1)
    have hrw : (1 - 1 / c.max_p_inv) / c.th_max * v.v_ave =
        (1 - 1 / c.max_p_inv) * (v.v_ave / c.th_max) := by ring
    rw [hrw]
    linarith
  · exact zero_le_one
  · have hdiff : 0 < if c.th_max - c.th_min = 0 then 1 else c.th_max - c.th_min := by
      split_ifs with hzero
      · exact one_pos
      · exact lt_of_le_of_ne (sub_nonneg.mpr hv.th_le) (Ne.symm hzero)
    have hrw : v.v_a * v.v_ave + v.v_b =
        (v.v_ave - c.th_min) / (if c.th_max - c.th_min = 0 then 1 else c.th_max - c.th_min) := by
      rw [h.coefficients.v_a, h.coefficients.v_b]
      ring
    rw [hrw]
    exact mul_nonneg (div_nonneg (sub_nonneg.mpr hmin) hdiff.le) hp

theorem modify_p_mem {p : 𝕜} (hp : 0 ≤ p) (count count_bytes size : ℕ) :
    0 ≤ modify_p c p count count_bytes size ∧ modify_p c p count count_bytes size ≤ 1 := by
  unfold modify_p
  apply clip_mem
  generalize (if c.bytes then ((count_bytes / c.mean_pktsize : ℕ) : 𝕜) else (count : 𝕜)) = n
  have hspread : 0 ≤ (if c.wait then
      if n * p < 1 then 0 else if n * p < 2 then p / (2 - n * p) else 1
      else if n * p < 1 then p / (1 - n * p) else 1) := by
    split_ifs with h1 h2 h3 h4
    · exact le_rfl
    · exact div_nonneg hp (by linarith)
    · exact zero_le_one
    · exact div_nonneg hp (by linarith)
    · exact zero_le_one
  generalize (if c.wait then
      if n * p < 1 then 0 else if n * p < 2 then p / (2 - n * p) else 1
      else if n * p < 1 then p / (1 - n * p) else 1) = p' at hspread
  split_ifs
  · positivity
  · exact hspread

omit [Field 𝕜] [IsStrictOrderedRing 𝕜] in
theorem hit_cases (c : Edp 𝕜) (v : Edv 𝕜) (pkt : RedPacket) (u : 𝕜) :
    (u ≤ v.v_prob ∧ (hit c v pkt u).1 = { v with count := 0, count_bytes := 0 } ∧
      (hit c v pkt u).2 ≠ .pass) ∨
    (v.v_prob < u ∧ hit c v pkt u = (v, .pass)) := by
  unfold hit
  split_ifs with hu hmark
  · exact .inl ⟨hu, rfl, by simp⟩
  · exact .inl ⟨hu, rfl, by simp⟩
  · exact .inr ⟨not_le.mp hu, rfl⟩

/-- The variables with the probabilities of this packet. -/
def tested (c : Edp 𝕜) (v : Edv 𝕜) (pkt : RedPacket) : Edv 𝕜 :=
  { v with
    v_prob1 := calculate_p_new c v
    v_prob := modify_p c (calculate_p_new c v) v.count v.count_bytes pkt.size }

omit [IsStrictOrderedRing 𝕜] in
/-- A packet passes and counts, or is hit and the counts start again. -/
theorem drop_early_cases (c : Edp 𝕜) (v : Edv 𝕜) (q : List RedPacket) (pkt : RedPacket) (u : 𝕜) :
    drop_early c v q pkt u = (tested c v pkt, .pass) ∨
    ((drop_early c v q pkt u).1 = { tested c v pkt with count := 0, count_bytes := 0 } ∧
      (drop_early c v q pkt u).2 ≠ .pass) := by
  unfold drop_early
  dsimp only
  split_ifs with hcautious hratio
  · exact .inl rfl
  · obtain ⟨-, h1, h2⟩ | ⟨-, h⟩ := hit_cases c (tested c v pkt) pkt
      (u * (1 / (qlen c q / (c.fraction * v.v_ave))))
    · exact .inr ⟨h1, h2⟩
    · exact .inl h
  · obtain ⟨-, h1, h2⟩ | ⟨-, h⟩ := hit_cases c (tested c v pkt) pkt u
    · exact .inr ⟨h1, h2⟩
    · exact .inl h

theorem Bounded.tested (hv : Valid c) (h : Bounded c v) (hmin : c.th_min ≤ v.v_ave)
    (pkt : RedPacket) : Bounded c (tested c v pkt) :=
  have hp := calculate_p_new_mem hv h hmin
  { h with
    prob1 := hp
    prob := modify_p_mem hp.1 _ _ _
    coefficients :=
      ⟨h.coefficients.v_a, h.coefficients.v_b, h.coefficients.v_c, h.coefficients.v_d⟩ }

omit [IsStrictOrderedRing 𝕜] in
/-- The counts have no part in the bounds. -/
theorem Bounded.counts (h : Bounded c v) (n m : ℕ) (old : Bool) :
    Bounded c { v with count := n, count_bytes := m, old } :=
  { h with
    coefficients :=
      ⟨h.coefficients.v_a, h.coefficients.v_b, h.coefficients.v_c, h.coefficients.v_d⟩ }

theorem Bounded.test (hv : Valid c) (h : Bounded c v) (q : List RedPacket) (pkt : RedPacket)
    (u : 𝕜) : Bounded c (test c v q pkt u).1 := by
  unfold REDQueue.test
  split_ifs with habove hforced hold
  · exact h
  · exact h.counts _ _ _
  · have htested := h.tested hv habove.1 pkt
    obtain he | ⟨he, -⟩ := drop_early_cases c v q pkt u
    · show Bounded c (drop_early c v q pkt u).1
      rw [he]
      exact htested
    · show Bounded c (drop_early c v q pkt u).1
      rw [he]
      exact htested.counts _ _ _
  · exact { h with
      prob := ⟨le_rfl, zero_le_one⟩
      coefficients :=
        ⟨h.coefficients.v_a, h.coefficients.v_b, h.coefficients.v_c, h.coefficients.v_d⟩ }

omit [Field 𝕜] [LinearOrder 𝕜] [IsStrictOrderedRing 𝕜] in
theorem pickPacketToDrop_lt (c : Edp 𝕜) {q : List RedPacket} (hq : q ≠ []) (r : ℕ) :
    pickPacketToDrop c q r < q.length := by
  have hpos : 0 < q.length := List.length_pos_iff.mpr hq
  unfold pickPacketToDrop
  split_ifs
  · omega
  · exact Nat.mod_lt _ hpos
  · omega

/-- A forced drop leaves as many packets as there were; otherwise there was room. -/
theorem Inv.place (hv : Valid c) (h : Inv c s) (pkt : RedPacket) (u : 𝕜) (r : ℕ) :
    Inv c (place c s pkt u r).1 := by
  have htest := h.bounded.test hv s.q_ pkt u
  unfold REDQueue.place
  dsimp only
  generalize (if (test c s.edv_ s.q_ pkt u).2.1 = some .mark then { pkt with ce := true }
    else pkt) = pkt'
  split_ifs with hforced hcompat hdrop
  · refine ⟨htest, fun hqib => ?_⟩
    have hlt := pickPacketToDrop_lt c (q := s.q_ ++ [pkt']) (by simp) r
    have hlen := h.length hqib
    rw [List.length_eraseIdx_of_lt hlt, List.length_append, List.length_singleton]
    omega
  · refine ⟨htest.counts _ _ _, fun hqib => ?_⟩
    have hlt := pickPacketToDrop_lt c (q := s.q_ ++ [pkt']) (by simp) r
    have hlen := h.length hqib
    rw [List.length_eraseIdx_of_lt hlt, List.length_append, List.length_singleton]
    omega
  · exact ⟨htest, h.length⟩
  · refine ⟨htest, fun hqib => ?_⟩
    have hroom := (not_or.mp hforced).2
    simp only [qlen, qlim, hqib, Bool.false_eq_true, if_false] at hroom
    rw [List.length_append, List.length_singleton]
    omega

variable [FloorRing 𝕜]

/-- The state in which `enque` places the packet. -/
def counted (c : Edp 𝕜) (s : REDQueue 𝕜) (pkt : RedPacket) (now : 𝕜) : REDQueue 𝕜 :=
  let v := estimator c s.edv_ (qlen c s.q_) (idlePackets c s now + 1) now
  { s with
    edv_ := { v with count := v.count + 1, count_bytes := v.count_bytes + pkt.size }
    idle_ := false }

theorem Inv.enque (hv : Valid c) (h : Inv c s) (pkt : RedPacket) (now u : 𝕜) (r : ℕ) :
    Inv c (enque c s pkt now u r).1 := by
  have hn : c.qib_ = false → qlen c s.q_ ≤ c.qlim_ := fun hqib => by
    rw [qlen, if_neg (by simp [hqib])]
    exact h.length hqib
  have hest := h.bounded.estimator hv hn (idlePackets c s now + 1) now
  have hinv : Inv c (counted c s pkt now) := ⟨hest.counts _ _ _, h.length⟩
  exact hinv.place hv pkt u r

omit [IsStrictOrderedRing 𝕜] [FloorRing 𝕜] in
theorem Inv.deque (h : Inv c s) (now : 𝕜) : Inv c (deque s now).1 := by
  unfold REDQueue.deque
  cases hq : s.q_ with
  | nil => exact ⟨h.bounded, fun _ => Nat.zero_le _⟩
  | cons p q =>
    refine ⟨h.bounded, fun hqib => ?_⟩
    have hlen := h.length hqib
    rw [hq, List.length_cons] at hlen
    show q.length ≤ c.qlim_
    omega

omit [FloorRing 𝕜] in
theorem inv_reset (hv : Valid c) (status : RedStatus) (now : 𝕜)
    (hadapted : Adapted c (1 / c.max_p_inv)) : Inv c (reset c status now) := by
  have hinv : 0 < c.max_p_inv := lt_of_lt_of_le one_pos hv.max_p_inv
  refine ⟨⟨le_rfl, fun _ => Nat.cast_nonneg _, ⟨le_rfl, zero_le_one⟩, ⟨le_rfl, zero_le_one⟩,
    (by positivity : (0 : 𝕜) ≤ 1 / c.max_p_inv), hadapted,
    ⟨rfl, rfl, fun h => if_pos h, fun h => if_pos h⟩⟩,
    fun _ => Nat.zero_le _⟩

/-- With parameters that make sense, in every run: the average is not negative and, in packets,
neither it nor the queue exceeds the limit; the probabilities are in the unit interval, and
adaptation keeps `cur_max_p` within a step of `bottom` and `top`. -/
theorem stays_bounded {status : RedStatus} {start : 𝕜} {is : List (Input 𝕜)} {os : List RedOutput}
    (hv : Valid c) (hadapted : Adapted c (1 / c.max_p_inv))
    (h : Machine.run (step c) (reset c status start) is = some (t, os)) :
    0 ≤ t.edv_.v_ave ∧ (c.qib_ = false → t.edv_.v_ave ≤ c.qlim_ ∧ t.q_.length ≤ c.qlim_) ∧
      (0 ≤ t.edv_.v_prob1 ∧ t.edv_.v_prob1 ≤ 1) ∧ (0 ≤ t.edv_.v_prob ∧ t.edv_.v_prob ≤ 1) ∧
      Adapted c t.edv_.cur_max_p := by
  have hok : Machine.Admits (step c) (fun _ _ => True) (reset c status start) is :=
    Machine.admits_true _ _ _
  have hinv : Inv c t := Machine.run_invariant
    (fun s i s' o hs _ hstep => by
      cases i with
      | enque pkt now u r =>
        obtain rfl : (enque c s pkt now u r).1 = s' := congrArg Prod.fst (Option.some.inj hstep)
        exact hs.enque hv pkt now u r
      | deque now =>
        obtain rfl : (deque s now).1 = s' := congrArg Prod.fst (Option.some.inj hstep)
        exact hs.deque now)
    (inv_reset hv status start hadapted) hok h
  exact ⟨hinv.bounded.ave_nonneg, fun hqib => ⟨hinv.bounded.ave_le hqib, hinv.length hqib⟩,
    hinv.bounded.prob1, hinv.bounded.prob, hinv.bounded.adapted⟩

omit [IsStrictOrderedRing 𝕜] [FloorRing 𝕜] in
theorem estimator_count (c : Edp 𝕜) (v : Edv 𝕜) (n : ℕ) (m : ℤ) (now : 𝕜) :
    (estimator c v n m now).count = v.count := by
  have hfeng : (updateMaxPFeng c v (average c n m v.v_ave)).count = v.count := by
    obtain ⟨p, st, he, -⟩ := updateMaxPFeng_same c v (average c n m v.v_ave)
    rw [he]
  have hmax : (updateMaxP c v (average c n m v.v_ave) now).count = v.count := by
    obtain ⟨p, l, he⟩ := updateMaxP_same c v (average c n m v.v_ave) now
    rw [he]
  unfold estimator
  dsimp only
  split_ifs
  · exact hfeng
  · exact hmax
  · rfl
  · rfl

/-- How many packets, times the probability, pass at most. -/
def spread (c : Edp 𝕜) : 𝕜 := if c.wait then 2 else 1

omit [FloorRing 𝕜] in
/-- The probability is less than 1 only while the count is below the spread. -/
theorem count_of_modify_p_lt {p : 𝕜} (hbytes : c.bytes = false) {count count_bytes size : ℕ}
    (h : modify_p c p count count_bytes size < 1) : count * p < spread c := by
  by_contra hge
  rw [not_lt] at hge
  have hone : modify_p c p count count_bytes size = 1 := by
    unfold modify_p spread at *
    simp only [hbytes, Bool.false_eq_true, if_false, false_and] at hge ⊢
    split_ifs at hge ⊢ <;> linarith
  exact absurd h (by rw [hone]; exact lt_irrefl 1)

omit [FloorRing 𝕜] [IsStrictOrderedRing 𝕜] in
/-- A packet that passes the test leaves the variables of the test. -/
theorem drop_early_pass (h1 : c.cautious ≠ 1) (h2 : c.cautious ≠ 2)
    (hpass : (drop_early c v q pkt u).2 = .pass) :
    (drop_early c v q pkt u).1 = tested c v pkt ∧ (tested c v pkt).v_prob < u := by
  have heq : drop_early c v q pkt u = hit c (tested c v pkt) pkt u := by
    unfold drop_early
    dsimp only
    rw [if_neg (fun h => h1 h.1), if_neg (fun h => h2 h.1)]
    rfl
  rw [heq] at hpass ⊢
  obtain ⟨-, -, hne⟩ | ⟨hlt, he⟩ := hit_cases c (tested c v pkt) pkt u
  · exact absurd hpass hne
  · exact ⟨by rw [he], hlt⟩

omit [FloorRing 𝕜] [IsStrictOrderedRing 𝕜] in
theorem place_pass (h1 : c.cautious ≠ 1) (h2 : c.cautious ≠ 2)
    (hpass : (place c s pkt u r).2.early = some .pass)
    (hkept : (place c s pkt u r).2.victim = none) :
    (place c s pkt u r).1.edv_ = tested c s.edv_ pkt ∧ (tested c s.edv_ pkt).v_prob < u := by
  have htest : (test c s.edv_ s.q_ pkt u).2.1 = some .pass →
      (test c s.edv_ s.q_ pkt u).1 = tested c s.edv_ pkt ∧ (tested c s.edv_ pkt).v_prob < u := by
    intro h
    unfold test at h ⊢
    split_ifs at h ⊢
    exact drop_early_pass h1 h2 (Option.some.inj h)
  have hearly : (place c s pkt u r).2.early = (test c s.edv_ s.q_ pkt u).2.1 := by
    unfold place
    dsimp only
    split_ifs <;> rfl
  have ht : (test c s.edv_ s.q_ pkt u).2.1 = some .pass := hearly.symm.trans hpass
  obtain ⟨hv, hlt⟩ := htest ht
  refine ⟨?_, hlt⟩
  rw [← hv]
  have hmark : (if (test c s.edv_ s.q_ pkt u).2.1 = some .mark then { pkt with ce := true }
      else pkt) = pkt := if_neg (by simp [ht])
  have hdrop : (test c s.edv_ s.q_ pkt u).2.1 ≠ some .drop := by simp [ht]
  unfold place at hkept ⊢
  dsimp only at hkept ⊢
  rw [hmark] at hkept ⊢
  by_cases hforced : (test c s.edv_ s.q_ pkt u).2.2 = true ∨ qlen c s.q_ ≥ qlim c
  · rw [if_pos hforced] at hkept
    have hlt := pickPacketToDrop_lt c (q := s.q_ ++ [pkt]) (by simp) r
    exact absurd (List.getElem?_eq_none_iff.mp hkept) (not_le.mpr hlt)
  · rw [if_neg hforced, if_neg hdrop]

/-- The packet meets a drop test with a probability of at least `p` before counting. -/
def Tested (c : Edp 𝕜) (p : 𝕜) (s : REDQueue 𝕜) : Input 𝕜 → Prop
  | .enque pkt now u r => u ≤ 1 ∧ (enque c s pkt now u r).2.early ≠ none ∧
      p ≤ (enque c s pkt now u r).1.edv_.v_prob1
  | .deque _ => True

def arrivals (is : List (Input 𝕜)) : ℕ :=
  is.countP fun
    | .enque _ _ _ _ => true
    | .deque _ => false

/-- A mark or a drop. -/
def RedOutput.Signals (o : RedOutput) : Prop := o.early = some .mark ∨ o.victim ≠ none

omit [IsStrictOrderedRing 𝕜] [FloorRing 𝕜] in
/-- A packet that the test drops is the victim, if not another one is. -/
theorem place_drop (h : (place c s pkt u r).2.early = some .drop) :
    (place c s pkt u r).2.victim ≠ none := by
  intro hnone
  unfold place at h hnone
  dsimp only at h hnone
  generalize (if (test c s.edv_ s.q_ pkt u).2.1 = some .mark then { pkt with ce := true }
    else pkt) = pkt' at h hnone
  by_cases hforced : (test c s.edv_ s.q_ pkt u).2.2 = true ∨ qlen c s.q_ ≥ qlim c
  · rw [if_pos hforced] at hnone
    have hlt := pickPacketToDrop_lt c (q := s.q_ ++ [pkt']) (by simp) r
    exact absurd (List.getElem?_eq_none_iff.mp hnone) (not_le.mpr hlt)
  · rw [if_neg hforced] at h hnone
    split_ifs at h hnone with hdrop
    exact hdrop h

/-- A packet that passes is one more, and the count stays below the spread. -/
theorem enque_pass {p : 𝕜} (hbytes : c.bytes = false) (h1 : c.cautious ≠ 1)
    (h2 : c.cautious ≠ 2) (ht : Tested c p s (.enque pkt now u r))
    (hquiet : ¬ RedOutput.Signals (enque c s pkt now u r).2) :
    (enque c s pkt now u r).1.edv_.count = s.edv_.count + 1 ∧
      (enque c s pkt now u r).1.edv_.count * p < spread c := by
  obtain ⟨hu, hsome, hprob⟩ := ht
  rw [RedOutput.Signals, not_or, not_not] at hquiet
  have heq : enque c s pkt now u r = place c (counted c s pkt now) pkt u r := rfl
  rw [heq] at hsome hprob hquiet ⊢
  have hpass : (place c (counted c s pkt now) pkt u r).2.early = some .pass := by
    cases he : (place c (counted c s pkt now) pkt u r).2.early with
    | none => exact absurd he hsome
    | some e =>
      cases e with
      | pass => rfl
      | mark => exact absurd he hquiet.1
      | drop => exact absurd hquiet.2 (place_drop he)
  obtain ⟨hv, hlt⟩ := place_pass h1 h2 hpass hquiet.2
  rw [hv] at hprob ⊢
  have hcount : (tested c (counted c s pkt now).edv_ pkt).count = s.edv_.count + 1 :=
    congrArg (· + 1) (estimator_count ..)
  refine ⟨hcount, ?_⟩
  have hone := count_of_modify_p_lt hbytes (lt_of_lt_of_le hlt hu)
  have hle : (tested c (counted c s pkt now).edv_ pkt).count * p ≤
      (counted c s pkt now).edv_.count * calculate_p_new c (counted c s pkt now).edv_ :=
    mul_le_mul_of_nonneg_left hprob (Nat.cast_nonneg _)
  exact lt_of_le_of_lt hle hone

omit [Field 𝕜] [LinearOrder 𝕜] [FloorRing 𝕜] [IsStrictOrderedRing 𝕜] in
theorem deque_edv (s : REDQueue 𝕜) (now : 𝕜) : (deque s now).1.edv_ = s.edv_ := by
  unfold deque
  split <;> rfl

/-- While nothing is marked or dropped, the arrivals count and stay below the spread. -/
theorem count_of_quiet {p : 𝕜} (hbytes : c.bytes = false) (h1 : c.cautious ≠ 1)
    (h2 : c.cautious ≠ 2) {is : List (Input 𝕜)} {os : List RedOutput}
    (ht : Machine.Admits (step c) (Tested c p) s is)
    (h : Machine.run (step c) s is = some (t, os)) (hquiet : ∀ o ∈ os, ¬ o.Signals) :
    t.edv_.count = s.edv_.count + arrivals is ∧
      (arrivals is ≠ 0 → t.edv_.count * p < spread c) := by
  induction is generalizing s os with
  | nil =>
    cases h
    exact ⟨rfl, fun hne => absurd rfl hne⟩
  | cons i is ih =>
    obtain ⟨m, o, os', hs, hrest, rfl⟩ := Machine.run_cons_eq_some h
    obtain ⟨hcount, hlt⟩ := ih (ht.2 m o hs) hrest fun o ho => hquiet o (List.mem_cons_of_mem _ ho)
    cases i with
    | enque pkt now u r =>
      have hm : (enque c s pkt now u r).1 = m := congrArg Prod.fst (Option.some.inj hs)
      have ho : (enque c s pkt now u r).2 = o := congrArg Prod.snd (Option.some.inj hs)
      obtain ⟨hnext, hbelow⟩ :=
        enque_pass hbytes h1 h2 ht.1 (ho ▸ hquiet o List.mem_cons_self)
      rw [hm] at hnext hbelow
      have hsum : arrivals (.enque pkt now u r :: is) = arrivals is + 1 :=
        List.countP_cons_of_pos rfl
      refine ⟨by rw [hcount, hnext, hsum]; omega, fun _ => ?_⟩
      by_cases hzero : arrivals is = 0
      · rw [hcount, hzero, Nat.add_zero]
        exact hbelow
      · exact hlt hzero
    | deque now =>
      have hm : (deque s now).1 = m := congrArg Prod.fst (Option.some.inj hs)
      have hsum : arrivals (.deque now :: is) = arrivals is := List.countP_cons_of_neg (by simp)
      rw [← hm, deque_edv] at hcount
      rw [hsum]
      exact ⟨hcount, hlt⟩

/-- Early drop does not wait for luck: among so many packets that each meet a drop test with a
probability of at least `p`, one is marked or dropped, whatever the random numbers are. -/
theorem signals_within {p : 𝕜} (hp : 0 ≤ p) (hbytes : c.bytes = false) (h1 : c.cautious ≠ 1)
    (h2 : c.cautious ≠ 2) {is : List (Input 𝕜)} {os : List RedOutput}
    (ht : Machine.Admits (step c) (Tested c p) s is)
    (h : Machine.run (step c) s is = some (t, os)) (hmany : spread c ≤ arrivals is * p) :
    ∃ o ∈ os, o.Signals := by
  by_contra hnone
  simp only [not_exists, not_and] at hnone
  obtain ⟨hcount, hlt⟩ := count_of_quiet hbytes h1 h2 ht h hnone
  have hspread : 0 < spread c := by
    unfold spread
    split_ifs
    · exact two_pos
    · exact one_pos
  have hne : arrivals is ≠ 0 := by
    intro hzero
    rw [hzero, Nat.cast_zero, zero_mul] at hmany
    exact absurd hmany (not_le.mpr hspread)
  have hle : (arrivals is : 𝕜) * p ≤ t.edv_.count * p := by
    rw [hcount]
    exact mul_le_mul_of_nonneg_right (Nat.cast_le.mpr (Nat.le_add_left _ _)) hp
  exact absurd (hmany.trans hle) (not_le.mpr (hlt hne))

/-- Thresholds of 5 and 15 packets, and a queue of 20. -/
def plain (𝕜 : Type*) [Field 𝕜] : Edp 𝕜 where
  mean_pktsize := 500
  idle_pktsize := 100
  bytes := false
  wait := false
  setbit := false
  gentle := false
  th_min := 5
  th_max := 10 + 5
  max_p_inv := 1
  mark_p := 1 / 10
  use_mark_p := false
  q_w := 1 / 2
  adaptive := false
  cautious := 0
  alpha := 1 / 10
  beta := 4 / 5
  interval := 1 / 2
  top := 1 / 2
  bottom := 0
  feng_adaptive := false
  ptc := 1
  fraction := 1
  qlim_ := 20
  qib_ := false
  drop_front_ := false
  drop_rand_ := false
  ns1_compat_ := false

def packet (uid : ℕ) : RedPacket := ⟨uid, 500, false, false⟩

/-- An average of 10 packets, which a queue of 10 packets keeps. -/
def half : REDQueue ℚ :=
  { reset (plain ℚ) .Between 0 with
    edv_ := { (reset (plain ℚ) .Between 0).edv_ with v_ave := 10, old := true }
    idle_ := false
    q_ := (List.range 10).map packet }

instance (c : Edp ℚ) (p : ℚ) (s : REDQueue ℚ) : ∀ i, Decidable (Tested c p s i)
  | .enque _ _ _ _ => inferInstanceAs (Decidable (_ ∧ _ ∧ _))
  | .deque _ => inferInstanceAs (Decidable True)

theorem stays_bounded_plain : ∃ t os,
    Machine.run (step (plain ℚ)) (reset (plain ℚ) .Below 0) [.enque (packet 0) 0 1 0, .deque 1] =
      some (t, os) ∧
    0 ≤ t.edv_.v_ave ∧ ((plain ℚ).qib_ = false → t.edv_.v_ave ≤ (plain ℚ).qlim_ ∧
      t.q_.length ≤ (plain ℚ).qlim_) ∧
    (0 ≤ t.edv_.v_prob1 ∧ t.edv_.v_prob1 ≤ 1) ∧ (0 ≤ t.edv_.v_prob ∧ t.edv_.v_prob ≤ 1) ∧
    Adapted (plain ℚ) t.edv_.cur_max_p := by
  have hrun : (Machine.run (step (plain ℚ)) (reset (plain ℚ) .Below 0)
      [.enque (packet 0) 0 1 0, .deque 1]).isSome = true := rfl
  obtain ⟨⟨t, os⟩, h⟩ := Option.isSome_iff_exists.mp hrun
  refine ⟨t, os, h, stays_bounded ?_ (fun h => by cases h) h⟩
  constructor <;> norm_num [plain]

/-- Two packets at a probability of a half. -/
theorem signals_within_half : ∃ t os,
    Machine.run (step (plain ℚ)) half [.enque (packet 10) 0 1 0, .enque (packet 11) 0 1 0] =
      some (t, os) ∧ ∃ o ∈ os, o.Signals := by
  have hrun : (Machine.run (step (plain ℚ)) half
      [.enque (packet 10) 0 1 0, .enque (packet 11) 0 1 0]).isSome = true := rfl
  obtain ⟨⟨t, os⟩, h⟩ := Option.isSome_iff_exists.mp hrun
  refine ⟨t, os, h, signals_within (p := 1 / 2) (by norm_num) rfl (by decide) (by decide)
    (by decide +kernel) h ?_⟩
  norm_num [spread, plain, arrivals]

end REDQueue

end Ns2
