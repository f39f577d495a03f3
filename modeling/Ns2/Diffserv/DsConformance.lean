import Ns2.Diffserv.DsPolicy
import Ns2.Lib.TokenBucket

/-! What the policies let pass: the bytes of a policy that keep their code point stay below the
committed burst and rate, and those that are not marked last below the excess or the peak ones. -/

namespace Ns2

open TokenBucket

namespace PolicyTableEntry

/-- The policy has a committed bucket. -/
def Metered (p : PolicyTableEntry) : Prop :=
  p.policy_index = .TB ∨ p.policy_index = .SRTCM ∨ p.policy_index = .TRTCM

/-- The parameters, without what the meters change. -/
def fixed (p : PolicyTableEntry) : PolicyTableEntry :=
  { p with cBucket := 0, eBucket := 0, pBucket := 0, arrivalTime := 0, avgRate := 0 }

/-- The rates are not negative, and no bucket holds less than nothing or more than its burst. -/
structure Valid (p : PolicyTableEntry) : Prop where
  cir : 0 ≤ p.cir
  committed : p.Metered → 0 ≤ p.cBucket ∧ p.cBucket ≤ p.cbs
  excess : p.policy_index = .SRTCM → 0 ≤ p.eBucket ∧ p.eBucket ≤ p.ebs
  peak : p.policy_index = .TRTCM → 0 ≤ p.pir ∧ 0 ≤ p.pBucket ∧ p.pBucket ≤ p.pbs

theorem fixed_eq {p q : PolicyTableEntry} (h : q.fixed = p.fixed) :
    q.policy_index = p.policy_index ∧ q.cir = p.cir ∧ q.cbs = p.cbs ∧ q.ebs = p.ebs ∧
      q.pir = p.pir ∧ q.pbs = p.pbs := by
  simp only [fixed, mk.injEq] at h
  tauto

end PolicyTableEntry

open PolicyTableEntry

/-- What a meter leaves in its bucket. -/
theorem if_le_eq_refill (burst rate level last now : ℚ) :
    (if level + rate * (now - last) ≤ burst then level + rate * (now - last) else burst) =
      refill burst rate level last now := (min_def ..).symm

namespace PolicyClassifier

variable {p : PolicyTableEntry} {policer : PolicerTableEntry} {flows : List FlowEntry}
  {i : PolicyInput}

/-- The bytes of a packet, if its marking is one of those given. -/
def bytes (good : Marking → Prop) [DecidablePred good] (m : Marking) (i : PolicyInput) : ℚ :=
  if good m then i.size else 0

theorem apply_fixed (p : PolicyTableEntry) (policer : PolicerTableEntry) (flows : List FlowEntry)
    (i : PolicyInput) : (apply p policer flows i).1.fixed = p.fixed := by
  rw [apply]
  cases h : p.policy_index with
  | Null => rfl
  | TSW2CM => rfl
  | TSW3CM => rfl
  | TB =>
    dsimp only [TBPolicy.applyPolicer]
    split_ifs <;> rfl
  | SRTCM =>
    dsimp only [SRTCMPolicy.applyPolicer, SRTCMPolicy.applyMeter]
    split_ifs <;> rfl
  | TRTCM =>
    dsimp only [TRTCMPolicy.applyPolicer]
    split_ifs <;> rfl
  | SFD => rfl

theorem SRTCM_applyMeter (p : PolicyTableEntry) (i : PolicyInput) :
    (SRTCMPolicy.applyMeter p i).cBucket = refill p.cbs p.cir p.cBucket p.arrivalTime i.now ∧
      (SRTCMPolicy.applyMeter p i).arrivalTime = i.now := by
  rw [SRTCMPolicy.applyMeter, ← if_le_eq_refill]
  dsimp only
  split_ifs <;> exact ⟨rfl, rfl⟩

/-- Tokens that the committed bucket has no room for go to the excess bucket. -/
theorem SRTCM_applyMeter_excess (he : p.eBucket ≤ p.ebs) (hrate : 0 ≤ p.cir)
    (hnow : p.arrivalTime ≤ i.now) :
    (SRTCMPolicy.applyMeter p i).cBucket + (SRTCMPolicy.applyMeter p i).eBucket =
        refill (p.cbs + p.ebs) p.cir (p.cBucket + p.eBucket) p.arrivalTime i.now ∧
      p.eBucket ≤ (SRTCMPolicy.applyMeter p i).eBucket ∧
      (SRTCMPolicy.applyMeter p i).eBucket ≤ p.ebs := by
  have htokens := mul_nonneg hrate (sub_nonneg.mpr hnow)
  rw [SRTCMPolicy.applyMeter, refill]
  dsimp only
  split_ifs with h1 h2
  · refine ⟨?_, le_rfl, he⟩
    rw [min_eq_left (by linarith)]
    ring
  · refine ⟨?_, by linarith, h2⟩
    rw [min_eq_left (by linarith)]
    ring
  · exact ⟨(min_eq_right (by linarith)).symm, he, le_rfl⟩

/-- The committed bucket pays for the packets that keep their code point, and for no others. -/
theorem committed_pays (hm : p.Metered) (policer : PolicerTableEntry) (flows : List FlowEntry)
    (i : PolicyInput) :
    (apply p policer flows i).1.arrivalTime = i.now ∧
      bytes (· = .initialCodePt) (apply p policer flows i).2.2 i +
        (apply p policer flows i).1.cBucket = refill p.cbs p.cir p.cBucket p.arrivalTime i.now ∧
      ((apply p policer flows i).2.2 = .initialCodePt →
        0 ≤ (apply p policer flows i).1.cBucket) := by
  rcases hm with h | h | h
  · simp only [apply, h, TBPolicy.applyPolicer, TBPolicy.applyMeter, if_le_eq_refill]
    split_ifs with hc
    · exact ⟨rfl, by simp [bytes], fun _ => hc⟩
    · exact ⟨rfl, by simp [bytes], fun h => by cases h⟩
  · obtain ⟨hc, ht⟩ := SRTCM_applyMeter p i
    simp only [apply, h, SRTCMPolicy.applyPolicer]
    split_ifs with h1 h2
    · exact ⟨ht, by simp [bytes, hc], fun _ => h1⟩
    · exact ⟨ht, by simp [bytes, hc], fun h => by cases h⟩
    · exact ⟨ht, by simp [bytes, hc], fun h => by cases h⟩
  · simp only [apply, h, TRTCMPolicy.applyPolicer, TRTCMPolicy.applyMeter, if_le_eq_refill]
    split_ifs with h1 h2
    · exact ⟨rfl, by simp [bytes], fun h => by cases h⟩
    · exact ⟨rfl, by simp [bytes], fun h => by cases h⟩
    · exact ⟨rfl, by simp [bytes], fun _ => not_lt.mp h2⟩

/-- With one rate, a packet loses its code point only if the bucket has not enough for it. -/
theorem committed_short (hm : p.policy_index = .TB ∨ p.policy_index = .SRTCM)
    (hmark : (apply p policer flows i).2.2 ≠ .initialCodePt) :
    refill p.cbs p.cir p.cBucket p.arrivalTime i.now < i.size := by
  rcases hm with h | h
  · simp only [apply, h, TBPolicy.applyPolicer, TBPolicy.applyMeter, if_le_eq_refill] at hmark
    split_ifs at hmark with hc
    · exact absurd rfl hmark
    · linarith
  · obtain ⟨hc, -⟩ := SRTCM_applyMeter p i
    simp only [apply, h, SRTCMPolicy.applyPolicer, hc] at hmark
    split_ifs at hmark with h1 h2
    · exact absurd rfl hmark
    · linarith
    · linarith

/-- Both buckets together pay for the packets that are not marked last. -/
theorem excess_pays (h : p.policy_index = .SRTCM) (hv : p.Valid) (hnow : p.arrivalTime ≤ i.now)
    (policer : PolicerTableEntry) (flows : List FlowEntry) :
    bytes (· ≠ .downgrade2) (apply p policer flows i).2.2 i +
        ((apply p policer flows i).1.cBucket + (apply p policer flows i).1.eBucket) =
        refill (p.cbs + p.ebs) p.cir (p.cBucket + p.eBucket) p.arrivalTime i.now ∧
      (0 ≤ (i.size : ℚ) → (apply p policer flows i).1.eBucket ≤ p.ebs) ∧
      0 ≤ (apply p policer flows i).1.eBucket := by
  obtain ⟨he, hle⟩ := hv.excess h
  obtain ⟨htotal, hge, hebs⟩ := SRTCM_applyMeter_excess hle hv.cir hnow
  simp only [apply, h, SRTCMPolicy.applyPolicer]
  split_ifs with h1 h2
  · refine ⟨?_, fun _ => hebs, he.trans hge⟩
    rw [bytes, if_pos (fun h => by cases h), ← htotal]
    ring
  · refine ⟨?_, fun hsize => by dsimp only; linarith, h2⟩
    rw [bytes, if_pos (fun h => by cases h), ← htotal]
    ring
  · exact ⟨by simp [bytes, ← htotal], fun _ => hebs, he.trans hge⟩

/-- The peak bucket pays for the packets that are not marked last. -/
theorem peak_pays (h : p.policy_index = .TRTCM) (policer : PolicerTableEntry)
    (flows : List FlowEntry) (i : PolicyInput) :
    (apply p policer flows i).1.arrivalTime = i.now ∧
      bytes (· ≠ .downgrade2) (apply p policer flows i).2.2 i +
        (apply p policer flows i).1.pBucket = refill p.pbs p.pir p.pBucket p.arrivalTime i.now ∧
      ((apply p policer flows i).2.2 ≠ .downgrade2 → 0 ≤ (apply p policer flows i).1.pBucket) ∧
      ((apply p policer flows i).2.2 = .downgrade2 →
        refill p.pbs p.pir p.pBucket p.arrivalTime i.now < i.size) := by
  simp only [apply, h, TRTCMPolicy.applyPolicer, TRTCMPolicy.applyMeter, if_le_eq_refill]
  split_ifs with h1 h2
  · exact ⟨rfl, by simp [bytes], fun h => absurd rfl h, fun _ => by linarith⟩
  · exact ⟨rfl, by simp [bytes], fun _ => not_lt.mp h1, fun h => by cases h⟩
  · exact ⟨rfl, by simp [bytes], fun _ => not_lt.mp h1, fun h => by cases h⟩

/-- Marking keeps the buckets in their bounds. -/
theorem apply_valid (hv : p.Valid) (hnow : p.arrivalTime ≤ i.now) (hsize : 0 ≤ i.size)
    (policer : PolicerTableEntry) (flows : List FlowEntry) : (apply p policer flows i).1.Valid := by
  have hfixed := apply_fixed p policer flows i
  generalize hr : apply p policer flows i = r at hfixed
  obtain ⟨hindex, hcir, hcbs, hebs, hpir, hpbs⟩ := fixed_eq hfixed
  have hbytes : ∀ (good : Marking → Prop) [DecidablePred good] (m : Marking),
      0 ≤ bytes good m i := fun good _ m => by
    rw [bytes]
    split_ifs
    · exact_mod_cast hsize
    · exact le_rfl
  refine ⟨hcir ▸ hv.cir, fun hm => ?_, fun hs => ?_, fun ht => ?_⟩
  · rw [Metered, hindex] at hm
    obtain ⟨hc, hle⟩ := hv.committed hm
    obtain ⟨-, hpays, hpos⟩ := committed_pays hm policer flows i
    rw [hr] at hpays hpos
    have hrefill := refill_le p.cbs p.cir p.cBucket p.arrivalTime i.now
    have hge := refill_nonneg hv.cir hnow hc hle
    have hb := hbytes (· = .initialCodePt) r.2.2
    refine ⟨?_, by linarith⟩
    by_cases hgreen : r.2.2 = .initialCodePt
    · exact hpos hgreen
    · rw [bytes, if_neg hgreen, zero_add] at hpays
      rw [hpays]
      exact hge
  · rw [hindex] at hs
    obtain ⟨-, hle, hpos⟩ := excess_pays hs hv hnow policer flows
    rw [hr] at hle hpos
    rw [hebs]
    exact ⟨hpos, hle (by exact_mod_cast hsize)⟩
  · rw [hindex] at ht
    obtain ⟨hpir0, hp, hple⟩ := hv.peak ht
    obtain ⟨-, hpays, hpos, -⟩ := peak_pays ht policer flows i
    rw [hr] at hpays hpos
    have hrefill := refill_le p.pbs p.pir p.pBucket p.arrivalTime i.now
    have hge := refill_nonneg hpir0 hnow hp hple
    have hb := hbytes (· ≠ .downgrade2) r.2.2
    refine ⟨hpir ▸ hpir0, ?_, by linarith⟩
    by_cases hred : r.2.2 = .downgrade2
    · rw [bytes, if_neg (not_not.mpr hred), zero_add] at hpays
      rw [hpays]
      exact hge
    · exact hpos hred

/-- The clock does not go back, and sizes are not negative. -/
def Timely (s : PolicyClassifier) (i : PolicyInput) : Prop :=
  0 ≤ i.size ∧ ∀ p ∈ s.policyTable, p.arrivalTime ≤ i.now

/-- When a packet of a policy arrived, and its size, if its marking is one of those given. -/
def sent (good : Marking → Prop) [DecidablePred good] (k : ℕ) (i : PolicyInput) (m : Mark) :
    Option (ℚ × ℚ) :=
  if m.policy = k ∧ good m.marking then some (i.now, i.size) else none

/-- The times and sizes of the packets of a policy with one of the markings given. -/
def arrivals (good : Marking → Prop) [DecidablePred good] (k : ℕ) (is : List PolicyInput)
    (os : List Mark) : List (ℚ × ℚ) :=
  (is.zip os).filterMap fun x => sent good k x.1 x.2

variable {s t : PolicyClassifier} {m : Mark} {k : ℕ}

theorem mark_spec (h : s.mark i = some (t, m)) : ∃ p policer,
    s.policyTable[m.policy]? = some p ∧ m.marking = (apply p policer s.flow_table i).2.2 ∧
      ∀ k, t.policyTable[k]? =
        if m.policy = k then some (apply p policer s.flow_table i).1 else s.policyTable[k]? := by
  obtain ⟨n, -, h⟩ := Option.bind_eq_some_iff.mp h
  obtain ⟨p, hp, h⟩ := Option.bind_eq_some_iff.mp h
  obtain ⟨policer, -, h⟩ := Option.map_eq_some_iff.mp h
  obtain ⟨rfl, rfl⟩ := Prod.mk.inj h
  refine ⟨p, policer, hp, rfl, fun k => ?_⟩
  have hlt : n < s.policyTable.length := (List.getElem?_eq_some_iff.mp hp).1
  dsimp only
  rw [List.getElem?_set, if_pos hlt]

/-- The policy at a place of the table, with its parameters. -/
def At (k : ℕ) (r : PolicyTableEntry) (s : PolicyClassifier) : Prop :=
  ∃ p, s.policyTable[k]? = some p ∧ p.Valid ∧ p.fixed = r.fixed

/-- A bucket of the policy at a place of the table. -/
def level (f : PolicyTableEntry → ℚ) (k : ℕ) (s : PolicyClassifier) : ℚ :=
  (s.policyTable[k]?).elim 0 f

theorem level_eq {f : PolicyTableEntry → ℚ} (h : s.policyTable[k]? = some p) :
    s.level f k = f p := by
  rw [level, h, Option.elim_some]

/-- What one packet does to a policy. -/
theorem At.step {r : PolicyTableEntry} (hs : s.At k r) (hi : s.Timely i)
    (h : s.mark i = some (t, m)) : t.At k r ∧ ∃ p, s.policyTable[k]? = some p ∧ p.Valid ∧
      p.fixed = r.fixed ∧ p.arrivalTime ≤ i.now ∧
      (m.policy ≠ k → t.policyTable[k]? = some p) ∧
      (m.policy = k → ∃ policer, m.marking = (apply p policer s.flow_table i).2.2 ∧
        t.policyTable[k]? = some (apply p policer s.flow_table i).1) := by
  obtain ⟨p, hp, hv, hfixed⟩ := hs
  obtain ⟨q, policer, hq, hmark, ht⟩ := mark_spec h
  have hnow := hi.2 p (List.mem_of_getElem? hp)
  by_cases hk : m.policy = k
  · have hqp : q = p := by
      rw [hk, hp] at hq
      exact (Option.some.inj hq).symm
    have htk := ht k
    rw [if_pos hk, hqp] at htk
    rw [hqp] at hmark
    exact ⟨⟨_, htk, apply_valid hv hnow hi.1 policer _, (apply_fixed p policer _ i).trans hfixed⟩,
      p, hp, hv, hfixed, hnow, fun hne => absurd hk hne, fun _ => ⟨policer, hmark, htk⟩⟩
  · have htk := ht k
    rw [if_neg hk, hp] at htk
    exact ⟨⟨p, htk, hv, hfixed⟩, p, hp, hv, hfixed, hnow, fun _ => htk, fun he => absurd he hk⟩

section

variable {r : PolicyTableEntry} {burst rate : ℚ} {f : PolicyTableEntry → ℚ}
  {good : Marking → Prop} [DecidablePred good] {is : List PolicyInput} {os : List Mark}

/-- Packets of sizes that are not negative arrive in the order of their times. -/
structure Orderly (s : PolicyClassifier) (is : List PolicyInput) : Prop where
  size : ∀ i ∈ is, 0 ≤ i.size
  sorted : is.Pairwise fun i j => i.now ≤ j.now
  start : ∀ p ∈ s.policyTable, ∀ i ∈ is, p.arrivalTime ≤ i.now

theorem apply_arrivalTime (p : PolicyTableEntry) (policer : PolicerTableEntry)
    (flows : List FlowEntry) (i : PolicyInput) :
    (apply p policer flows i).1.arrivalTime = i.now ∨
      (apply p policer flows i).1.arrivalTime = p.arrivalTime := by
  by_cases hm : p.Metered
  · exact .inl (committed_pays hm policer flows i).1
  · rw [Metered] at hm
    rw [apply]
    cases h : p.policy_index with
    | Null => exact .inl rfl
    | TSW2CM => exact .inl rfl
    | TSW3CM => exact .inl rfl
    | SFD => exact .inr rfl
    | _ => simp [h] at hm

theorem Orderly.admits (ho : s.Orderly is) : Machine.Admits mark Timely s is := by
  induction is generalizing s with
  | nil => trivial
  | cons i is ih =>
    obtain ⟨hall, hsorted⟩ := List.pairwise_cons.mp ho.sorted
    refine ⟨⟨ho.size i (by simp), fun p hp => ho.start p hp i (by simp)⟩, fun t m h => ih ?_⟩
    refine ⟨fun j hj => ho.size j (by simp [hj]), hsorted, fun q hq j hj => ?_⟩
    obtain ⟨p, policer, hp, -, ht⟩ := mark_spec h
    obtain ⟨k, hk⟩ := List.getElem?_of_mem hq
    rw [ht k] at hk
    split_ifs at hk with hkm
    · obtain rfl := Option.some.inj hk
      rcases apply_arrivalTime p policer s.flow_table i with heq | heq
      · exact heq.trans_le (hall j hj)
      · exact heq.trans_le (ho.start p (List.mem_of_getElem? hp) j (by simp [hj]))
    · exact ho.start q (List.mem_of_getElem? hk) j (by simp [hj])

/-- A bucket that pays for some of the markings bounds them. -/
theorem conforms_of_pays (hpos : ∀ p, p.Valid → p.fixed = r.fixed → 0 ≤ f p)
    (hpays : ∀ p policer flows i, p.Valid → p.fixed = r.fixed → p.arrivalTime ≤ i.now →
      (apply p policer flows i).1.arrivalTime = i.now ∧
      bytes good (apply p policer flows i).2.2 i + f (apply p policer flows i).1 =
        refill burst rate (f p) p.arrivalTime i.now)
    (hs : s.At k r) (hok : Machine.Admits mark Timely s is)
    (h : Machine.run mark s is = some (t, os)) :
    Conforms burst rate (arrivals good k is os) := by
  refine (fits_iff.mp (fits_of_pays (I := At k r) (level f k) (level arrivalTime k)
    (sent good k) (fun s ⟨p, hp, hv, hfix⟩ => ?_) ?_ hs hok h)).2
  · rw [level_eq hp]
    exact hpos p hv hfix
  · intro s i s' m hs hi hstep
    obtain ⟨hs', p, hp, hv, hfix, hnow, hother, hself⟩ := hs.step hi hstep
    rw [level_eq hp, level_eq hp]
    by_cases hk : m.policy = k
    · obtain ⟨policer, hmark, ht⟩ := hself hk
      obtain ⟨harr, hpay⟩ := hpays p policer s.flow_table i hv hfix hnow
      rw [level_eq ht, level_eq ht, harr, sent, hmark]
      refine ⟨hs', fun hsel => ?_, fun q hsel => ?_⟩
      · have hbad : ¬ good (apply p policer s.flow_table i).2.2 :=
          fun hg => by simp [hk, hg] at hsel
        rw [bytes, if_neg hbad, zero_add] at hpay
        rw [hpay]
        exact min_le_left _ _
      · split_ifs at hsel with hg
        obtain rfl := Option.some.inj hsel
        rw [bytes, if_pos hg.2] at hpay
        exact ⟨rfl, hpay.le⟩
    · have ht := hother hk
      rw [level_eq ht, level_eq ht, sent, if_neg (fun hg => hk hg.1)]
      exact ⟨hs', fun _ => by simp, fun q hsel => by simp at hsel⟩

theorem At.of_getElem? (hp : s.policyTable[k]? = some p) (hv : p.Valid) : s.At k p :=
  ⟨p, hp, hv, rfl⟩

/-- A policy of all hosts with full buckets. -/
def meter (index : PolicyType) : PolicyTableEntry :=
  ⟨-1, -1, index, 10, 1, 10, 10, 5, 5, 2, 12, 12, 0, 0, 0⟩

/-- The tables of an edge queue with that policy. -/
def edge (index : PolicyType) : PolicyClassifier :=
  ⟨[meter index], [⟨10, 11, 12, index⟩], []⟩

def packets : List PolicyInput := [⟨0, 1, 0, 10, 0, 0⟩, ⟨0, 1, 0, 4, 1, 0⟩, ⟨0, 1, 0, 9, 2, 0⟩]

theorem meter_valid (index : PolicyType) : (meter index).Valid := by
  constructor <;> norm_num [meter]

theorem packets_orderly (index : PolicyType) : (edge index).Orderly packets := by
  refine ⟨by decide, by decide +kernel, ?_⟩
  rw [edge, List.forall_mem_singleton]
  change ∀ i ∈ packets, (0 : ℚ) ≤ i.now
  decide +kernel

/-- Whatever arrives, what keeps its code point stays below the committed burst and rate. -/
theorem green_conforms (hp : s.policyTable[k]? = some p) (hm : p.Metered) (hv : p.Valid)
    (ho : s.Orderly is) (h : Machine.run mark s is = some (t, os)) :
    Conforms p.cbs p.cir (arrivals (· = .initialCodePt) k is os) := by
  refine conforms_of_pays (r := p) (f := cBucket) (fun q hq hfix => ?_)
    (fun q policer flows i _ hfix _ => ?_) (At.of_getElem? hp hv) ho.admits h
  · exact (hq.committed (by rwa [Metered, (fixed_eq hfix).1])).1
  · obtain ⟨hindex, hcir, hcbs, -⟩ := fixed_eq hfix
    rw [← hcir, ← hcbs]
    obtain ⟨hnow, hpays, -⟩ := committed_pays (by rwa [Metered, hindex]) policer flows i
    exact ⟨hnow, hpays⟩

theorem green_conforms_edge : ∃ t os, Machine.run mark (edge .SRTCM) packets = some (t, os) ∧
    Conforms 10 1 (arrivals (· = .initialCodePt) 0 packets os) := by
  have hrun : (Machine.run mark (edge .SRTCM) packets).isSome = true := by decide +kernel
  obtain ⟨⟨t, os⟩, h⟩ := Option.isSome_iff_exists.mp hrun
  exact ⟨t, os, h, green_conforms (p := meter .SRTCM) rfl (.inr (.inl rfl)) (meter_valid _)
    (packets_orderly _) h⟩

/-- The burst and the rate of what a three color meter does not mark last. -/
def yellowBurst (p : PolicyTableEntry) : ℚ :=
  if p.policy_index = .SRTCM then p.cbs + p.ebs else p.pbs

def yellowRate (p : PolicyTableEntry) : ℚ :=
  if p.policy_index = .SRTCM then p.cir else p.pir

/-- What is not marked last stays below the burst and the rate of both buckets of a single rate
meter, and of the peak bucket of a two rate meter. -/
theorem yellow_conforms (hp : s.policyTable[k]? = some p)
    (hm : p.policy_index = .SRTCM ∨ p.policy_index = .TRTCM) (hv : p.Valid) (ho : s.Orderly is)
    (h : Machine.run mark s is = some (t, os)) :
    Conforms (yellowBurst p) (yellowRate p) (arrivals (· ≠ .downgrade2) k is os) := by
  rcases hm with hm | hm
  · rw [yellowBurst, yellowRate, if_pos hm, if_pos hm]
    refine conforms_of_pays (r := p) (f := fun q => q.cBucket + q.eBucket)
      (fun q hq hfix => ?_) (fun q policer flows i hq hfix hnow => ?_) (At.of_getElem? hp hv)
      ho.admits h
    · have hindex := (fixed_eq hfix).1.trans hm
      exact add_nonneg (hq.committed (.inr (.inl hindex))).1 (hq.excess hindex).1
    · obtain ⟨hindex, hcir, hcbs, hebs, -⟩ := fixed_eq hfix
      have hsr := hindex.trans hm
      rw [← hcir, ← hcbs, ← hebs]
      exact ⟨(committed_pays (.inr (.inl hsr)) policer flows i).1,
        (excess_pays hsr hq hnow policer flows).1⟩
  · rw [yellowBurst, yellowRate, if_neg (by rw [hm]; decide), if_neg (by rw [hm]; decide)]
    refine conforms_of_pays (r := p) (f := pBucket) (fun q hq hfix => ?_)
      (fun q policer flows i _ hfix _ => ?_) (At.of_getElem? hp hv) ho.admits h
    · exact (hq.peak ((fixed_eq hfix).1.trans hm)).2.1
    · obtain ⟨hindex, -, -, -, hpir, hpbs⟩ := fixed_eq hfix
      rw [← hpir, ← hpbs]
      obtain ⟨hnow, hpays, -⟩ := peak_pays (hindex.trans hm) policer flows i
      exact ⟨hnow, hpays⟩

theorem yellow_conforms_edge : ∃ t os, Machine.run mark (edge .SRTCM) packets = some (t, os) ∧
    Conforms (yellowBurst (meter .SRTCM)) 1 (arrivals (· ≠ .downgrade2) 0 packets os) := by
  have hrun : (Machine.run mark (edge .SRTCM) packets).isSome = true := by decide +kernel
  obtain ⟨⟨t, os⟩, h⟩ := Option.isSome_iff_exists.mp hrun
  exact ⟨t, os, h, yellow_conforms (p := meter .SRTCM) rfl (by decide) (meter_valid _)
    (packets_orderly _) h⟩

/-- A bucket that is full at the start and short only of what it refuses refuses nothing if and
only if all that arrives conforms. -/
theorem none_refused_iff (good : Marking → Prop) [DecidablePred good]
    (hpays : ∀ q policer flows i, q.Valid → q.fixed = p.fixed →
      q.arrivalTime ≤ i.now → (apply q policer flows i).1.arrivalTime = i.now ∧
      bytes good (apply q policer flows i).2.2 i + f (apply q policer flows i).1 =
        refill burst rate (f q) q.arrivalTime i.now ∧
      (good (apply q policer flows i).2.2 → 0 ≤ f (apply q policer flows i).1) ∧
      (¬ good (apply q policer flows i).2.2 →
        refill burst rate (f q) q.arrivalTime i.now < i.size))
    (hp : s.policyTable[k]? = some p) (hv : p.Valid) (hrate : 0 ≤ rate) (hfull : f p = burst)
    (ho : s.Orderly is) (h : Machine.run mark s is = some (t, os)) :
    (∀ x ∈ is.zip os, x.2.policy = k → good x.2.marking) ↔
      Conforms burst rate (arrivals (fun _ => True) k is os) := by
  have hiff := all_good_iff_fits (I := At k p) burst rate (level f k) (level arrivalTime k)
    (sent (fun _ => True) k) (fun _ m => good m.marking) ?_ (At.of_getElem? hp hv) ho.admits h
  · rw [level_eq hp, level_eq hp, hfull, fits_full_iff hrate] at hiff
    · rw [arrivals, ← hiff]
      exact forall₂_congr fun x _ => by simp [sent]
    · intro q hq
      obtain ⟨x, hx, hsent⟩ := List.mem_filterMap.mp (List.mem_of_mem_head? hq)
      rw [sent] at hsent
      split_ifs at hsent
      obtain rfl := Option.some.inj hsent
      exact ho.start p (List.mem_of_getElem? hp) x.1 (List.of_mem_zip hx).1
  · intro s i s' m hs hi hstep
    obtain ⟨hs', q, hq, hv', hfix, hnow, hother, hself⟩ := hs.step hi hstep
    refine ⟨hs', fun hsel => ?_, fun x hsel => ?_⟩
    · have hk : m.policy ≠ k := fun hk => by simp [sent, hk] at hsel
      rw [level_eq hq, level_eq hq, level_eq (hother hk), level_eq (hother hk)]
      exact ⟨rfl, rfl⟩
    · have hk : m.policy = k := by_contra fun hk => by simp [sent, hk] at hsel
      rw [sent, if_pos ⟨hk, trivial⟩] at hsel
      obtain rfl := Option.some.inj hsel
      obtain ⟨policer, hmark, ht⟩ := hself hk
      obtain ⟨harr, hpay, hgood, hbad⟩ := hpays q policer s.flow_table i hv' hfix hnow
      rw [level_eq ht, level_eq ht, level_eq hq, level_eq hq, hmark]
      refine ⟨harr, fun hg => ⟨?_, hgood hg⟩, hbad⟩
      rw [← hpay, bytes, if_pos hg]

/-- With a full bucket, a policy of one rate leaves every packet its code point if and only if what
arrives stays below the committed burst and rate. -/
theorem all_green_iff (hp : s.policyTable[k]? = some p)
    (hm : p.policy_index = .TB ∨ p.policy_index = .SRTCM) (hv : p.Valid)
    (hfull : p.cBucket = p.cbs) (ho : s.Orderly is) (h : Machine.run mark s is = some (t, os)) :
    (∀ x ∈ is.zip os, x.2.policy = k → x.2.marking = .initialCodePt) ↔
      Conforms p.cbs p.cir (arrivals (fun _ => True) k is os) := by
  refine none_refused_iff (· = .initialCodePt) (f := cBucket)
    (fun q policer flows i _ hfix _ => ?_) hp hv hv.cir hfull ho h
  obtain ⟨hindex, hcir, hcbs, -⟩ := fixed_eq hfix
  rw [← hcir, ← hcbs]
  rw [← hindex] at hm
  obtain ⟨hnow, hpays, hpos⟩ :=
    committed_pays (hm.elim .inl (fun hs => .inr (.inl hs))) policer flows i
  exact ⟨hnow, hpays, hpos, committed_short hm⟩

theorem all_green_iff_edge : ∃ t os, Machine.run mark (edge .TB) packets = some (t, os) ∧
    ((∀ x ∈ packets.zip os, x.2.policy = 0 → x.2.marking = .initialCodePt) ↔
      Conforms 10 1 (arrivals (fun _ => True) 0 packets os)) := by
  have hrun : (Machine.run mark (edge .TB) packets).isSome = true := by decide +kernel
  obtain ⟨⟨t, os⟩, h⟩ := Option.isSome_iff_exists.mp hrun
  exact ⟨t, os, h, all_green_iff (p := meter .TB) rfl (by decide) (meter_valid _) rfl
    (packets_orderly _) h⟩

/-- With a full peak bucket, a two rate meter marks no packet last if and only if what arrives stays
below the peak burst and rate. -/
theorem none_red_iff (hp : s.policyTable[k]? = some p) (hm : p.policy_index = .TRTCM) (hv : p.Valid)
    (hfull : p.pBucket = p.pbs) (ho : s.Orderly is) (h : Machine.run mark s is = some (t, os)) :
    (∀ x ∈ is.zip os, x.2.policy = k → x.2.marking ≠ .downgrade2) ↔
      Conforms p.pbs p.pir (arrivals (fun _ => True) k is os) := by
  refine none_refused_iff (· ≠ .downgrade2) (f := pBucket)
    (fun q policer flows i _ hfix _ => ?_) hp hv (hv.peak hm).1 hfull ho h
  obtain ⟨hindex, -, -, -, hpir, hpbs⟩ := fixed_eq hfix
  rw [← hpir, ← hpbs]
  obtain ⟨hnow, hpays, hpos, hshort⟩ := peak_pays (hindex.trans hm) policer flows i
  exact ⟨hnow, hpays, hpos, fun hred => hshort (not_not.mp hred)⟩

theorem none_red_iff_edge : ∃ t os, Machine.run mark (edge .TRTCM) packets = some (t, os) ∧
    ((∀ x ∈ packets.zip os, x.2.policy = 0 → x.2.marking ≠ .downgrade2) ↔
      Conforms 12 2 (arrivals (fun _ => True) 0 packets os)) := by
  have hrun : (Machine.run mark (edge .TRTCM) packets).isSome = true := by decide +kernel
  obtain ⟨⟨t, os⟩, h⟩ := Option.isSome_iff_exists.mp hrun
  exact ⟨t, os, h, none_red_iff (p := meter .TRTCM) rfl rfl (meter_valid _) rfl
    (packets_orderly _) h⟩

end

end PolicyClassifier

end Ns2
