import Mathlib.Algebra.BigOperators.Group.Finset.Basic
import Mathlib.Algebra.Order.BigOperators.Group.Finset
import Ns2.Queue.SrrMatrix

/-! Smoothed round robin over runs: the counters, the matrix, and the order of packets. -/

namespace Ns2

namespace SRR

open Finset

variable {π : Type*} (h : SRRHeaders π)

def bytes (l : List π) : ℤ := (l.map fun p => (h.size p : ℤ)).sum

/-- The counters are those of the packets that are stored, and of a last packet of some size. -/
structure Counts (s : SRR π) (last : Option ℕ) (size : ℤ) : Prop where
  pkts : ∀ q, (s.srr q).pkts = (s.srr q).queue.length + if last = some q then 1 else 0
  bcount : ∀ q, (s.srr q).bcount = bytes h (s.srr q).queue + if last = some q then size else 0
  pktcnt : s.pktcnt = ∑ q ∈ range maxFlow, (s.srr q).pkts
  bytecnt : s.bytecnt = ∑ q ∈ range maxFlow, (s.srr q).bcount
  home : ∀ q, ∀ p ∈ (s.srr q).queue, h.flowid p < maxFlow ∧ s.config.f2q (h.flowid p) = q
  outside : ∀ q, maxFlow ≤ q → (s.srr q).queue = []
  last_lt : ∀ q, last = some q → q < maxFlow
  deficit : ∀ q, 0 ≤ (s.srr q).deficitCounter
  size_nonneg : 0 ≤ size

/-- A queue with packets has a node in the columns of its weight. -/
def InMatrix (s : SRR π) (n : WmNode) : Prop :=
  0 < (s.srr n.queueid).pkts ∧ (s.config.weight n.queueid).testBit n.weight = true

structure Inv (s : SRR π) (last : Option ℕ) (size : ℤ) : Prop where
  counts : s.Counts h last size
  matrix : s.Holds s.InMatrix
  ptr : s.PtrOk
  valid : s.config.Valid

variable {h} {s t : SRR π} {last last' : Option ℕ} {size size' : ℤ} {b : ℕ}

theorem sum_change (f g : ℕ → ℤ) {n : ℕ} (hb : b < n) (hfg : ∀ x, x ≠ b → g x = f x) :
    ∑ x ∈ range n, g x = ∑ x ∈ range n, f x + (g b - f b) := by
  rw [← add_sum_erase _ g (mem_range.mpr hb), ← add_sum_erase _ f (mem_range.mpr hb),
    sum_congr rfl fun x hx => hfg x (ne_of_mem_erase hx)]
  ring

theorem Counts.pkts_outside (hc : s.Counts h last size) {q : ℕ} (hq : maxFlow ≤ q) :
    (s.srr q).pkts = 0 := by
  rw [hc.pkts, hc.outside q hq, if_neg fun hl => absurd (hc.last_lt q hl) (not_lt.mpr hq)]
  rfl

theorem Counts.pkts_nonneg (hc : s.Counts h last size) (q : ℕ) : 0 ≤ (s.srr q).pkts := by
  rw [hc.pkts]
  split_ifs <;> omega

theorem bytes_nonneg (l : List π) : 0 ≤ bytes h l := by
  apply List.sum_nonneg
  intro x hx
  obtain ⟨p, -, rfl⟩ := List.mem_map.mp hx
  exact Int.natCast_nonneg _

theorem bytes_concat (l : List π) (p : π) : bytes h (l ++ [p]) = bytes h l + h.size p := by
  simp [bytes]

theorem bytes_cons (p : π) (l : List π) : bytes h (p :: l) = h.size p + bytes h l := by
  simp [bytes]

theorem Counts.bcount_nonneg (hc : s.Counts h last size) (q : ℕ) : 0 ≤ (s.srr q).bcount := by
  have h1 := bytes_nonneg (h := h) (s.srr q).queue
  have h2 := hc.size_nonneg
  rw [hc.bcount]
  split_ifs <;> omega

/-- One queue changes, and the totals with it. -/
theorem Counts.change (hc : s.Counts h last size) (hb : b < maxFlow)
    (hconfig : t.config = s.config) (hother : ∀ x, x ≠ b → t.srr x = s.srr x)
    (hl : ∀ x, x ≠ b → (last' = some x ↔ last = some x))
    (hsize : ∀ x, x ≠ b → last = some x → size' = size)
    (hpkts : (t.srr b).pkts = (t.srr b).queue.length + if last' = some b then 1 else 0)
    (hbcount : (t.srr b).bcount = bytes h (t.srr b).queue + if last' = some b then size' else 0)
    (hpktcnt : t.pktcnt = s.pktcnt + ((t.srr b).pkts - (s.srr b).pkts))
    (hbytecnt : t.bytecnt = s.bytecnt + ((t.srr b).bcount - (s.srr b).bcount))
    (hhome : ∀ p ∈ (t.srr b).queue, h.flowid p < maxFlow ∧ s.config.f2q (h.flowid p) = b)
    (hdeficit : 0 ≤ (t.srr b).deficitCounter) (hnonneg : 0 ≤ size') :
    t.Counts h last' size' := by
  refine ⟨fun q => ?_, fun q => ?_, ?_, ?_, fun q => ?_, fun q hq => ?_, fun q hq => ?_,
    fun q => ?_, hnonneg⟩
  · by_cases hq : q = b
    · rw [hq, hpkts]
    · rw [hother q hq, hc.pkts, if_congr (hl q hq) rfl rfl]
  · by_cases hq : q = b
    · rw [hq, hbcount]
    · rw [hother q hq, hc.bcount, if_congr (hl q hq) rfl rfl]
      split_ifs with hlast
      · rw [hsize q hq hlast]
      · rfl
  · rw [hpktcnt, hc.pktcnt]
    exact (sum_change (fun q => (s.srr q).pkts) (fun q => (t.srr q).pkts) hb fun x hx =>
      congrArg _ (hother x hx)).symm
  · rw [hbytecnt, hc.bytecnt]
    exact (sum_change (fun q => (s.srr q).bcount) (fun q => (t.srr q).bcount) hb fun x hx =>
      congrArg _ (hother x hx)).symm
  · by_cases hq : q = b
    · rw [hq, hconfig]
      exact hhome
    · rw [hother q hq, hconfig]
      exact hc.home q
  · rw [hother q (by omega)]
    exact hc.outside q hq
  · by_cases hqb : q = b
    · rw [hqb]
      exact hb
    · exact hc.last_lt q ((hl q hqb).mp hq)
  · by_cases hq : q = b
    · rw [hq]
      exact hdeficit
    · rw [hother q hq]
      exact hc.deficit q

/-- What does not touch queues and counters. -/
theorem Counts.same (hc : s.Counts h last size) (hs : SameQueues s t) : t.Counts h last size := by
  obtain ⟨h1, h2, h3, h4, h5, h6, h7, h8, h9⟩ := hc
  refine ⟨?_, ?_, ?_, ?_, ?_, ?_, h7, ?_, h9⟩
  · rwa [hs.srr]
  · rwa [hs.srr]
  · rwa [hs.srr, hs.pktcnt]
  · rwa [hs.srr, hs.bytecnt]
  · rwa [hs.srr, hs.config]
  · rwa [hs.srr]
  · rwa [hs.srr]

theorem inMatrix_same (hs : SameQueues s t) (n : WmNode) : t.InMatrix n ↔ s.InMatrix n := by
  rw [InMatrix, InMatrix, hs.srr, hs.config]

@[simp] theorem modify_self (s : SRR π) (q : ℕ) (f : PacketSRR π → PacketSRR π) :
    (s.modify q f).srr q = f (s.srr q) := Function.update_self ..

theorem modify_other (s : SRR π) {q x : ℕ} (f : PacketSRR π → PacketSRR π) (hx : x ≠ q) :
    (s.modify q f).srr x = s.srr x := Function.update_of_ne hx ..

/-- A change that is not of the matrix and of the sets of queues with packets. -/
theorem Inv.of_counts (hi : s.Inv h last size) (hc : t.Counts h last' size')
    (hconfig : t.config = s.config) (hpos : ∀ q, 0 < (t.srr q).pkts ↔ 0 < (s.srr q).pkts)
    (hcol : t.column = s.column) (hrow : t.row = s.row) (hcurr : t.pwmCurr = s.pwmCurr)
    (hflag : t.wmEmptyFlag = s.wmEmptyFlag) (hmax : t.currMaxColumn = s.currMaxColumn)
    (hptr : t.ptr = s.ptr) : t.Inv h last' size' := by
  refine ⟨hc, ?_, ?_, hconfig ▸ hi.valid⟩
  · refine (hi.matrix.of_eq hcol hrow hcurr hflag hmax).congr fun n => ?_
    rw [InMatrix, InMatrix, hpos, hconfig]
  · have := hi.ptr
    rwa [PtrOk, order, hptr, hmax]

theorem weight_ne_zero {c : SRRConfig} (hc : c.Valid) {q : ℕ} (hq : q < maxFlow) :
    c.weight q ≠ 0 :=
  Nat.pos_iff_ne_zero.mp (Nat.div_pos (hc.rates q hq).1 hc.granularity)

/-- A queue with packets has a node. -/
theorem Inv.exists_node (hi : s.Inv h last size) {q : ℕ} (hq : 0 < (s.srr q).pkts) :
    ∃ n, s.InMatrix n ∧ n.queueid = q := by
  have hlt : q < maxFlow := by
    by_contra hge
    rw [hi.counts.pkts_outside (not_lt.mp hge)] at hq
    exact lt_irrefl 0 hq
  obtain ⟨k, hk⟩ := Nat.exists_testBit_of_ne_zero (weight_ne_zero hi.valid hlt)
  exact ⟨⟨q, k⟩, ⟨hq, hk⟩, rfl⟩

/-- What an arriving packet changes of the queues. -/
theorem Inv.enque (hi : s.Inv h s.last_queueid s.last_size) {p : π} (hp : h.flowid p < maxFlow) :
    ∃ t o, s.enque h p = some (t, o) ∧ t.Inv h t.last_queueid t.last_size ∧
      (o = .dropped p ∧ t = s ∨ ∃ q, o = .stored q p ∧ (t.srr q).queue = (s.srr q).queue ++ [p] ∧
        ∀ x, x ≠ q → (t.srr x).queue = (s.srr x).queue) := by
  obtain ⟨hle, hlt⟩ := hi.valid.queues _ hp
  rw [SRR.enque]
  dsimp only
  rw [if_neg (by omega)]
  by_cases hfull : (s.srr (s.config.f2q (h.flowid p))).pkts = s.config.qlim_
  · rw [if_pos hfull]
    exact ⟨s, _, rfl, hi, .inl ⟨rfl, rfl⟩⟩
  rw [if_neg hfull]
  obtain ⟨b, hb⟩ : ∃ b, s.config.f2q (h.flowid p) = b := ⟨_, rfl⟩
  rw [hb] at hlt ⊢
  have hold := hi.counts.pkts b
  obtain ⟨u, hu⟩ : ∃ u : SRR π, { s.modify b fun q =>
      { q with queue := q.queue ++ [p], pkts := q.pkts + 1, bcount := q.bcount + h.size p } with
        pktcnt := s.pktcnt + 1, bytecnt := s.bytecnt + h.size p } = u := ⟨_, rfl⟩
  have hself : u.srr b = { s.srr b with
      queue := (s.srr b).queue ++ [p]
      pkts := (s.srr b).pkts + 1
      bcount := (s.srr b).bcount + h.size p } := by
    rw [← hu]
    exact Function.update_self ..
  have hother : ∀ x, x ≠ b → u.srr x = s.srr x := fun x hx => by
    rw [← hu]
    exact Function.update_of_ne hx ..
  have hcounts : u.Counts h s.last_queueid s.last_size := by
    refine hi.counts.change hlt (by rw [← hu]; rfl) hother (fun x _ => Iff.rfl) (fun x _ _ => rfl)
      ?_ ?_ ?_ ?_ ?_ ?_ hi.counts.size_nonneg
    · rw [hself]
      dsimp only
      rw [hold, List.length_append, List.length_singleton]
      push_cast
      ring
    · rw [hself]
      dsimp only
      rw [hi.counts.bcount b, bytes_concat]
      ring
    · rw [hself, ← hu]
      dsimp only
      ring
    · rw [hself, ← hu]
      dsimp only
      ring
    · rw [hself]
      intro p' hp'
      rcases List.mem_append.mp hp' with hp' | hp'
      · exact hi.counts.home b p' hp'
      · rw [List.mem_singleton.mp hp']
        exact ⟨hp, hb⟩
    · rw [hself]
      exact hi.counts.deficit b
  have hqueue : ∀ x, x ≠ b → (u.srr x).queue = (s.srr x).queue := fun x hx => by rw [hother x hx]
  have hlast : u.last_queueid = s.last_queueid ∧ u.last_size = s.last_size := by
    rw [← hu]
    exact ⟨rfl, rfl⟩
  have hgoal : ∃ t o, (if (u.srr b).pkts = 1 then
      (u.add_to_WM b (u.config.weight b)).map fun s =>
        (s.modify b fun q => { q with deficitCounter := 0 }, Out.stored b p)
    else some (u, Out.stored b p)) = some (t, o) ∧ t.Inv h t.last_queueid t.last_size ∧
      (o = .dropped p ∧ t = s ∨ ∃ q, o = .stored q p ∧ (t.srr q).queue = (s.srr q).queue ++ [p] ∧
        ∀ x, x ≠ q → (t.srr x).queue = (s.srr x).queue) := by
    have hconfig : u.config = s.config := by rw [← hu]; rfl
    by_cases hone : (u.srr b).pkts = 1
    · -- the queue becomes active
      have hzero : (s.srr b).pkts = 0 := by
        rw [hself] at hone
        dsimp only at hone
        omega
      have hmatrix : u.Holds s.InMatrix := by
        rw [← hu]
        exact hi.matrix.of_eq rfl rfl rfl rfl rfl
      have hptr : u.PtrOk := by
        rw [← hu]
        exact hi.ptr
      have hw := weight_ne_zero hi.valid hlt
      obtain ⟨v, hv, hvm, hvp, hvs, hvl⟩ := hmatrix.add_to_WM hptr (q := b)
        (w := u.config.weight b) (fun n hn hP => by rw [InMatrix, hn, hzero] at hP; omega)
        (by rw [hconfig]; exact hw) (by rw [hconfig]; exact (hi.valid.rates b hlt).2)
      rw [if_pos hone, hv]
      have hvc := hcounts.same hvs
      have hsrr : ∀ x, ((v.modify b fun q => { q with deficitCounter := 0 }).srr x).queue =
          (u.srr x).queue := fun x => by
        by_cases hx : x = b
        · rw [hx, modify_self, hvs.srr]
        · rw [modify_other _ _ hx, hvs.srr]
      have hpkts : ∀ x, ((v.modify b fun q => { q with deficitCounter := 0 }).srr x).pkts =
          (u.srr x).pkts := fun x => by
        by_cases hx : x = b
        · rw [hx, modify_self, hvs.srr]
        · rw [modify_other _ _ hx, hvs.srr]
      refine ⟨_, _, rfl, ⟨?_, ?_, hvp, ?_⟩, .inr ⟨b, rfl, ?_, fun x hx => ?_⟩⟩
      · change Counts h _ v.last_queueid v.last_size
        rw [hvl, hvs.last_size, hlast.1, hlast.2]
        refine hvc.change hlt rfl (fun x hx => modify_other _ _ hx) (fun x _ => Iff.rfl)
          (fun x _ _ => rfl) ?_ ?_ ?_ ?_ ?_ ?_ hi.counts.size_nonneg
        · rw [modify_self]
          exact hvc.pkts b
        · rw [modify_self]
          exact hvc.bcount b
        · rw [modify_self]
          change v.pktcnt = _
          ring
        · rw [modify_self]
          change v.bytecnt = _
          ring
        · rw [modify_self]
          exact hvc.home b
        · rw [modify_self]
      · refine Holds.of_eq (hvm.congr fun n => ?_) rfl rfl rfl rfl rfl
        rw [InMatrix, hpkts]
        change _ ∧ (v.config.weight n.queueid).testBit n.weight = true ↔ _
        rw [hvs.config, hconfig, InMatrix]
        by_cases hn : n.queueid = b
        · rw [hn, hone, hzero]
          simp
        · rw [hother _ hn]
          simp [hn]
      · change v.config.Valid
        rw [hvs.config, hconfig]
        exact hi.valid
      · rw [hsrr, hself]
      · rw [hsrr, hqueue x hx]
    · rw [if_neg hone]
      refine ⟨_, _, rfl, ?_, .inr ⟨b, rfl, by rw [hself], hqueue⟩⟩
      rw [hlast.1, hlast.2]
      have hnonneg := hi.counts.pkts_nonneg b
      refine hi.of_counts hcounts hconfig (fun q => ?_) ?_ ?_ ?_ ?_ ?_ ?_
      · by_cases hq : q = b
        · rw [hq]
          rw [hself] at hone ⊢
          dsimp only at hone ⊢
          omega
        · rw [hother q hq]
      all_goals
        rw [← hu]
        rfl
  rw [← hu] at hgoal
  exact hgoal

/-- The last packet handed out is taken off the counters. -/
theorem Inv.settle (hi : s.Inv h s.last_queueid s.last_size) :
    ∃ t, s.settle = some t ∧ t.Inv h none 0 ∧ t.last_size = s.last_size ∧
      ∀ x, (t.srr x).queue = (s.srr x).queue := by
  rw [SRR.settle]
  cases hlast : s.last_queueid with
  | none =>
    rw [hlast] at hi
    obtain ⟨h1, h2, h3, h4, h5, h6, h7, h8, -⟩ := hi.counts
    refine ⟨s, rfl, ⟨⟨h1, fun q => ?_, h3, h4, h5, h6, h7, h8, le_rfl⟩, hi.matrix, hi.ptr,
      hi.valid⟩, rfl, fun x => rfl⟩
    rw [h2]
    rfl
  | some b =>
    rw [hlast] at hi
    have hlt := hi.counts.last_lt b rfl
    have hpkts := hi.counts.pkts b
    have hbcount := hi.counts.bcount b
    rw [if_pos rfl] at hpkts hbcount
    dsimp only
    obtain ⟨u, hu⟩ : ∃ u : SRR π, { s.modify b fun q =>
        { q with bcount := q.bcount - s.last_size, pkts := q.pkts - 1 } with
          pktcnt := s.pktcnt - 1, bytecnt := s.bytecnt - s.last_size } = u := ⟨_, rfl⟩
    have hself : u.srr b = { s.srr b with
        bcount := (s.srr b).bcount - s.last_size, pkts := (s.srr b).pkts - 1 } := by
      rw [← hu]
      exact Function.update_self ..
    have hother : ∀ x, x ≠ b → u.srr x = s.srr x := fun x hx => by
      rw [← hu]
      exact Function.update_of_ne hx ..
    have hconfig : u.config = s.config := by rw [← hu]; rfl
    have hqueue : ∀ x, (u.srr x).queue = (s.srr x).queue := fun x => by
      by_cases hx : x = b
      · rw [hx, hself]
      · rw [hother x hx]
    have hcounts : u.Counts h none 0 := by
      refine hi.counts.change hlt hconfig hother (fun x hx => ?_) (fun x hx he => ?_) ?_ ?_ ?_ ?_ ?_
        ?_ le_rfl
      · exact iff_of_false (Option.some_ne_none x).symm fun he => hx (Option.some.inj he).symm
      · exact absurd (Option.some.inj he).symm hx
      · rw [hself, if_neg (Option.some_ne_none b).symm]
        dsimp only
        omega
      · rw [hself, if_neg (Option.some_ne_none b).symm]
        dsimp only
        omega
      · rw [hself, ← hu]
        dsimp only
        ring
      · rw [hself, ← hu]
        dsimp only
        ring
      · rw [hself]
        exact hi.counts.home b
      · rw [hself]
        exact hi.counts.deficit b
    have hgoal : ∃ t, (if (u.srr b).pkts = 0 then
        (u.modify b fun q => { q with turn := false, deficitCounter := 0 }).del_from_WM b
        else some u) = some t ∧ t.Inv h none 0 ∧ t.last_size = s.last_size ∧
          ∀ x, (t.srr x).queue = (s.srr x).queue := by
      by_cases hzero : (u.srr b).pkts = 0
      · -- the queue leaves the matrix
        rw [if_pos hzero]
        obtain ⟨v, hv⟩ : ∃ v : SRR π,
            (u.modify b fun q => { q with turn := false, deficitCounter := 0 }) = v := ⟨_, rfl⟩
        have hvself : v.srr b = { u.srr b with turn := false, deficitCounter := 0 } := by
          rw [← hv]
          exact modify_self ..
        have hvother : ∀ x, x ≠ b → v.srr x = u.srr x := fun x hx => by
          rw [← hv]
          exact modify_other _ _ hx
        have hvc : v.Counts h none 0 := by
          refine hcounts.change hlt (by rw [← hv]; rfl) hvother (fun x _ => Iff.rfl)
            (fun x _ _ => rfl) ?_ ?_ ?_ ?_ ?_ ?_ le_rfl
          · rw [hvself]
            exact hcounts.pkts b
          · rw [hvself]
            exact hcounts.bcount b
          · rw [hvself, ← hv]
            change u.pktcnt = _
            ring
          · rw [hvself, ← hv]
            change u.bytecnt = _
            ring
          · rw [hvself]
            exact hcounts.home b
          · rw [hvself]
        have hvm : v.Holds s.InMatrix := by
          rw [← hv, ← hu]
          exact hi.matrix.of_eq rfl rfl rfl rfl rfl
        have hvp : v.PtrOk := by
          rw [← hv, ← hu]
          exact hi.ptr
        have hvconfig : v.config = s.config := by rw [← hv, ← hconfig]; rfl
        obtain ⟨t, ht, htm, htp, hts, -⟩ :=
          hvm.del_from_WM hvp (hi.exists_node (q := b) (by omega))
        rw [hv]
        refine ⟨t, ht, ⟨hvc.same hts, htm.congr fun n => ?_, htp, ?_⟩, ?_, fun x => ?_⟩
        · rw [inMatrix_same hts, InMatrix, hvconfig, InMatrix]
          by_cases hn : n.queueid = b
          · rw [hn, hvself]
            dsimp only
            rw [hzero]
            exact iff_of_false (fun hP => lt_irrefl 0 hP.1) fun hP => hP.2 rfl
          · rw [hvother _ hn, hother _ hn]
            exact (and_iff_left hn).symm
        · rw [hts.config, hvconfig]
          exact hi.valid
        · rw [hts.last_size, ← hv, ← hu]
          rfl
        · rw [hts.srr, ← hqueue]
          by_cases hx : x = b
          · rw [hx, hvself]
          · rw [hvother x hx]
      · rw [if_neg hzero]
        refine ⟨u, rfl, hi.of_counts hcounts hconfig (fun q => ?_) ?_ ?_ ?_ ?_ ?_ ?_, ?_, hqueue⟩
        · by_cases hq : q = b
          · have hnonneg := hcounts.pkts_nonneg b
            rw [hq]
            omega
          · rw [hother q hq]
        all_goals
          rw [← hu]
          rfl
    rw [← hu] at hgoal
    exact hgoal

/-- What a queue lacks for its first packet, and a turn that has begun. -/
def need (h : SRRHeaders π) (q : PacketSRR π) : ℕ :=
  match q.queue with
  | [] => 0
  | p :: _ => 2 * (h.size p - q.deficitCounter).toNat + if q.turn then 1 else 0

/-- A failed turn takes something off the need. -/
theorem need_beginTurn {q : PacketSRR π} {p : π} {rest : List π} (hq : q.queue = p :: rest)
    {mtu : ℤ} (hmtu : 0 < mtu) (hless : (beginTurn mtu q).deficitCounter < h.size p) :
    need h { beginTurn mtu q with turn := false } < need h q := by
  have hqueue : (beginTurn mtu q).queue = p :: rest := by
    rw [beginTurn]
    split_ifs <;> exact hq
  rw [need, need, hq]
  dsimp only
  rw [hqueue]
  rw [beginTurn] at hless ⊢
  by_cases hturn : q.turn = true
  · rw [if_pos hturn] at hless ⊢
    dsimp only
    rw [if_neg Bool.false_ne_true, if_pos hturn]
    omega
  · rw [if_neg hturn] at hless ⊢
    dsimp only at hless ⊢
    rw [if_neg Bool.false_ne_true, if_neg hturn]
    omega

theorem Counts.need_le (hc : s.Counts h none 0) :
    ∑ q ∈ range maxFlow, need h (s.srr q) ≤ 2 * s.bytecnt.toNat + maxFlow := by
  have hone : ∀ q, need h (s.srr q) ≤ 2 * ((s.srr q).bcount).toNat + 1 := fun q => by
    have hdef := hc.deficit q
    rw [need, hc.bcount, if_neg (Option.some_ne_none q).symm]
    cases hq : (s.srr q).queue with
    | nil => exact Nat.zero_le _
    | cons p rest =>
      have := bytes_nonneg (h := h) rest
      rw [bytes_cons]
      dsimp only
      split_ifs <;> omega
  have hbytes : (∑ q ∈ range maxFlow, ((s.srr q).bcount).toNat : ℕ) = s.bytecnt.toNat := by
    have hcast : ((∑ q ∈ range maxFlow, ((s.srr q).bcount).toNat : ℕ) : ℤ) = s.bytecnt := by
      rw [hc.bytecnt]
      push_cast
      exact sum_congr rfl fun q _ => Int.toNat_of_nonneg (hc.bcount_nonneg q)
    omega
  calc ∑ q ∈ range maxFlow, need h (s.srr q)
      ≤ ∑ q ∈ range maxFlow, (2 * ((s.srr q).bcount).toNat + 1) := sum_le_sum fun q _ => hone q
    _ = 2 * ∑ q ∈ range maxFlow, ((s.srr q).bcount).toNat + maxFlow := by
      rw [sum_add_distrib, mul_sum, sum_const, card_range, smul_eq_mul, mul_one]
    _ = 2 * s.bytecnt.toNat + maxFlow := by rw [hbytes]

/-- The loop hands out the first packet of some queue. -/
theorem Inv.dequeLoop {fuel : ℕ} (hi : s.Inv h none 0) (hstored : ∃ q, 0 < (s.srr q).pkts)
    (hfuel : ∑ q ∈ range maxFlow, need h (s.srr q) < fuel) :
    ∃ t q p, s.dequeLoop h fuel = some (t, .sent q p) ∧ t.Inv h t.last_queueid t.last_size ∧
      (s.srr q).queue = p :: (t.srr q).queue ∧
      ∀ x, x ≠ q → (t.srr x).queue = (s.srr x).queue := by
  induction fuel generalizing s with
  | zero => exact absurd hfuel (Nat.not_lt_zero _)
  | succ fuel ih =>
    obtain ⟨q0, hq0⟩ := hstored
    obtain ⟨n0, hn0, -⟩ := hi.exists_node hq0
    obtain ⟨c, hc⟩ := Option.ne_none_iff_exists'.mp (hi.matrix.points ⟨n0, hn0⟩)
    obtain ⟨hpos, -⟩ := hi.matrix.curr c hc
    obtain ⟨b, hb⟩ : ∃ b, c.queueid = b := ⟨_, rfl⟩
    rw [SRR.dequeLoop, hc, Option.bind_some, hb]
    rw [hb] at hpos
    have hpkts := hi.counts.pkts b
    rw [if_neg (Option.some_ne_none b).symm] at hpkts
    have hlt : b < maxFlow := by
      by_contra hge
      rw [hi.counts.pkts_outside (not_lt.mp hge)] at hpos
      exact lt_irrefl 0 hpos
    cases hqueue : (s.srr b).queue with
    | nil =>
      rw [hqueue, List.length_nil] at hpkts
      omega
    | cons p rest =>
      obtain ⟨-, hhome⟩ := hi.counts.home b p (by rw [hqueue]; exact List.mem_cons_self)
      dsimp only
      rw [if_neg (not_not.mpr hhome), modify_self]
      have hmtu := hi.valid.mtu
      have hturn : (beginTurn s.config.mtu_ (s.srr b)).queue = (s.srr b).queue ∧
          (beginTurn s.config.mtu_ (s.srr b)).pkts = (s.srr b).pkts ∧
          (beginTurn s.config.mtu_ (s.srr b)).bcount = (s.srr b).bcount ∧
          0 ≤ (beginTurn s.config.mtu_ (s.srr b)).deficitCounter := by
        have hdef := hi.counts.deficit b
        rw [beginTurn]
        split_ifs
        · exact ⟨rfl, rfl, rfl, hdef⟩
        · exact ⟨rfl, rfl, rfl, by dsimp only; omega⟩
      obtain ⟨hqt, hpt, hbt, hdt⟩ := hturn
      by_cases henough : (beginTurn s.config.mtu_ (s.srr b)).deficitCounter ≥ h.size p
      · -- the packet is handed out
        rw [if_pos henough]
        obtain ⟨t, ht⟩ : ∃ t : SRR π, { (s.modify b (beginTurn s.config.mtu_)).modify b fun q =>
            { q with deficitCounter := q.deficitCounter - h.size p, queue := rest } with
              last_size := (h.size p : ℤ), last_queueid := some b } = t := ⟨_, rfl⟩
        have hself : t.srr b = { beginTurn s.config.mtu_ (s.srr b) with
            deficitCounter := (beginTurn s.config.mtu_ (s.srr b)).deficitCounter - h.size p
            queue := rest } := by
          rw [← ht]
          change ((s.modify b (beginTurn s.config.mtu_)).modify b fun q =>
            { q with deficitCounter := q.deficitCounter - h.size p, queue := rest }).srr b = _
          rw [modify_self, modify_self]
        have hother : ∀ x, x ≠ b → t.srr x = s.srr x := fun x hx => by
          rw [← ht]
          change ((s.modify b (beginTurn s.config.mtu_)).modify b fun q =>
            { q with deficitCounter := q.deficitCounter - h.size p, queue := rest }).srr x = _
          rw [modify_other _ _ hx, modify_other _ _ hx]
        have hbytes := hi.counts.bcount b
        rw [if_neg (Option.some_ne_none b).symm, hqueue, bytes_cons] at hbytes
        rw [hqueue, List.length_cons] at hpkts
        have hcounts : t.Counts h t.last_queueid t.last_size := by
          rw [← ht]
          dsimp only
          rw [ht]
          refine hi.counts.change hlt (by rw [← ht]; rfl) hother (fun x hx => ?_)
            (fun x _ he => absurd he.symm (Option.some_ne_none x)) ?_ ?_ ?_ ?_ ?_ ?_
            (Int.natCast_nonneg _)
          · exact iff_of_false (fun he => hx (Option.some.inj he).symm)
              (Option.some_ne_none x).symm
          · rw [hself, if_pos rfl]
            dsimp only
            rw [hpt, hpkts]
            push_cast
            ring
          · rw [hself, if_pos rfl]
            dsimp only
            rw [hbt, hbytes]
            ring
          · rw [hself]
            dsimp only
            rw [hpt, ← ht]
            change s.pktcnt = _
            ring
          · rw [hself]
            dsimp only
            rw [hbt, ← ht]
            change s.bytecnt = _
            ring
          · rw [hself]
            intro p' hp'
            exact hi.counts.home b p' (by rw [hqueue]; exact List.mem_cons_of_mem p hp')
          · rw [hself]
            dsimp only
            omega
        refine ⟨t, b, p, by rw [← ht], hi.of_counts hcounts ?_ (fun q => ?_) ?_ ?_ ?_ ?_ ?_ ?_, ?_,
          fun x hx => by rw [hother x hx]⟩
        · rw [← ht]
          rfl
        · by_cases hq : q = b
          · rw [hq, hself]
            dsimp only
            rw [hpt]
          · rw [hother q hq]
        · rw [← ht]; rfl
        · rw [← ht]; rfl
        · rw [← ht]; rfl
        · rw [← ht]; rfl
        · rw [← ht]; rfl
        · rw [← ht]; rfl
        · rw [hself]
          exact hqueue
      · -- the next queue gets its turn
        rw [if_neg henough]
        obtain ⟨u, hu⟩ : ∃ u : SRR π, ((s.modify b (beginTurn s.config.mtu_)).modify b fun q =>
            { q with turn := false }) = u := ⟨_, rfl⟩
        have hself : u.srr b = { beginTurn s.config.mtu_ (s.srr b) with turn := false } := by
          rw [← hu, modify_self, modify_self]
        have hother : ∀ x, x ≠ b → u.srr x = s.srr x := fun x hx => by
          rw [← hu, modify_other _ _ hx, modify_other _ _ hx]
        have hsame : ∀ x, (u.srr x).queue = (s.srr x).queue ∧ (u.srr x).pkts = (s.srr x).pkts ∧
            (u.srr x).bcount = (s.srr x).bcount := fun x => by
          by_cases hx : x = b
          · rw [hx, hself]
            exact ⟨hqt, hpt, hbt⟩
          · rw [hother x hx]
            exact ⟨rfl, rfl, rfl⟩
        have hui : u.Inv h none 0 := by
          refine hi.of_counts ?_ (by rw [← hu]; rfl) (fun q => by rw [(hsame q).2.1]) ?_ ?_ ?_ ?_ ?_
            ?_
          · refine hi.counts.change hlt (by rw [← hu]; rfl) hother (fun x _ => Iff.rfl)
              (fun x _ _ => rfl) ?_ ?_ ?_ ?_ ?_ ?_ le_rfl
            · rw [(hsame b).1, (hsame b).2.1]
              exact hi.counts.pkts b
            · rw [(hsame b).1, (hsame b).2.2]
              exact hi.counts.bcount b
            · rw [(hsame b).2.1, ← hu]
              change s.pktcnt = _
              ring
            · rw [(hsame b).2.2, ← hu]
              change s.bytecnt = _
              ring
            · rw [(hsame b).1]
              exact hi.counts.home b
            · rw [hself]
              exact hdt
          all_goals
            rw [← hu]
            rfl
        obtain ⟨v, hv, hvm, hvp, hvs, -⟩ := hui.matrix.getNextNode hui.ptr
          ((hui.exists_node (q := b) (by rw [(hsame b).2.1]; exact hpos)).imp fun _ hn => hn.1)
        have hvi : v.Inv h none 0 :=
          ⟨hui.counts.same hvs, hvm.congr fun n => inMatrix_same hvs n, hvp, by
            rw [hvs.config]; exact hui.valid⟩
        have hless : need h (u.srr b) < need h (s.srr b) := by
          rw [hself]
          exact need_beginTurn hqueue hmtu (not_le.mp henough)
        have hsum : ∑ q ∈ range maxFlow, need h (v.srr q) < fuel := by
          rw [hvs.srr]
          have hlt' : ∑ q ∈ range maxFlow, need h (u.srr q) <
              ∑ q ∈ range maxFlow, need h (s.srr q) := by
            refine sum_lt_sum (fun q _ => ?_) ⟨b, mem_range.mpr hlt, hless⟩
            by_cases hq : q = b
            · rw [hq]
              exact hless.le
            · rw [hother q hq]
          omega
        obtain ⟨t, q, p', ht, hti, htq, hto⟩ := ih hvi
          ⟨b, by rw [hvs.srr, (hsame b).2.1]; exact hpos⟩ hsum
        rw [hu, hv, Option.bind_some]
        refine ⟨t, q, p', ht, hti, ?_, fun x hx => ?_⟩
        · rw [← htq, hvs.srr, (hsame q).1]
        · rw [hto x hx, hvs.srr, (hsame x).1]

/-- No packets are counted exactly if none are stored. -/
theorem Counts.pktcnt_pos (hc : s.Counts h none 0) :
    0 ≤ s.pktcnt ∧ (s.pktcnt = 0 ↔ ∀ q, (s.srr q).pkts = 0) := by
  have hnonneg : ∀ q ∈ range maxFlow, 0 ≤ (s.srr q).pkts := fun q _ => hc.pkts_nonneg q
  rw [hc.pktcnt]
  refine ⟨sum_nonneg hnonneg, ?_⟩
  rw [sum_eq_zero_iff_of_nonneg hnonneg]
  constructor
  · intro hall q
    by_cases hq : q < maxFlow
    · exact hall q (mem_range.mpr hq)
    · exact hc.pkts_outside (not_lt.mp hq)
  · exact fun hall q _ => hall q

theorem Counts.queue_nil (hc : s.Counts h none 0) {q : ℕ} :
    (s.srr q).queue = [] ↔ (s.srr q).pkts = 0 := by
  rw [hc.pkts, if_neg (Option.some_ne_none q).symm, ← List.length_eq_zero_iff]
  omega

/-- A packet is handed out exactly if one is stored. -/
theorem Inv.deque (hi : s.Inv h s.last_queueid s.last_size) :
    ∃ t o, s.deque h = some (t, o) ∧ t.Inv h t.last_queueid t.last_size ∧
      ((o = .nothing ∧ (∀ x, (s.srr x).queue = []) ∧ ∀ x, (t.srr x).queue = []) ∨
        ∃ q p, o = .sent q p ∧ (s.srr q).queue = p :: (t.srr q).queue ∧
          ∀ x, x ≠ q → (t.srr x).queue = (s.srr x).queue) := by
  obtain ⟨u, hu, hui, hsize, hsame⟩ := hi.settle
  obtain ⟨hnonneg, hzero⟩ := hui.counts.pktcnt_pos
  rw [SRR.deque, hu, Option.bind_some, if_neg (not_lt.mpr hnonneg)]
  by_cases hp : u.pktcnt = 0
  · rw [if_pos hp]
    have hnil : ∀ x, (u.srr x).queue = [] := fun x => hui.counts.queue_nil.mpr (hzero.mp hp x)
    obtain ⟨h1, h2, h3, h4, h5, h6, h7, h8, -⟩ := hui.counts
    refine ⟨_, _, rfl, ⟨⟨h1, fun q => ?_, h3, h4, h5, h6, h7, h8, ?_⟩,
      hui.matrix.of_eq rfl rfl rfl rfl rfl, hui.ptr, hui.valid⟩,
      .inl ⟨rfl, fun x => hsame x ▸ hnil x, hnil⟩⟩
    · rw [h2]
      rfl
    · rw [hsize]
      exact hi.counts.size_nonneg
  · rw [if_neg hp]
    obtain ⟨q0, hq0⟩ := not_forall.mp (mt hzero.mpr hp)
    have hpos : 0 < (u.srr q0).pkts := lt_of_le_of_ne (hui.counts.pkts_nonneg q0) (Ne.symm hq0)
    obtain ⟨t, q, p, ht, hti, hq, hother⟩ :=
      hui.dequeLoop ⟨q0, hpos⟩ (Nat.lt_succ_of_le hui.counts.need_le)
    exact ⟨t, _, ht, hti, .inr ⟨q, p, rfl, hsame q ▸ hq, fun x hx => hsame x ▸ hother x hx⟩⟩

/-- The configuration is replaced while no packets are counted. -/
theorem Inv.configure (hi : s.Inv h s.last_queueid s.last_size) {c : SRRConfig} (hc : c.Valid)
    (hzero : s.pktcnt = 0) :
    Inv h { s with config := c } s.last_queueid s.last_size ∧ ∀ x, (s.srr x).queue = [] := by
  have hpkts : ∀ q, (s.srr q).pkts = 0 := fun q => by
    by_cases hq : q < maxFlow
    · have hsum := hi.counts.pktcnt
      rw [hzero] at hsum
      exact (sum_eq_zero_iff_of_nonneg fun x _ => hi.counts.pkts_nonneg x).mp hsum.symm q
        (mem_range.mpr hq)
    · exact hi.counts.pkts_outside (not_lt.mp hq)
  have hnil : ∀ x, (s.srr x).queue = [] := fun x => by
    have hx := hi.counts.pkts x
    rw [hpkts] at hx
    apply List.length_eq_zero_iff.mp
    split_ifs at hx <;> omega
  obtain ⟨h1, h2, h3, h4, -, h6, h7, h8, h9⟩ := hi.counts
  refine ⟨⟨⟨h1, h2, h3, h4, fun q p hp => ?_, h6, h7, h8, h9⟩, ?_, hi.ptr, hc⟩, hnil⟩
  · change p ∈ (s.srr q).queue at hp
    rw [hnil q] at hp
    cases hp
  · refine Holds.of_eq (hi.matrix.congr fun n => ?_) rfl rfl rfl rfl rfl
    refine iff_of_false (fun hn => ?_) fun hn => ?_
    · exact absurd (hpkts n.queueid) (ne_of_gt hn.1)
    · exact absurd (hpkts n.queueid) (ne_of_gt hn.1)

theorem inv_new {c : SRRConfig} (hc : c.Valid) : (new c : SRR π).Inv h none 0 := by
  refine ⟨⟨fun q => rfl, fun q => rfl, ?_, ?_, fun q p hp => ?_, fun q _ => rfl, fun q hq => ?_,
    fun q => le_rfl, le_rfl⟩, ⟨fun i n => ?_, fun i => List.nodup_nil, fun q n => ?_,
    fun n hn => ?_, fun hex => ?_, ?_, le_rfl, fun n hn => ?_, fun hne => absurd rfl hne⟩,
    .inr ⟨rfl, rfl⟩, hc⟩
  · exact (sum_eq_zero fun _ _ => rfl).symm
  · exact (sum_eq_zero fun _ _ => rfl).symm
  · cases hp
  · cases hq
  · exact iff_of_false List.not_mem_nil fun hn => lt_irrefl 0 hn.2.1
  · exact iff_of_false List.not_mem_nil fun hn => lt_irrefl 0 hn.2.1
  · cases hn
  · exact absurd hex fun ⟨n, hn⟩ => lt_irrefl 0 hn.1
  · exact iff_of_true rfl fun ⟨n, hn⟩ => lt_irrefl 0 hn.1
  · exact absurd hn.1 (lt_irrefl 0)

/-- What has been put into a queue. -/
def storedIn (q : ℕ) (os : List (Out π)) : List π :=
  os.filterMap fun o => match o with
    | .stored x p => if x = q then some p else none
    | _ => none

/-- What has been handed out of a queue. -/
def sentFrom (q : ℕ) (os : List (Out π)) : List π :=
  os.filterMap fun o => match o with
    | .sent x p => if x = q then some p else none
    | _ => none

/-- One more operation, where the packets of each queue leave in order. -/
theorem Inv.step {s : SRR π} {os : List (Out π)} {i : Op π}
    (hi : s.Inv h s.last_queueid s.last_size)
    (horder : ∀ q, storedIn q os = sentFrom q os ++ (s.srr q).queue) (hok : Allowed h s i) :
    ∃ t o, s.step h i = some (t, o) ∧ t.Inv h t.last_queueid t.last_size ∧
      ∀ q, storedIn q (os ++ [o]) = sentFrom q (os ++ [o]) ++ (t.srr q).queue := by
  cases i with
  | enque p =>
    obtain ⟨t, o, ht, hti, ⟨rfl, rfl⟩ | ⟨b, rfl, hb, hother⟩⟩ := hi.enque hok
    · refine ⟨t, _, ht, hti, fun q => ?_⟩
      simpa [storedIn, sentFrom] using horder q
    · refine ⟨t, _, ht, hti, fun q => ?_⟩
      have hq := horder q
      rw [storedIn, sentFrom] at hq ⊢
      rw [List.filterMap_append, List.filterMap_append, hq]
      by_cases hqb : q = b
      · subst hqb
        simp [hb]
      · simp [hother q hqb, Ne.symm hqb]
  | deque =>
    obtain ⟨t, o, ht, hti, ⟨rfl, h1, h2⟩ | ⟨b, p, rfl, hb, hother⟩⟩ := hi.deque
    · refine ⟨t, _, ht, hti, fun q => ?_⟩
      have hq := horder q
      rw [h1] at hq
      rw [h2]
      simpa [storedIn, sentFrom] using hq
    · refine ⟨t, _, ht, hti, fun q => ?_⟩
      have hq := horder q
      rw [storedIn, sentFrom] at hq ⊢
      rw [List.filterMap_append, List.filterMap_append, hq]
      by_cases hqb : q = b
      · subst hqb
        simp [hb]
      · simp [hother q hqb, Ne.symm hqb]
  | configure c =>
    obtain ⟨hti, -⟩ := hi.configure hok.1 hok.2
    refine ⟨_, _, rfl, hti, fun q => ?_⟩
    simpa [storedIn, sentFrom] using horder q

/-- Flows as packets of 100 bytes, rates of the flows 1, 2, 3, .. -/
def headers : SRRHeaders ℕ := ⟨id, fun _ => 100⟩

def rates : SRRConfig := ⟨99, 10, 1500, 1, 9, id, fun q => q + 1⟩

theorem rates_valid : rates.Valid := by
  refine ⟨by decide, by decide, fun flow hf => ⟨?_, hf⟩, fun q hq => ?_, by decide⟩
  · exact Nat.le_of_lt_succ hf
  · have hq' : q < 100 := hq
    rw [SRRConfig.weight]
    simp only [rates]
    omega

end SRR

end Ns2
