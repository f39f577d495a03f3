import Ns2.Queue.SrrQueues
import Ns2.Queue.SrrSequence

/-! The nodes that `getNextNode` goes through while the queues stay the same. -/

namespace Ns2

namespace SRR

open Finset

variable {π : Type*} {s t : SRR π} {c e n x : WmNode} {A B l : List WmNode} {p d m i : ℕ}

/-- `getNextNode` as a step that gives the node that it returns; there is none without bytes. -/
def visit (s : SRR π) (_ : Unit) : Option (SRR π × WmNode) :=
  if s.bytecnt = 0 then none
  else s.getNextNode.bind fun t => t.pwmCurr.map fun n => (t, n)

/-- The nodes behind the current one in its column. -/
def behind (s : SRR π) : List WmNode :=
  s.pwmCurr.elim [] fun c => ((s.column c.weight).dropWhile (· ≠ c)).tail

/-- The number of nodes in one period of the sequence. -/
def periodLength (s : SRR π) : ℕ := ∑ i ∈ range s.order, 2 ^ i * (s.column i).length

def place (s : SRR π) (p : ℕ) (c : WmNode) : SRR π :=
  { s with
    ptr := p
    pwmCurr := some c }

theorem dropWhile_ne (hc : c ∉ A) : (A ++ c :: B).dropWhile (fun x => decide (x ≠ c)) = c :: B := by
  have hA : ∀ x ∈ A, decide (x ≠ c) = true := fun x hx => decide_eq_true fun he => hc (he ▸ hx)
  rw [List.dropWhile_append_of_pos hA]
  exact List.dropWhile_cons_of_neg (by simp)

theorem nextNode_of (hcol : s.column c.weight = A ++ c :: B) (hc : c ∉ A) :
    s.nextNode c = B.head? := by
  rw [nextNode, hcol, dropWhile_ne hc]
  cases B <;> rfl

theorem visit_next (hbytes : s.bytecnt ≠ 0) (hn : (s.place p c).nextNode c = some n) :
    (s.place p c).visit () = some (s.place p n, n) := by
  have hget : (s.place p c).getNextNode = some (s.place p n) := by
    have hb : ¬ (s.place p c).bytecnt = 0 := hbytes
    have hcur : (s.place p c).pwmCurr = some c := rfl
    rw [getNextNode, if_neg hb, hcur, Option.bind_some, hn]
    rfl
  rw [visit, if_neg (show ¬ (s.place p c).bytecnt = 0 from hbytes), hget]
  rfl

/-- The rest of a column is gone through in order. -/
theorem visit_column (hbytes : s.bytecnt ≠ 0) (hw : ∀ n ∈ s.column i, n.weight = i)
    (hnd : (s.column i).Nodup) (hcol : s.column i = A ++ c :: B) :
    ∃ e, Machine.run visit (s.place p c) (List.replicate B.length ()) = some (s.place p e, B) ∧
      (s.place p e).nextNode e = none := by
  induction B generalizing A c with
  | nil =>
    have hc : c.weight = i := hw c (by simp [hcol])
    rw [hcol] at hnd
    refine ⟨c, rfl, nextNode_of (A := A) (B := []) (by rw [hc]; exact hcol) ?_⟩
    exact fun hmem => (List.nodup_append.mp hnd).2.2 c hmem c (by simp) rfl
  | cons b B ih =>
    have hc : c.weight = i := hw c (by simp [hcol])
    have hmem : c ∉ A := by
      rw [hcol] at hnd
      exact fun hmem => (List.nodup_append.mp hnd).2.2 c hmem c (by simp) rfl
    have hn : (s.place p c).nextNode c = some b :=
      nextNode_of (A := A) (B := b :: B) (by rw [hc]; exact hcol) hmem
    obtain ⟨e, hrun, he⟩ := ih (A := A ++ [c]) (by simpa using hcol)
    refine ⟨e, ?_, he⟩
    rw [List.length_cons, List.replicate_succ, Machine.run_cons_some (visit_next hbytes hn), hrun]
    rfl

theorem wssGet_eq {n : ℕ} (hp : p < 2 ^ n - 1) : wssGet p n = some (pwss p) := by
  have hcast : ((2 ^ n : ℕ) : ℤ) = 2 ^ n := by push_cast; rfl
  rw [wssGet, if_neg (by omega)]

theorem wssInc_eq {n : ℕ} (hp : p < 2 ^ n - 1) : wssInc p n = (p + 1) % (2 ^ n - 1) := by
  have hcast : ((2 ^ n : ℕ) : ℤ) = 2 ^ n := by push_cast; rfl
  rw [wssInc]
  by_cases hlast : p + 1 = 2 ^ n - 1
  · rw [if_pos (by omega), hlast, Nat.mod_self]
  · rw [if_neg (by omega), Nat.mod_eq_of_lt (by omega)]

/-- Columns without nodes are passed over. -/
theorem scan_skips {fuel : ℕ} (hp : s.ptr < 2 ^ s.order - 1)
    (hnil : ∀ k < d, s.column (s.order - pwss ((s.ptr + k) % (2 ^ s.order - 1))) = [])
    (hcons : s.column (s.order - pwss ((s.ptr + d) % (2 ^ s.order - 1))) = x :: l)
    (hfuel : d < fuel) :
    scan fuel s = some (s.place ((s.ptr + d + 1) % (2 ^ s.order - 1)) x) := by
  induction d generalizing s fuel with
  | zero =>
    obtain ⟨fuel, rfl⟩ : ∃ f, fuel = f + 1 := ⟨fuel - 1, by omega⟩
    rw [add_zero, Nat.mod_eq_of_lt hp] at hcons
    rw [scan_cons (wssGet_eq hp) (pwss_le (by omega)).2 hcons, wssInc_eq hp]
    rfl
  | succ d ih =>
    obtain ⟨fuel, rfl⟩ : ∃ f, fuel = f + 1 := ⟨fuel - 1, by omega⟩
    have hz := hnil 0 (by omega)
    rw [add_zero, Nat.mod_eq_of_lt hp] at hz
    rw [scan_nil (wssGet_eq hp) (pwss_le (by omega)).2 hz, wssInc_eq hp]
    have hstep : ∀ k, ((s.ptr + 1) % (2 ^ s.order - 1) + k) % (2 ^ s.order - 1) =
        (s.ptr + (k + 1)) % (2 ^ s.order - 1) := fun k => by
      rw [Nat.mod_add_mod]
      congr 1
      omega
    have hnext := ih (s := { s with ptr := (s.ptr + 1) % (2 ^ s.order - 1) })
      (Nat.mod_lt _ (by change 0 < 2 ^ s.order - 1; omega))
      (fun k hk => by
        change s.column (s.order - pwss (((s.ptr + 1) % (2 ^ s.order - 1) + k) %
          (2 ^ s.order - 1))) = []
        rw [hstep]
        exact hnil (k + 1) (by omega))
      (by
        change s.column (s.order - pwss (((s.ptr + 1) % (2 ^ s.order - 1) + d) %
          (2 ^ s.order - 1))) = x :: l
        rw [hstep]
        exact hcons)
      (show d < fuel by omega)
    rw [hnext]
    change some (s.place (((s.ptr + 1) % (2 ^ s.order - 1) + d + 1) % (2 ^ s.order - 1)) x) = _
    rw [add_assoc, hstep, ← add_assoc]

/-- The first node behind columns without nodes is visited next. -/
theorem visit_scan (hbytes : s.bytecnt ≠ 0) (hmax : s.currMaxColumn ≠ -1)
    (hend : (s.place p c).nextNode c = none) (hp : p < 2 ^ s.order - 1)
    (hnil : ∀ k < d, s.column (s.order - pwss ((p + k) % (2 ^ s.order - 1))) = [])
    (hcons : s.column (s.order - pwss ((p + d) % (2 ^ s.order - 1))) = x :: l)
    (hd : d < 2 ^ s.order) :
    (s.place p c).visit () = some (s.place ((p + d + 1) % (2 ^ s.order - 1)) x, x) := by
  have hscan := scan_skips (s := s.place p c) hp hnil hcons hd
  have hget : (s.place p c).getNextNode =
      some ((s.place p c).place ((p + d + 1) % (2 ^ s.order - 1)) x) := by
    have hcur : (s.place p c).pwmCurr = some c := rfl
    rw [getNextNode, if_neg (show ¬ (s.place p c).bytecnt = 0 from hbytes), hcur, Option.bind_some,
      hend]
    exact (if_neg hmax).trans hscan
  rw [visit, if_neg (show ¬ (s.place p c).bytecnt = 0 from hbytes), hget]
  rfl

/-- What a walk through the columns needs: nodes are in the columns of their weight, once, and the
highest column is not empty. -/
structure Walkable (s : SRR π) : Prop where
  weight : ∀ i, ∀ n ∈ s.column i, n.weight = i
  nodup : ∀ i, (s.column i).Nodup
  top : s.column (s.order - 1) ≠ []
  max : s.currMaxColumn ≠ -1
  order : 1 ≤ s.order
  bytes : s.bytecnt ≠ 0

/-- The highest column comes up in every period. -/
theorem Walkable.gap_lt (hw : s.Walkable) (hnil : ∀ k, d ≤ k → k < m →
    s.column (s.order - pwss ((p + k) % (2 ^ s.order - 1))) = []) : m < d + (2 ^ s.order - 1) := by
  by_contra hge
  have hpow : 2 ≤ 2 ^ s.order := Nat.one_lt_two_pow (by have := hw.order; omega)
  let k := d + ((2 ^ s.order - 1) - (p + d) % (2 ^ s.order - 1)) % (2 ^ s.order - 1)
  have hlt : ((2 ^ s.order - 1) - (p + d) % (2 ^ s.order - 1)) % (2 ^ s.order - 1) <
      2 ^ s.order - 1 := Nat.mod_lt _ (by omega)
  have hzero : (p + k) % (2 ^ s.order - 1) = 0 := by
    have hle : (p + d) % (2 ^ s.order - 1) < 2 ^ s.order - 1 := Nat.mod_lt _ (by omega)
    rw [show p + k = p + d + ((2 ^ s.order - 1) - (p + d) % (2 ^ s.order - 1)) %
      (2 ^ s.order - 1) by omega, Nat.add_mod, Nat.mod_mod, ← Nat.add_mod, ← Nat.mod_add_mod,
      Nat.add_sub_cancel' hle.le, Nat.mod_self]
  have := hnil k (by omega) (by omega)
  rw [hzero, pwss_even rfl] at this
  exact hw.top this

/-- The visits spell the word of the columns, as the sequence has them. -/
theorem Walkable.visits (hw : s.Walkable) (hp : p < 2 ^ s.order - 1)
    (hend : (s.place p c).nextNode c = none) (m : ℕ) :
    ∃ d e, d ≤ m ∧
      Machine.run visit (s.place p c)
        (List.replicate (columnWord s.column s.order p m).length ()) =
          some (s.place ((p + d) % (2 ^ s.order - 1)) e, columnWord s.column s.order p m) ∧
      (∀ q, (s.place q e).nextNode e = none) ∧
      ∀ k, d ≤ k → k < m → s.column (s.order - pwss ((p + k) % (2 ^ s.order - 1))) = [] := by
  induction m with
  | zero =>
    refine ⟨0, c, le_rfl, ?_, fun _ => hend, fun k _ hk => absurd hk (by omega)⟩
    rw [add_zero, Nat.mod_eq_of_lt hp]
    rfl
  | succ m ih =>
    obtain ⟨d, e, hd, hrun, he, hnil⟩ := ih
    rw [columnWord_succ]
    cases hcol : s.column (s.order - pwss ((p + m) % (2 ^ s.order - 1))) with
    | nil =>
      rw [List.append_nil]
      refine ⟨d, e, by omega, hrun, he, fun k hk hlt => ?_⟩
      obtain rfl | hlt' := (Nat.lt_succ_iff.mp hlt).eq_or_lt
      · exact hcol
      · exact hnil k hk hlt'
    | cons x l =>
      have hgap := hw.gap_lt hnil
      have hmod : (p + d) % (2 ^ s.order - 1) < 2 ^ s.order - 1 := Nat.mod_lt _ (by omega)
      have hshift : ∀ k, ((p + d) % (2 ^ s.order - 1) + k) % (2 ^ s.order - 1) =
          (p + (d + k)) % (2 ^ s.order - 1) := fun k => by
        rw [Nat.mod_add_mod, add_assoc]
      have hvisit := visit_scan (d := m - d) (x := x) (l := l) hw.bytes hw.max
        (he ((p + d) % (2 ^ s.order - 1))) hmod
        (fun k hk => by
          rw [hshift]
          exact hnil (d + k) (by omega) (by omega))
        (by
          rw [hshift, Nat.add_sub_cancel' hd]
          exact hcol)
        (by omega)
      rw [add_assoc, hshift, show d + (m - d + 1) = m + 1 by omega] at hvisit
      obtain ⟨e', hrun', he'⟩ := visit_column (p := (p + (m + 1)) % (2 ^ s.order - 1)) (A := [])
        hw.bytes (hw.weight _) (hw.nodup _) hcol
      refine ⟨m + 1, e', le_rfl, ?_, fun _ => he', fun k hk hlt => absurd hk (by omega)⟩
      rw [List.length_append, List.replicate_add, Machine.run_append, hrun, Option.bind_some]
      dsimp only
      rw [List.length_cons, List.replicate_succ, Machine.run_cons_some hvisit, hrun']
      rfl

/-- Behind the rest of the present column, every window of one period has the same nodes. -/
theorem Walkable.window (hw : s.Walkable) (hp : s.ptr < 2 ^ s.order - 1)
    (hc : ∃ c, s.pwmCurr = some c ∧ c ∈ s.column c.weight) (j : ℕ) :
    ∃ t ns, Machine.run visit s (List.replicate (s.behind.length + j +
        (columnWord s.column s.order s.ptr (2 ^ s.order - 1)).length) ()) = some (t, ns) ∧
      (ns.drop (s.behind.length + j)).Perm
        (columnWord s.column s.order s.ptr (2 ^ s.order - 1)) := by
  obtain ⟨c, hcur, hmem⟩ := hc
  obtain ⟨A, B, hcol⟩ := List.append_of_mem hmem
  have hnd := hw.nodup c.weight
  rw [hcol] at hnd
  have hnot : c ∉ A := fun h => (List.nodup_append.mp hnd).2.2 c h c (by simp) rfl
  have hbehind : s.behind = B := by
    rw [behind, hcur, Option.elim_some, hcol, dropWhile_ne hnot]
    rfl
  have hself : s.place s.ptr c = s := by rw [place, ← hcur]
  obtain ⟨e, hrun, he⟩ := visit_column (p := s.ptr) hw.bytes (hw.weight _) (hw.nodup _) hcol
  rw [hself] at hrun
  let L := columnWord s.column s.order s.ptr (2 ^ s.order - 1)
  have hpos : 0 < L.length := by
    by_contra hz
    have hgap := hw.gap_lt (d := 0) (m := 2 ^ s.order - 1) (p := s.ptr) fun k _ hk => by
      have hnil : L = [] := List.eq_nil_of_length_eq_zero (by omega)
      exact List.flatMap_eq_nil_iff.mp hnil k (List.mem_range.mpr hk)
    omega
  obtain ⟨d, e', -, hrun', -, -⟩ := hw.visits hp he ((j + 1) * (2 ^ s.order - 1))
  rw [columnWord_periods] at hrun'
  have hlen : (List.replicate (j + 1) L).flatten.length = (j + 1) * L.length := by simp
  have hle : j + L.length ≤ (j + 1) * L.length := by
    have := Nat.mul_le_mul_left j (show 1 ≤ L.length from hpos)
    rw [Nat.succ_mul]
    omega
  have hall : Machine.run visit s (List.replicate (B.length + j + L.length) () ++
      List.replicate ((j + 1) * L.length - (j + L.length)) ()) =
        some (s.place ((s.ptr + d) % (2 ^ s.order - 1)) e',
          B ++ (List.replicate (j + 1) L).flatten) := by
    rw [← List.replicate_add, show B.length + j + L.length + ((j + 1) * L.length - (j + L.length)) =
      B.length + (List.replicate (j + 1) L).flatten.length by omega, List.replicate_add,
      Machine.run_append, hrun, Option.bind_some, hrun']
    rfl
  obtain ⟨t, ht⟩ := Machine.run_take hall
  rw [hbehind]
  refine ⟨t, _, ht, ?_⟩
  rw [List.length_replicate, List.drop_take, List.drop_append,
    List.drop_of_length_le (Nat.le_add_right _ _), List.nil_append, Nat.add_sub_cancel_left,
    Nat.add_sub_cancel_left]
  exact window_perm hle

theorem length_columnWord {n : ℕ} (hn : n ≤ maxWssOrder) (col : ℕ → List WmNode) (p : ℕ) :
    (columnWord col n p (2 ^ n - 1)).length = ∑ i ∈ range n, 2 ^ i * (col i).length := by
  have hcount := @countP_columnWord _ col _ hn p fun _ => true
  simpa using hcount

/-- A number as the sum of its bits. -/
theorem sum_bits {w n : ℕ} (hw : w < 2 ^ n) :
    ∑ i ∈ range n, 2 ^ i * (if w.testBit i then 1 else 0) = w := by
  induction n generalizing w with
  | zero =>
    rw [pow_zero] at hw
    simp [show w = 0 by omega]
  | succ n ih =>
    rw [sum_range_succ']
    have hhalf := ih (w := w / 2) (by rw [pow_succ] at hw; omega)
    have hstep : ∀ i, 2 ^ (i + 1) * (if w.testBit (i + 1) then 1 else 0) =
        2 * (2 ^ i * if (w / 2).testBit i then 1 else 0) := fun i => by
      rw [Nat.testBit_succ, pow_succ]
      ring
    rw [sum_congr rfl fun i _ => hstep i, ← mul_sum, hhalf, Nat.testBit_zero]
    by_cases hodd : w % 2 = 1
    · simp [hodd]
      omega
    · simp [hodd]
      omega

variable {h : SRRHeaders π} {last : Option ℕ} {size : ℤ} {q : ℕ}

theorem Inv.exists_of_bytes (hi : s.Inv h last size) (hb : s.bytecnt ≠ 0) :
    ∃ n, s.InMatrix n := by
  have hq : ∃ q, 0 < (s.srr q).pkts := by
    by_contra hno
    push Not at hno
    refine hb (hi.counts.bytecnt.trans (sum_eq_zero fun q _ => ?_))
    have h1 := hi.counts.pkts q
    have h2 := hno q
    have hlast : last ≠ some q := fun he => by
      rw [if_pos he] at h1
      omega
    rw [if_neg hlast] at h1
    have hnil : (s.srr q).queue = [] := List.eq_nil_of_length_eq_zero (by omega)
    rw [hi.counts.bcount q, if_neg hlast, hnil]
    rfl
  obtain ⟨q, hq⟩ := hq
  exact (hi.exists_node hq).imp fun n hn => hn.1

/-- The order of the sequence is that of the table at most. -/
theorem Inv.weight_lt (hi : s.Inv h last size) (hn : s.InMatrix n) :
    n.weight < s.order ∧ n.weight < maxWssOrder := by
  have hle := hi.matrix.le n hn
  have ho := order_eq hi.matrix
  have hq : n.queueid < maxFlow := by
    by_contra hge
    have := hi.counts.pkts_outside (not_lt.mp hge)
    have := hn.1
    omega
  have hbit : ¬ s.config.weight n.queueid < 2 ^ n.weight := fun hlt => by
    have hfalse := Nat.testBit_lt_two_pow hlt
    rw [hn.2] at hfalse
    cases hfalse
  have hcol := (hi.valid.rates _ hq).2
  have hw : n.weight < s.config.maxColumn + 1 := by
    by_contra hge
    exact hbit (hcol.trans_le (Nat.pow_le_pow_right (by decide) (by omega)))
  have := hi.valid.columns
  exact ⟨by omega, by omega⟩

theorem Inv.walkable (hi : s.Inv h last size) (hb : s.bytecnt ≠ 0) :
    s.Walkable ∧ s.order ≤ maxWssOrder := by
  obtain ⟨n, hn⟩ := hi.exists_of_bytes hb
  have hle := hi.matrix.le n hn
  have ho := order_eq hi.matrix
  obtain ⟨m, hm, hw⟩ := hi.matrix.top (by omega)
  have hlt := hi.weight_lt hm
  refine ⟨⟨fun i n hn => ((hi.matrix.mem i n).mp hn).1, hi.matrix.nodup, ?_, by omega, by omega,
    hb⟩, by omega⟩
  exact List.ne_nil_of_mem ((hi.matrix.mem _ m).mpr ⟨by omega, hm⟩)

theorem Inv.count_node (hi : s.Inv h last size) (n : WmNode) :
    ∑ i ∈ range s.order, 2 ^ i * (s.column i).count n =
      if n ∈ s.column n.weight then 2 ^ n.weight else 0 := by
  have hother : ∀ i, i ≠ n.weight → 2 ^ i * (s.column i).count n = 0 := fun i hi' => by
    have hnot : n ∉ s.column i := fun hmem => hi' ((hi.matrix.mem i n).mp hmem).1.symm
    rw [List.count_eq_zero_of_not_mem hnot, mul_zero]
  by_cases hmem : n ∈ s.column n.weight
  · have hlt := (hi.weight_lt ((hi.matrix.mem _ n).mp hmem).2).1
    rw [if_pos hmem, sum_eq_single n.weight (fun i _ hne => hother i hne)
      (fun hout => absurd (mem_range.mpr hlt) hout), (hi.matrix.nodup _).count, if_pos hmem,
      mul_one]
  · rw [if_neg hmem]
    refine sum_eq_zero fun i _ => ?_
    by_cases hiw : i = n.weight
    · rw [hiw, List.count_eq_zero_of_not_mem hmem, mul_zero]
    · exact hother i hiw

theorem Inv.count_queue (hi : s.Inv h last size) (q : ℕ) :
    ∑ i ∈ range s.order, 2 ^ i * (s.column i).countP (fun n => decide (n.queueid = q)) =
      if 0 < (s.srr q).pkts then s.config.weight q else 0 := by
  have hcol : ∀ i, (s.column i).countP (fun n => decide (n.queueid = q)) =
      if 0 < (s.srr q).pkts ∧ (s.config.weight q).testBit i = true then 1 else 0 := fun i => by
    have hsame : (s.column i).countP (fun n => decide (n.queueid = q)) =
        (s.column i).count ⟨q, i⟩ := by
      refine List.countP_congr fun n hn => ?_
      have hw := ((hi.matrix.mem i n).mp hn).1
      rw [decide_eq_true_eq, beq_iff_eq, WmNode.ext_iff]
      exact ⟨fun he => ⟨he, hw⟩, fun he => he.1⟩
    rw [hsame, (hi.matrix.nodup i).count]
    exact if_congr ((hi.matrix.mem i ⟨q, i⟩).trans ⟨fun hm => hm.2, fun hm => ⟨rfl, hm⟩⟩) rfl rfl
  simp only [hcol]
  by_cases hq : 0 < (s.srr q).pkts
  · rw [if_pos hq]
    simp only [hq, true_and]
    refine sum_bits (Nat.lt_pow_two_of_testBit _ fun i hle => ?_)
    by_contra hbit
    have hlt : i < s.order := (hi.weight_lt (n := ⟨q, i⟩) ⟨hq, by simpa using hbit⟩).1
    omega
  · rw [if_neg hq]
    exact sum_eq_zero fun i _ => by rw [if_neg fun hm => hq hm.1, mul_zero]

/-- In every state of a run with bytes in the queues: in one period of the sequence, from any
place, column `i` comes up `2 ^ i` times; and behind the rest of the present column every window of
one period has each node of column `i` that often, and each queue as often as its weight. -/
theorem run_period {c : SRRConfig} (hc : c.Valid) {ops : List (Op π)}
    (hops : Machine.Admits (step h) (Allowed h) (new c) ops) :
    ∃ (s : SRR π) (os : List (Out π)), Machine.run (step h) (new c) ops = some (s, os) ∧
      (s.bytecnt ≠ 0 →
        (∀ p, ∀ i < s.order, ((List.range (2 ^ s.order - 1)).map fun k =>
          s.order - pwss ((p + k) % (2 ^ s.order - 1))).count i = 2 ^ i) ∧
        ∀ j, ∃ t ns, Machine.run visit s
            (List.replicate (s.behind.length + j + s.periodLength) ()) = some (t, ns) ∧
          (∀ n, (ns.drop (s.behind.length + j)).count n =
            if n ∈ s.column n.weight then 2 ^ n.weight else 0) ∧
          ∀ q, (ns.drop (s.behind.length + j)).countP (fun n => decide (n.queueid = q)) =
            if 0 < (s.srr q).pkts then s.config.weight q else 0) := by
  obtain ⟨s, os, hrun, hi, -⟩ := Machine.run_history
    (I := fun _ os s => s.Inv h s.last_queueid s.last_size ∧
      ∀ q, storedIn q os = sentFrom q os ++ (s.srr q).queue)
    (fun _ _ _ _ hI hok => hI.1.step hI.2 hok) ⟨inv_new hc, fun q => rfl⟩ hops
  refine ⟨s, os, hrun, fun hb => ?_⟩
  obtain ⟨hw, ho⟩ := hi.walkable hb
  have hp : s.ptr < 2 ^ s.order - 1 := by
    have := hi.ptr.resolve_right fun hz => by have := hw.order; omega
    omega
  refine ⟨fun p i hlt => ?_, fun j => ?_⟩
  · have hcount := @countP_columnWord _ (fun j => [j]) _ ho p fun x => x == i
    have hword : columnWord (fun j => [j]) s.order p (2 ^ s.order - 1) =
        (List.range (2 ^ s.order - 1)).map fun k =>
          s.order - pwss ((p + k) % (2 ^ s.order - 1)) := (List.map_eq_flatMap).symm
    rw [hword] at hcount
    refine hcount.trans ((sum_eq_single i (fun b _ hne => ?_) fun hout =>
      absurd (mem_range.mpr hlt) hout).trans (by simp))
    simp [hne]
  · have hcur : ∃ c, s.pwmCurr = some c ∧ c ∈ s.column c.weight := by
      obtain ⟨c, hcur⟩ := Option.ne_none_iff_exists'.mp (hi.matrix.points (hi.exists_of_bytes hb))
      exact ⟨c, hcur, (hi.matrix.mem _ c).mpr ⟨rfl, hi.matrix.curr c hcur⟩⟩
    obtain ⟨t, ns, hrun', hperm⟩ := hw.window hp hcur j
    rw [length_columnWord ho] at hrun'
    refine ⟨t, ns, hrun', fun n => ?_, fun q => ?_⟩
    · rw [hperm.count_eq, ← hi.count_node n]
      exact countP_columnWord ho _ _
    · rw [hperm.countP_eq, ← hi.count_queue q]
      exact countP_columnWord ho _ _

theorem run_period_two :
    ∃ (s : SRR ℕ) (os : List (Out ℕ)),
      Machine.run (step headers) (new rates) [.enque 4, .enque 2] = some (s, os) ∧
      s.bytecnt = 200 ∧ ∀ j, ∃ t ns, Machine.run visit s
          (List.replicate (s.behind.length + j + s.periodLength) ()) = some (t, ns) ∧
        ∀ q, (ns.drop (s.behind.length + j)).countP (fun n => decide (n.queueid = q)) =
          if 0 < (s.srr q).pkts then s.config.weight q else 0 := by
  obtain ⟨s, os, hrun, hperiod⟩ :=
    @run_period ℕ headers rates rates_valid [.enque 4, .enque 2]
      ⟨show 4 < maxFlow by decide, fun _ _ _ => ⟨show 2 < maxFlow by decide, fun _ _ _ => trivial⟩⟩
  have hbytes : (Machine.run (step headers) (new rates) [.enque 4, .enque 2]).map (·.1.bytecnt) =
      some 200 := by decide
  rw [hrun] at hbytes
  have h200 : s.bytecnt = 200 := Option.some.inj hbytes
  refine ⟨s, os, hrun, h200, fun j => ?_⟩
  obtain ⟨t, ns, hvisit, -, hq⟩ := (hperiod (by rw [h200]; decide)).2 j
  exact ⟨t, ns, hvisit, hq⟩

end SRR

end Ns2
