import Ns2.Queue.Srr

/-! The weight matrix of smoothed round robin while queues come and go, and the position in the
weight spread sequence. -/

namespace Ns2

theorem rawScan_spec (i j d : ℕ) :
    j ≤ rawScan i j d ∧ ∀ k, j ≤ k → k < rawScan i j d → 2 ^ k ∣ i := by
  induction d generalizing j with
  | zero => exact ⟨le_rfl, fun k h1 h2 => absurd (h1.trans_lt h2) (lt_irrefl j)⟩
  | succ d ih =>
    rw [rawScan]
    split_ifs with hj
    · exact ⟨le_rfl, fun k h1 h2 => absurd (h1.trans_lt h2) (lt_irrefl j)⟩
    · obtain ⟨h1, h2⟩ := ih (j + 1)
      refine ⟨(Nat.le_succ j).trans h1, fun k hk hlt => ?_⟩
      rcases hk.eq_or_lt with rfl | hk
      · exact Nat.dvd_of_mod_eq_zero (not_not.mp hj)
      · exact h2 k hk hlt

/-- The terms of the sequence up to an order. -/
theorem pwss_le {k n : ℕ} (hk : k + 1 < 2 ^ n) : 1 ≤ pwss k ∧ pwss k ≤ n := by
  obtain ⟨h1, h2⟩ := rawScan_spec (k + 1) 1 (maxWssOrder - 1)
  refine ⟨h1, ?_⟩
  by_contra hlt
  have hn : 1 ≤ n := by
    by_contra hz
    obtain rfl : n = 0 := by omega
    omega
  have := Nat.le_of_dvd (Nat.succ_pos k) (h2 n hn (not_le.mp hlt))
  omega

/-- Every other term is one. -/
theorem pwss_even {k : ℕ} (hk : k % 2 = 0) : pwss k = 1 := by
  obtain ⟨h1, h2⟩ := rawScan_spec (k + 1) 1 (maxWssOrder - 1)
  by_contra hne
  have hlt : 1 < pwss k := lt_of_le_of_ne h1 (Ne.symm hne)
  have := h2 1 le_rfl hlt
  omega

theorem wssInc_lt {ptr n : ℕ} (h : ptr + 1 < 2 ^ n) : wssInc ptr n + 1 < 2 ^ n := by
  rw [wssInc]
  have hcast : ((2 ^ n : ℕ) : ℤ) = 2 ^ n := by push_cast; rfl
  split_ifs <;> omega

namespace SRR

variable {π : Type*} {s t : SRR π} {P : WmNode → Prop} {c n : WmNode}

/-- The matrix holds exactly some nodes, once each, and the current one is among them. -/
structure Holds (s : SRR π) (P : WmNode → Prop) : Prop where
  mem : ∀ i n, n ∈ s.column i ↔ n.weight = i ∧ P n
  nodup : ∀ i, (s.column i).Nodup
  row : ∀ q n, n ∈ s.row q ↔ n.queueid = q ∧ P n
  curr : ∀ n ∈ s.pwmCurr, P n
  points : (∃ n, P n) → s.pwmCurr ≠ none
  flag : s.wmEmptyFlag = true ↔ ¬ ∃ n, P n
  low : -1 ≤ s.currMaxColumn
  le : ∀ n, P n → (n.weight : ℤ) ≤ s.currMaxColumn
  top : s.currMaxColumn ≠ -1 → ∃ n, P n ∧ (n.weight : ℤ) = s.currMaxColumn

/-- The position is inside of the sequence of the present order, and is 0 if there is none. -/
def PtrOk (s : SRR π) : Prop := s.ptr + 1 < 2 ^ s.order ∨ s.order = 0 ∧ s.ptr = 0

/-- What does not belong to the matrix. -/
structure SameQueues (s t : SRR π) : Prop where
  config : t.config = s.config
  bytecnt : t.bytecnt = s.bytecnt
  pktcnt : t.pktcnt = s.pktcnt
  last_size : t.last_size = s.last_size
  srr : t.srr = s.srr

theorem SameQueues.refl (s : SRR π) : SameQueues s s := ⟨rfl, rfl, rfl, rfl, rfl⟩

theorem SameQueues.trans {u : SRR π} (h : SameQueues s t) (h' : SameQueues t u) :
    SameQueues s u :=
  ⟨h'.config.trans h.config, h'.bytecnt.trans h.bytecnt, h'.pktcnt.trans h.pktcnt,
    h'.last_size.trans h.last_size, h'.srr.trans h.srr⟩

theorem Holds.congr {Q : WmNode → Prop} (h : s.Holds P) (hPQ : ∀ n, Q n ↔ P n) : s.Holds Q := by
  obtain rfl : Q = P := funext fun n => propext (hPQ n)
  exact h

/-- A change outside of the matrix. -/
theorem Holds.of_eq (h : s.Holds P) (hc : t.column = s.column) (hr : t.row = s.row)
    (hp : t.pwmCurr = s.pwmCurr) (hf : t.wmEmptyFlag = s.wmEmptyFlag)
    (hm : t.currMaxColumn = s.currMaxColumn) : t.Holds P := by
  obtain ⟨h1, h2, h3, h4, h5, h6, h7, h8, h9⟩ := h
  exact ⟨by rwa [hc], by rwa [hc], by rwa [hr], by rwa [hp], by rwa [hp], by rwa [hf], by rwa [hm],
    by rwa [hm], by rwa [hm]⟩

theorem mem_insertBefore (c n m : WmNode) (l : List WmNode) :
    m ∈ insertBefore c n l ↔ m ∈ l ∨ m = n ∧ c ∈ l := by
  induction l with
  | nil => simp [insertBefore]
  | cons x l ih =>
    rw [insertBefore]
    split_ifs with hx
    · subst hx
      simp only [List.mem_cons, true_or, and_true]
      tauto
    · simp only [List.mem_cons, ih, show ¬ c = x from fun he => hx he.symm, false_or]
      tauto

theorem nodup_insertBefore {l : List WmNode} (hl : l.Nodup) (hn : n ∉ l) :
    (insertBefore c n l).Nodup := by
  induction l with
  | nil => exact List.nodup_nil
  | cons x l ih =>
    obtain ⟨hx, hl⟩ := List.nodup_cons.mp hl
    obtain ⟨hne, hn'⟩ := not_or.mp (mt List.mem_cons.mpr hn)
    rw [insertBefore]
    split_ifs
    · exact List.nodup_cons.mpr ⟨hn, List.nodup_cons.mpr ⟨hx, hl⟩⟩
    · refine List.nodup_cons.mpr ⟨fun hmem => ?_, ih hl hn'⟩
      rcases (mem_insertBefore c n x l).mp hmem with hmem | ⟨rfl, -⟩
      · exact hx hmem
      · exact hne rfl

/-- The column into which a node was inserted. -/
theorem Holds.column_insertNode (h : s.Holds P) (hn : ¬ P n) :
    (∀ m, m ∈ (s.insertNode n).column n.weight ↔ m ∈ s.column n.weight ∨ m = n) ∧
      ((s.insertNode n).column n.weight).Nodup := by
  have hout : n ∉ s.column n.weight := fun hmem => hn ((h.mem _ _).mp hmem).2
  have hend : (∀ m, m ∈ s.column n.weight ++ [n] ↔ m ∈ s.column n.weight ∨ m = n) ∧
      (s.column n.weight ++ [n]).Nodup := by
    refine ⟨fun m => by simp, List.nodup_append.mpr ⟨h.nodup _, List.nodup_singleton n, ?_⟩⟩
    intro a ha b hb hab
    rw [List.mem_singleton.mp hb] at hab
    exact hout (hab ▸ ha)
  rw [insertNode]
  dsimp only
  rw [Function.update_self]
  cases hc : s.pwmCurr with
  | none => exact hend
  | some c =>
    dsimp only
    split_ifs with hw
    · have hmem : c ∈ s.column n.weight := (h.mem _ _).mpr ⟨hw, h.curr c hc⟩
      refine ⟨fun m => ?_, nodup_insertBefore (h.nodup _) hout⟩
      rw [mem_insertBefore]
      simp [hmem]
    · exact hend

theorem Holds.insertNode (h : s.Holds P) (hn : ¬ P n) :
    (s.insertNode n).Holds fun m => P m ∨ m = n := by
  obtain ⟨hcol, hnodup⟩ := h.column_insertNode hn
  have hother : ∀ i, i ≠ n.weight → (s.insertNode n).column i = s.column i := fun i hi => by
    rw [SRR.insertNode]
    exact Function.update_of_ne hi _ _
  have hlow := h.low
  refine ⟨fun i m => ?_, fun i => ?_, fun q m => ?_, ?_, fun _ => ?_, ?_, ?_, ?_, fun _ => ?_⟩
  · by_cases hi : i = n.weight
    · subst hi
      rw [hcol, h.mem]
      constructor
      · rintro (⟨hw, hP⟩ | rfl)
        · exact ⟨hw, .inl hP⟩
        · exact ⟨rfl, .inr rfl⟩
      · rintro ⟨hw, hP | rfl⟩
        · exact .inl ⟨hw, hP⟩
        · exact .inr rfl
    · rw [hother i hi, h.mem]
      constructor
      · exact fun hm => ⟨hm.1, .inl hm.2⟩
      · rintro ⟨hw, hP | rfl⟩
        · exact ⟨hw, hP⟩
        · exact absurd hw.symm hi
  · by_cases hi : i = n.weight
    · subst hi
      exact hnodup
    · rw [hother i hi]
      exact h.nodup i
  · rw [SRR.insertNode]
    dsimp only
    by_cases hq : q = n.queueid
    · subst hq
      rw [Function.update_self, List.mem_append, h.row, List.mem_singleton]
      constructor
      · rintro (⟨hm, hP⟩ | rfl)
        · exact ⟨hm, .inl hP⟩
        · exact ⟨rfl, .inr rfl⟩
      · rintro ⟨hm, hP | rfl⟩
        · exact .inl ⟨hm, hP⟩
        · exact .inr rfl
    · rw [Function.update_of_ne hq, h.row]
      constructor
      · exact fun hm => ⟨hm.1, .inl hm.2⟩
      · rintro ⟨hm, hP | rfl⟩
        · exact ⟨hm, hP⟩
        · exact absurd hm.symm hq
  · intro m hm
    rw [SRR.insertNode] at hm
    dsimp only at hm
    split_ifs at hm
    · exact .inr (Option.some.inj hm).symm
    · exact .inl (h.curr m hm)
  · rw [SRR.insertNode]
    dsimp only
    split_ifs with hempty
    · exact Option.some_ne_none n
    · by_cases hP : ∃ m, P m
      · exact h.points hP
      · intro hnone
        exact hempty ⟨h.flag.mpr hP, hnone⟩
  · rw [SRR.insertNode]
    exact iff_of_false Bool.false_ne_true (not_not.mpr ⟨n, .inr rfl⟩)
  · rw [SRR.insertNode]
    dsimp only
    split_ifs <;> omega
  · rintro m (hP | rfl)
    · have := h.le m hP
      rw [SRR.insertNode]
      dsimp only
      split_ifs <;> omega
    · rw [SRR.insertNode]
      dsimp only
      split_ifs <;> omega
  · rw [SRR.insertNode]
    dsimp only
    split_ifs with hlt
    · exact ⟨n, .inr rfl, rfl⟩
    · obtain ⟨m, hP, hm⟩ := h.top (by omega)
      exact ⟨m, .inl hP, hm⟩

theorem same_insertNode (s : SRR π) (n : WmNode) : SameQueues s (s.insertNode n) ∧
    (s.insertNode n).ptr = s.ptr ∧ (s.insertNode n).last_queueid = s.last_queueid :=
  ⟨⟨rfl, rfl, rfl, rfl, rfl⟩, rfl, rfl⟩

/-- The nodes of the lower bits of a weight are inserted. -/
theorem Holds.insertLoop (h : s.Holds P) {q w i : ℕ} (hnew : ∀ j < i, ¬ P ⟨q, j⟩) :
    (insertLoop q w i s).Holds (fun m => P m ∨
        m.queueid = q ∧ m.weight < i ∧ w.testBit m.weight = true) ∧
      SameQueues s (SRR.insertLoop q w i s) ∧ (SRR.insertLoop q w i s).ptr = s.ptr ∧
      (SRR.insertLoop q w i s).last_queueid = s.last_queueid := by
  induction i generalizing s P with
  | zero =>
    refine ⟨h.congr fun m => ?_, .refl s, rfl, rfl⟩
    simp
  | succ i ih =>
    rw [SRR.insertLoop]
    by_cases hbit : w.testBit i = true
    · rw [if_pos hbit]
      obtain ⟨hsame, hptr, hlast⟩ := same_insertNode s ⟨q, i⟩
      obtain ⟨h1, h2, h3, h4⟩ := ih (h.insertNode (hnew i (Nat.lt_succ_self i)))
        (fun j hj => not_or.mpr ⟨hnew j (Nat.lt_succ_of_lt hj), fun he =>
          hj.ne (WmNode.mk.inj he).2⟩)
      refine ⟨h1.congr fun m => ?_, hsame.trans h2, h3.trans hptr, h4.trans hlast⟩
      constructor
      · rintro (hP | ⟨rfl, hlt, hm⟩)
        · exact .inl (.inl hP)
        · rcases (Nat.lt_succ_iff_lt_or_eq.mp hlt) with hlt | heq
          · exact .inr ⟨rfl, hlt, hm⟩
          · exact .inl (.inr (by rw [← heq]))
      · rintro ((hP | rfl) | ⟨hq, hlt, hm⟩)
        · exact .inl hP
        · exact .inr ⟨rfl, Nat.lt_succ_self i, hbit⟩
        · exact .inr ⟨hq, Nat.lt_succ_of_lt hlt, hm⟩
    · rw [if_neg hbit]
      obtain ⟨h1, h2, h3, h4⟩ := ih h fun j hj => hnew j (Nat.lt_succ_of_lt hj)
      refine ⟨h1.congr fun m => ?_, h2, h3, h4⟩
      constructor
      · rintro (hP | ⟨hq, hlt, hm⟩)
        · exact .inl hP
        · rcases (Nat.lt_succ_iff_lt_or_eq.mp hlt) with hlt | heq
          · exact .inr ⟨hq, hlt, hm⟩
          · rw [heq] at hm
            exact absurd hm hbit
      · rintro (hP | ⟨hq, hlt, hm⟩)
        · exact .inl hP
        · exact .inr ⟨hq, Nat.lt_succ_of_lt hlt, hm⟩

theorem order_eq (h : s.Holds P) : (s.order : ℤ) = s.currMaxColumn + 1 := by
  have := h.low
  rw [order]
  omega

/-- A queue comes into the matrix. -/
theorem Holds.add_to_WM (h : s.Holds P) (hptr : s.PtrOk) {q w : ℕ} (hq : ∀ n, n.queueid = q → ¬ P n)
    (hw : w ≠ 0) (hmax : w < 2 ^ (s.config.maxColumn + 1)) :
    ∃ t, s.add_to_WM q w = some t ∧
      t.Holds (fun n => P n ∨ n.queueid = q ∧ w.testBit n.weight = true) ∧ t.PtrOk ∧
      SameQueues s t ∧ t.last_queueid = s.last_queueid := by
  obtain ⟨hloop, hsame, hlptr, hlast⟩ :=
    h.insertLoop (w := w) (i := s.config.maxColumn + 1) fun j _ => hq ⟨q, j⟩ rfl
  have hbits : ∀ k, w.testBit k = true → k < s.config.maxColumn + 1 := fun k hk => by
    by_contra hge
    have hle : 2 ^ (s.config.maxColumn + 1) ≤ 2 ^ k :=
      Nat.pow_le_pow_right (by decide) (not_lt.mp hge)
    rw [Nat.testBit_lt_two_pow (hmax.trans_le hle)] at hk
    exact Bool.false_ne_true hk
  obtain ⟨k, hk⟩ := Nat.exists_testBit_of_ne_zero hw
  rw [SRR.add_to_WM, if_neg hw, if_neg (by omega)]
  generalize SRR.insertLoop q w (s.config.maxColumn + 1) s = t at hloop hsame hlptr hlast
  have hnew : t.Holds fun n => P n ∨ n.queueid = q ∧ w.testBit n.weight = true :=
    hloop.congr fun n => or_congr_right (and_congr_right fun _ =>
      ⟨fun hn => ⟨hbits _ hn, hn⟩, And.right⟩)
  refine ⟨_, rfl, hnew.of_eq rfl rfl rfl rfl rfl, ?_, ⟨hsame.config, hsame.bytecnt, hsame.pktcnt,
    hsame.last_size, hsame.srr⟩, hlast⟩
  have hks := hnew.le ⟨q, k⟩ (.inr ⟨rfl, hk⟩)
  have hs := order_eq h
  have ht := order_eq hnew
  have hmono : s.currMaxColumn ≤ t.currMaxColumn := by
    by_cases hz : s.currMaxColumn = -1
    · rw [hz]
      exact hnew.low
    · obtain ⟨n, hP, hn⟩ := h.top hz
      rw [← hn]
      exact hnew.le n (.inl hP)
  left
  change _ + 1 < 2 ^ t.order
  dsimp only
  by_cases hgrow : s.currMaxColumn < t.currMaxColumn ∧ s.currMaxColumn ≥ 0
  · rw [if_pos hgrow, hlptr]
    have hold : s.ptr + 1 < 2 ^ s.order := hptr.resolve_right fun hz => by omega
    have hsplit : t.order = s.order + (t.currMaxColumn - s.currMaxColumn).toNat := by omega
    have hpos : 0 < 2 ^ (t.currMaxColumn - s.currMaxColumn).toNat := Nat.two_pow_pos _
    have hmul : (s.ptr + 1) * 2 ^ (t.currMaxColumn - s.currMaxColumn).toNat <
        2 ^ s.order * 2 ^ (t.currMaxColumn - s.currMaxColumn).toNat :=
      Nat.mul_lt_mul_of_pos_right hold hpos
    have hone : 0 < (s.ptr + 1) * 2 ^ (t.currMaxColumn - s.currMaxColumn).toNat :=
      Nat.mul_pos (Nat.succ_pos _) hpos
    rw [hsplit, Nat.pow_add]
    omega
  · rw [if_neg hgrow, hlptr]
    rcases hptr with hold | ⟨hz, hzero⟩
    · exact hold.trans_le (Nat.pow_le_pow_right (by decide) (by omega))
    · rw [hzero]
      exact Nat.one_lt_two_pow (by omega)

theorem scan_cons {fuel j : ℕ} {n : WmNode} {l : List WmNode} (hj : wssGet s.ptr s.order = some j)
    (hle : j ≤ s.order) (hcol : s.column (s.order - j) = n :: l) :
    scan (fuel + 1) s = some { s with ptr := wssInc s.ptr s.order, pwmCurr := some n } := by
  rw [SRR.scan, hj, Option.bind_some]
  refine (if_neg (not_lt.mpr hle)).trans ?_
  generalize ht : ({ s with ptr := wssInc s.ptr s.order } : SRR π) = t
  have htcol : t.column (t.order - j) = n :: l := ht ▸ hcol
  rw [htcol, ← ht]

theorem scan_nil {fuel j : ℕ} (hj : wssGet s.ptr s.order = some j) (hle : j ≤ s.order)
    (hcol : s.column (s.order - j) = []) :
    scan (fuel + 1) s = scan fuel { s with ptr := wssInc s.ptr s.order } := by
  rw [SRR.scan, hj, Option.bind_some]
  refine (if_neg (not_lt.mpr hle)).trans ?_
  generalize ht : ({ s with ptr := wssInc s.ptr s.order } : SRR π) = t
  have htcol : t.column (t.order - j) = [] := ht ▸ hcol
  rw [htcol, ← ht]

/-- The next column that is not empty, which comes after one step at most. -/
theorem Holds.scan (hmem : ∀ i n, n ∈ s.column i ↔ n.weight = i ∧ P n)
    (htop : s.column (s.order - 1) ≠ []) (horder : s.order ≠ 0)
    (hptr : s.ptr + 1 < 2 ^ s.order) {fuel : ℕ} (hfuel : 2 ≤ fuel) :
    ∃ n p, scan fuel s = some { s with ptr := p, pwmCurr := some n } ∧ P n ∧
      p + 1 < 2 ^ s.order := by
  have hget : ∀ p, p + 1 < 2 ^ s.order → wssGet p s.order = some (pwss p) := fun p hp => by
    have hcast : ((2 ^ s.order : ℕ) : ℤ) = 2 ^ s.order := by push_cast; rfl
    rw [wssGet, if_neg (by omega)]
  obtain ⟨fuel, rfl⟩ : ∃ f, fuel = f + 2 := ⟨fuel - 2, by omega⟩
  obtain ⟨h1, hle⟩ := pwss_le hptr
  cases hcol : s.column (s.order - pwss s.ptr) with
  | cons n l =>
    rw [scan_cons (hget _ hptr) hle hcol]
    exact ⟨n, _, rfl, ((hmem _ n).mp (hcol ▸ List.mem_cons_self)).2, wssInc_lt hptr⟩
  | nil =>
    -- this term is not one, so the next one is
    have hodd : s.ptr % 2 = 1 := by
      by_contra hne
      rw [pwss_even (by omega)] at hcol
      exact htop hcol
    have hinc : wssInc s.ptr s.order = s.ptr + 1 := by
      have hcast : ((2 ^ s.order : ℕ) : ℤ) = 2 ^ s.order := by push_cast; rfl
      obtain ⟨o, ho⟩ : ∃ o, s.order = o + 1 := ⟨s.order - 1, by omega⟩
      have heven : 2 ^ s.order = 2 * 2 ^ o := by rw [ho, Nat.pow_succ, Nat.mul_comm]
      rw [wssInc, if_neg (by omega)]
    have hlt := wssInc_lt hptr
    have hone : pwss (wssInc s.ptr s.order) = 1 := pwss_even (by omega)
    have hget' := hget _ hlt
    rw [hone] at hget'
    rw [scan_nil (hget _ hptr) hle hcol]
    cases hcol' : s.column (s.order - 1) with
    | nil => exact absurd hcol' htop
    | cons n l =>
      rw [scan_cons (s := { s with ptr := wssInc s.ptr s.order }) hget' (show 1 ≤ s.order by omega) hcol']
      exact ⟨n, _, rfl, ((hmem _ n).mp (hcol' ▸ List.mem_cons_self)).2, wssInc_lt hlt⟩

theorem Holds.nextNode (h : s.Holds P) (hc : P c) :
    ∀ n ∈ s.nextNode c, P n ∧ n.weight = c.weight ∧ n ≠ c := by
  intro n hn
  have hmem : c ∈ s.column c.weight := (h.mem _ _).mpr ⟨rfl, hc⟩
  obtain ⟨A, B, hl⟩ := List.append_of_mem hmem
  have hnodup := h.nodup c.weight
  rw [hl] at hnodup
  obtain ⟨-, hnodup, hdisj⟩ := List.nodup_append.mp hnodup
  have hdrop : (s.column c.weight).dropWhile (fun x => decide (x ≠ c)) = c :: B := by
    rw [hl, List.dropWhile_append_of_pos fun x hx =>
      decide_eq_true (hdisj x hx c List.mem_cons_self)]
    exact List.dropWhile_cons_of_neg (by simp)
  have hnext : s.nextNode c = B[0]? := by
    rw [SRR.nextNode, hdrop]
    rfl
  rw [hnext] at hn
  have hB : n ∈ B := List.mem_of_getElem? hn
  obtain ⟨hw, hP⟩ := (h.mem c.weight n).mp (by
    rw [hl]
    exact List.mem_append_right _ (List.mem_cons_of_mem c hB))
  exact ⟨hP, hw, fun he => (List.nodup_cons.mp hnodup).1 (he ▸ hB)⟩

/-- The current node moves on. -/
theorem Holds.getNextNode (h : s.Holds P) (hptr : s.PtrOk) (hP : ∃ n, P n) :
    ∃ t, s.getNextNode = some t ∧ t.Holds P ∧ t.PtrOk ∧ SameQueues s t ∧
      t.last_queueid = s.last_queueid := by
  have hmove : ∀ n p, P n → (p + 1 < 2 ^ s.order ∨ s.order = 0 ∧ p = 0) →
      ({ s with ptr := p, pwmCurr := some n } : SRR π).Holds P ∧
        ({ s with ptr := p, pwmCurr := some n } : SRR π).PtrOk := fun n p hn hp => by
    refine ⟨⟨h.mem, h.nodup, h.row, fun m hm => ?_, fun _ => Option.some_ne_none n, h.flag, h.low,
      h.le, h.top⟩, hp⟩
    obtain rfl := Option.some.inj hm
    exact hn
  rw [SRR.getNextNode]
  by_cases hbytes : s.bytecnt = 0
  · rw [if_pos hbytes]
    exact ⟨s, rfl, h, hptr, .refl s, rfl⟩
  rw [if_neg hbytes]
  obtain ⟨c, hc⟩ := Option.ne_none_iff_exists'.mp (h.points hP)
  rw [hc, Option.bind_some]
  cases hn : s.nextNode c with
  | some n =>
    obtain ⟨h1, h2⟩ := hmove n s.ptr (h.nextNode (h.curr c hc) n hn).1 hptr
    exact ⟨_, rfl, h1, h2, ⟨rfl, rfl, rfl, rfl, rfl⟩, rfl⟩
  | none =>
    have hle := h.le c (h.curr c hc)
    have ho := order_eq h
    obtain ⟨m, hm, hw⟩ := h.top (by omega)
    have htop : s.column (s.order - 1) ≠ [] := List.ne_nil_of_mem
      ((h.mem _ m).mpr ⟨by omega, hm⟩)
    have hp : s.ptr + 1 < 2 ^ s.order := hptr.resolve_right fun hz => by omega
    obtain ⟨n, p, hscan, hPn, hlt⟩ := Holds.scan h.mem htop (by omega) hp
      (Nat.one_lt_two_pow (show s.order ≠ 0 by omega))
    obtain ⟨h1, h2⟩ := hmove n p hPn (.inl hlt)
    dsimp only
    rw [if_neg (by omega)]
    exact ⟨_, hscan, h1, h2, ⟨rfl, rfl, rfl, rfl, rfl⟩, rfl⟩

theorem maxBelow_some {i k : ℕ} (h : s.maxBelow k = some i) :
    i < k ∧ s.column i ≠ [] ∧ ∀ j, i < j → j < k → s.column j = [] := by
  induction k with
  | zero => cases h
  | succ k ih =>
    rw [maxBelow] at h
    split_ifs at h with hk
    · obtain rfl := Option.some.inj h
      exact ⟨Nat.lt_succ_self k, hk, fun j h1 h2 => by omega⟩
    · obtain ⟨h1, h2, h3⟩ := ih h
      refine ⟨Nat.lt_succ_of_lt h1, h2, fun j hij hjk => ?_⟩
      rcases Nat.lt_succ_iff_lt_or_eq.mp hjk with hlt | rfl
      · exact h3 j hij hlt
      · exact not_not.mp hk

theorem maxBelow_none {k : ℕ} (h : s.maxBelow k = none) : ∀ j < k, s.column j = [] := by
  induction k with
  | zero => exact fun j hj => absurd hj (Nat.not_lt_zero j)
  | succ k ih =>
    rw [maxBelow] at h
    split_ifs at h with hk
    intro j hj
    rcases Nat.lt_succ_iff_lt_or_eq.mp hj with hlt | rfl
    · exact ih h j hlt
    · exact not_not.mp hk

/-- The columns without the nodes of a queue. -/
theorem mem_unlinkRow (hmem : ∀ i n, n ∈ s.column i ↔ n.weight = i ∧ P n)
    (hrow : ∀ q n, n ∈ s.row q ↔ n.queueid = q ∧ P n) (q : ℕ) :
    (∀ i n, n ∈ (s.unlinkRow q).column i ↔ n.weight = i ∧ P n ∧ n.queueid ≠ q) ∧
      ∀ r n, n ∈ (s.unlinkRow q).row r ↔ n.queueid = r ∧ P n ∧ n.queueid ≠ q := by
  refine ⟨fun i n => ?_, fun r n => ?_⟩
  · rw [unlinkRow]
    simp only [List.mem_filter, hmem, hrow, decide_eq_true_eq, not_and]
    tauto
  · rw [unlinkRow]
    dsimp only
    by_cases hr : r = q
    · subst hr
      rw [Function.update_self]
      simp
      tauto
    · rw [Function.update_of_ne hr, hrow]
      constructor
      · rintro ⟨rfl, hP⟩
        exact ⟨rfl, hP, hr⟩
      · exact fun hn => ⟨hn.1, hn.2.1⟩

theorem shrinkPtr_lt {ptr d i : ℕ} (hptr : ptr + 1 < 2 ^ (i + 1 + d)) :
    shrinkPtr ptr d i + 1 < 2 ^ (i + 1) := by
  have hpos : 0 < 2 ^ d := Nat.two_pow_pos d
  have htwo : 1 < 2 ^ (i + 1) := Nat.one_lt_two_pow (Nat.succ_ne_zero i)
  have hdiv : (ptr + 1) / 2 ^ d < 2 ^ (i + 1) := by
    rw [Nat.div_lt_iff_lt_mul hpos, ← Nat.pow_add]
    exact hptr
  have hmod := Nat.div_add_mod (ptr + 1) (2 ^ d)
  rw [shrinkPtr]
  split_ifs with h1 h2
  · omega
  · omega
  · have hone : (ptr + 1) / 2 ^ d ≠ 0 := fun hz => by
      rw [hz] at hmod
      omega
    omega

/-- The highest column, the position and the current node when some nodes are left. -/
theorem Holds.lower {Q : WmNode → Prop} (hmem : ∀ i n, n ∈ s.column i ↔ n.weight = i ∧ Q n)
    (hnodup : ∀ i, (s.column i).Nodup) (hrow : ∀ q n, n ∈ s.row q ↔ n.queueid = q ∧ Q n)
    (hcurr : ∀ n ∈ s.pwmCurr, Q n) (hflag : s.wmEmptyFlag = false)
    (hle : ∀ n, Q n → (n.weight : ℤ) ≤ s.currMaxColumn) (hptr : s.ptr + 1 < 2 ^ s.order)
    {i : ℕ} (hb : s.maxBelow s.order = some i) :
    ∃ t, (if (s.lower i).pwmCurr = none then SRR.scan (2 ^ (s.lower i).order) (s.lower i)
        else some (s.lower i)) = some t ∧
      t.Holds Q ∧ t.PtrOk ∧ SameQueues s t ∧ t.last_queueid = s.last_queueid := by
  obtain ⟨hi, hne, habove⟩ := maxBelow_some hb
  obtain ⟨n0, hn0⟩ := List.exists_mem_of_ne_nil _ hne
  obtain ⟨hw0, hQ0⟩ := (hmem i n0).mp hn0
  have ho : (s.order : ℤ) = s.currMaxColumn + 1 := by
    have := hle n0 hQ0
    rw [order]
    omega
  have hmax : ∀ n, Q n → n.weight ≤ i := fun n hn => by
    by_contra hlt
    have hlen := hle n hn
    have hempty := habove n.weight (not_le.mp hlt) (by omega)
    exact List.ne_nil_of_mem ((hmem n.weight n).mpr ⟨rfl, hn⟩) hempty
  have horder : (s.lower i).order = i + 1 := by
    rw [order, SRR.lower]
    dsimp only
    omega
  have hplt : (s.lower i).ptr + 1 < 2 ^ (i + 1) := by
    rw [SRR.lower]
    dsimp only
    by_cases hlt : (i : ℤ) < s.currMaxColumn
    · rw [if_pos hlt]
      apply shrinkPtr_lt
      rw [show i + 1 + (s.currMaxColumn - i).toNat = s.order by omega]
      exact hptr
    · rw [if_neg hlt, show i + 1 = s.order by omega]
      exact hptr
  -- what is left to show when the current node is known
  have hdone : ∀ (t : SRR π) (p : ℕ) (n : WmNode), t = { s.lower i with ptr := p, pwmCurr := some n } →
      Q n → p + 1 < 2 ^ (i + 1) → t.Holds Q ∧ t.PtrOk ∧ SameQueues s t ∧
        t.last_queueid = s.last_queueid := by
    rintro t p n rfl hn hp
    refine ⟨⟨hmem, hnodup, hrow, fun m hm => ?_, fun _ => Option.some_ne_none n, ?_, ?_, ?_, ?_⟩,
      .inl ?_, ⟨rfl, rfl, rfl, rfl, rfl⟩, rfl⟩
    · obtain rfl := Option.some.inj hm
      exact hn
    · change s.wmEmptyFlag = true ↔ _
      rw [hflag]
      exact iff_of_false Bool.false_ne_true (not_not.mpr ⟨n, hn⟩)
    · change (-1 : ℤ) ≤ i
      omega
    · exact fun m hm => Int.ofNat_le.mpr (hmax m hm)
    · exact fun _ => ⟨n0, hQ0, congrArg _ hw0⟩
    · change p + 1 < 2 ^ (s.lower i).order
      rw [horder]
      exact hp
  cases hc : (s.lower i).pwmCurr with
  | some n =>
    rw [if_neg (Option.some_ne_none n)]
    refine ⟨_, rfl, hdone _ (s.lower i).ptr n ?_ (hcurr n hc) hplt⟩
    rw [← hc]
  | none =>
    rw [if_pos rfl]
    obtain ⟨n, p, hscan, hn, hlt⟩ := Holds.scan (s := s.lower i) hmem
      (by rw [horder]; exact hne) (by omega) (by rw [horder]; exact hplt)
      (Nat.one_lt_two_pow (show (s.lower i).order ≠ 0 by omega))
    rw [horder] at hlt
    exact ⟨_, hscan, hdone _ p n rfl hn hlt⟩

/-- A queue leaves the matrix. -/
theorem Holds.del_from_WM (h : s.Holds P) (hptr : s.PtrOk) {q : ℕ}
    (hq : ∃ n, P n ∧ n.queueid = q) :
    ∃ t, s.del_from_WM q = some t ∧ t.Holds (fun n => P n ∧ n.queueid ≠ q) ∧ t.PtrOk ∧
      SameQueues s t ∧ (t.last_queueid = s.last_queueid ∨
        t.last_queueid = none ∧ ∀ n, P n → n.queueid = q) := by
  obtain ⟨m, hm, rfl⟩ := hq
  obtain ⟨c, hc⟩ := Option.ne_none_iff_exists'.mp (h.points ⟨m, hm⟩)
  have hPc := h.curr c hc
  have ho := order_eq h
  have hle := h.le m hm
  have hp : s.ptr + 1 < 2 ^ s.order := hptr.resolve_right fun hz => by omega
  -- the current node after the first lines
  obtain ⟨s1, hs1, hcurr, hcol, hrow, hsame, hlast, hptr1, hmax1, hflag1⟩ :
      ∃ s1 : SRR π, (if c.queueid = m.queueid then { s with pwmCurr := s.nextNode c } else s) = s1 ∧
        (∀ n ∈ s1.pwmCurr, P n ∧ n.queueid ≠ m.queueid) ∧ s1.column = s.column ∧ s1.row = s.row ∧
        SameQueues s s1 ∧ s1.last_queueid = s.last_queueid ∧ s1.ptr = s.ptr ∧
        s1.currMaxColumn = s.currMaxColumn ∧ s1.wmEmptyFlag = s.wmEmptyFlag := by
    split_ifs with hcq
    · refine ⟨_, rfl, fun n hn => ?_, rfl, rfl, ⟨rfl, rfl, rfl, rfl, rfl⟩, rfl, rfl, rfl, rfl⟩
      obtain ⟨hP, hw, hne⟩ := h.nextNode hPc n hn
      refine ⟨hP, fun he => hne ?_⟩
      rw [← hcq] at he
      exact WmNode.ext he hw
    · refine ⟨s, rfl, fun n hn => ?_, rfl, rfl, .refl s, rfl, rfl, rfl, rfl⟩
      obtain rfl := Option.some.inj (hc.symm.trans hn)
      exact ⟨hPc, hcq⟩
  obtain ⟨humem, hurow⟩ := @mem_unlinkRow π s1 P (by rw [hcol]; exact h.mem)
    (by rw [hrow]; exact h.row) m.queueid
  have hunodup : ∀ i, ((s1.unlinkRow m.queueid).column i).Nodup := fun i => by
    rw [unlinkRow, hcol]
    exact (h.nodup i).filter _
  have hucurr : (s1.unlinkRow m.queueid).pwmCurr = s1.pwmCurr := rfl
  have humax : (s1.unlinkRow m.queueid).currMaxColumn = s.currMaxColumn := hmax1
  have huptr : (s1.unlinkRow m.queueid).ptr = s.ptr := hptr1
  have hulast : (s1.unlinkRow m.queueid).last_queueid = s.last_queueid := hlast
  have huflag : (s1.unlinkRow m.queueid).wmEmptyFlag = s.wmEmptyFlag := hflag1
  have husame : SameQueues s (s1.unlinkRow m.queueid) :=
    ⟨hsame.config, hsame.bytecnt, hsame.pktcnt, hsame.last_size, hsame.srr⟩
  rw [SRR.del_from_WM, hc, Option.bind_some, hs1]
  dsimp only
  generalize s1.unlinkRow m.queueid = u at *
  rw [← hucurr] at hcurr
  have huo : u.order = s.order := by rw [order, order, humax]
  cases hb : u.maxBelow u.order with
  | none =>
    have hnone : ∀ n, P n → n.queueid = m.queueid := fun n hn => by
      by_contra hne
      have hlen := h.le n hn
      have hempty := maxBelow_none hb n.weight (by omega)
      exact List.ne_nil_of_mem ((humem n.weight n).mpr ⟨rfl, hn, hne⟩) hempty
    have hfalse : ¬ ∃ n, P n ∧ n.queueid ≠ m.queueid := fun ⟨n, hn, hne⟩ => hne (hnone n hn)
    exact ⟨_, rfl, ⟨humem, hunodup, hurow, fun n hn => absurd hn (Option.not_mem_none n),
      fun hex => absurd hex hfalse, iff_of_true rfl hfalse, le_rfl,
      fun n hn => absurd ⟨n, hn⟩ hfalse, fun hne => absurd rfl hne⟩, .inr ⟨rfl, rfl⟩,
      ⟨husame.config, husame.bytecnt, husame.pktcnt, husame.last_size, husame.srr⟩,
      .inr ⟨rfl, hnone⟩⟩
  | some i =>
    have hempty : ¬ s.wmEmptyFlag = true := fun hf => h.flag.mp hf ⟨m, hm⟩
    obtain ⟨t, ht, hholds, hok, htsame, htlast⟩ := Holds.lower humem hunodup hurow hcurr
      (huflag.trans (Bool.eq_false_of_not_eq_true hempty))
      (fun n hn => by rw [humax]; exact h.le n hn.1) (by rw [huptr, huo]; exact hp) hb
    refine ⟨{ t with flwcnt := t.flwcnt - 1 }, ?_, hholds.of_eq rfl rfl rfl rfl rfl, hok, ?_,
      .inl (htlast.trans hulast)⟩
    · dsimp only
      rw [ht]
      rfl
    · obtain ⟨h1, h2, h3, h4, h5⟩ := husame.trans htsame
      exact ⟨h1, h2, h3, h4, h5⟩

end SRR

end Ns2
